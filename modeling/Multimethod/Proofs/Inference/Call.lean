import Multimethod.Proofs.Dispatch
import Multimethod.Proofs.Inference.Safe

/-!
# Calls are safe

If visits are safe (`World.Visits`), so is typing a call: the rows it records lead where resolution
leads, and the type it answers takes in the answers of all rows (`World.inferCall_safe`).
-/

namespace Multimethod

open Inference TypeTable

/-- A computation followed by another one. -/
theorem Infer.bind_ok {α β : Type} {x : Infer α} {f : α → Infer β} {a : α} {σ τ : State}
    (h : x σ = some (.ok a, τ)) : (x >>= f) σ = f a τ := by
  show (x σ >>= fun p => (ExceptT.bindCont f p.1 : Run (Except TypeError β)) p.2) = _
  rw [h]; rfl

theorem Resolution.methods_singleton {e : ResolutionEntry} {m : MethodId}
    (h : e.target = .method m) : Resolution.methods [e] = [m] := by
  simp [methods, h]

namespace World

variable {W : World} {σ₀ σ σ' τ : State} {D : SpecId → Prop} {visit : SpecId → Infer TypeId}

/-- The tables that resolution reads in a state. -/
abbrev tables (W : World) (σ : State) : Registry :=
  ⟨W.ctx.names, W.ctx.core, σ.hierarchy, W.ctx.methods⟩

section
variable (h : σ.hierarchy.tree = W.tree)
include h

theorem tree_tables : (W.tables σ).tree = W.registry := by
  simp only [Registry.tree, World.registry, h]

theorem resolve_tables (k : Name) (receiver : Option TypeId) (args : List TypeId) (span : Span) :
    (W.tables σ).resolve k receiver args span = W.registry.resolve k receiver args span := by
  rw [← Registry.resolve_tree, tree_tables h]

theorem resolveSend_tables (k : Name) (self : Option TypeId) (args : List TypeId) (span : Span) :
    (W.tables σ).resolveSend k self args span = W.registry.resolveSend k self args span := by
  rw [← Registry.resolveSend_tree, tree_tables h]

theorem understands_tables (t : TypeTable) (k : Name) (a : TypeId) :
    W.ctx.methods.understands σ.hierarchy t k a = W.ctx.methods.understands W.tree t k a := by
  rw [← MethodTable.understands_tree, h]

end

/-- Visits from `σ₀` on are safe: they answer the stored return type, and what was visited is
reached. -/
def Visits (W : World) (σ₀ : State) (visit : SpecId → Infer TypeId) : Prop :=
  ∀ σ s, W.Ok σ → W.Extends σ₀ σ → (∃ i, σ.specs.get? s = some i) →
    W.Safe σ (visit s) fun a σ' => σ'.types.Values W.classes a ∧
      Reached σ' (.specialization s) ∧ σ'.returnType s = a

theorem storedType_eq (σ : State) (s : SpecId) :
    Infer.storedType s σ = some (.ok (σ.returnType s), σ) := rfl

theorem recalls_storedType (h : W.answer = Infer.storedType) (τ : State) : W.Recalls τ :=
  fun s i hs => by rw [h, storedType_eq, State.returnType, hs]; rfl

theorem resolving_safe {α : Type} {x : ExceptT TypeError (StateM TypeTable) α}
    {P : α → TypeTable → Prop} {E : TypeError → TypeTable → Prop} (h : W.Ok σ)
    (hs : Settles σ.types x.run (Ends P E)) (hE : ∀ e t, E e t → ¬ e.IsDivergence) :
    W.Safe σ (Infer.resolving x) fun a σ' => P a σ'.types ∧ σ'.changed = σ.changed ∧
      ∀ τ : State, τ.types.WF → σ'.types ≤ τ.types → Infer.resolving x τ = some (.ok a, τ) := by
  refine (Safe.onTypes h hs).bind fun r σ₁ h₁ _ hr => ?_
  obtain ⟨hr, hc, hrep⟩ := hr
  cases r with
  | error e => exact .throw h₁ fun _ => hE e _ hr
  | ok a => exact .pure h₁ ⟨hr, hc, fun τ hτ hle => (Infer.bind_ok (hrep τ hτ hle)).trans rfl⟩

/-- A specialization that is there is not created again. -/
theorem specialize_of_find? {key : SpecKey} {s : SpecId} (h : τ.specs.find? key = some s) :
    Infer.specialize key τ = some (.ok s, τ) := by
  have hτ := Specializations.demand_of_find? h
  show some (Except.ok (τ.specs.demand key).1, { τ with
    specs := (τ.specs.demand key).2.2
    changed := τ.changed || (τ.specs.demand key).2.1 }) = _
  simp only [hτ, Bool.or_false]

/-- The specialization with a key, which is created if there is none. -/
theorem specialize_safe (h : W.Ok σ) {key : SpecKey} (hk : W.KeyOk σ.types key) :
    W.Safe σ (Infer.specialize key) fun s σ' => σ'.specs.find? key = some s := by
  cases hf : σ.specs.find? key with
  | some s => exact ⟨.ok s, σ, specialize_of_find? hf, h, .refl h, hf, id⟩
  | none =>
    obtain ⟨ss, hd, hsize, hget⟩ := Specializations.demand_of_find?_none hf
    have run : Infer.specialize key σ = some (.ok (σ.specs.demand key).1, { σ with
        specs := (σ.specs.demand key).2.2
        changed := σ.changed || (σ.specs.demand key).2.1 }) := rfl
    rw [hd] at run
    simp only [Bool.or_true] at run
    set σ' : State := { σ with specs := ss, changed := true } with hσ'
    have old {s : SpecId} {i : Specialization} (hi : σ.specs.get? s = some i) :
        ss.get? s = some i := by
      rw [hget, if_neg, hi]
      rintro rfl
      exact Nat.lt_irrefl _ (Specializations.lt_size hi)
    have new {s : SpecId} {j : Specialization} (hj : ss.get? s = some j) :
        j = { key } ∨ σ.specs.get? s = some j := by
      rw [hget] at hj
      split at hj
      · cases hj; exact .inl rfl
      · exact .inr hj
    have hg : σ.Grows σ' :=
      { types := le_refl _
        ivars := h.grows_refl.ivars
        specs := fun s i hi => ⟨i, old hi, rfl, .refl (h.returns s i hi).1⟩ }
    have he : W.Extends σ σ' :=
      { toGrows := hg
        stage := fun s i j hi hj => by cases (old hi).symm.trans hj; rfl
        done := fun s i hi _ _ => old hi
        fresh := fun s j hs hj => by
          rcases new hj with rfl | hj
          · rfl
          · simp [hs] at hj
        pass := rfl
        changed := fun _ => rfl
        same := fun hc => by cases hc
        weight_le := h.weight_le hg
        weight_lt := fun _ => .inr (h.weight_lt_of_size hg (by simp [hσ', hsize])) }
    have done (s j) (hj : ss.get? s = some j) (_ : j.stage = .idle)
        (hd : j.donePass = some σ.pass) : σ.specs.get? s = some j := by
      rcases new hj with rfl | hj
      · cases hd
      · exact hj
    have hok : W.Ok σ' := h.next he h.types h.tree h.ivars
      (fun s j hj => by
        rcases new hj with rfl | hj
        · exact hk
        · exact h.keys s j hj)
      (fun s j hj => by
        rcases new hj with rfl | hj
        · exact Values.never h.types
        · exact h.returns s j hj)
      (fun s j p hj hp => by
        rcases new hj with rfl | hj
        · cases hp
        · exact h.recent s j p hj hp)
      (fun s j hj => by
        rcases new hj with rfl | hj
        · exact .inl rfl
        · exact .inr ⟨j, hj, rfl, rfl⟩) done
    have hfind : σ'.specs.find? key = some ⟨σ.specs.size⟩ :=
      Specializations.find?_eq_some.2 ⟨{ key }, by simp [hσ', hget], rfl⟩
    exact ⟨.ok ⟨σ.specs.size⟩, σ', run, hok, he, hfind,
      fun hc s j hj hs hd => he.reachedBy (hc s j (done s j hj hs hd) hs hd)⟩

/-- An entry of a resolution is typed: the callee is the one that resolution picks, and `b` is what
it answers. -/
structure EntryOk (W : World) (k : Name) (receiver : Option TypeId) (args : List TypeId)
    (callee : Callee) (b : TypeId) (σ : State) : Prop where
  leads : W.registry.Leads σ.types σ.specs k receiver args callee
  reached : Reached σ callee
  values : σ.types.Values W.classes b
  answers : σ.changed = false → Answers σ callee b

theorem Answers.later {callee : Callee} {b : TypeId} (h : Answers σ callee b)
    (hb : σ.types.Has b) (hl : Later σ τ D) (hD : ∀ s, callee = .specialization s → D s) :
    Answers τ callee b := by
  cases callee with
  | specialization s =>
    obtain ⟨i, hi, hib⟩ := h
    have := hl.returns s (hD s rfl)
    rw [hi, Option.map_some] at this
    obtain ⟨j, hj, hij⟩ := Option.map_eq_some_iff.1 this
    exact ⟨j, hj, hij.trans hib⟩
  | allocate c => exact (hb.shape_eq hl.types).trans h
  | new c i => exact (hb.shape_eq hl.types).trans h

theorem Answers.extend {callee : Callee} {b : TypeId} (h : Answers σ callee b)
    (hb : σ.types.Has b) (he : W.Extends σ σ') (h' : W.Ok σ') (hc : σ'.changed = false) :
    Answers σ' callee b :=
  h.later hb (he.later hc _ (h'.later_refl fun _ => True)) fun _ _ => trivial

section
variable (hv : W.Visits σ₀ visit) (h : W.Ok σ) (h₀ : W.Extends σ₀ σ) {args : List TypeId}
  (hargs : ∀ a ∈ args, (σ.types.shape a).IsValue W.classes) (span : Span)

theorem values_mono {t u : TypeTable} (hle : t ≤ u)
    (hargs : ∀ a ∈ args, (t.shape a).IsValue W.classes) :
    ∀ a ∈ args, (u.shape a).IsValue W.classes := fun a ha => Values.isValue_mono hle (hargs a ha)

theorem splits_of_shape {t : TypeTable} {a : TypeId} (ha : (t.shape a).IsValue W.classes) :
    Registry.Splits t a := ⟨(Values.of_shape ha).1, (Values.of_shape ha).splits⟩

omit hargs in
/-- The specialization that an entry of a resolution leads to has a key of values. -/
theorem keyOk_of_enters {t : TypeTable} {k : Name} {receiver : Option TypeId}
    {e : ResolutionEntry} (hargs : ∀ a ∈ args, (t.shape a).IsValue W.classes)
    (hr : ∀ a ∈ receiver, (t.shape a).IsValue W.classes)
    (he : W.registry.Enters k receiver args e t) {m : MethodId} (hm : e.target = .method m) :
    W.KeyOk t ⟨m, receiver, args⟩ := by
  obtain ⟨-, -, -, u, -, -, hsuits⟩ := he
  rw [hm] at hsuits
  obtain ⟨md, hmd, harity⟩ := (Option.any_eq_true _ _).1 hsuits.2.1
  exact ⟨⟨md, hmd, harity⟩, hr, hargs⟩

omit hargs in
/-- The class of which an entry of a resolution makes an object exists. -/
theorem class_lt_of_enters {t : TypeTable} {k : Name} {receiver : Option TypeId}
    {e : ResolutionEntry} (hr : ∀ a ∈ receiver, (t.shape a).IsValue W.classes)
    (he : W.registry.Enters k receiver args e t) {c : ClassId}
    (hc : e.target = .allocate c ∨ e.target = .new c) : c.index < W.classes := by
  obtain ⟨-, -, -, u, -, hule, hsuits⟩ := he
  obtain ⟨o, ho, hs⟩ : ∃ o, receiver = some o ∧ u.shape o = .classObject c := by
    rcases hc with hc | hc <;> rw [hc] at hsuits <;> exact hsuits
  have := hr o ho
  rw [(has_of_shape (a := o) (by simp [hs])).shape_eq hule, hs] at this
  exact this

/-- The last part of making an object of type `o`, with the tables that do not change. -/
def creating (W : World) (visit : SpecId → Infer TypeId) (c : ClassId) (args : List TypeId)
    (span : Span) (defined : Bool) (o : TypeId) : Infer (Callee × TypeId) :=
  if !defined && args.isEmpty then pure (.new c none, o) else do
    let resolution ← Infer.resolving
      (W.registry.resolve W.ctx.core.initializer (some o) args span)
    let initializer ← Infer.visitInitializers visit o args none resolution.methods
    return (.new c initializer, o)

theorem creating_eq {visit : SpecId → Infer TypeId} {σ : State} (ht : σ.hierarchy.tree = W.tree)
    (c : ClassId) {o : TypeId} {defined : Bool}
    (hd : W.ctx.methods.understands W.tree σ.types W.ctx.core.initializer o = defined) :
    (do
      let g ← Infer.registry W.ctx
      let defined := g.methods.understands g.hierarchy (← MonadState.get).types
        W.ctx.core.initializer o
      if !defined && args.isEmpty then return (Callee.new c none, o)
      else
        let resolution ← Infer.resolving
          (g.resolve W.ctx.core.initializer (some o) args span)
        let initializer ← Infer.visitInitializers visit o args none resolution.methods
        return (Callee.new c initializer, o) : Infer (Callee × TypeId)) σ =
      creating W visit c args span defined o σ := by
  show (if !(W.tables σ).methods.understands (W.tables σ).hierarchy σ.types
      W.ctx.core.initializer o && args.isEmpty then _ else _ : Infer (Callee × TypeId)) σ = _
  rw [show (W.tables σ).methods.understands (W.tables σ).hierarchy σ.types
    W.ctx.core.initializer o = defined from (understands_tables ht _ _ _).trans hd]
  simp only [creating, ← resolve_tables ht]

/-- Resolution of the initializer of an object finds one method, as the object is no class object. -/
theorem resolves_initializer {t : TypeTable} {o : TypeId} {c : ClassId} {es : Resolution}
    (hc : c.index < W.classes) (ho : t.shape o = .exact c)
    (hargs : ∀ a ∈ args, (t.shape a).IsValue W.classes)
    (hes : W.registry.Resolves t W.ctx.core.initializer [(some o, args)] es) :
    ∃ m, es.methods = [m] ∧ W.KeyOk t ⟨m, some o, args⟩ ∧
      W.registry.Picks t W.ctx.core.initializer (some o) args (.method m) := by
  obtain ⟨e, rfl, he⟩ : ∃ e, es = [e] ∧
      W.registry.Enters W.ctx.core.initializer (some o) args e t := by
    cases hes with
    | cons he hnil => cases hnil; exact ⟨_, rfl, he⟩
  obtain ⟨-, -, hpick, u, -, hule, hsuits⟩ := id he
  have no_object {c' : ClassId} (hr : ∃ r, some o = some r ∧ u.shape r = .classObject c') :
      False := by
    obtain ⟨r, hr, hs⟩ := hr
    cases hr
    have := (has_of_shape (a := o) (by simp [hs])).shape_eq hule
    rw [hs, ho] at this
    cases this
  obtain ⟨m, hm⟩ : ∃ m, e.target = .method m := by
    cases ht : e.target with
    | method m => exact ⟨m, rfl⟩
    | allocate c' => rw [ht] at hsuits; exact (no_object hsuits).elim
    | new c' => rw [ht] at hsuits; exact (no_object hsuits).elim
  refine ⟨m, Resolution.methods_singleton hm, keyOk_of_enters hargs (fun a ha => ?_) he hm,
    hm ▸ hpick⟩
  cases ha
  rw [ho]
  exact hc

include hv h h₀ hargs

/-- Looking for the initializer of an object, and visiting it. -/
theorem initialize_safe {c : ClassId} {o : TypeId} (hc : c.index < W.classes)
    (ho : σ.types.shape o = .exact c) :
    W.Safe σ (do
      let resolution ← Infer.resolving
        (W.registry.resolve W.ctx.core.initializer (some o) args span)
      Infer.visitInitializers visit o args none resolution.methods) fun i σ' =>
      (∃ m s, i = some s ∧ σ'.specs.find? ⟨m, some o, args⟩ = some s ∧
        W.registry.Picks σ'.types W.ctx.core.initializer (some o) args (.method m) ∧
        Reached σ' (.specialization s)) ∧
      ∀ τ D, Later σ' τ D → W.Recalls τ → (do
        let resolution ← Infer.resolving
          (W.registry.resolve W.ctx.core.initializer (some o) args span)
        Infer.visitInitializers W.answer o args none resolution.methods : Infer _) τ =
          some (.ok i, τ) := by
  have hobj : (σ.types.shape o).IsValue W.classes := by rw [ho]; exact hc
  have hhas : σ.types.Has o := (Values.of_shape hobj).1
  have hsplit : ∀ a ∈ some o, Registry.Splits σ.types a := fun a ha => by
    cases ha; exact splits_of_shape hobj
  refine (resolving_safe h (Registry.resolve_settles h.types h.described
    W.ctx.core.initializer span hsplit fun a ha => splits_of_shape (hargs a ha))
    fun e t he => he.2).bind fun es σ₁ h₁ he₁ ⟨hes, _, hrep⟩ => ?_
  -- There is one combination.
  rw [Registry.combinations_of_isMember (fun a ha => by cases ha; exact hobj.isMember)
    fun a ha => (hargs a ha).isMember] at hes
  obtain ⟨m, hm, hkey, hpick⟩ := resolves_initializer hc ((hhas.shape_eq he₁.types).trans ho)
    (values_mono he₁.types hargs) hes
  rw [hm]
  simp only [Infer.visitInitializers]
  refine (specialize_safe h₁ hkey).bind fun s σ₂ h₂ he₂ hf => ?_
  obtain ⟨i, hi, -⟩ := Specializations.find?_eq_some.1 hf
  refine (hv σ₂ s h₂ (h₀.trans (he₁.trans he₂)) ⟨i, hi⟩).bind fun a σ₃ h₃ he₃ ⟨_, hreach, _⟩ => ?_
  have hf₃ := he₃.keeps _ _ hf
  have hle := le_trans he₂.types he₃.types
  refine .pure h₃ ⟨⟨m, s, rfl, hf₃, hpick.mono hle, hreach⟩,
    fun τ D hl hrec => ?_⟩
  have hfτ := (hl.find?_eq _).trans hf₃
  obtain ⟨j, hj, -⟩ := Specializations.find?_eq_some.1 hfτ
  rw [Infer.bind_ok (hrep τ hl.wf (le_trans hle hl.types)), hm]
  simp only [Infer.visitInitializers]
  rw [Infer.bind_ok (specialize_of_find? hfτ), Infer.bind_ok (hrec s j hj)]
  rfl

/-- Making an object: an initializer is visited if there is one. -/
theorem inferCreation_safe {k : Name} {receiver : Option TypeId} {c : ClassId}
    (hc : c.index < W.classes) (hp : W.registry.Picks σ.types k receiver args (.new c)) :
    W.Safe σ (Infer.inferCreation W.ctx visit c args span) fun p σ' =>
      W.EntryOk k receiver args p.1 p.2 σ' ∧ ∀ τ D, Later σ' τ D → W.Recalls τ →
        Infer.inferCreation W.ctx W.answer c args span τ = some (.ok p, τ) := by
  refine (Safe.onTypes h (exact_settles h.types c)).bind fun o σ₁ h₁ he₁ ⟨ho, _, hrep⟩ => ?_
  have hval : σ₁.types.Values W.classes o := Values.of_shape (by rw [ho.2]; exact hc)
  set defined := W.ctx.methods.understands W.tree σ₁.types W.ctx.core.initializer o with hdef
  -- A later state finds the same object type and the same initializers.
  have again {σ' : State} (h' : W.Ok σ') (he' : W.Extends σ₁ σ') {τ : State} {D} (hl : Later σ' τ D)
      {p : Callee × TypeId} (hp : creating W W.answer c args span defined o τ = some (.ok p, τ)) :
      Infer.inferCreation W.ctx W.answer c args span τ = some (.ok p, τ) := by
    have hle := le_trans he'.types hl.types
    unfold Infer.inferCreation
    rw [Infer.bind_ok (hrep τ hl.wf hle)]
    refine (creating_eq span (by rw [hl.hierarchy, h'.tree]) c ?_).trans hp
    rw [hdef, W.ctx.methods.understands_mono W.tree h₁.types hval.1 hle]
  refine Safe.congr (creating_eq span h₁.tree c hdef.symm) ?_
  simp only [creating] at again ⊢
  by_cases hnone : (!defined && args.isEmpty) = true
  · simp only [if_pos hnone] at again ⊢
    simp only [Bool.and_eq_true, Bool.not_eq_true', List.isEmpty_iff] at hnone
    exact .pure h₁ ⟨⟨⟨hp.mono he₁.types, o, ho.2, hnone.2, hnone.1⟩, trivial, hval, fun _ => ho.2⟩,
      fun τ D hl _ => again h₁ (.refl h₁) hl rfl⟩
  · simp only [if_neg hnone] at again ⊢
    rw [← bind_assoc]
    have hi := initialize_safe hv h₁ (h₀.trans he₁) (values_mono he₁.types hargs) span hc ho.2
    refine hi.bind fun i σ₂ h₂ he₂ ⟨⟨m, s, his, hf, hpick, hreach⟩, hrep₂⟩ => ?_
    subst his
    have ho₂ := (ho.1.shape_eq he₂.types).trans ho.2
    have hdef₂ := W.ctx.methods.understands_mono W.tree h₁.types hval.1 he₂.types
      W.ctx.core.initializer
    refine .pure h₂ ⟨⟨⟨hp.mono (le_trans he₁.types he₂.types), o, ho₂, ?_, m, hpick, hf⟩, hreach,
      hval.mono h₁.types he₂.types, fun _ => ho₂⟩,
      fun τ D hl hrec => again h₂ he₂ hl ?_⟩
    · simp only [Bool.and_eq_true, Bool.not_eq_true', List.isEmpty_iff, not_and] at hnone
      cases hd : defined with
      | false => exact .inl (hnone hd)
      | true => exact .inr (hdef₂.trans (hdef.symm.trans hd))
    · rw [← bind_assoc, Infer.bind_ok (hrep₂ τ D hl hrec)]
      rfl

omit hargs in
/-- Typing an entry of a resolution. -/
theorem inferEntry_safe {k : Name} {receiver : Option TypeId} {e : ResolutionEntry}
    (hargs : ∀ a ∈ args, (σ.types.shape a).IsValue W.classes)
    (hr : ∀ a ∈ receiver, (σ.types.shape a).IsValue W.classes)
    (he : W.registry.Enters k receiver args e σ.types) :
    W.Safe σ (Infer.inferEntry W.ctx visit span e) fun p σ' =>
      W.EntryOk k receiver args p.1 p.2 σ' ∧ (σ'.changed = false → ∀ τ D, Later σ' τ D →
        (∀ s, p.1 = .specialization s → D s) → W.Recalls τ →
        Infer.inferEntry W.ctx W.answer span e τ = some (.ok p, τ)) := by
  obtain ⟨r, c, target⟩ := e
  obtain ⟨rfl, rfl, hpick, -⟩ := id he
  cases target with
  | method m =>
    refine (specialize_safe h (keyOk_of_enters hargs hr he rfl)).bind fun s σ₁ h₁ he₁ hf => ?_
    obtain ⟨i, hi, -⟩ := Specializations.find?_eq_some.1 hf
    refine (hv σ₁ s h₁ (h₀.trans he₁) ⟨i, hi⟩).bind fun a σ₂ h₂ he₂ hvisited => ?_
    obtain ⟨hval, hreach, hret⟩ := hvisited
    have hf₂ := he₂.keeps _ _ hf
    obtain ⟨j, hj, -⟩ := Specializations.find?_eq_some.1 hf₂
    refine .pure h₂ ⟨⟨⟨m, hpick.mono (le_trans he₁.types he₂.types), hf₂⟩, hreach, hval,
      fun _ => ⟨j, hj, ?_⟩⟩, fun hc τ D hl hD hrec => ?_⟩
    · rw [← hret, State.returnType, hj]; rfl
    · have hfτ := (hl.find?_eq _).trans hf₂
      obtain ⟨l, hl', -⟩ := Specializations.find?_eq_some.1 hfτ
      have hl'' : l.returnType = a := by
        rw [← hret, ← hl.returnType_eq (hD s rfl), State.returnType, hl']; rfl
      simp only [Infer.inferEntry]
      rw [Infer.bind_ok (specialize_of_find? hfτ), Infer.bind_ok (hrec s l hl'), hl'']
      rfl
  | allocate c' =>
    refine (Safe.onTypes h (exact_settles h.types c')).bind fun o σ₁ h₁ he₁ hexact => ?_
    obtain ⟨ho, -, hrep⟩ := hexact
    have hval : σ₁.types.Values W.classes o :=
      Values.of_shape (by rw [ho.2]; exact class_lt_of_enters hr he (.inl rfl))
    refine .pure h₁ ⟨⟨hpick.mono he₁.types, trivial, hval, fun _ => ho.2⟩, fun _ τ D hl _ _ => ?_⟩
    simp only [Infer.inferEntry]
    rw [Infer.bind_ok (hrep τ hl.wf hl.types)]
    rfl
  | new c' =>
    exact (inferCreation_safe hv h h₀ hargs span (class_lt_of_enters hr he (.inr rfl)) hpick).mono
      fun p σ' _ _ hp => ⟨hp.1, fun _ τ D hl _ hrec => hp.2 τ D hl hrec⟩

end

/-- The rows of a table for a call `k` are those of some combinations, and lead to what is
reached. -/
def TableOk (W : World) (σ : State) (k : Name) (P : Option TypeId × List TypeId → Prop)
    (table : DispatchTable) : Prop :=
  ∀ r c callee, table.find? r c = some callee →
    W.RowOk σ k r c callee ∧ Reached σ callee ∧ P (r, c)

theorem TableOk.extend {k : Name} {P : Option TypeId × List TypeId → Prop} {table : DispatchTable}
    (h : W.TableOk σ k P table) (hσ : W.Ok σ) (he : W.Extends σ σ') : W.TableOk σ' k P table :=
  fun r c callee hf =>
    have hrow := h r c callee hf
    ⟨hrow.1.mono hσ.types he.types he.keeps, he.reached hrow.2.1, hrow.2.2⟩

/-- Inserting a row. One that it replaces has the same callee, so all rows are still there. -/
theorem TableOk.insert {k : Name} {P : Option TypeId × List TypeId → Prop} {table : DispatchTable}
    (h : W.TableOk σ k P table) (H : σ.types.WF) (row : Row)
    (hrow : W.RowOk σ k row.receiver row.args row.target) (hr : Reached σ row.target)
    (hP : P (row.receiver, row.args)) :
    W.TableOk σ k P (table.insert row) ∧
      ∀ r c callee, table.find? r c = some callee → (table.insert row).find? r c = some callee := by
  refine ⟨fun r c callee hf => ?_, fun r c callee hf => ?_⟩
  · rw [DispatchTable.find?_insert] at hf
    split at hf
    · rename_i hrc
      obtain ⟨rfl, rfl⟩ := hrc
      cases hf
      exact ⟨hrow, hr, hP⟩
    · exact h r c callee hf
  · rw [DispatchTable.find?_insert]
    split
    · rename_i hrc
      obtain ⟨rfl, rfl⟩ := hrc
      exact congrArg some (hrow.leads.unique H (h _ _ _ hf).1.leads)
    · exact hf

/-- A combination has a row, and its answer is a part of `a`. -/
def Covered (σ : State) (table : DispatchTable) (a : TypeId)
    (c : Option TypeId × List TypeId) : Prop :=
  ∃ callee, table.find? c.1 c.2 = some callee ∧
    (σ.changed = false → ∃ b, Answers σ callee b ∧ σ.types.Inside b a)

/-- Typing the entries of a resolution, one after the other. -/
theorem inferEntries_safe (hv : W.Visits σ₀ visit) {k : Name} (span : Span)
    {cs : List (Option TypeId × List TypeId)} {es : Resolution} {a : TypeId}
    {table : DispatchTable} (h : W.Ok σ) (h₀ : W.Extends σ₀ σ)
    (hcs : ∀ c ∈ cs, (∀ r ∈ c.1, (σ.types.shape r).IsValue W.classes) ∧
      ∀ b ∈ c.2, (σ.types.shape b).IsValue W.classes)
    {P : Option TypeId × List TypeId → Prop} (hP : ∀ c ∈ cs, P c)
    (hes : W.registry.Resolves σ.types k cs es) (ha : σ.types.Values W.classes a)
    (ht : W.TableOk σ k P table) :
    W.Safe σ (Infer.inferEntries W.ctx visit span a table es) fun p σ' =>
      σ'.types.Values W.classes p.1 ∧ σ'.types.Inside a p.1 ∧ W.TableOk σ' k P p.2 ∧
      (∀ r c callee, table.find? r c = some callee → p.2.find? r c = some callee) ∧
      (∀ c ∈ cs, Covered σ' p.2 p.1 c) ∧ (σ'.changed = false → ∀ τ D, Later σ' τ D →
        (∀ r c s, p.2.find? r c = some (.specialization s) → D s) → W.Recalls τ →
        Infer.inferEntries W.ctx W.answer span a table es τ = some (.ok p, τ)) := by
  induction es generalizing σ cs a table with
  | nil =>
    cases hes
    exact .pure h ⟨ha, .refl ha.1, ht, fun _ _ _ hf => hf, fun c hc => by simp at hc,
      fun _ τ D _ _ _ => rfl⟩
  | cons e es ih =>
    obtain ⟨⟨r, c⟩, cs, rfl, he, hes⟩ : ∃ c cs', cs = c :: cs' ∧
        W.registry.Enters k c.1 c.2 e σ.types ∧ W.registry.Resolves σ.types k cs' es := by
      cases hes with
      | cons he hes => exact ⟨_, _, rfl, he, hes⟩
    obtain ⟨hr, hc⟩ := hcs _ (.head _)
    simp only [Infer.inferEntries]
    refine (inferEntry_safe hv h h₀ span hc hr he).bind fun ⟨callee, b⟩ σ₁ h₁ he₁ ⟨hp, hrep⟩ => ?_
    refine (Safe.onTypes h₁ (union_joins h₁.types (ha.1.mono he₁.types) hp.values.1)).bind
      fun d σ₂ h₂ he₂ ⟨hd, _, hrepd⟩ => ?_
    have hle₁₂ := le_trans he₁.types he₂.types
    have hdv : σ₂.types.Values W.classes d := Values.of_joins hd (ha.mono h.types hle₁₂)
      (hp.values.mono h₁.types he₂.types)
    have hrow : e.receiver = r ∧ e.args = c := ⟨he.1, he.2.1⟩
    have hrow₂ : W.RowOk σ₂ k r c callee := {
      leads := hp.leads.mono h₁.types he₂.types he₂.keeps
      receiver := fun b hb => Values.isValue_mono hle₁₂ (hr b hb)
      args := values_mono hle₁₂ hc }
    obtain ⟨ht₂, keep⟩ := (ht.extend h (he₁.trans he₂)).insert h₂.types
      ⟨e.receiver, e.args, callee⟩ (by rw [hrow.1, hrow.2]; exact hrow₂)
      (he₂.reached hp.reached) (by rw [hrow.1, hrow.2]; exact hP _ (.head _))
    refine (ih h₂ (h₀.trans (he₁.trans he₂)) (fun c' hc' => ?_) (fun c' hc' => hP c' (.tail _ hc'))
      (hes.mono hle₁₂) hdv ht₂).mono ?_
    · obtain ⟨hr', hc'⟩ := hcs _ (.tail _ hc')
      exact ⟨fun a ha => Values.isValue_mono hle₁₂ (hr' a ha), values_mono hle₁₂ hc'⟩
    · rintro ⟨a', table'⟩ σ' h' he' ⟨hval, hin, hok, hkeep, hcov, hrun⟩
      have hfind : table'.find? r c = some callee := by
        refine hkeep r c callee ?_
        rw [DispatchTable.find?_insert, if_pos ⟨hrow.1.symm, hrow.2.symm⟩]
      refine ⟨hval, (hd.left.mono he'.types).trans hin, hok,
        fun r' c' callee' hf => hkeep _ _ _ (keep _ _ _ hf), fun c' hc' => ?_,
        fun hc τ D hl hD hrec => ?_⟩
      · rcases List.mem_cons.1 hc' with rfl | hc'
        · refine ⟨callee, hfind, fun hc => ⟨b, ?_, (hd.right.mono he'.types).trans hin⟩⟩
          have h₂c := he'.unchanged hc
          exact ((hp.answers (he₂.unchanged h₂c)).extend hp.values.1 he₂ h₂ h₂c).extend
            (hp.values.1.mono he₂.types) he' h' hc
        · exact hcov c' hc'
      · have h₂c := he'.unchanged hc
        have hl₂ := he'.later hc D hl
        have hl₁ := he₂.later h₂c D hl₂
        rw [Infer.bind_ok (hrep (he₂.unchanged h₂c) τ D hl₁
          (fun s hs => hD r c s (by rw [hfind]; exact congrArg some hs)) hrec)]
        rw [show Infer.union a b = Infer.onTypes (TypeTable.union a b) from rfl,
          Infer.bind_ok (hrepd τ hl₂.wf hl₂.types)]
        exact hrun hc τ D hl hD hrec

theorem combinations_values {receiver : Option TypeId} {args : List TypeId} {t : TypeTable}
    (hr : ∀ a ∈ receiver, t.Values W.classes a) (ha : ∀ a ∈ args, t.Values W.classes a)
    {c : Option TypeId × List TypeId} (hc : c ∈ Registry.combinations t receiver args) :
    (∀ r ∈ c.1, (t.shape r).IsValue W.classes) ∧
      ∀ b ∈ c.2, (t.shape b).IsValue W.classes := by
  obtain ⟨r, c⟩ := c
  obtain ⟨hcr, hca⟩ := Registry.mem_combinations.1 hc
  constructor
  · intro m hm
    cases receiver with
    | none =>
      simp only [Registry.receivers, List.mem_singleton] at hcr
      simp [hcr] at hm
    | some a =>
      obtain ⟨n, hn, hnr⟩ := List.mem_map.1 hcr
      simp only [← hnr, Option.mem_def, Option.some.injEq] at hm
      exact hm ▸ (hr a rfl).2 n hn
  · clear hc hcr
    induction hca with
    | nil => simp
    | @cons m a c as hm _ ih =>
      intro b hb
      rcases List.mem_cons.1 hb with rfl | hb
      · exact (ha a (.head _)).2 b hm
      · exact ih (fun a h => ha a (.tail _ h)) b hb

/-- Resolving a call, with or without a receiver. -/
def resolveCall (g : Registry) (receiver : Option TypeId) (self : TypeId) (k : Name)
    (args : List TypeId) (span : Span) : ExceptT TypeError (StateM TypeTable) Resolution :=
  match receiver with
  | some a => g.resolve k (some a) args span
  | none => g.resolveSend k (some self) args span

/-- The receiver that a call is resolved for. -/
def effective (W : World) (t : TypeTable) (receiver : Option TypeId) (self : TypeId) (k : Name) :
    Option TypeId :=
  match receiver with
  | some a => some a
  | none => (some self).filter (W.registry.goesToSelf t k)

section
variable {t u : TypeTable} {receiver : Option TypeId} {self : TypeId} {k : Name}
  {args : List TypeId} (hr : ∀ a ∈ receiver, t.Values W.classes a)
  (hs : t.Values W.classes self)
include hr hs

theorem effective_values {a : TypeId} (h : a ∈ W.effective t receiver self k) :
    t.Values W.classes a := by
  cases receiver with
  | some b => exact hr a h
  | none =>
    have h' : (some self).filter (W.registry.goesToSelf t k) = some a := h
    cases (Option.filter_eq_some_iff.1 h').1
    exact hs

omit hr in
theorem effective_mono (H : t.WF) (hle : t ≤ u) :
    W.effective u receiver self k = W.effective t receiver self k := by
  cases receiver with
  | some a => rfl
  | none => simp only [effective, Option.filter_some, Registry.goesToSelf_mono H hle hs.1]

theorem resolveCall_settles (H : t.WF) (D : W.registry.Described t)
    (ha : ∀ a ∈ args, t.Values W.classes a) (span : Span) :
    Settles t (resolveCall W.registry receiver self k args span).run
      (Ends (fun es u => W.registry.Resolves u k
          (Registry.combinations t (W.effective t receiver self k) args) es)
        (W.registry.Complains k
          (Registry.combinations t (W.effective t receiver self k) args))) := by
  have splits {a : TypeId} (ha : t.Values W.classes a) : Registry.Splits t a := ⟨ha.1, ha.splits⟩
  cases receiver with
  | some a =>
    exact Registry.resolve_settles H D k span (fun b hb => splits (hr b hb))
      fun b hb => splits (ha b hb)
  | none => exact Registry.resolveSend_settles H D k span (splits hs) fun b hb => splits (ha b hb)

end

theorem inferCall_eq (h : σ.hierarchy.tree = W.tree) (visit : SpecId → Infer TypeId)
    (receiver : Option TypeId) (self : TypeId) (k : Name) (args : List TypeId) (span : Span) :
    Infer.inferCall W.ctx visit receiver self k args span σ = (do
      let resolution ← Infer.resolving (resolveCall W.registry receiver self k args span)
      Infer.inferEntries W.ctx visit span .never .empty resolution : Infer _) σ := by
  have htab : Infer.registry W.ctx σ = some (.ok (W.tables σ), σ) := rfl
  unfold Infer.inferCall
  rw [Infer.bind_ok htab]
  cases receiver with
  | some a =>
    simp only [resolveCall]
    rw [resolve_tables h]
  | none =>
    simp only [resolveCall]
    rw [resolveSend_tables h]

/-- Typing a call: every combination has a row, which leads where resolution leads, and the type
of the call takes in what the rows answer. -/
theorem inferCall_safe (hv : W.Visits σ₀ visit) (h : W.Ok σ) (h₀ : W.Extends σ₀ σ)
    {receiver : Option TypeId} {self : TypeId} (k : Name) {args : List TypeId} (span : Span)
    (hr : ∀ a ∈ receiver, σ.types.Values W.classes a) (hs : σ.types.Values W.classes self)
    (ha : ∀ a ∈ args, σ.types.Values W.classes a) :
    W.Safe σ (Infer.inferCall W.ctx visit receiver self k args span) fun p σ' =>
      σ'.types.Values W.classes p.1 ∧ W.TableOk σ' k (· ∈ Registry.combinations σ'.types
        (W.effective σ'.types receiver self k) args) p.2 ∧
      (∀ c ∈ Registry.combinations σ'.types (W.effective σ'.types receiver self k) args,
        Covered σ' p.2 p.1 c) ∧ (σ'.changed = false → ∀ τ D, Later σ' τ D →
        (∀ r c s, p.2.find? r c = some (.specialization s) → D s) → W.Recalls τ →
        Infer.inferCall W.ctx W.answer receiver self k args span τ = some (.ok p, τ)) := by
  refine Safe.congr (inferCall_eq h.tree visit receiver self k args span) ?_
  refine (resolving_safe h (resolveCall_settles hr hs h.types h.described ha span)
    fun e t he => he.2).bind fun es σ₁ h₁ he₁ ⟨hes, _, hrep⟩ => ?_
  have hval := fun c hc => combinations_values (W := W) (c := c)
    (fun a => effective_values hr hs (k := k) (a := a)) ha hc
  refine (inferEntries_safe hv span h₁ (h₀.trans he₁) (fun c hc => ?_) (fun c hc => hc) hes
    (.never h₁.types) (fun r c callee hf => by cases hf)).mono fun p σ' h' he' hp => ?_
  · exact ⟨fun a ha => Values.isValue_mono he₁.types ((hval c hc).1 a ha),
      values_mono he₁.types (hval c hc).2⟩
  · obtain ⟨hv', -, hok, -, hcov, hrun⟩ := hp
    have hle := le_trans he₁.types he'.types
    have hcs : Registry.combinations σ'.types (W.effective σ'.types receiver self k) args =
        Registry.combinations σ.types (W.effective σ.types receiver self k) args := by
      rw [effective_mono hs h.types hle, Registry.combinations_mono hle
        (fun a h => (effective_values hr hs h).1) fun a h => (ha a h).1]
    rw [hcs]
    refine ⟨hv', hok, hcov, fun hc τ D hl hD hrec => ?_⟩
    have hl₁ := he'.later hc D hl
    rw [inferCall_eq (by rw [hl.hierarchy, h'.tree]),
      Infer.bind_ok (hrep τ hl₁.wf hl₁.types)]
    exact hrun hc τ D hl hD hrec

end World

end Multimethod
