import Multimethod.Proofs.Inference.Call
import Multimethod.Proofs.Inference.Local

/-!
# Typing terms is safe

Typing a term ends, widens what is known and yields the judgement (`World.inferTerm_safe`). A loop
is typed over and over with locals that get wider each time, so with ample limits its rounds end.
-/

namespace Multimethod

open Inference TypeTable InferIn

/-- What typing an operation comes to if it is neither a comparison nor a conversion. -/
def InferIn.arithmetic (ctx : Context) (site : Site) (op : Primitive) (operands : List TypeId) :
    InferIn TypeId := do
  let number ← union .int .float
  let s := (← get).1
  match operands.find? fun a => !s.hierarchy.isSubtype s.types a number with
  | some bad =>
    let text := s.hierarchy.typeText s.types ctx.names
    throw ⟨.restrictionViolation op.methodName "self" (text number) (text bad), site.span⟩
  | none =>
    if operands.all (· = .int) then return .int
    else if operands.contains .float then return .float
    else return number

namespace World

variable {W : World} {σ₀ σ σ₁ σ' τ : State} {S S₁ S' U : Scope} {visit : SpecId → Infer TypeId}

/-- Widening an instance variable of a state. -/
def assigned (σ : State) (c : ClassId) (n : Name) (a : TypeId) : State :=
  { σ with
    types := (σ.hierarchy.assignIvar c n a σ.types).2
    hierarchy := (σ.hierarchy.assignIvar c n a σ.types).1.2
    changed := σ.changed || (σ.hierarchy.assignIvar c n a σ.types).1.1 }

/-- The type of an instance variable is widened in a state `σ` to hold `a`, which is what inference
may do. If that changes nothing, it changes nothing in later states either. -/
structure Assigned (W : World) (σ : State) (c : ClassId) (n : Name) (a : TypeId) : Prop where
  ok : W.Ok (assigned σ c n a)
  extend : W.Extends σ (assigned σ c n a)
  holds : ∃ b, (assigned σ c n a).hierarchy.ivarType c n = some b ∧
    (assigned σ c n a).types.Inside a b
  closed : Closed σ → Closed (assigned σ c n a)
  again : (assigned σ c n a).changed = false → ∀ τ D, Later (assigned σ c n a) τ D →
    assigned τ c n a = τ

section
variable {c : ClassId} {n : Name} {a : TypeId}

theorem assigned_of_eq (heq : (TypeTable.union (σ.ivarType c n) a σ.types).1 = σ.ivarType c n) :
    assigned σ c n a = { σ with types := (TypeTable.union (σ.ivarType c n) a σ.types).2 } := by
  rw [State.ivarType] at heq ⊢
  simp only [assigned, Hierarchy.assignIvar_eq, heq, if_true, Bool.or_false]

theorem assigned_of_ne (hne : (TypeTable.union (σ.ivarType c n) a σ.types).1 ≠ σ.ivarType c n) :
    assigned σ c n a = { σ with
      types := (TypeTable.union (σ.ivarType c n) a σ.types).2
      changed := true
      hierarchy := σ.hierarchy.modify c fun i => { i with
        ivars := i.ivars.insert n (TypeTable.union (σ.ivarType c n) a σ.types).1 } } := by
  rw [State.ivarType] at hne ⊢
  simp only [assigned, Hierarchy.assignIvar_eq, hne, if_false, Bool.or_true]

/-- An instance variable that holds all of `a` already stays as it is. -/
theorem Assigned.of_eq (h : W.Ok σ) (ha : σ.types.Values W.classes a) (hne : a ≠ .never)
    (heq : (TypeTable.union (σ.ivarType c n) a σ.types).1 = σ.ivarType c n) :
    W.Assigned σ c n a := by
  have hs := union_joins h.types (h.ivarType_values c n).1 ha.1
  have hj := hs.post
  rw [heq] at hj
  set t := (TypeTable.union (σ.ivarType c n) a σ.types).2
  obtain ⟨hok, hext⟩ := Extends.of_types h hs.wf hs.le
  have hσ := assigned_of_eq heq
  refine ⟨hσ ▸ hok, hσ ▸ hext, ?_, fun hcl => hσ ▸ hcl, fun _ τ D hl => ?_⟩
  · rw [hσ]
    cases hi : σ.hierarchy.ivarType c n with
    | none =>
      rw [State.ivarType, hi] at hj
      exact absurd (hj.right.eq_never hs.wf) hne
    | some b =>
      rw [State.ivarType, hi] at hj
      exact ⟨b, rfl, hj.right⟩
  · rw [hσ] at hl
    have hold : τ.ivarType c n = σ.ivarType c n := by simp only [State.ivarType, hl.hierarchy]
    have hrun : TypeTable.union (σ.ivarType c n) a τ.types = (σ.ivarType c n, τ.types) := by
      rw [hs.again τ.types hl.wf hl.types, heq]
    rw [assigned_of_eq (by rw [hold, hrun]), hold, hrun]

/-- An instance variable that lacks some of `a` is widened, which makes the state heavier. -/
theorem Assigned.of_ne (h : W.Ok σ) (hc : c.index < W.classes) (hn : n ∈ W.names)
    (ha : σ.types.Values W.classes a)
    (hne : (TypeTable.union (σ.ivarType c n) a σ.types).1 ≠ σ.ivarType c n) :
    W.Assigned σ c n a := by
  have hov := h.ivarType_values c n
  have hs := union_joins h.types hov.1 ha.1
  set new := (TypeTable.union (σ.ivarType c n) a σ.types).1
  set t := (TypeTable.union (σ.ivarType c n) a σ.types).2
  have hj : t.Joins (σ.ivarType c n) a new := hs.post
  obtain ⟨hok, hext⟩ := Extends.of_types h hs.wf hs.le
  set σ' : State := { σ with
    types := t
    changed := true
    hierarchy := σ.hierarchy.modify c fun i => { i with ivars := i.ivars.insert n new } }
  have hσ : assigned σ c n a = σ' := assigned_of_ne hne
  have hiv (c' n') : σ'.hierarchy.ivarType c' n' =
      if c' = c ∧ n' = n then some new else σ.hierarchy.ivarType c' n' :=
    σ.hierarchy.ivarType_assign (by rw [h.size_eq]; exact hc) n n' new
  have hg : σ.Grows σ' :=
    { types := hs.le
      ivars := fun c' n' b hb => by
        rw [hiv]
        split
        · rename_i hcn
          obtain ⟨rfl, rfl⟩ := hcn
          rw [State.ivarType, hb] at hj
          exact ⟨new, rfl, hj.left⟩
        · exact ⟨b, hb, .refl ((h.ivars c' n' b hb).1.mono hs.le)⟩
      specs := hext.specs }
  have hlt : (σ.types.members (σ.ivarType c n)).length <
      (σ'.types.members (σ'.ivarType c n)).length := by
    have h₁ : σ'.ivarType c n = new := by simp [State.ivarType, hiv]
    rw [h₁, ← hov.1.members_eq hs.le]
    exact hj.left.length_lt hs.wf fun h => hne h.symm
  have he : W.Extends σ σ' :=
    { toGrows := hg
      stage := hext.stage
      done := hext.done
      fresh := hext.fresh
      pass := rfl
      changed := fun _ => rfl
      same := fun hch => by cases hch
      weight_le := h.weight_le hg
      weight_lt := fun _ => .inr (h.weight_lt_of_ivarType hg hc hn hlt) }
  have hok' : W.Ok σ' := h.next he hs.wf
    ((σ.hierarchy.tree_modify_ivars c fun m => m.insert n new).trans h.tree)
    (fun c' n' b hb => by
      rw [hiv] at hb
      split at hb
      · cases hb
        exact .of_joins hj (hov.mono h.types hs.le) (ha.mono h.types hs.le)
      · exact (h.ivars c' n' b hb).mono h.types hs.le)
    hok.keys hok.returns hok.recent (fun s i hi => .inr ⟨i, hi, rfl, rfl⟩) fun s i hi _ _ => hi
  constructor <;> rw [hσ]
  · exact hok'
  · exact he
  · exact ⟨new, by simp [hiv], hj.right⟩
  · exact fun hcl => hcl
  · exact fun hch => by cases hch

theorem assigned_safe (h : W.Ok σ) (hc : c.index < W.classes) (hn : n ∈ W.names)
    (ha : σ.types.Values W.classes a) (hne : a ≠ .never) : W.Assigned σ c n a := by
  by_cases heq : (TypeTable.union (σ.ivarType c n) a σ.types).1 = σ.ivarType c n
  · exact .of_eq h ha hne heq
  · exact .of_ne h hc hn ha heq

end

section
variable (h : W.At σ S)
include h

omit h in
/-- Recording the type of an expression. -/
theorem recorded_safe (site : Site) {x y : InferIn TypeId}
    {T : State → Scope → Locals → TypeId → Locals → Prop} (hx : W.SafeIn σ S x y (W.Yields T S)) :
    W.SafeIn σ S (recorded site x) (recorded site y) (W.Yields (fun τ U L a L' =>
      (∃ b, U.body.exprTypes[site.id]? = some b ∧ τ.types.Inside a b) ∧ T τ U L a L') S) := by
  unfold recorded
  refine hx.bind fun a σ₁ S₁ h₁ hto₁ ⟨hav, hin, hT⟩ => SafeIn.scope ?_
  set known := S₁.body.exprTypes[site.id]?.getD .never with hknown
  have hkv : σ₁.types.Values W.classes known := by
    rw [hknown]
    cases hk : S₁.body.exprTypes[site.id]? with
    | none => exact .never h₁.ok.types
    | some b => exact h₁.scope.exprTypes _ b hk
  refine (SafeIn.union h₁ hkv hav).bind fun all σ₂ S₂ h₂ hto₂ ⟨hj, hall, hS⟩ => ?_
  subst hS
  have insert {e : ExprId} {b : TypeId}
      (hb : (S₂.body.exprTypes.insert site.id all)[e]? = some b) :
      e = site.id ∧ b = all ∨ S₂.body.exprTypes[e]? = some b := by
    rw [Std.ExtTreeMap.getElem?_insert] at hb
    split at hb
    · rename_i hc
      cases hb
      exact .inl ⟨(Std.compare_eq_iff_eq.1 hc).symm, rfl⟩
    · exact .inr hb
  have hS' : W.ScopeOk σ₂ { S₂ with body := { S₂.body with
      exprTypes := S₂.body.exprTypes.insert site.id all } } :=
    { h₂.scope with
      exprTypes := fun e b hb => by
        rcases insert hb with ⟨-, rfl⟩ | hb
        · exact hall
        · exact h₂.scope.exprTypes e b hb }
  refine (SafeIn.modifyScope h₂ hS' ?_ id).bind fun _ σ₃ S₃ h₃ hto₃ ⟨hσ, hS₃⟩ => ?_
  · refine { h₂.scope.records_refl with exprTypes := fun e b hb => ?_ }
    by_cases he : e = site.id
    · subst he
      refine ⟨all, by simp, ?_⟩
      rw [hknown, hb] at hj
      exact hj.left
    · exact ⟨b, (Map.getElem?_insert_ne he).trans hb, .refl (h₂.scope.exprTypes e b hb).1⟩
  subst hσ
  refine .pure h₃ ⟨hav.mono h₁.ok.types hto₂.extend.types, ?_, fun τ U hs => ⟨?_, ?_⟩⟩
  · rw [hS₃]
    exact hin.mono hto₂.extend.types
  · obtain ⟨b, hb, hab⟩ := hs.records.exprTypes site.id all (by rw [hS₃]; simp)
    exact ⟨b, hb, (hj.right.mono hs.later.types).trans hab⟩
  · have := hT τ U ((hto₂.trans hto₃).sees hs)
    rw [hS₃]
    exact this

/-- Assigning a local. -/
theorem assignLocal_safe {n : Name} {a : TypeId} (hn : n ∈ W.names)
    (ha : σ.types.Values W.classes a) :
    W.SafeIn σ S (assignLocal n a) (assignLocal n a) fun _ σ' S' =>
      Locals.Inside σ'.types S.locals S'.locals ∧
        ∀ τ U, Sees σ' S' τ U → Assigns τ n a S.locals S'.locals := by
  unfold assignLocal
  by_cases hne : a = .never
  · rw [if_neg (not_not.2 hne)]
    exact .pure h ⟨h.scope.locals.refl, fun τ U _ => .inl ⟨hne, rfl⟩⟩
  · rw [if_pos hne]
    refine SafeIn.local? ((SafeIn.union h
      (h.scope.locals.getD_values n (.never h.ok.types)) ha).bind
      fun b σ₁ S₁ h₁ hto₁ ⟨hj, hbv, hS⟩ => ?_)
    subst hS
    refine (SafeIn.setLocal h₁ hn hbv).mono fun _ σ' S' h' hto' ⟨hσ, hS'⟩ => ?_
    subst hσ
    refine ⟨?_, fun τ U hs => .inr ⟨hne, b, hj.mono hs.later.types, by rw [hS']⟩⟩
    rw [hS']
    refine Locals.inside_insert (fun k d _ hk => h₁.scope.locals.refl k d hk) fun d hd => ?_
    rw [hd] at hj
    exact hj.left

/-- Reading an instance variable. -/
theorem readIvar_safe (n : Name) :
    W.SafeIn σ S (readIvar n) (readIvar n) (W.Yields (fun τ U L a L' => L' = L ∧
      match U.selfClass with
      | none => a = .nil
      | some c => τ.types.Joins ((τ.hierarchy.ivarType c n).getD .never) .nil a) S) := by
  unfold readIvar
  refine SafeIn.scope ?_
  cases hc : S.selfClass with
  | none =>
    refine .pure h ⟨.nil h.ok.types W.five_le, h.scope.locals.refl, fun τ U hs => ⟨rfl, ?_⟩⟩
    rw [hs.records.selfClass, hc]
  | some c =>
    refine SafeIn.get (f := fun s => _) (g := fun s => _) ?_ fun τ U hs => ?_
    · have hv := h.ok.ivarType_values c n
      refine (SafeIn.onTypes h (orNil_joins h.ok.types hv.1)).mono
        fun a σ' S' h' hto' ⟨hj, hS⟩ => ?_
      subst hS
      have hv' := hv.mono h.ok.types hto'.extend.types
      refine ⟨.of_joins hj hv' (.nil h'.ok.types W.five_le), h'.scope.locals.refl,
        fun τ U hs => ⟨rfl, ?_⟩⟩
      rw [hs.records.selfClass, hc]
      have hl := (hto'.sees hs).later.hierarchy
      show τ.types.Joins ((τ.hierarchy.ivarType c n).getD .never) .nil a
      rw [hl]
      exact hj.mono hs.later.types
    · rw [hs.later.hierarchy]

/-- Assigning an instance variable. -/
theorem assignIvar_safe {n : Name} {a : TypeId} (hn : n ∈ W.names)
    (ha : σ.types.Values W.classes a) :
    W.SafeIn σ S (assignIvar n a) (assignIvar n a) fun _ σ' S' => S' = S ∧
      ∀ τ U, Sees σ' S' τ U → ∀ c ∈ U.selfClass, a ≠ .never →
        ∃ b, τ.hierarchy.ivarType c n = some b ∧ τ.types.Inside a b := by
  unfold assignIvar
  refine SafeIn.scope ?_
  cases hc : S.selfClass with
  | none =>
    refine .pure h ⟨rfl, fun τ U hs c hU => ?_⟩
    rw [hs.records.selfClass, hc] at hU
    cases hU
  | some c =>
    by_cases hne : a = .never
    · simp only [hne, ne_eq, not_true_eq_false, if_false]
      exact .pure h ⟨rfl, fun _ _ _ _ _ h => h.elim⟩
    simp only [ne_eq, hne, not_false_eq_true, if_true]
    have hcl := h.scope.selfClass c hc
    obtain ⟨hok, he, ⟨b, hb, hab⟩, hclosed, hrun⟩ := assigned_safe h.ok hcl hn ha hne
    have hat : W.At (assigned σ c n a) S := ⟨hok, h.scope.extend h.ok he⟩
    refine ⟨.ok (), assigned σ c n a, S, rfl, hat, ⟨he, hat.scope.records_refl⟩,
      ⟨rfl, fun τ U hs c' hU _ => ?_⟩, fun hcl => ⟨hclosed hcl.1, he.reachedBy hcl.2⟩,
      fun τ U hs _ => ?_⟩
    · rw [hs.records.selfClass, hc] at hU
      cases hU
      exact ⟨b, by rw [hs.later.hierarchy]; exact hb, hab.mono hs.later.types⟩
    · show some (Except.ok (), assigned τ c n a, S) = _
      rw [hrun hs.unchanged τ _ hs.later]

/-- A class used as a value. -/
theorem inferConst_safe (site : Site) (n : Name) :
    W.SafeIn σ S (inferConst W.ctx site n) (inferConst W.ctx site n) (W.Yields
      (fun τ _ L a L' => L' = L ∧ ∃ c, W.tree.find? n = some c ∧
        τ.types.shape a = .classObject c) S) := by
  unfold inferConst
  refine SafeIn.get (f := fun s => _) (g := fun s => _) ?_ fun τ U hs => by
    simp only [hs.later.hierarchy]
  have hfind : σ.hierarchy.find? n = W.tree.find? n := by rw [← h.ok.tree]; rfl
  simp only [Hierarchy.requireClass, hfind]
  cases hc : W.tree.find? n with
  | none =>
    refine .throw h fun _ hd => ?_
    obtain ⟨name, rounds, he⟩ := hd
    cases he
  | some c =>
    refine (SafeIn.onTypes h (classObject_settles h.ok.types c)).mono fun a σ' S' h' hto' hyields => ?_
    obtain ⟨ha, hS⟩ := hyields
    subst hS
    refine ⟨.of_shape (by rw [ha.2]; exact Hierarchy.find?_lt hc), h'.scope.locals.refl,
      fun τ U hs => ⟨rfl, c, rfl, ?_⟩⟩
    rw [ha.1.shape_eq hs.later.types, ha.2]

omit h in
/-- Typing a call in a body, as it ends. -/
theorem inferCallAt_eq {visit : SpecId → Infer TypeId} {site : Site} {receiver : Option TypeId}
    {k : Name} {args : List TypeId} {r : Except TypeError (TypeId × DispatchTable)}
    (hx : Infer.inferCall W.ctx visit receiver (S.self.getD .object) k args site.span σ =
      some (r, σ')) :
    inferCallAt W.ctx visit site receiver k args (σ, S) = match r with
      | .ok p => some (.ok p.1, σ', { S with body := S.body.addRows site.id p.2 })
      | .error e => some (.error e, σ', S) := by
  have hlift : InferIn.lift (Infer.inferCall W.ctx visit receiver (S.self.getD .object) k args
      site.span) (σ, S) = some (r, σ', S) := by
    show (Infer.inferCall W.ctx visit receiver (S.self.getD .object) k args site.span σ >>=
      fun p => some (p.1, p.2, S)) = _
    rw [hx]; rfl
  show (InferIn.lift (Infer.inferCall W.ctx visit receiver (S.self.getD .object) k args
    site.span) (σ, S) >>= fun p => (ExceptT.bindCont (fun q => do
      InferIn.modifyScope fun s => { s with body := s.body.addRows site.id q.2 }
      return q.1) p.1 : ScopeRun (Except TypeError TypeId)) p.2) = _
  rw [hlift]
  cases r <;> rfl

/-- Typing a call in a body records its rows. -/
theorem inferCallAt_safe (hv : W.Visits σ₀ visit) (h₀ : W.Extends σ₀ σ) (site : Site)
    {receiver : Option TypeId} {k : Name} {args : List TypeId}
    (hu : ∃ u, W.callAt site.id = some u ∧ u.called = some k ∧
      ∀ site' as, u = .send site' k as → receiver = none)
    (hr : ∀ a ∈ receiver, σ.types.Values W.classes a)
    (ha : ∀ a ∈ args, σ.types.Values W.classes a) :
    W.SafeIn σ S (inferCallAt W.ctx visit site receiver k args)
      (inferCallAt W.ctx W.answer site receiver k args) (W.Yields (fun τ U L a L' =>
        L' = L ∧ Calls W τ U site.id k
          (W.effective τ.types receiver (U.self.getD .object) k) args a) S) := by
  have hself := h.scope.self_values h.ok
  obtain ⟨r, σ', hx, hok, hext, hend⟩ := inferCall_safe hv h.ok h₀ k site.span hr hself ha
  have hS := h.scope.extend h.ok hext
  cases r with
  | error e =>
    exact ⟨.error e, σ', S, inferCallAt_eq hx, ⟨hok, hS⟩, ⟨hext, hS.records_refl⟩, hend⟩
  | ok p =>
    obtain ⟨a, table⟩ := p
    obtain ⟨⟨hav, htab, hcov, hrun⟩, hclosed⟩ := hend
    obtain ⟨u, hsite, hk, hsend⟩ := hu
    have hown := sendReceiver_isMember (W := W) hok.types (fun a ha => (hS.self a ha).isMember)
      (k := k)
    set S' : Scope := { S with body := S.body.addRows site.id table } with hS'
    have hrows : W.RowsOk σ' S.self S'.body := hS.rows.addRows hsite hk fun r c callee hf => by
      obtain ⟨hrow, -, hcomb⟩ := htab r c callee hf
      refine ⟨hrow, fun site' as hu => ?_⟩
      have hr := (Registry.mem_combinations.1 hcomb).1
      rw [hsend site' as hu] at hr
      change r ∈ Registry.receivers σ'.types (W.sendReceiver σ'.types S.self k) at hr
      rw [Registry.receivers_of_isMember hown] at hr
      exact List.mem_singleton.1 hr
    have added {r c callee} (hf : table.find? r c = some callee) :
        (S'.body.dispatchAt site.id).find? r c = some callee :=
      hrows.added hok.types hsite hk (htab r c callee hf).1 hf
    have hto : W.To σ S σ' S' :=
      ⟨hext, { hS.records_refl with rows := fun e r c callee => hS.rows.kept hrows hok.types }⟩
    refine ⟨.ok a, σ', S', inferCallAt_eq hx, ⟨hok, { hS with rows := hrows }⟩, hto,
      ⟨hav, hS.locals.refl, fun τ U hs => ⟨rfl, fun r c hrc => ?_⟩⟩, fun hcl => ⟨hclosed hcl.1, ?_⟩,
      fun τ U hs hrec => ?_⟩
    · rw [hs.records.self] at hrc
      have hself' := hself.mono h.ok.types hext.types
      have hr' := fun b hb => (hr b hb).mono h.ok.types hext.types
      have ha' := fun b hb => (ha b hb).mono h.ok.types hext.types
      have hle := hs.later.types
      rw [effective_mono hself' hok.types hle,
        Registry.combinations_mono hle (fun b hb => (effective_values hr' hself' hb).1)
        fun b hb => (ha' b hb).1] at hrc
      obtain ⟨callee, hf, hans⟩ := hcov (r, c) hrc
      have hU := hs.records.rows _ _ _ _ (added hf)
      obtain ⟨b, hb, hba⟩ := hans hs.unchanged
      refine ⟨callee, hU, (htab r c callee hf).1.leads.mono hok.types hle fun key s hs' => ?_, b, ?_,
        hba.mono hle⟩
      · rw [hs.later.find?_eq]; exact hs'
      · refine hb.later hba.1 hs.later fun s hcs => ⟨site.id, r, c, ?_⟩
        rw [← hcs]; exact hU
    · intro e r c callee hf
      rcases Body.find?_addRows hf with hf | ⟨-, hf⟩
      · exact hext.reachedBy hcl.2 e r c callee hf
      · exact (htab r c callee hf).2.1
    · exact inferCallAt_eq (hrun hs.unchanged τ _ hs.later (fun r c s hf =>
        ⟨site.id, r, c, hs.records.rows _ _ _ _ (added hf)⟩) hrec)

omit h in
theorem applies_arithmetic {τ : State} {op : Primitive}
    (hop : op.isComparison ≠ true ∧ op ≠ .toInt ∧ op ≠ .toFloat) {as : List TypeId} {a : TypeId} :
    Applies W τ op as a ↔ ∃ number, τ.types.Joins .int .float number ∧
      (∀ b ∈ as, W.tree.isSubtype τ.types b number = true) ∧
      a = if as.all (· = .int) then .int else if as.contains .float then .float else number := by
  unfold Applies
  rw [if_neg hop.1]
  split
  · exact absurd rfl hop.2.1
  · exact absurd rfl hop.2.2
  · rfl

omit h in
/-- Later states find the same operand unfit. -/
theorem find?_unfit_later (H : σ.types.WF) {number : TypeId} (hn : σ.types.Has number)
    {args : List TypeId} (ha : ∀ a ∈ args, σ.types.Has a) {D : SpecId → Prop}
    (hl : Later σ τ D) :
    (args.find? fun a => !τ.hierarchy.isSubtype τ.types a number) =
      args.find? fun a => !σ.hierarchy.isSubtype σ.types a number := by
  induction args with
  | nil => rfl
  | cons a as ih =>
    rw [List.find?_cons, List.find?_cons, ih fun b hb => ha b (.tail _ hb), hl.hierarchy,
      σ.hierarchy.isSubtype_mono H (ha a (.head _)) hn hl.types]

/-- What arithmetic gives on operands that are numbers. -/
theorem arithmetic_result {args : List TypeId} {number : TypeId}
    (hn : σ.types.Values W.classes number)
    {T : State → Scope → Locals → TypeId → Locals → Prop}
    (hT : ∀ τ U, Sees σ S τ U → T τ U S.locals (if args.all (· = .int) then .int else
      if args.contains .float then .float else number) S.locals) :
    W.SafeIn σ S
      (if args.all (· = .int) then return .int
        else if args.contains .float then return .float else return number)
      (if args.all (· = .int) then return .int
        else if args.contains .float then return .float else return number) (W.Yields T S) := by
  have result {a : TypeId} (ha : σ.types.Values W.classes a)
      (hT : ∀ τ U, Sees σ S τ U → T τ U S.locals a S.locals) :
      W.SafeIn σ S (Pure.pure a) (Pure.pure a) (W.Yields T S) :=
    .pure h ⟨ha, h.scope.locals.refl, hT⟩
  by_cases hall : args.all (· = .int) = true
  · rw [if_pos hall] at hT ⊢
    exact result (.int h.ok.types W.five_le) hT
  rw [if_neg hall] at hT ⊢
  by_cases hfl : args.contains .float = true
  · rw [if_pos hfl] at hT ⊢
    exact result (.float h.ok.types W.five_le) hT
  · rw [if_neg hfl] at hT ⊢
    exact result hn hT

/-- Arithmetic, for which all operands have to be numbers. -/
theorem arithmetic_safe (site : Site) {op : Primitive}
    (hop : op.isComparison ≠ true ∧ op ≠ .toInt ∧ op ≠ .toFloat) {args : List TypeId}
    (ha : ∀ a ∈ args, σ.types.Values W.classes a) :
    W.SafeIn σ S (arithmetic W.ctx site op args) (arithmetic W.ctx site op args)
      (W.Yields (fun τ _ L a L' => L' = L ∧ Applies W τ op args a) S) := by
  have hint := Values.int (n := W.classes) h.ok.types W.five_le
  have hfloat := Values.float (n := W.classes) h.ok.types W.five_le
  refine (SafeIn.union h hint hfloat).bind fun number σ₁ S₁ h₁ hto ⟨hj, hnv, hS⟩ => ?_
  subst hS
  have ha₁ : ∀ a ∈ args, σ₁.types.Has a := fun a hm =>
    ((ha a hm).mono h.ok.types hto.extend.types).1
  refine SafeIn.get (f := fun s => _) (g := fun s => _) ?_ fun τ U hs => ?_
  · dsimp only
    split
    · refine .throw h₁ fun _ hd => ?_
      obtain ⟨name, rounds, he⟩ := hd
      cases he
    · rename_i hf
      refine arithmetic_result h₁ hnv fun τ U hs => ⟨rfl, (applies_arithmetic hop).2
        ⟨number, hj.mono hs.later.types, fun a hm => ?_, rfl⟩⟩
      rw [W.tree.isSubtype_mono h₁.ok.types (ha₁ a hm) hnv.1 hs.later.types, ← h₁.ok.tree,
        Hierarchy.isSubtype_tree]
      simpa using List.find?_eq_none.1 hf a hm
  · dsimp only
    rw [find?_unfit_later h₁.ok.types hnv.1 ha₁ hs.later]
    cases hf : args.find? fun a => !σ₁.hierarchy.isSubtype σ₁.types a number with
    | none => rfl
    | some bad =>
      simp only [hs.later.hierarchy, σ₁.hierarchy.typeText_mono h₁.ok.types
        (ha₁ bad (List.mem_of_find?_eq_some hf)) hs.later.types,
        σ₁.hierarchy.typeText_mono h₁.ok.types hnv.1 hs.later.types]

/-- A primitive operation. -/
theorem inferPrimitive_safe (site : Site) (op : Primitive) {args : List TypeId}
    (ha : ∀ a ∈ args, σ.types.Values W.classes a) :
    W.SafeIn σ S (inferPrimitive W.ctx site op args) (inferPrimitive W.ctx site op args)
      (W.Yields (fun τ _ L a L' => L' = L ∧ Applies W τ op args a) S) := by
  have known {a : TypeId} (hav : σ.types.Values W.classes a)
      (happ : ∀ τ, Applies W τ op args a) :
      W.SafeIn σ S (Pure.pure a) (Pure.pure a)
        (W.Yields (fun τ _ L a L' => L' = L ∧ Applies W τ op args a) S) :=
    .pure h ⟨hav, h.scope.locals.refl, fun τ U _ => ⟨rfl, happ τ⟩⟩
  unfold inferPrimitive
  by_cases hcmp : op.isComparison = true
  · rw [if_pos hcmp]
    exact known (.bool h.ok.types W.five_le) fun τ => by
      unfold Applies
      rw [if_pos hcmp]
  rw [if_neg hcmp]
  cases op with
  | toInt => exact known (.int h.ok.types W.five_le) fun _ => rfl
  | toFloat => exact known (.float h.ok.types W.five_le) fun _ => rfl
  | _ => exact arithmetic_safe h site ⟨hcmp, by simp, by simp⟩ ha

end

/-! ## Loops -/

/-- How much the locals have found, counted in members of types. -/
def localsWeight (W : World) (t : TypeTable) (L : Locals) : Nat :=
  ∑ n ∈ W.names, (L[n]?.map fun a => (t.members a).length + 1).getD 0

theorem localsWeight_le (h : W.Ok σ) {L : Locals} (hL : W.LocalsOk σ L) :
    W.localsWeight σ.types L ≤ W.names.card * (2 * W.classes + 1) := by
  refine Finset.sum_le_card_nsmul _ _ _ fun n _ => ?_
  cases hn : L[n]? with
  | none => simp
  | some a =>
    have := (hL n a hn).2.length_le h.types
    simp only [Option.map_some, Option.getD_some]
    omega

theorem localsWeight_mono {L : Locals} (hL : W.LocalsOk σ L) {u : TypeTable}
    (hle : σ.types ≤ u) : W.localsWeight u L = W.localsWeight σ.types L := by
  refine Finset.sum_congr rfl fun n _ => ?_
  cases hn : L[n]? with
  | none => rfl
  | some a => simp only [Option.map_some, (hL n a hn).2.1.members_eq hle]

/-- Locals that got wider are heavier. -/
theorem localsWeight_lt (h : W.Ok σ) {L L' : Locals} (hL' : W.LocalsOk σ L')
    (hin : Locals.Inside σ.types L L') (hne : L' ≠ L) :
    W.localsWeight σ.types L < W.localsWeight σ.types L' := by
  have hle (n : Name) : (L[n]?.map fun a => (σ.types.members a).length + 1).getD 0 ≤
      (L'[n]?.map fun a => (σ.types.members a).length + 1).getD 0 := by
    cases hn : L[n]? with
    | none => simp
    | some a =>
      obtain ⟨b, hb, hab⟩ := hin n a hn
      simpa [hb] using hab.length_le h.types
  obtain ⟨n, hn⟩ : ∃ n : Name, L'[n]? ≠ L[n]? := by
    by_contra hall
    simp only [ne_eq, not_exists, not_not] at hall
    exact hne (Std.ExtTreeMap.ext_getElem? hall)
  obtain ⟨b, hb⟩ : ∃ b, L'[n]? = some b := by
    cases hL : L[n]? with
    | none => exact Option.ne_none_iff_exists'.1 (hL ▸ hn)
    | some a =>
      obtain ⟨b, hb, -⟩ := hin n a hL
      exact ⟨b, hb⟩
  refine Finset.sum_lt_sum (fun n _ => hle n) ⟨n, (hL' n b hb).1, ?_⟩
  cases hL : L[n]? with
  | none => simp [hb]
  | some a =>
    obtain ⟨b', hb', hab⟩ := hin n a hL
    cases hb.symm.trans hb'
    have hne' : a ≠ b := fun h => hn (by rw [hb, hL, h])
    simpa [hb] using hab.length_lt h.types hne'

theorem inferLoop_zero (ctx : Context) (site : Site) (test body : InferIn TypeId)
    (bound : Option Locals) : inferLoop ctx site test body 0 bound = (do
      let before ← locals
      let a ← test
      let bound := bound.getD (← locals)
      if a ≠ .never then
        let _ ← body
      if (← locals) = before then orNilExcept bound
      else throw ⟨.divergence "while" (max 1 ctx.limits.loopRounds), site.span⟩) := rfl

theorem inferLoop_succ (ctx : Context) (site : Site) (test body : InferIn TypeId) (left : Nat)
    (bound : Option Locals) : inferLoop ctx site test body (left + 1) bound = (do
      let before ← locals
      let a ← test
      let bound := bound.getD (← locals)
      if a ≠ .never then
        let _ ← body
      if (← locals) = before then orNilExcept bound
      else inferLoop ctx site test body left (some bound)) := rfl

section
variable {test test' body body' : InferIn TypeId}
  {T B : State → Scope → Locals → TypeId → Locals → Prop}
  (ht : ∀ σ₁ S₁, W.At σ₁ S₁ → W.Extends σ₀ σ₁ → W.SafeIn σ₁ S₁ test test' (W.Yields T S₁))
  (hb : ∀ σ₁ S₁, W.At σ₁ S₁ → W.Extends σ₀ σ₁ → W.SafeIn σ₁ S₁ body body' (W.Yields B S₁))
include ht hb

/-- One round of typing a loop, and then `again` if the locals have changed. -/
theorem round_safe (h : W.At σ S) (h₀ : W.Extends σ₀ σ) (bound : Option Locals)
    (again again' : Locals → InferIn Unit)
    (ha : ∀ σ₁ S₁ bound, W.At σ₁ S₁ → W.To σ S σ₁ S₁ → S₁.locals ≠ S.locals →
      Locals.Inside σ₁.types S.locals S₁.locals →
      W.SafeIn σ₁ S₁ (again bound) (again' bound) fun _ σ' S' =>
        Locals.Inside σ'.types S₁.locals S'.locals ∧ ∀ τ U, Sees σ' S' τ U →
          Rounds τ.types (T τ U) (B τ U) (some bound) S₁.locals S'.locals) :
    W.SafeIn σ S (do
      let before ← locals
      let a ← test
      let bound := bound.getD (← locals)
      if a ≠ .never then
        let _ ← body
      if (← locals) = before then orNilExcept bound else again bound) (do
      let before ← locals
      let a ← test'
      let bound := bound.getD (← locals)
      if a ≠ .never then
        let _ ← body'
      if (← locals) = before then orNilExcept bound else again' bound)
      fun _ σ' S' => Locals.Inside σ'.types S.locals S'.locals ∧
        ∀ τ U, Sees σ' S' τ U → Rounds τ.types (T τ U) (B τ U) bound S.locals S'.locals := by
  -- What happens at the end of a round, after locals `L` from the test.
  have finish {a : TypeId} {σ₁ σ₂ : State} {S₁ S₂ : Scope} (h₂ : W.At σ₂ S₂)
      (hto₁ : W.To σ₁ S₁ σ₂ S₂) (hto : W.To σ S σ₂ S₂)
      (hin : Locals.Inside σ₂.types S.locals S₂.locals)
      (hT : ∀ τ U, Sees σ₁ S₁ τ U → T τ U S.locals a S₁.locals)
      (hn : a = .never → S₂.locals = S₁.locals)
      (hB : a ≠ .never → ∀ τ U, Sees σ₂ S₂ τ U → ∃ b, B τ U S₁.locals b S₂.locals) :
      W.SafeIn σ₂ S₂
        (do if (← locals) = S.locals then orNilExcept (bound.getD S₁.locals)
            else again (bound.getD S₁.locals))
        (do if (← locals) = S.locals then orNilExcept (bound.getD S₁.locals)
            else again' (bound.getD S₁.locals))
        fun _ σ' S' => Locals.Inside σ'.types S.locals S'.locals ∧
          ∀ τ U, Sees σ' S' τ U → Rounds τ.types (T τ U) (B τ U) bound S.locals S'.locals := by
    refine SafeIn.locals ?_
    by_cases heq : S₂.locals = S.locals
    · rw [if_pos heq, if_pos heq]
      refine (orNilExcept_safe h₂ _).mono fun _ σ' S' h' hto' hor => ?_
      rw [heq] at hor hB hn
      refine ⟨hor.inside fun n b hb => ?_, fun τ U hs => ?_⟩
      · exact ((h₂.scope.locals n b (by rw [heq]; exact hb)).2.mono h₂.ok.types
          hto'.extend.types).1
      · have hs₂ := hto'.sees hs
        exact .stop (hT τ U (hto₁.sees hs₂)) (fun hnev => (hn hnev).symm)
          (fun hne => hB hne τ U hs₂) (hor.mono hs.later.types)
    · rw [if_neg heq, if_neg heq]
      refine (ha σ₂ S₂ _ h₂ hto heq hin).mono fun _ σ' S' h' hto' ⟨hin', hr⟩ => ?_
      refine ⟨(hin.mono hto'.extend.types).trans hin', fun τ U hs => ?_⟩
      have hs₂ := hto'.sees hs
      exact .next (hT τ U (hto₁.sees hs₂)) hn (fun hne => hB hne τ U hs₂) heq (hr τ U hs)
  refine SafeIn.locals ((ht σ S h h₀).bind fun a σ₁ S₁ h₁ hto₁ ⟨hav, hin₁, hT⟩ =>
    SafeIn.locals ?_)
  by_cases hne : a = .never
  · simp only [hne, ne_eq, not_true_eq_false, if_false]
    rw [hne] at hT
    exact finish h₁ (.refl h₁) hto₁ hin₁ hT (fun _ => rfl) fun h => absurd rfl h
  · simp only [ne_eq, hne, not_false_eq_true, if_true]
    refine (hb σ₁ S₁ h₁ (h₀.trans hto₁.extend)).bind fun b σ₂ S₂ h₂ hto₂ ⟨hbv, hin₂, hB⟩ => ?_
    exact finish h₂ hto₂ (hto₁.trans hto₂) ((hin₁.mono hto₂.extend.types).trans hin₂) hT
      (fun h => absurd h hne) fun _ τ U hs => ⟨b, hB τ U hs⟩

/-- Typing a loop: with ample limits the rounds end, as the locals get heavier in each. -/
theorem inferLoop_safe (h : W.At σ S) (h₀ : W.Extends σ₀ σ) (site : Site) (left : Nat)
    (bound : Option Locals)
    (hw : W.Ample → W.names.card * (2 * W.classes + 1) ≤ left + W.localsWeight σ.types S.locals) :
    W.SafeIn σ S (inferLoop W.ctx site test body left bound)
      (inferLoop W.ctx site test' body' left bound) fun _ σ' S' =>
        Locals.Inside σ'.types S.locals S'.locals ∧
        ∀ τ U, Sees σ' S' τ U → Rounds τ.types (T τ U) (B τ U) bound S.locals S'.locals := by
  have heavier {σ₁ : State} {S₁ : Scope} (h₁ : W.At σ₁ S₁) (hto : W.To σ S σ₁ S₁)
      (hne : S₁.locals ≠ S.locals) (hin : Locals.Inside σ₁.types S.locals S₁.locals) :
      W.localsWeight σ.types S.locals < W.localsWeight σ₁.types S₁.locals := by
    rw [← localsWeight_mono h.scope.locals hto.extend.types]
    exact localsWeight_lt h₁.ok h₁.scope.locals hin hne
  induction left generalizing σ S bound with
  | zero =>
    rw [inferLoop_zero, inferLoop_zero]
    refine round_safe ht hb h h₀ bound (fun _ => throw _) (fun _ => throw _)
      fun σ₁ S₁ _ h₁ hto hne hin => .throw h₁ fun hample => ?_
    have h₂ := heavier h₁ hto hne hin
    have h₃ := localsWeight_le h₁.ok h₁.scope.locals
    have h₄ := hw hample
    omega
  | succ left ih =>
    rw [inferLoop_succ, inferLoop_succ]
    refine round_safe ht hb h h₀ bound
      (fun b => inferLoop W.ctx site test body left (some b))
      (fun b => inferLoop W.ctx site test' body' left (some b))
      fun σ₁ S₁ bound₁ h₁ hto hne hin => ?_
    refine ih h₁ (h₀.trans hto.extend) (some bound₁) (fun hample => ?_) ?_
    · have h₂ := heavier h₁ hto hne hin
      have h₄ := hw hample
      omega
    · intro σ₂ S₂ h₂ hto₂ hne₂ hin₂
      rw [← localsWeight_mono h₁.scope.locals hto₂.extend.types]
      exact localsWeight_lt h₂.ok h₂.scope.locals hin₂ hne₂

end

/-! ## Terms -/

/-- What typing some arguments yields. -/
def YieldsArgs (W : World)
    (T : State → Scope → Locals → Option (List TypeId) → Locals → Prop) (S : Scope)
    (as : Option (List TypeId)) (σ' : State) (S' : Scope) : Prop :=
  (∀ as' ∈ as, ∀ a ∈ as', σ'.types.Values W.classes a) ∧
    Locals.Inside σ'.types S.locals S'.locals ∧ ∀ τ U, Sees σ' S' τ U → T τ U S.locals as S'.locals

section
variable {x x' : InferIn TypeId} {f f' : TypeId → InferIn TypeId}
  {T : State → Scope → Locals → TypeId → Locals → Prop}
  {R : TypeId → State → Scope → Locals → TypeId → Locals → Prop}

/-- One thing after another. -/
theorem SafeIn.bindYields (hx : W.SafeIn σ S x x' (W.Yields T S))
    (hf : ∀ a σ₁ S₁, W.At σ₁ S₁ → W.To σ S σ₁ S₁ → σ₁.types.Values W.classes a →
      W.SafeIn σ₁ S₁ (f a) (f' a) (W.Yields (R a) S₁)) :
    W.SafeIn σ S (x >>= f) (x' >>= f') (W.Yields (fun τ U L b L' =>
      ∃ a L₁, T τ U L a L₁ ∧ R a τ U L₁ b L') S) := by
  refine hx.bind fun a σ₁ S₁ h₁ hto₁ ⟨hav, hin, hT⟩ => ?_
  refine (hf a σ₁ S₁ h₁ hto₁ hav).mono fun b σ' S' _ hto' ⟨hbv, hin', hR⟩ => ?_
  exact ⟨hbv, (hin.mono hto'.extend.types).trans hin', fun τ U hs =>
    ⟨a, S₁.locals, hT τ U (hto'.sees hs), hR τ U hs⟩⟩

/-- What comes second is typed only if what comes first has a value. -/
theorem unlessNever_safe (h : W.At σ S) {a : TypeId} (hx : W.SafeIn σ S x x' (W.Yields T S)) :
    W.SafeIn σ S (unlessNever a x) (unlessNever a x')
      (W.Yields (fun τ U L b L' => Follows a L (T τ U L) b L') S) := by
  unfold unlessNever
  by_cases ha : a = .never
  · rw [if_pos ha, if_pos ha]
    exact .pure h ⟨.never h.ok.types, h.scope.locals.refl, fun τ U _ => .inl ⟨ha, rfl, rfl⟩⟩
  · rw [if_neg ha, if_neg ha]
    exact hx.mono fun b σ' S' _ _ ⟨hb, hin, hT⟩ => ⟨hb, hin, fun τ U hs => .inr ⟨ha, hT τ U hs⟩⟩

/-- What is done with some arguments, if they all have values. -/
theorem withArgs_safe {as as' : InferIn (Option (List TypeId))}
    {f f' : List TypeId → InferIn TypeId}
    {A : State → Scope → Locals → Option (List TypeId) → Locals → Prop}
    {C : List TypeId → State → Scope → TypeId → Prop}
    (has : W.SafeIn σ S as as' (W.YieldsArgs A S))
    (hf : ∀ as σ₁ S₁, W.At σ₁ S₁ → W.To σ S σ₁ S₁ → (∀ a ∈ as, σ₁.types.Values W.classes a) →
      W.SafeIn σ₁ S₁ (f as) (f' as) (W.Yields (fun τ U L a L' => L' = L ∧ C as τ U a) S₁)) :
    W.SafeIn σ S
      (do match ← as with
        | none => return .never
        | some as => f as)
      (do match ← as' with
        | none => return .never
        | some as => f' as)
      (W.Yields (fun τ U L a L' => ∃ as, A τ U L as L' ∧ match as with
        | none => a = .never
        | some as => C as τ U a) S) := by
  refine has.bind fun as σ₁ S₁ h₁ hto₁ ⟨hav, hin, hA⟩ => ?_
  cases as with
  | none => exact .pure h₁ ⟨.never h₁.ok.types, hin, fun τ U hs => ⟨none, hA τ U hs, rfl⟩⟩
  | some as =>
    refine (hf as σ₁ S₁ h₁ hto₁ (hav as rfl)).mono fun b σ' S' _ hto' ⟨hbv, hin', hC⟩ => ?_
    refine ⟨hbv, (hin.mono hto'.extend.types).trans hin', fun τ U hs => ?_⟩
    obtain ⟨hL, hc⟩ := hC τ U hs
    exact ⟨some as, hL ▸ hA τ U (hto'.sees hs), hc⟩

end

/-- Two things of which the second need not be evaluated. -/
theorem connective_safe {x x' y y' : InferIn TypeId}
    {T R : State → Scope → Locals → TypeId → Locals → Prop}
    (hx : W.SafeIn σ S x x' (W.Yields T S))
    (hy : ∀ σ₁ S₁, W.At σ₁ S₁ → W.To σ S σ₁ S₁ → W.SafeIn σ₁ S₁ y y' (W.Yields R S₁)) :
    W.SafeIn σ S
      (do
        let a ← x
        unlessNever a do
          let bound ← locals
          let b ← y
          orNilExcept bound
          union a b)
      (do
        let a ← x'
        unlessNever a do
          let bound ← locals
          let b ← y'
          orNilExcept bound
          union a b)
      (W.Yields (fun τ U L a L' => ∃ b L₁, T τ U L b L₁ ∧
        Follows b L₁ (fun a L' => ∃ c L₂, R τ U L₁ c L₂ ∧
          Locals.OrNils τ.types L₁ L₂ L' ∧ τ.types.Joins b c a) a L') S) := by
  refine SafeIn.bindYields hx fun a σ₁ S₁ h₁ hto₁ hav => unlessNever_safe h₁ (SafeIn.locals ?_)
  refine (hy σ₁ S₁ h₁ hto₁).bind fun b σ₂ S₂ h₂ hto₂ ⟨hbv, hin, hR⟩ => ?_
  refine (orNilExcept_safe h₂ _).bind fun _ σ₃ S₃ h₃ hto₃ hor => ?_
  have hle := hto₃.extend.types
  refine (SafeIn.union h₃ ((hav.mono h₁.ok.types hto₂.extend.types).mono h₂.ok.types hle)
    (hbv.mono h₂.ok.types hle)).mono fun c σ' S' _ hto' ⟨hj, hcv, hS⟩ => ?_
  subst hS
  have hin' := hor.inside fun n d hd => ((h₂.scope.locals n d hd).2.mono h₂.ok.types hle).1
  refine ⟨hcv, ((hin.mono hle).trans hin').mono hto'.extend.types, fun τ U hs => ?_⟩
  have hs₃ := hto'.sees hs
  exact ⟨b, S₂.locals, hR τ U (hto₃.sees hs₃), hor.mono hs₃.later.types,
    hj.mono hs.later.types⟩

/-- Returning early with a value of type `a`. -/
theorem returns_safe (h : W.At σ S) {a : TypeId} (ha : σ.types.Values W.classes a) :
    W.SafeIn σ S
      (do
        let returns ← union (← scope).returns a
        modifyScope fun s => { s with returns }
        return .never)
      (do
        let returns ← union (← scope).returns a
        modifyScope fun s => { s with returns }
        return .never)
      (W.Yields (fun τ U L b L' => b = .never ∧ L' = L ∧ τ.types.Inside a U.returns) S) := by
  refine SafeIn.scope ((SafeIn.union h h.scope.returns ha).bind
    fun r σ₁ S₁ h₁ hto₁ ⟨hj, hrv, hS⟩ => ?_)
  subst hS
  refine (SafeIn.modifyScope h₁ (f := fun s => { s with returns := r })
    { h₁.scope with returns := hrv } { h₁.scope.records_refl with returns := hj.left } id).bind
    fun _ σ₂ S₂ h₂ hto₂ ⟨hσ, hS₂⟩ => ?_
  subst hσ
  have hL : S₂.locals = S₁.locals := by rw [hS₂]
  refine .pure h₂ ⟨.never h₂.ok.types, ?_, fun τ U hs => ⟨rfl, hL, ?_⟩⟩
  · rw [hL]
    exact h₁.scope.locals.refl
  · have hr := hs.records.returns
    rw [show S₂.returns = r by rw [hS₂]] at hr
    exact (hj.right.mono hs.later.types).trans hr

theorem tested?_known {t : Term} (h : W.Known t) : ∀ n ∈ tested? t, n ∈ W.names := by
  intro n hn
  refine h.1 n ?_
  cases t <;> first | exact hn | cases hn

section
variable (hv : W.Visits σ₀ visit)
include hv

set_option linter.unusedSectionVars false in
mutual

/-- Typing a term is safe, and yields the judgement. -/
theorem inferTerm_safe : ∀ {t : Term} {σ : State} {S : Scope}, t.Every W.Known → W.At σ S →
    W.Extends σ₀ σ → W.SafeIn σ S (inferTerm W.ctx visit t) (inferTerm W.ctx W.answer t)
      (W.Yields (fun τ U => W.Typed τ U t) S)
  | .nil site, σ, S, _, h, _ => by
    simp only [inferTerm, Typed]
    exact recorded_safe site (.pure h ⟨.nil h.ok.types W.five_le, h.scope.locals.refl,
      fun τ U _ => ⟨rfl, rfl⟩⟩)
  | .bool site _, σ, S, _, h, _ => by
    simp only [inferTerm, Typed]
    exact recorded_safe site (.pure h ⟨.bool h.ok.types W.five_le, h.scope.locals.refl,
      fun τ U _ => ⟨rfl, rfl⟩⟩)
  | .int site _, σ, S, _, h, _ => by
    simp only [inferTerm, Typed]
    exact recorded_safe site (.pure h ⟨.int h.ok.types W.five_le, h.scope.locals.refl,
      fun τ U _ => ⟨rfl, rfl⟩⟩)
  | .float site _, σ, S, _, h, _ => by
    simp only [inferTerm, Typed]
    exact recorded_safe site (.pure h ⟨.float h.ok.types W.five_le, h.scope.locals.refl,
      fun τ U _ => ⟨rfl, rfl⟩⟩)
  | .self site, σ, S, _, h, _ => by
    simp only [inferTerm, Typed]
    exact recorded_safe site (.scope (.pure h ⟨h.scope.self_values h.ok, h.scope.locals.refl,
      fun τ U hs => ⟨by rw [hs.records.self], rfl⟩⟩))
  | .var site n, σ, S, _, h, _ => by
    simp only [inferTerm, Typed]
    exact recorded_safe site (.local? (.pure h ⟨h.scope.local_values h.ok n, h.scope.locals.refl,
      fun τ U hs => ⟨rfl, rfl⟩⟩))
  | .assign site n value, σ, S, hk, h, h₀ => by
    simp only [Term.Every] at hk
    simp only [inferTerm, Typed]
    refine recorded_safe site ?_
    refine (inferTerm_safe hk.2 h h₀).bind fun a σ₁ S₁ h₁ hto₁ ⟨hav, hin, hT⟩ => ?_
    refine (assignLocal_safe h₁ (hk.1.1 n rfl) hav).bind fun _ σ₂ S₂ h₂ hto₂ ⟨hin₂, hA⟩ => ?_
    exact .pure h₂ ⟨hav.mono h₁.ok.types hto₂.extend.types,
      (hin.mono hto₂.extend.types).trans hin₂,
      fun τ U hs => ⟨S₁.locals, hT τ U (hto₂.sees hs), hA τ U hs⟩⟩
  | .ivar site n, σ, S, _, h, _ => by
    simp only [inferTerm, Typed]
    exact recorded_safe site (readIvar_safe h n)
  | .setIvar site n value, σ, S, hk, h, h₀ => by
    simp only [Term.Every] at hk
    simp only [inferTerm, Typed]
    refine recorded_safe site ?_
    refine (inferTerm_safe hk.2 h h₀).bind fun a σ₁ S₁ h₁ hto₁ ⟨hav, hin, hT⟩ => ?_
    refine (assignIvar_safe h₁ (hk.1.1 n rfl) hav).bind fun _ σ₂ S₂ h₂ hto₂ ⟨hS, hA⟩ => ?_
    subst hS
    exact .pure h₂ ⟨hav.mono h₁.ok.types hto₂.extend.types, hin.mono hto₂.extend.types,
      fun τ U hs => ⟨hT τ U (hto₂.sees hs), hA τ U hs⟩⟩
  | .const site n, σ, S, _, h, _ => by
    simp only [inferTerm, Typed]
    exact recorded_safe site (inferConst_safe h site n)
  | .call site receiver method args, σ, S, hk, h, h₀ => by
    simp only [Term.Every] at hk
    simp only [inferTerm, Typed]
    refine recorded_safe site (SafeIn.bindYields (inferTerm_safe hk.2.1 h h₀)
      fun a σ₁ S₁ h₁ hto₁ hav => ?_)
    refine unlessNever_safe h₁ (withArgs_safe
      (inferArgs_safe hk.2.2 h₁ (h₀.trans hto₁.extend)) fun as σ₂ S₂ h₂ hto₂ has => ?_)
    exact inferCallAt_safe h₂ hv (h₀.trans (hto₁.trans hto₂).extend) site
      ⟨_, hk.1.2 method rfl, rfl, nofun⟩
      (fun b hb => by cases hb; exact hav.mono h₁.ok.types hto₂.extend.types) has
  | .send site method args, σ, S, hk, h, h₀ => by
    simp only [Term.Every] at hk
    simp only [inferTerm, Typed]
    refine recorded_safe site (withArgs_safe (inferArgs_safe hk.2 h h₀)
      fun as σ₂ S₂ h₂ hto₂ has => ?_)
    exact inferCallAt_safe h₂ hv (h₀.trans hto₂.extend) site
      ⟨_, hk.1.2 method rfl, rfl, fun _ _ _ => rfl⟩ (fun b hb => by cases hb) has
  | .ifThen site test yes, σ, S, hk, h, h₀ => by
    simp only [Term.Every] at hk
    simp only [inferTerm, Typed]
    refine recorded_safe site (SafeIn.bindYields (inferTerm_safe hk.2.1 h h₀)
      fun a σ₁ S₁ h₁ hto₁ _ => unlessNever_safe h₁ (SafeIn.locals ?_))
    have h₀₁ := h₀.trans hto₁.extend
    refine (narrowing_safe h₁ (tested?_known hk.2.1.self) fun σ₂ S₂ h₂ hto₂ =>
      inferTerm_safe hk.2.2 h₂ (h₀₁.trans hto₂.extend)).bind
      fun c σ₂ S₂ h₂ hto₂ ⟨hcv, hin, hT⟩ => ?_
    refine (joining_safe h₂ (T := fun _ _ L d L' => d = .nil ∧ L' = L)
      (h₁.scope.locals.extend h₁.ok hto₂.extend) hin hcv fun σ₃ S₃ h₃ _ _ =>
      .pure h₃ ⟨.nil h₃.ok.types W.five_le, h₃.scope.locals.refl, fun _ _ _ => ⟨rfl, rfl⟩⟩).mono
      fun b σ' S' _ hto' ⟨hbv, hin', hj⟩ => ⟨hbv, hin', fun τ U hs => ?_⟩
    obtain ⟨d, L, ⟨rfl, rfl⟩, hjoin, hunion⟩ := hj τ U hs
    exact ⟨c, S₂.locals, hT τ U (hto'.sees hs), hjoin, hunion⟩
  | .ifElse site test yes no, σ, S, hk, h, h₀ => by
    simp only [Term.Every] at hk
    simp only [inferTerm, Typed]
    refine recorded_safe site (SafeIn.bindYields (inferTerm_safe hk.2.1 h h₀)
      fun a σ₁ S₁ h₁ hto₁ _ => unlessNever_safe h₁ (SafeIn.locals ?_))
    have h₀₁ := h₀.trans hto₁.extend
    refine (narrowing_safe h₁ (tested?_known hk.2.1.self) fun σ₂ S₂ h₂ hto₂ =>
      inferTerm_safe hk.2.2.1 h₂ (h₀₁.trans hto₂.extend)).bind
      fun c σ₂ S₂ h₂ hto₂ ⟨hcv, hin, hT⟩ => ?_
    have h₀₂ := h₀₁.trans hto₂.extend
    refine (joining_safe h₂ (h₁.scope.locals.extend h₁.ok hto₂.extend) hin hcv
      fun σ₃ S₃ h₃ hto₃ _ => inferTerm_safe hk.2.2.2 h₃ (h₀₂.trans hto₃.extend)).mono
      fun b σ' S' _ hto' ⟨hbv, hin', hj⟩ => ⟨hbv, hin', fun τ U hs => ?_⟩
    obtain ⟨d, L, hno, hjoin, hunion⟩ := hj τ U hs
    exact ⟨c, S₂.locals, d, L, hT τ U (hto'.sees hs), hno, hjoin, hunion⟩
  | .loop site test body, σ, S, hk, h, h₀ => by
    simp only [Term.Every] at hk
    simp only [inferTerm, Typed]
    refine recorded_safe site ?_
    refine (inferLoop_safe (fun σ₁ S₁ h₁ h₀₁ => inferTerm_safe hk.2.1 h₁ h₀₁)
      (fun σ₁ S₁ h₁ h₀₁ => inferTerm_safe hk.2.2 h₁ h₀₁) h h₀ site _ none fun hample => ?_).bind
      fun _ σ₁ S₁ h₁ _ ⟨hin, hr⟩ => ?_
    · have := hample.2
      omega
    · exact .pure h₁ ⟨.nil h₁.ok.types W.five_le, hin, fun τ U hs => ⟨rfl, hr τ U hs⟩⟩
  | .andAlso site left right, σ, S, hk, h, h₀ => by
    simp only [Term.Every] at hk
    simp only [inferTerm, Typed]
    exact recorded_safe site (connective_safe (inferTerm_safe hk.2.1 h h₀)
      fun σ₁ S₁ h₁ hto₁ => inferTerm_safe hk.2.2 h₁ (h₀.trans hto₁.extend))
  | .orElse site left right, σ, S, hk, h, h₀ => by
    simp only [Term.Every] at hk
    simp only [inferTerm, Typed]
    exact recorded_safe site (connective_safe (inferTerm_safe hk.2.1 h h₀)
      fun σ₁ S₁ h₁ hto₁ => inferTerm_safe hk.2.2 h₁ (h₀.trans hto₁.extend))
  | .ret site, σ, S, _, h, _ => by
    simp only [inferTerm, Typed]
    exact recorded_safe site (returns_safe h (.nil h.ok.types W.five_le))
  | .retValue site value, σ, S, hk, h, h₀ => by
    simp only [Term.Every] at hk
    simp only [inferTerm, Typed]
    refine recorded_safe site ((inferTerm_safe hk.2 h h₀).bind
      fun a σ₁ S₁ h₁ hto₁ ⟨hav, hin, hT⟩ => ?_)
    refine (returns_safe h₁ hav).mono fun b σ' S' _ hto' ⟨hbv, hin', hr⟩ => ?_
    refine ⟨hbv, (hin.mono hto'.extend.types).trans hin', fun τ U hs => ?_⟩
    obtain ⟨hb, hL, hret⟩ := hr τ U hs
    exact ⟨hb, a, hL ▸ hT τ U (hto'.sees hs), hret⟩
  | .block site stmts, σ, S, hk, h, h₀ => by
    simp only [Term.Every] at hk
    simp only [inferTerm, Typed]
    exact recorded_safe site (inferStmts_safe hk.2 h h₀ (.nil h.ok.types W.five_le))
  | .primitive site op args, σ, S, hk, h, h₀ => by
    simp only [Term.Every] at hk
    simp only [inferTerm, Typed]
    exact recorded_safe site (withArgs_safe (inferArgs_safe hk.2 h h₀)
      fun as σ₂ S₂ h₂ hto₂ has => inferPrimitive_safe h₂ site op has)

theorem inferArgs_safe : ∀ {ts : List Term} {σ : State} {S : Scope}, Term.EveryOf W.Known ts →
    W.At σ S → W.Extends σ₀ σ →
    W.SafeIn σ S (inferArgs W.ctx visit ts) (inferArgs W.ctx W.answer ts)
      (W.YieldsArgs (fun τ U => W.TypedArgs τ U ts) S)
  | [], σ, S, _, h, _ => by
    simp only [inferArgs, TypedArgs]
    exact .pure h ⟨fun as' has => by cases has; simp, h.scope.locals.refl, fun _ _ _ => ⟨rfl, rfl⟩⟩
  | t :: ts, σ, S, hk, h, h₀ => by
    simp only [Term.EveryOf] at hk
    simp only [inferArgs, TypedArgs]
    refine (inferTerm_safe hk.1 h h₀).bind fun a σ₁ S₁ h₁ hto₁ ⟨hav, hin, hT⟩ => ?_
    by_cases ha : a = .never
    · simp only [ha, if_true]
      exact .pure h₁ ⟨nofun, hin, fun τ U hs =>
        ⟨a, S₁.locals, hT τ U hs, .inl ⟨ha, rfl, rfl⟩⟩⟩
    · simp only [ha, if_false]
      refine (inferArgs_safe hk.2 h₁ (h₀.trans hto₁.extend)).bind
        fun as σ₂ S₂ h₂ hto₂ ⟨hasv, hin₂, hA⟩ => ?_
      refine .pure h₂ ⟨fun as' has b hb => ?_, (hin.mono hto₂.extend.types).trans hin₂,
        fun τ U hs => ⟨a, S₁.locals, hT τ U (hto₂.sees hs), .inr ⟨ha, as, hA τ U hs, rfl⟩⟩⟩
      obtain ⟨bs, hbs, rfl⟩ := Option.map_eq_some_iff.1 has
      rcases List.mem_cons.1 hb with rfl | hb
      · exact hav.mono h₁.ok.types hto₂.extend.types
      · exact hasv bs hbs b hb

theorem inferStmts_safe : ∀ {ts : List Term} {last : TypeId} {σ : State} {S : Scope},
    Term.EveryOf W.Known ts → W.At σ S → W.Extends σ₀ σ → σ.types.Values W.classes last →
    W.SafeIn σ S (inferStmts W.ctx visit last ts) (inferStmts W.ctx W.answer last ts)
      (W.Yields (fun τ U => W.TypedStmts τ U last ts) S)
  | [], last, σ, S, _, h, _, hl => by
    simp only [inferStmts, TypedStmts]
    exact .pure h ⟨hl, h.scope.locals.refl, fun _ _ _ => ⟨rfl, rfl⟩⟩
  | t :: ts, last, σ, S, hk, h, h₀, _ => by
    simp only [Term.EveryOf] at hk
    simp only [inferStmts, TypedStmts]
    exact SafeIn.bindYields (inferTerm_safe hk.1 h h₀) fun a σ₁ S₁ h₁ hto₁ hav =>
      unlessNever_safe h₁ (inferStmts_safe hk.2 h₁ (h₀.trans hto₁.extend) hav)

end

end

end World

end Multimethod
