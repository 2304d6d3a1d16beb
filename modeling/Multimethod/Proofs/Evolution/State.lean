import Multimethod.Proofs.Inference.Visit
import Multimethod.Proofs.Specialization.History

/-!
# How states and scopes evolve

Nothing is asked of a state here but that every type it mentions is described. Whatever inference
does to such a state, and however that ends, the state gets wider, stages stay as they are, and a
specialization that is being evaluated further out keeps its return type and notes each answer that
is given for it (`State.Evolves`). Within a body the scope records more and more (`Scope.Widens`).
The rules below say so for the computations that inference is made of.
-/

namespace Multimethod

open Inference TypeTable

namespace Inference

/-! ## Courses of computations -/

section
variable {S α β : Type} {R : S → S → Prop} {s : S} {x : ExceptT TypeError (StateT S Option) α}
  {f : α → ExceptT TypeError (StateT S Option) β} {P P' : α → S → Prop} {Q : β → S → Prop}

/-- However `x` ends when it is run from `s`, it ends where `R` leads from there, and a result has
`P`. -/
def Course (R : S → S → Prop) (s : S) (x : ExceptT TypeError (StateT S Option) α)
    (P : α → S → Prop) : Prop :=
  ∀ r s', x s = some (r, s') → R s s' ∧ ∀ a, r = .ok a → P a s'

namespace Course

theorem pure (h : R s s) {a : α} (hp : P a s) : Course R s (Pure.pure a) P := by
  intro r s' hx
  cases hx
  exact ⟨h, fun b hb => by cases hb; exact hp⟩

theorem throw (h : R s s) {e : TypeError} :
    Course R s (MonadExcept.throw e : ExceptT TypeError (StateT S Option) α) P := by
  intro r s' hx
  cases hx
  exact ⟨h, fun b hb => by cases hb⟩

theorem mono (h : Course R s x P) (hp : ∀ a s', R s s' → P a s' → P' a s') : Course R s x P' := by
  intro r s' hx
  obtain ⟨hr, hok⟩ := h r s' hx
  exact ⟨hr, fun a ha => hp a s' hr (hok a ha)⟩

theorem bind [IsTrans S R] (h : Course R s x P)
    (hf : ∀ a s₁, R s s₁ → P a s₁ → Course R s₁ (f a) Q) : Course R s (x >>= f) Q := by
  intro r s' hx
  change (x s >>= fun p => (ExceptT.bindCont f p.1 : StateT S Option _) p.2) = _ at hx
  obtain ⟨⟨r₁, s₁⟩, hx₁, hx⟩ := Option.bind_eq_some_iff.1 hx
  obtain ⟨h₁, hok⟩ := h r₁ s₁ hx₁
  cases r₁ with
  | error e =>
    cases hx
    exact ⟨h₁, fun b hb => by cases hb⟩
  | ok a =>
    obtain ⟨h', hok'⟩ := hf a s₁ h₁ (hok a rfl) r s' hx
    exact ⟨IsTrans.trans _ _ _ h₁ h', hok'⟩

/-- Looking at the state. -/
theorem get {f : S → ExceptT TypeError (StateT S Option) β} (h : Course R s (f s) Q) :
    Course R s (do f (← MonadState.get)) Q := h

/-- Handing on how a computation ended. -/
theorem attempt (h : Course R s x P) :
    Course R s (ExceptT.lift x.run) fun r s' => ∀ a, r = .ok a → P a s' := by
  intro r s' hx
  change (x s >>= fun p => some (Except.ok p.1, p.2)) = _ at hx
  obtain ⟨⟨r₁, s₁⟩, hx₁, hx⟩ := Option.bind_eq_some_iff.1 hx
  cases hx
  obtain ⟨hr, hok⟩ := h r₁ s₁ hx₁
  exact ⟨hr, fun a ha => by cases ha; exact hok⟩

/-- Ending as a computation ended. -/
theorem ended (h : R s s) {r : Except TypeError α} (hp : ∀ a, r = .ok a → P a s) :
    Course R s (ExceptT.mk (Pure.pure r)) P := by
  intro r' s' hx
  cases hx
  exact ⟨h, hp⟩

end Course

end

/-! ## States -/

/-- A state that mentions no types but those that are described. -/
structure State.Described (ctx : Context) (σ : State) : Prop where
  types : σ.types.WF
  restrictions : ∀ m md i a, ctx.methods.get? m = some md → md.declared i = some a → σ.types.Has a
  ivars : ∀ c n a, σ.hierarchy.ivarType c n = some a → σ.types.Has a
  receivers : ∀ s i, σ.specs.get? s = some i → ∀ a ∈ i.key.receiver, σ.types.Has a
  args : ∀ s i, σ.specs.get? s = some i → ∀ a ∈ i.key.args, σ.types.Has a
  returns : ∀ s i, σ.specs.get? s = some i → σ.types.Has i.returnType

/-- A specialization whose evaluation waits for what goes on: what it returns stays the same, and is
what is answered for it. -/
structure Waits (i j : Specialization) : Prop where
  returnType : j.returnType = i.returnType
  answers : ∃ n, j.answers = List.replicate n i.returnType ++ i.answers

theorem Waits.refl (i : Specialization) : Waits i i := ⟨rfl, 0, rfl⟩

theorem Waits.trans {i j k : Specialization} (h : Waits i j) (h' : Waits j k) : Waits i k := by
  obtain ⟨hr, n, hn⟩ := h
  obtain ⟨hr', n', hn'⟩ := h'
  refine ⟨hr'.trans hr, n' + n, ?_⟩
  rw [hn', hn, hr, List.replicate_add, List.append_assoc]

/-- `σ'` comes of `σ`. Evaluations are under way in `σ'` just where they are in `σ`, and all of
them wait but that of `own`. -/
structure State.Evolves (ctx : Context) (own : Option SpecId) (σ σ' : State) : Prop
    extends σ.Grows σ' where
  described : σ'.Described ctx
  pass : σ'.pass = σ.pass
  later : σ.specs.Later σ'.specs
  fresh : ∀ s j, σ.specs.get? s = none → σ'.specs.get? s = some j → j.stage = .idle
  stage : ∀ s i j, σ.specs.get? s = some i → σ'.specs.get? s = some j → j.stage = i.stage
  waits : ∀ s i j, own ≠ some s → σ.specs.get? s = some i → σ'.specs.get? s = some j →
    i.stage = .running → Waits i j

variable {ctx : Context} {own : Option SpecId} {σ σ₁ σ' : State}

namespace State.Described

theorem grows_refl (D : σ.Described ctx) : σ.Grows σ where
  types := le_refl _
  ivars c n a ha := ⟨a, ha, .refl (D.ivars c n a ha)⟩
  specs s i hi := ⟨i, hi, rfl, .refl (D.returns s i hi)⟩

/-- The tables that resolution reads have the restrictions of all methods. -/
theorem registry (D : σ.Described ctx) :
    Registry.Described ⟨ctx.names, ctx.core, σ.hierarchy, ctx.methods⟩ σ.types :=
  D.restrictions

theorem has_ivarType (D : σ.Described ctx) (c : ClassId) (n : Name) :
    σ.types.Has ((σ.hierarchy.ivarType c n).getD .never) := by
  cases h : σ.hierarchy.ivarType c n with
  | none => exact D.types.has_never
  | some a => exact D.ivars c n a h

/-- More types, and nothing else. -/
theorem of_types (D : σ.Described ctx) {t : TypeTable} (H : t.WF) (hle : σ.types ≤ t) :
    State.Described ctx { σ with types := t } where
  types := H
  restrictions m md i a h h' := (D.restrictions m md i a h h').mono hle
  ivars c n a h := (D.ivars c n a h).mono hle
  receivers s i h a ha := (D.receivers s i h a ha).mono hle
  args s i h a ha := (D.args s i h a ha).mono hle
  returns s i h := (D.returns s i h).mono hle

end State.Described

namespace State.Evolves

theorem refl (D : σ.Described ctx) : σ.Evolves ctx own σ where
  toGrows := D.grows_refl
  described := D
  pass := rfl
  later := .refl _
  fresh s j h h' := by cases h.symm.trans h'
  stage s i j h h' := by cases h.symm.trans h'; rfl
  waits s i j _ h h' _ := by cases h.symm.trans h'; exact .refl i

theorem trans (h : σ.Evolves ctx own σ₁) (h' : σ₁.Evolves ctx own σ') : σ.Evolves ctx own σ' where
  toGrows := h.toGrows.trans h'.toGrows
  described := h'.described
  pass := h'.pass.trans h.pass
  later := h.later.trans h'.later
  fresh s k hs hk := by
    cases hj : σ₁.specs.get? s with
    | none => exact h'.fresh s k hj hk
    | some j => exact (h'.stage s j k hj hk).trans (h.fresh s j hs hj)
  stage s i k hi hk := by
    obtain ⟨j, hj, -⟩ := h.specs s i hi
    exact (h'.stage s j k hj hk).trans (h.stage s i j hi hj)
  waits s i k hs hi hk hrun := by
    obtain ⟨j, hj, -⟩ := h.specs s i hi
    have hrun' := (h.stage s i j hi hj).trans hrun
    exact (h.waits s i j hs hi hj hrun).trans (h'.waits s j k hs hj hk hrun')

instance : IsTrans State (State.Evolves ctx own) := ⟨fun _ _ _ => trans⟩

/-- If all evaluations wait, then all but one do. -/
theorem but (h : σ.Evolves ctx none σ') (own : Option SpecId) : σ.Evolves ctx own σ' :=
  { h with waits := fun s i j _ => h.waits s i j nofun }

/-- A state that differs in types and instance variables only. -/
theorem of_tables {t : TypeTable} {h : Hierarchy} {changed : Bool}
    (D : State.Described ctx { σ with types := t, hierarchy := h, changed := changed })
    (hle : σ.types ≤ t) (hi : ∀ c n a, σ.hierarchy.ivarType c n = some a →
      ∃ b, h.ivarType c n = some b ∧ t.Inside a b) :
    σ.Evolves ctx none { σ with types := t, hierarchy := h, changed := changed } where
  types := hle
  ivars := hi
  specs s i hi := ⟨i, hi, rfl, .refl (D.returns s i hi)⟩
  described := D
  pass := rfl
  later := .refl _
  fresh s j h h' := by cases h.symm.trans h'
  stage s i j h h' := by cases h.symm.trans h'; rfl
  waits s i j _ h h' _ := by cases h.symm.trans h'; exact .refl i

theorem of_types {t : TypeTable} (D : σ.Described ctx) (H : t.WF) (hle : σ.types ≤ t) :
    σ.Evolves ctx none { σ with types := t } :=
  .of_tables (D.of_types H hle) hle fun c n a ha => ⟨a, ha, .refl ((D.ivars c n a ha).mono hle)⟩

end State.Evolves

/-! ## Outside of bodies -/

namespace Course

/-- A computation on the type table. -/
theorem onTypes {α : Type} {x : StateM TypeTable α} {P : α → TypeTable → Prop}
    (D : σ.Described ctx) (hs : Settles σ.types x P) :
    Course (State.Evolves ctx none) σ (Infer.onTypes x) fun a σ' => P a σ'.types := by
  intro r σ' hx
  cases hx
  refine ⟨.of_types D hs.wf hs.le, fun a ha => ?_⟩
  cases ha
  exact hs.post

/-- A computation on the type table that may end in a type error. -/
theorem resolving {α : Type} {x : ExceptT TypeError (StateM TypeTable) α}
    {P : α → TypeTable → Prop} (D : σ.Described ctx)
    (hs : Settles σ.types x.run fun r t => ∀ a, r = .ok a → P a t) :
    Course (State.Evolves ctx none) σ (Infer.resolving x) fun a σ' => P a σ'.types := by
  refine (onTypes D hs).bind fun r σ₁ h₁ hr => ?_
  cases r with
  | error e => exact .throw (.refl h₁.described)
  | ok a => exact .pure (.refl h₁.described) (hr a rfl)

theorem union {a b : TypeId} (D : σ.Described ctx) (ha : σ.types.Has a) (hb : σ.types.Has b) :
    Course (State.Evolves ctx none) σ (Infer.union a b) fun c σ' => σ'.types.Joins a b c :=
  onTypes D (union_joins D.types ha hb)

end Course

/-! ## Scopes -/

/-- Locals of types that are described. -/
def Locals.Described (t : TypeTable) (L : Locals) : Prop :=
  ∀ (n : Name) a, L[n]? = some a → t.Has a

/-- A scope that mentions no types but those that are described. -/
structure Scope.Described (t : TypeTable) (S : Scope) : Prop where
  self : ∀ a ∈ S.self, t.Has a
  locals : Locals.Described t S.locals
  returns : t.Has S.returns
  exprTypes : ∀ (e : ExprId) a, S.body.exprTypes[e]? = some a → t.Has a

/-- What one scope has recorded, another has recorded too, or something wider; it has the same
`self`, and dispatch rows for the same types and maybe more. -/
structure Scope.Widens (t : TypeTable) (S S' : Scope) : Prop where
  self : S'.self = S.self
  selfClass : S'.selfClass = S.selfClass
  returns : t.Inside S.returns S'.returns
  exprTypes : ∀ (e : ExprId) a, S.body.exprTypes[e]? = some a →
    ∃ b, S'.body.exprTypes[e]? = some b ∧ t.Inside a b
  rows : ∀ e r as, ((S.body.dispatchAt e).find? r as).isSome →
    ((S'.body.dispatchAt e).find? r as).isSome

/-- A state and a scope that mention no types but those that are described. -/
structure Fine (ctx : Context) (p : State × Scope) : Prop where
  state : p.1.Described ctx
  scope : p.2.Described p.1.types

/-- A state and a scope come of others. Evaluations that are under way wait. -/
structure EvolvesIn (ctx : Context) (p q : State × Scope) : Prop where
  state : p.1.Evolves ctx none q.1
  scope : p.2.Widens q.1.types q.2
  described : q.2.Described q.1.types

variable {t u : TypeTable} {S S' : Scope} {L : Locals} {p q : State × Scope} {n : Name}
  {a : TypeId}

namespace Locals.Described

theorem mono (h : Locals.Described t L) (hle : t ≤ u) : Locals.Described u L :=
  fun n a ha => (h n a ha).mono hle

theorem refl (h : Locals.Described t L) : Locals.Inside t L L :=
  fun n a ha => ⟨a, ha, .refl (h n a ha)⟩

theorem getD (h : Locals.Described t L) {d : TypeId} (hd : t.Has d) (n : Name) :
    t.Has (L[n]?.getD d) := by
  cases hn : L[n]? with
  | none => exact hd
  | some a => exact h n a hn

theorem insert (h : Locals.Described t L) (ha : t.Has a) : Locals.Described t (L.insert n a) := by
  intro m b hb
  rw [Std.ExtTreeMap.getElem?_insert] at hb
  split at hb
  · cases hb
    exact ha
  · exact h m b hb

end Locals.Described

namespace Scope

theorem Described.mono (h : S.Described t) (hle : t ≤ u) : S.Described u where
  self a ha := (h.self a ha).mono hle
  locals := h.locals.mono hle
  returns := h.returns.mono hle
  exprTypes e a ha := (h.exprTypes e a ha).mono hle

theorem Described.widens_refl (h : S.Described t) : S.Widens t S where
  self := rfl
  selfClass := rfl
  returns := .refl h.returns
  exprTypes e a ha := ⟨a, ha, .refl (h.exprTypes e a ha)⟩
  rows _ _ _ := id

/-- The type of `self`, if there is none that of any object. -/
theorem Described.has_self (h : S.Described t) (H : t.WF) : t.Has (S.self.getD .object) := by
  cases hs : S.self with
  | none => exact H.has_object
  | some a => exact h.self a hs

theorem Widens.trans {S₁ : Scope} (h : S.Widens t S₁) (h' : S₁.Widens u S') (hle : t ≤ u) :
    S.Widens u S' where
  self := h'.self.trans h.self
  selfClass := h'.selfClass.trans h.selfClass
  returns := (h.returns.mono hle).trans h'.returns
  exprTypes e a ha := by
    obtain ⟨b, hb, hab⟩ := h.exprTypes e a ha
    obtain ⟨c, hc, hbc⟩ := h'.exprTypes e b hb
    exact ⟨c, hc, (hab.mono hle).trans hbc⟩
  rows e r as hr := h'.rows e r as (h.rows e r as hr)

end Scope

namespace EvolvesIn

theorem refl (h : Fine ctx p) : EvolvesIn ctx p p :=
  ⟨.refl h.state, h.scope.widens_refl, h.scope⟩

theorem trans {p₁ : State × Scope} (h : EvolvesIn ctx p p₁) (h' : EvolvesIn ctx p₁ q) :
    EvolvesIn ctx p q :=
  ⟨h.state.trans h'.state, h.scope.trans h'.scope h'.state.types, h'.described⟩

theorem fine (h : EvolvesIn ctx p q) : Fine ctx q := ⟨h.state.described, h.described⟩

theorem types (h : EvolvesIn ctx p q) : p.1.types ≤ q.1.types := h.state.types

instance : IsTrans (State × Scope) (EvolvesIn ctx) := ⟨fun _ _ _ => trans⟩

end EvolvesIn

/-! ## Within bodies -/

namespace Course

section
variable {β : Type} {Q : β → State × Scope → Prop}

theorem scope {f : Scope → InferIn β} (h : Course (EvolvesIn ctx) p (f p.2) Q) :
    Course (EvolvesIn ctx) p (InferIn.scope >>= f) Q := h

theorem locals {f : Locals → InferIn β} (h : Course (EvolvesIn ctx) p (f p.2.locals) Q) :
    Course (EvolvesIn ctx) p (InferIn.locals >>= f) Q := h

theorem local? {f : Option TypeId → InferIn β}
    (h : Course (EvolvesIn ctx) p (f p.2.locals[n]?) Q) :
    Course (EvolvesIn ctx) p (InferIn.local? n >>= f) Q := h

end

/-- A computation that has nothing to do with the scope. -/
theorem lift {α : Type} {x : Infer α} {P : α → State → Prop} (h : Fine ctx p)
    (hx : Course (State.Evolves ctx none) p.1 x P) :
    Course (EvolvesIn ctx) p (InferIn.lift x) fun a q => P a q.1 ∧ q.2 = p.2 := by
  obtain ⟨σ, S⟩ := p
  intro r q hq
  change (x σ >>= fun p => some (p.1, p.2, S)) = _ at hq
  obtain ⟨⟨r', σ'⟩, hx', hq⟩ := Option.bind_eq_some_iff.1 hq
  cases hq
  obtain ⟨he, hok⟩ := hx _ _ hx'
  have hS := h.scope.mono he.types
  exact ⟨⟨he, hS.widens_refl, hS⟩, fun a ha => ⟨hok a ha, rfl⟩⟩

theorem onTypesIn {α : Type} {x : StateM TypeTable α} {P : α → TypeTable → Prop} (h : Fine ctx p)
    (hs : Settles p.1.types x P) :
    Course (EvolvesIn ctx) p (InferIn.onTypes x) fun a q => P a q.1.types ∧ q.2 = p.2 :=
  lift h (onTypes h.state hs)

theorem unionIn {a b : TypeId} (h : Fine ctx p) (ha : p.1.types.Has a) (hb : p.1.types.Has b) :
    Course (EvolvesIn ctx) p (InferIn.union a b) fun c q =>
      q.1.types.Joins a b c ∧ q.2 = p.2 :=
  onTypesIn h (union_joins h.state.types ha hb)

theorem modifyScope {f : Scope → Scope} (h : Fine ctx p) (hw : p.2.Widens p.1.types (f p.2))
    (hf : (f p.2).Described p.1.types) :
    Course (EvolvesIn ctx) p (InferIn.modifyScope f) fun _ q => q = (p.1, f p.2) := by
  intro r q hq
  cases hq
  exact ⟨⟨.refl h.state, hw, hf⟩, fun _ _ => rfl⟩

theorem setLocals (h : Fine ctx p) (hL : Locals.Described p.1.types L) :
    Course (EvolvesIn ctx) p (InferIn.setLocals L) fun _ q =>
      q = (p.1, { p.2 with locals := L }) :=
  modifyScope h { h.scope.widens_refl with } { h.scope with locals := hL }

theorem setLocal (h : Fine ctx p) (ha : p.1.types.Has a) :
    Course (EvolvesIn ctx) p (InferIn.setLocal n a) fun _ q =>
      q = (p.1, { p.2 with locals := p.2.locals.insert n a }) :=
  modifyScope h { h.scope.widens_refl with } { h.scope with locals := h.scope.locals.insert ha }

end Course

end Inference

end Multimethod
