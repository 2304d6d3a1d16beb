import Multimethod.Inference.Visit
import Multimethod.Proofs.Inference.State

/-!
# Safe computations

A computation of inference is safe from a state if it ends, in a state that extends the first one,
and if its error, should it end in one, is not the complaint that a limit was reached while the
limits are ample (`World.Safe`, `World.SafeIn` within a body). Within a body it is compared with a
second computation, in which visits answer with what is stored: if nothing has changed, the second
one, run from any later state, gives the same and leaves that state alone. The rules below follow
the monadic structure of inference.
-/

namespace Multimethod

open Inference TypeTable

namespace Inference

/-- What one scope has recorded, another has recorded too. -/
structure Records (t : TypeTable) (S S' : Scope) : Prop where
  self : S'.self = S.self
  selfClass : S'.selfClass = S.selfClass
  exprTypes : ∀ (e : ExprId) a, S.body.exprTypes[e]? = some a →
    ∃ b, S'.body.exprTypes[e]? = some b ∧ t.Inside a b
  rows : ∀ e r c callee, (S.body.dispatchAt e).find? r c = some callee →
    (S'.body.dispatchAt e).find? r c = some callee
  returns : t.Inside S.returns S'.returns

theorem Records.trans {t u : TypeTable} {S S₁ S' : Scope} (h : Records t S S₁)
    (h' : Records u S₁ S') (hle : t ≤ u) : Records u S S' where
  self := h'.self.trans h.self
  selfClass := h'.selfClass.trans h.selfClass
  exprTypes e a ha := by
    obtain ⟨b, hb, hab⟩ := h.exprTypes e a ha
    obtain ⟨d, hd, hbd⟩ := h'.exprTypes e b hb
    exact ⟨d, hd, (hab.mono hle).trans hbd⟩
  rows e r c callee hf := h'.rows e r c callee (h.rows e r c callee hf)
  returns := (h.returns.mono hle).trans h'.returns

/-- From the unchanged state `σ`, the later state `τ` with the scope `U` is in sight: `U` has
recorded what `S` has, and `τ` answers its calls as `σ` does. -/
structure Sees (σ : State) (S : Scope) (τ : State) (U : Scope) : Prop where
  unchanged : σ.changed = false
  later : Later σ τ (CalledBy U.body)
  records : Records τ.types S U

/-- The calls of the body under evaluation lead to what is reached, and so do all others. -/
def ClosedIn (σ : State) (S : Scope) : Prop := Closed σ ∧ ReachedBy σ S.body

end Inference

namespace World

variable (W : World)

/-- Locals of known names and of types of values. -/
def LocalsOk (σ : State) (L : Locals) : Prop :=
  ∀ (n : Name) a, L[n]? = some a → n ∈ W.names ∧ σ.types.Values W.classes a

/-- What holds of every scope within a body. -/
structure ScopeOk (σ : State) (S : Scope) : Prop where
  self : ∀ a ∈ S.self, (σ.types.shape a).IsValue W.classes
  selfClass : ∀ c ∈ S.selfClass, c.index < W.classes
  locals : W.LocalsOk σ S.locals
  returns : σ.types.Values W.classes S.returns
  exprTypes : ∀ (e : ExprId) a, S.body.exprTypes[e]? = some a → σ.types.Values W.classes a
  rows : W.RowsOk σ S.self S.body

/-- A state and a scope that are fine. -/
structure At (σ : State) (S : Scope) : Prop where
  ok : W.Ok σ
  scope : W.ScopeOk σ S

/-- What inference may do to a state and a scope. -/
structure To (σ : State) (S : Scope) (σ' : State) (S' : Scope) : Prop where
  extend : W.Extends σ σ'
  records : Records σ'.types S S'

/-- Limits that no loop of inference reaches. -/
def Ample : Prop :=
  2 * W.classes < W.ctx.limits.wideningRounds ∧
    W.names.card * (2 * W.classes + 1) < W.ctx.limits.loopRounds

/-- An error that may be reported: with ample limits, no limit is reached. -/
def Excused (e : TypeError) : Prop := W.Ample → ¬ e.IsDivergence

variable {W} {σ σ₁ σ' τ : State} {S S₁ S' U : Scope}

namespace LocalsOk

variable {L : Locals}

theorem extend (h : W.LocalsOk σ L) (hσ : W.Ok σ) (he : W.Extends σ σ') : W.LocalsOk σ' L :=
  fun n a ha => ⟨(h n a ha).1, (h n a ha).2.mono hσ.types he.types⟩

theorem insert (h : W.LocalsOk σ L) {n : Name} {a : TypeId} (hn : n ∈ W.names)
    (ha : σ.types.Values W.classes a) : W.LocalsOk σ (L.insert n a) := fun m b hb => by
  rw [Std.ExtTreeMap.getElem?_insert] at hb
  split at hb
  · rename_i hc
    cases hb
    rw [Std.compare_eq_iff_eq] at hc
    exact ⟨hc ▸ hn, ha⟩
  · exact h m b hb

theorem refl (h : W.LocalsOk σ L) : Locals.Inside σ.types L L :=
  fun n a ha => ⟨a, ha, .refl (h n a ha).2.1⟩

theorem getD_values (h : W.LocalsOk σ L) (n : Name) {d : TypeId}
    (hd : σ.types.Values W.classes d) : σ.types.Values W.classes (L[n]?.getD d) := by
  cases hn : L[n]? with
  | none => exact hd
  | some a => exact (h n a hn).2

end LocalsOk

namespace ScopeOk

theorem self_has (h : W.ScopeOk σ S) : ∀ a ∈ S.self, σ.types.Has a :=
  fun a ha => (Values.of_shape (h.self a ha)).1

theorem extend (h : W.ScopeOk σ S) (hσ : W.Ok σ) (he : W.Extends σ σ') : W.ScopeOk σ' S where
  self a ha := Values.isValue_mono he.types (h.self a ha)
  selfClass := h.selfClass
  locals := h.locals.extend hσ he
  returns := h.returns.mono hσ.types he.types
  exprTypes e a ha := (h.exprTypes e a ha).mono hσ.types he.types
  rows := he.rowsOk hσ.types h.self_has h.rows

theorem records_refl (h : W.ScopeOk σ S) : Records σ.types S S where
  self := rfl
  selfClass := rfl
  exprTypes e a ha := ⟨a, ha, .refl (h.exprTypes e a ha).1⟩
  rows _ _ _ _ hf := hf
  returns := .refl h.returns.1

/-- The type of a local as it is read. -/
theorem local_values (h : W.ScopeOk σ S) (hσ : W.Ok σ) (n : Name) :
    σ.types.Values W.classes (S.locals[n]?.getD .nil) :=
  h.locals.getD_values n (Values.nil hσ.types W.five_le)

theorem self_values (h : W.ScopeOk σ S) (hσ : W.Ok σ) :
    σ.types.Values W.classes (S.self.getD .object) := by
  cases hs : S.self with
  | none => exact Values.object hσ.types W.five_le
  | some a => exact Values.of_shape (h.self a hs)

/-- Other locals, of the same kind. -/
theorem setLocals (h : W.ScopeOk σ S) {L : Locals} (hL : W.LocalsOk σ L) :
    W.ScopeOk σ { S with locals := L } :=
  { h with locals := hL }

end ScopeOk

namespace To

theorem refl (h : W.At σ S) : W.To σ S σ S := ⟨.refl h.ok, h.scope.records_refl⟩

theorem trans (h : W.To σ S σ₁ S₁) (h' : W.To σ₁ S₁ σ' S') : W.To σ S σ' S' :=
  ⟨h.extend.trans h'.extend, h.records.trans h'.records h'.extend.types⟩

/-- What is in sight in the end was in sight before. -/
theorem sees (h : W.To σ S σ' S') (hs : Sees σ' S' τ U) : Sees σ S τ U where
  unchanged := h.extend.unchanged hs.unchanged
  later := h.extend.later hs.unchanged _ hs.later
  records := h.records.trans hs.records hs.later.types

end To

/-! ## Outside of bodies -/

section
variable {α β : Type} (W)

/-- What holds when a computation ends. -/
def Ending (σ : State) (P : α → State → Prop) : Except TypeError α → State → Prop
  | .ok a, σ' => P a σ' ∧ (Closed σ → Closed σ')
  | .error e, _ => W.Excused e

/-- The computation is safe from `σ` on, and gives a result with `P` if it gives one. -/
def Safe (σ : State) (x : Infer α) (P : α → State → Prop) : Prop :=
  ∃ r σ', x σ = some (r, σ') ∧ W.Ok σ' ∧ W.Extends σ σ' ∧ W.Ending σ P r σ'

variable {W} {x : Infer α} {f : α → Infer β} {P P' : α → State → Prop} {Q : β → State → Prop}

namespace Safe

theorem pure (h : W.Ok σ) {a : α} (hp : P a σ) : W.Safe σ (Pure.pure a) P :=
  ⟨.ok a, σ, rfl, h, .refl h, hp, id⟩

theorem throw (h : W.Ok σ) {e : TypeError} (he : W.Excused e) :
    W.Safe σ (MonadExcept.throw e : Infer α) P :=
  ⟨.error e, σ, rfl, h, .refl h, he⟩

theorem mono (h : W.Safe σ x P)
    (hp : ∀ a σ', W.Ok σ' → W.Extends σ σ' → P a σ' → P' a σ') : W.Safe σ x P' := by
  obtain ⟨r, σ', hx, hok, hext, hr⟩ := h
  refine ⟨r, σ', hx, hok, hext, ?_⟩
  cases r with
  | ok a => exact ⟨hp a σ' hok hext hr.1, hr.2⟩
  | error e => exact hr

theorem bind (h : W.Safe σ x P)
    (hf : ∀ a σ₁, W.Ok σ₁ → W.Extends σ σ₁ → P a σ₁ → W.Safe σ₁ (f a) Q) :
    W.Safe σ (x >>= f) Q := by
  obtain ⟨r, σ₁, hx, hok, hext, hr⟩ := h
  have run : (x >>= f) σ = (ExceptT.bindCont f r : Run (Except TypeError β)) σ₁ := by
    show (x σ >>= fun p => (ExceptT.bindCont f p.1 : Run (Except TypeError β)) p.2) = _
    rw [hx]; rfl
  cases r with
  | error e => exact ⟨.error e, σ₁, run, hok, hext, hr⟩
  | ok a =>
    obtain ⟨r', σ', hf', hok', hext', hr'⟩ := hf a σ₁ hok hext hr.1
    refine ⟨r', σ', run.trans hf', hok', hext.trans hext', ?_⟩
    cases r' with
    | error e => exact hr'
    | ok b => exact ⟨hr'.1, fun hc => hr'.2 (hr.2 hc)⟩

theorem congr {x' : Infer α} (hx : x σ = x' σ) (h : W.Safe σ x' P) : W.Safe σ x P := by
  obtain ⟨r, σ', h'⟩ := h
  exact ⟨r, σ', hx.trans h'.1, h'.2⟩

end Safe

end

/-- More types, and nothing else. -/
theorem Extends.of_types (h : W.Ok σ) {t : TypeTable} (ht : t.WF) (hle : σ.types ≤ t) :
    W.Ok { σ with types := t } ∧ W.Extends σ { σ with types := t } := by
  have hg : σ.Grows { σ with types := t } :=
    { types := hle
      ivars := fun c n a ha => ⟨a, ha, .refl ((h.ivars c n a ha).1.mono hle)⟩
      specs := fun s i hi => ⟨i, hi, rfl, .refl ((h.returns s i hi).1.mono hle)⟩ }
  have he : W.Extends σ { σ with types := t } :=
    { toGrows := hg
      stage := fun s i j hi hj => by cases hi.symm.trans hj; rfl
      done := fun s i hi _ _ => hi
      fresh := fun s j hs hj => by simp [hs] at hj
      pass := rfl
      changed := id
      same := fun _ => ⟨rfl, fun _ => rfl⟩
      weight_le := h.weight_le hg
      weight_lt := .inl }
  exact ⟨h.next he ht h.tree (fun c n a ha => (h.ivars c n a ha).mono h.types hle)
    (fun s i hi => (h.keys s i hi).mono hle)
    (fun s i hi => (h.returns s i hi).mono h.types hle) h.recent
    (fun s i hi => .inr ⟨i, hi, rfl, rfl⟩) fun s i hi _ _ => hi, he⟩

/-- A computation on the type table: it settles, and so it does nothing when it is repeated. -/
theorem Safe.onTypes {α : Type} {x : StateM TypeTable α} {P : α → TypeTable → Prop}
    (h : W.Ok σ) (hs : Settles σ.types x P) :
    W.Safe σ (Infer.onTypes x) fun a σ' => P a σ'.types ∧ σ'.changed = σ.changed ∧
      ∀ τ : State, τ.types.WF → σ'.types ≤ τ.types → Infer.onTypes x τ = some (.ok a, τ) := by
  obtain ⟨hok, hext⟩ := Extends.of_types h hs.wf hs.le
  refine ⟨.ok (x σ.types).1, { σ with types := (x σ.types).2 }, rfl, hok, hext,
    ⟨hs.post, rfl, fun τ hτ hle => ?_⟩, fun hc => hc⟩
  show some (Except.ok (x τ.types).1, { τ with types := (x τ.types).2 }) = _
  rw [hs.again τ.types hτ hle]

/-! ## Within bodies -/

section
variable {α β : Type} (W)

/-- What holds when a computation within a body ends. -/
def EndingIn (σ : State) (S : Scope) (y : InferIn α) (P : α → State → Scope → Prop) :
    Except TypeError α → State → Scope → Prop
  | .ok a, σ', S' => P a σ' S' ∧ (ClosedIn σ S → ClosedIn σ' S') ∧
      ∀ τ U, Sees σ' S' τ U → W.Recalls τ → y (τ, S) = some (.ok a, τ, S')
  | .error e, _, _ => W.Excused e

/-- The computation `x` is safe from `σ` and `S` on, gives a result with `P` if it gives one, and
is repeated by `y`. -/
def SafeIn (σ : State) (S : Scope) (x y : InferIn α) (P : α → State → Scope → Prop) : Prop :=
  ∃ r σ' S', x (σ, S) = some (r, σ', S') ∧ W.At σ' S' ∧ W.To σ S σ' S' ∧
    W.EndingIn σ S y P r σ' S'

variable {W} {x y : InferIn α} {f g : α → InferIn β} {P P' : α → State → Scope → Prop}
  {Q : β → State → Scope → Prop}

namespace SafeIn

theorem pure (h : W.At σ S) {a : α} (hp : P a σ S) :
    W.SafeIn σ S (Pure.pure a) (Pure.pure a) P :=
  ⟨.ok a, σ, S, rfl, h, .refl h, hp, id, fun _ _ _ _ => rfl⟩

theorem throw (h : W.At σ S) {e : TypeError} (he : W.Excused e) :
    W.SafeIn σ S (MonadExcept.throw e) y P :=
  ⟨.error e, σ, S, rfl, h, .refl h, he⟩

theorem mono (h : W.SafeIn σ S x y P)
    (hp : ∀ a σ' S', W.At σ' S' → W.To σ S σ' S' → P a σ' S' → P' a σ' S') :
    W.SafeIn σ S x y P' := by
  obtain ⟨r, σ', S', hx, hat, hto, hr⟩ := h
  refine ⟨r, σ', S', hx, hat, hto, ?_⟩
  cases r with
  | ok a => exact ⟨hp a σ' S' hat hto hr.1, hr.2⟩
  | error e => exact hr

theorem bind (h : W.SafeIn σ S x y P)
    (hf : ∀ a σ₁ S₁, W.At σ₁ S₁ → W.To σ S σ₁ S₁ → P a σ₁ S₁ → W.SafeIn σ₁ S₁ (f a) (g a) Q) :
    W.SafeIn σ S (x >>= f) (y >>= g) Q := by
  obtain ⟨r, σ₁, S₁, hx, hat, hto, hr⟩ := h
  have run : (x >>= f) (σ, S) =
      (ExceptT.bindCont f r : ScopeRun (Except TypeError β)) (σ₁, S₁) := by
    show (x (σ, S) >>= fun p => (ExceptT.bindCont f p.1 : ScopeRun (Except TypeError β)) p.2) = _
    rw [hx]; rfl
  cases r with
  | error e => exact ⟨.error e, σ₁, S₁, run, hat, hto, hr⟩
  | ok a =>
    obtain ⟨r', σ', S', hf', hat', hto', hr'⟩ := hf a σ₁ S₁ hat hto hr.1
    refine ⟨r', σ', S', run.trans hf', hat', hto.trans hto', ?_⟩
    cases r' with
    | error e => exact hr'
    | ok b =>
      refine ⟨hr'.1, fun hc => hr'.2.1 (hr.2.1 hc), fun τ U hs hrec => ?_⟩
      show (y (τ, S) >>= fun p =>
        (ExceptT.bindCont g p.1 : ScopeRun (Except TypeError β)) p.2) = _
      rw [hr.2.2 τ U (hto'.sees hs) hrec]
      exact hr'.2.2 τ U hs hrec

/-- That the second computation repeats the first is a part of what holds in the end. -/
theorem again (h : W.SafeIn σ S x y P) : W.SafeIn σ S x y fun a σ' S' => P a σ' S' ∧
    ∀ τ U, Sees σ' S' τ U → W.Recalls τ → y (τ, S) = some (.ok a, τ, S') := by
  obtain ⟨r, σ', S', hx, hat, hto, hr⟩ := h
  refine ⟨r, σ', S', hx, hat, hto, ?_⟩
  cases r with
  | ok a => exact ⟨⟨hr.1, hr.2.2⟩, hr.2⟩
  | error e => exact hr

/-- A computation on the type table. -/
theorem onTypes {x : StateM TypeTable α} {P : α → TypeTable → Prop} (h : W.At σ S)
    (hs : Settles σ.types x P) :
    W.SafeIn σ S (InferIn.onTypes x) (InferIn.onTypes x)
      fun a σ' S' => P a σ'.types ∧ S' = S := by
  obtain ⟨hok, hext⟩ := Extends.of_types h.ok hs.wf hs.le
  have hat : W.At { σ with types := (x σ.types).2 } S := ⟨hok, h.scope.extend h.ok hext⟩
  refine ⟨.ok (x σ.types).1, _, S, rfl, hat, ⟨hext, hat.scope.records_refl⟩, ⟨hs.post, rfl⟩,
    id, fun τ U hτ _ => ?_⟩
  show some (Except.ok (x τ.types).1, { τ with types := (x τ.types).2 }, S) = _
  rw [hs.again τ.types hτ.later.wf hτ.later.types]

theorem union (h : W.At σ S) {a b : TypeId} (ha : σ.types.Values W.classes a)
    (hb : σ.types.Values W.classes b) :
    W.SafeIn σ S (InferIn.union a b) (InferIn.union a b) fun c σ' S' =>
      σ'.types.Joins a b c ∧ σ'.types.Values W.classes c ∧ S' = S :=
  (onTypes h (union_joins h.ok.types ha.1 hb.1)).mono fun _ _ _ _ hto hc =>
    ⟨hc.1, Values.of_joins hc.1 (ha.mono h.ok.types hto.extend.types)
      (hb.mono h.ok.types hto.extend.types), hc.2⟩

/-- Looking at the scope. -/
theorem scope {f g : Scope → InferIn β} (h : W.SafeIn σ S (f S) (g S) Q) :
    W.SafeIn σ S (InferIn.scope >>= f) (InferIn.scope >>= g) Q := h

theorem locals {f g : Locals → InferIn β} (h : W.SafeIn σ S (f S.locals) (g S.locals) Q) :
    W.SafeIn σ S (InferIn.locals >>= f) (InferIn.locals >>= g) Q := h

theorem local? {f g : Option TypeId → InferIn β} {n : Name}
    (h : W.SafeIn σ S (f S.locals[n]?) (g S.locals[n]?) Q) :
    W.SafeIn σ S (InferIn.local? n >>= f) (InferIn.local? n >>= g) Q := h

/-- Looking at the state: what is made of it must not depend on what later states add. -/
theorem get {f g : State × Scope → InferIn β} (h : W.SafeIn σ S (f (σ, S)) (g (σ, S)) Q)
    (hg : ∀ τ U, Sees σ S τ U → g (τ, S) = g (σ, S)) :
    W.SafeIn σ S (do f (← MonadState.get)) (do g (← MonadState.get)) Q := by
  obtain ⟨r, σ', S', hx, hat, hto, hr⟩ := h
  refine ⟨r, σ', S', hx, hat, hto, ?_⟩
  cases r with
  | error e => exact hr
  | ok b =>
    refine ⟨hr.1, hr.2.1, fun τ U hs hrec => ?_⟩
    show g (τ, S) (τ, S) = _
    rw [hg τ U (hto.sees hs)]
    exact hr.2.2 τ U hs hrec

theorem modifyScope (h : W.At σ S) {f : Scope → Scope} (hS : W.ScopeOk σ (f S))
    (hrec : Records σ.types S (f S)) (hc : ReachedBy σ S.body → ReachedBy σ (f S).body) :
    W.SafeIn σ S (InferIn.modifyScope f) (InferIn.modifyScope f) fun _ σ' S' =>
      σ' = σ ∧ S' = f S :=
  ⟨.ok (), σ, f S, rfl, ⟨h.ok, hS⟩, ⟨.refl h.ok, hrec⟩, ⟨rfl, rfl⟩, fun h => ⟨h.1, hc h.2⟩,
    fun _ _ _ _ => rfl⟩

theorem setLocals (h : W.At σ S) {L : Locals} (hL : W.LocalsOk σ L) :
    W.SafeIn σ S (InferIn.setLocals L) (InferIn.setLocals L) fun _ σ' S' =>
      σ' = σ ∧ S' = { S with locals := L } :=
  modifyScope h (h.scope.setLocals hL) { h.scope.records_refl with } id

theorem setLocal (h : W.At σ S) {n : Name} {a : TypeId} (hn : n ∈ W.names)
    (ha : σ.types.Values W.classes a) :
    W.SafeIn σ S (InferIn.setLocal n a) (InferIn.setLocal n a) fun _ σ' S' =>
      σ' = σ ∧ S' = { S with locals := S.locals.insert n a } :=
  modifyScope h (h.scope.setLocals (h.scope.locals.insert hn ha)) { h.scope.records_refl with } id

end SafeIn

end

end World

end Multimethod
