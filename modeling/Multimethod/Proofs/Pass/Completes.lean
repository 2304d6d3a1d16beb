import Multimethod.Proofs.Inference.Visit
import Multimethod.Proofs.Pass.Under

/-!
# Computations that run to their end

Comparing two passes needs to know of both values and errors in what state they leave behind, so
here a computation completes with a postcondition on either (`World.Completes`,
`World.CompletesIn` within a body). It ends, in a state that extends the first one. The rules follow
the monadic structure of inference; a computation that is safe and never ends in an error
(`InferIn.Sure`) completes with what it is known to give.
-/

namespace Multimethod

open Inference TypeTable

/-- What exists under a condition. -/
theorem exists_of_imp {p : Prop} {α : Type} [Nonempty α] {Q : α → Prop} (h : p → ∃ a, Q a) :
    ∃ a, p → Q a := by
  by_cases hp : p
  · obtain ⟨a, ha⟩ := h hp
    exact ⟨a, fun _ => ha⟩
  · exact ⟨Classical.arbitrary α, fun h => absurd h hp⟩

theorem exists_of_imp₂ {p : Prop} {α β : Type} [Nonempty α] [Nonempty β] {Q : α → β → Prop}
    (h : p → ∃ a b, Q a b) : ∃ a b, p → Q a b := by
  obtain ⟨a, ha⟩ := exists_of_imp h
  obtain ⟨b, hb⟩ := exists_of_imp ha
  exact ⟨a, b, hb⟩

/-! ## Computations without errors -/

namespace InferIn

variable {α β : Type} {x : InferIn α} {f : α → InferIn β}

/-- The computation does not end in an error. -/
def Sure (x : InferIn α) : Prop := ∀ s r s', x s = some (r, s') → ∃ a, r = .ok a

namespace Sure

theorem pure (a : α) : Sure (Pure.pure a : InferIn α) := fun _ _ _ h => ⟨a, by cases h; rfl⟩

theorem bind (hx : Sure x) (hf : ∀ a, Sure (f a)) : Sure (x >>= f) := fun s r s' h => by
  have h : (x s >>= fun p => (ExceptT.bindCont f p.1 : ScopeRun (Except TypeError β)) p.2) =
      some (r, s') := h
  obtain ⟨⟨r₁, s₁⟩, hx₁, hf₁⟩ := Option.bind_eq_some_iff.1 h
  obtain ⟨a, rfl⟩ := hx _ _ _ hx₁
  exact hf a _ _ _ hf₁

theorem onTypes (x : StateM TypeTable α) : Sure (InferIn.onTypes x) :=
  fun _ _ _ h => ⟨_, by cases h; rfl⟩

theorem union (a b : TypeId) : Sure (InferIn.union a b) := onTypes _

theorem modifyScope (f : Scope → Scope) : Sure (InferIn.modifyScope f) :=
  fun _ _ _ h => ⟨(), by cases h; rfl⟩

theorem setLocals (L : Locals) : Sure (InferIn.setLocals L) := modifyScope _

theorem setLocal (n : Name) (a : TypeId) : Sure (InferIn.setLocal n a) := modifyScope _

theorem scope : Sure InferIn.scope := fun _ _ _ h => ⟨_, by cases h; rfl⟩

theorem locals : Sure InferIn.locals := fun _ _ _ h => ⟨_, by cases h; rfl⟩

theorem foldlM {γ : Type} {g : α → γ → InferIn α} (hg : ∀ a c, Sure (g a c)) (cs : List γ) (a : α) :
    Sure (cs.foldlM g a) := by
  induction cs generalizing a with
  | nil => exact .pure a
  | cons c cs ih =>
    rw [List.foldlM_cons]
    exact (hg a c).bind ih

theorem joinLocals (A : Locals) (aDead : Bool) (B : Locals) (bDead : Bool) :
    Sure (InferIn.joinLocals A aDead B bDead) := by
  unfold InferIn.joinLocals
  split
  · exact .pure _
  · exact .pure _
  · exact .foldlM (fun m n => (union _ _).bind fun t => .pure _) _ _

theorem orNilExcept (bound : Locals) : Sure (InferIn.orNilExcept bound) := by
  unfold InferIn.orNilExcept
  refine locals.bind fun before => .bind (.foldlM (fun m p => ?_) _ _) fun L => setLocals L
  dsimp only
  split
  · exact .pure _
  · exact (onTypes _).bind fun a => .pure _

end Sure

end InferIn

namespace World

variable (W : World)

section
variable {α β : Type}

/-- The computation ends, in a state that extends `σ`, with `P`. -/
def Completes (σ : State) (x : Infer α) (P : Except TypeError α → State → Prop) : Prop :=
  ∃ r σ', x σ = some (r, σ') ∧ W.Ok σ' ∧ W.Extends σ σ' ∧ P r σ'

/-- The same for a computation within a body. -/
def CompletesIn (σ : State) (S : Scope) (x : InferIn α)
    (P : Except TypeError α → State → Scope → Prop) : Prop :=
  ∃ r σ' S', x (σ, S) = some (r, σ', S') ∧ W.At σ' S' ∧ W.To σ S σ' S' ∧ P r σ' S'

variable {W} {σ σ₁ σ' : State} {S S₁ S' : Scope}

/-- What holds of a value, and what of an error, in the state after a computation. -/
def EndsIn (P : α → State → Prop) (E : TypeError → State → Prop) : Except TypeError α → State → Prop
  | .ok a => P a
  | .error e => E e

namespace Completes

variable {x : Infer α} {f : α → Infer β} {P P' : Except TypeError α → State → Prop}
  {Q : Except TypeError β → State → Prop}

theorem pure (h : W.Ok σ) {a : α} (hp : P (.ok a) σ) : W.Completes σ (Pure.pure a) P :=
  ⟨.ok a, σ, rfl, h, .refl h, hp⟩

theorem throw (h : W.Ok σ) {e : TypeError} (he : P (.error e) σ) :
    W.Completes σ (MonadExcept.throw e : Infer α) P :=
  ⟨.error e, σ, rfl, h, .refl h, he⟩

theorem bind (h : W.Completes σ x P)
    (hok : ∀ a σ₁, W.Ok σ₁ → W.Extends σ σ₁ → P (.ok a) σ₁ → W.Completes σ₁ (f a) Q)
    (herr : ∀ e σ', W.Ok σ' → W.Extends σ σ' → P (.error e) σ' → Q (.error e) σ') :
    W.Completes σ (x >>= f) Q := by
  obtain ⟨r, σ₁, hx, h₁, hext, hr⟩ := h
  have run : (x >>= f) σ = (ExceptT.bindCont f r : Run (Except TypeError β)) σ₁ := by
    show (x σ >>= fun p => (ExceptT.bindCont f p.1 : Run (Except TypeError β)) p.2) = _
    rw [hx]; rfl
  cases r with
  | error e => exact ⟨.error e, σ₁, run, h₁, hext, herr e σ₁ h₁ hext hr⟩
  | ok a =>
    obtain ⟨r', σ', hf, h', hext', hr'⟩ := hok a σ₁ h₁ hext hr
    exact ⟨r', σ', run.trans hf, h', hext.trans hext', hr'⟩

theorem congr {x' : Infer α} (hx : x σ = x' σ) (h : W.Completes σ x' P) : W.Completes σ x P := by
  obtain ⟨r, σ', h'⟩ := h
  exact ⟨r, σ', hx.trans h'.1, h'.2⟩

/-- From a state on to which a computation comes first. -/
theorem after {y : Infer α} (he : W.Extends σ σ₁) (hx : x σ = y σ₁) (h : W.Completes σ₁ y P) :
    W.Completes σ x P := by
  obtain ⟨r, σ', hy, hok, hext, hend⟩ := h
  exact ⟨r, σ', hx.trans hy, hok, he.trans hext, hend⟩

/-- A computation that is safe and does not end in an error, followed by another one. -/
theorem bind_safe {R : α → State → Prop} (h : W.Safe σ x R)
    (hx : ∀ r σ', x σ = some (r, σ') → ∃ a, r = .ok a)
    (hf : ∀ a σ₁, W.Ok σ₁ → W.Extends σ σ₁ → R a σ₁ → W.Completes σ₁ (f a) Q) :
    W.Completes σ (x >>= f) Q := by
  obtain ⟨r, σ₁, hrun, h₁, hext, hr⟩ := h
  obtain ⟨a, rfl⟩ := hx r σ₁ hrun
  exact after hext (Infer.bind_ok hrun) (hf a σ₁ h₁ hext hr.1)

/-- What is known of a safe computation besides. -/
theorem and_safe {R : α → State → Prop} (h : W.Completes σ x P) (hs : W.Safe σ x R) :
    W.Completes σ x fun r σ' => P r σ' ∧ ∀ a, r = .ok a → R a σ' := by
  obtain ⟨r, σ', hx, hok, hext, hr⟩ := h
  obtain ⟨r', σ'', hx', -, -, hend⟩ := hs
  cases hx.symm.trans hx'
  refine ⟨r, σ', hx, hok, hext, hr, ?_⟩
  rintro a rfl
  exact hend.1

/-- A computation on the type table that may end in an error. -/
theorem resolving {x : ExceptT TypeError (StateM TypeTable) α} {R : α → TypeTable → Prop}
    {E : TypeError → TypeTable → Prop} (h : W.Ok σ) (hs : Settles σ.types x.run (Ends R E))
    (hok : ∀ a σ', W.Ok σ' → W.Extends σ σ' → R a σ'.types → P (.ok a) σ')
    (herr : ∀ e σ', W.Ok σ' → W.Extends σ σ' → E e σ'.types → P (.error e) σ') :
    W.Completes σ (Infer.resolving x) P := by
  unfold Infer.resolving
  refine bind_safe (Safe.onTypes h hs) (fun _ _ h => ⟨_, by cases h; rfl⟩)
    fun r σ₁ h₁ he₁ ⟨hr, _⟩ => ?_
  cases r with
  | ok a => exact .pure h₁ (hok a σ₁ h₁ he₁ hr)
  | error e => exact .throw h₁ (herr e σ₁ h₁ he₁ hr)

end Completes

namespace CompletesIn

variable {x y : InferIn α} {f : α → InferIn β} {P P' : Except TypeError α → State → Scope → Prop}
  {Q : Except TypeError β → State → Scope → Prop} {R : α → State → Scope → Prop}

theorem pure (h : W.At σ S) {a : α} (hp : P (.ok a) σ S) : W.CompletesIn σ S (Pure.pure a) P :=
  ⟨.ok a, σ, S, rfl, h, .refl h, hp⟩

theorem throw (h : W.At σ S) {e : TypeError} (he : P (.error e) σ S) :
    W.CompletesIn σ S (MonadExcept.throw e : InferIn α) P :=
  ⟨.error e, σ, S, rfl, h, .refl h, he⟩

theorem mono (h : W.CompletesIn σ S x P)
    (hp : ∀ r σ' S', W.At σ' S' → W.To σ S σ' S' → P r σ' S' → P' r σ' S') :
    W.CompletesIn σ S x P' := by
  obtain ⟨r, σ', S', hx, hat, hto, hr⟩ := h
  exact ⟨r, σ', S', hx, hat, hto, hp r σ' S' hat hto hr⟩

theorem bind (h : W.CompletesIn σ S x P)
    (hok : ∀ a σ₁ S₁, W.At σ₁ S₁ → W.To σ S σ₁ S₁ → P (.ok a) σ₁ S₁ →
      W.CompletesIn σ₁ S₁ (f a) Q)
    (herr : ∀ e σ' S', W.At σ' S' → W.To σ S σ' S' → P (.error e) σ' S' → Q (.error e) σ' S') :
    W.CompletesIn σ S (x >>= f) Q := by
  obtain ⟨r, σ₁, S₁, hx, h₁, hto, hr⟩ := h
  have run : (x >>= f) (σ, S) =
      (ExceptT.bindCont f r : ScopeRun (Except TypeError β)) (σ₁, S₁) := by
    show (x (σ, S) >>= fun p => (ExceptT.bindCont f p.1 : ScopeRun (Except TypeError β)) p.2) = _
    rw [hx]; rfl
  cases r with
  | error e => exact ⟨.error e, σ₁, S₁, run, h₁, hto, herr e σ₁ S₁ h₁ hto hr⟩
  | ok a =>
    obtain ⟨r', σ', S', hf, h', hto', hr'⟩ := hok a σ₁ S₁ h₁ hto hr
    exact ⟨r', σ', S', run.trans hf, h', hto.trans hto', hr'⟩

/-- A computation that is safe and does not end in an error. -/
theorem of_safe (h : W.SafeIn σ S x y R) (hx : InferIn.Sure x)
    (hp : ∀ a σ' S', W.At σ' S' → W.To σ S σ' S' → R a σ' S' → P (.ok a) σ' S') :
    W.CompletesIn σ S x P := by
  obtain ⟨r, σ', S', hrun, hat, hto, hr⟩ := h
  obtain ⟨a, rfl⟩ := hx _ _ _ hrun
  exact ⟨.ok a, σ', S', hrun, hat, hto, hp a σ' S' hat hto hr.1⟩

/-- The same, followed by another computation. -/
theorem bind_safe (h : W.SafeIn σ S x y R) (hx : InferIn.Sure x)
    (hf : ∀ a σ₁ S₁, W.At σ₁ S₁ → W.To σ S σ₁ S₁ → R a σ₁ S₁ → W.CompletesIn σ₁ S₁ (f a) Q) :
    W.CompletesIn σ S (x >>= f) Q := by
  refine bind (P := fun r σ' S' => ∃ a, r = .ok a ∧ R a σ' S')
    (of_safe h hx fun a _ _ _ _ ha => ⟨a, rfl, ha⟩) ?_ ?_
  · rintro a σ₁ S₁ h₁ hto ⟨_, ⟨⟩, ha⟩
    exact hf a σ₁ S₁ h₁ hto ha
  · rintro e σ' S' - - ⟨_, he, -⟩
    cases he

/-- Handing on how a computation ended. -/
theorem attempt {f : Except TypeError α → InferIn β} (h : W.CompletesIn σ S x P)
    (hf : ∀ r σ₁ S₁, W.At σ₁ S₁ → W.To σ S σ₁ S₁ → P r σ₁ S₁ → W.CompletesIn σ₁ S₁ (f r) Q) :
    W.CompletesIn σ S (InferIn.attempt x >>= f) Q := by
  obtain ⟨r, σ₁, S₁, hx, hat, hto, hr⟩ := h
  have hattempt : InferIn.attempt x (σ, S) = some (.ok r, σ₁, S₁) := by
    show (x (σ, S) >>= fun p => (some (Except.ok p.1, p.2) : Option _)) = _
    rw [hx]; rfl
  have run : (InferIn.attempt x >>= f) (σ, S) = f r (σ₁, S₁) := by
    show (InferIn.attempt x (σ, S) >>= fun p =>
      (ExceptT.bindCont f p.1 : ScopeRun (Except TypeError β)) p.2) = _
    rw [hattempt]; rfl
  obtain ⟨r', σ', S', hf', hat', hto', hr'⟩ := hf r σ₁ S₁ hat hto hr
  exact ⟨r', σ', S', run.trans hf', hat', hto.trans hto', hr'⟩

theorem scope {f : Scope → InferIn β} (h : W.CompletesIn σ S (f S) Q) :
    W.CompletesIn σ S (InferIn.scope >>= f) Q := h

theorem locals {f : Locals → InferIn β} (h : W.CompletesIn σ S (f S.locals) Q) :
    W.CompletesIn σ S (InferIn.locals >>= f) Q := h

theorem local? {f : Option TypeId → InferIn β} {n : Name}
    (h : W.CompletesIn σ S (f S.locals[n]?) Q) :
    W.CompletesIn σ S (InferIn.local? n >>= f) Q := h

theorem get {f : State × Scope → InferIn β} (h : W.CompletesIn σ S (f (σ, S)) Q) :
    W.CompletesIn σ S (do f (← MonadState.get)) Q := h

end CompletesIn

end

end World

end Multimethod
