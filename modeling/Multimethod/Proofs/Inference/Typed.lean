import Multimethod.Inference.Program
import Multimethod.Proofs.Expr.Every
import Multimethod.Proofs.Resolution.Resolve
import Multimethod.Proofs.Type.Value

/-!
# What a converged inference knows

Once a pass through the program changes nothing, what inference found in it can be read off the
final state: `World.Typed` says that a term has a type, from some locals to others, as far as the
types, instance variables and return types of that state go and as far as a given scope has
recorded it. There is one clause for each kind of term. It is what soundness of running, the final
typing of the top level and the comparison with earlier passes are proved from.
-/

namespace Multimethod

open Inference TypeTable

/-! ## Where the rows of dispatch tables lead -/

/-- The specialization that a key belongs to stays the same. -/
def Specializations.Keeps (ss ss' : Specializations) : Prop :=
  ∀ key s, ss.find? key = some s → ss'.find? key = some s

namespace Registry

/-- The callee that a row for `receiver` and `args` must have: the target that resolution picks,
with its specialization. For a new object it is the initializer's, if there is one. -/
def Leads (g : Registry) (t : TypeTable) (ss : Specializations) (k : Name)
    (receiver : Option TypeId) (args : List TypeId) : Callee → Prop
  | .specialization s =>
    ∃ m, g.Picks t k receiver args (.method m) ∧ ss.find? ⟨m, receiver, args⟩ = some s
  | .allocate c => g.Picks t k receiver args (.allocate c)
  | .new c initializer => g.Picks t k receiver args (.new c) ∧ ∃ o, t.shape o = .exact c ∧
    match initializer with
    | none => args = [] ∧ g.methods.understands g.hierarchy t g.core.initializer o = false
    | some s =>
      (args ≠ [] ∨ g.methods.understands g.hierarchy t g.core.initializer o = true) ∧
        ∃ m, g.Picks t g.core.initializer (some o) args (.method m) ∧
          ss.find? ⟨m, some o, args⟩ = some s

variable {g : Registry} {t u : TypeTable} {ss ss' : Specializations} {k : Name}
  {receiver : Option TypeId} {args : List TypeId} {callee callee' : Callee}

theorem Leads.mono (H : t.WF) (h : g.Leads t ss k receiver args callee) (hle : t ≤ u)
    (hs : ss.Keeps ss') : g.Leads u ss' k receiver args callee := by
  cases callee with
  | specialization s =>
    obtain ⟨m, hp, hf⟩ := h
    exact ⟨m, hp.mono hle, hs _ _ hf⟩
  | allocate c => exact Picks.mono h hle
  | new c initializer =>
    obtain ⟨hp, o, ho, h⟩ := h
    have hot : t.Has o := has_of_shape (by simp [ho])
    refine ⟨hp.mono hle, o, (hot.shape_eq hle).trans ho, ?_⟩
    cases initializer with
    | none => exact ⟨h.1, by rw [g.methods.understands_mono g.hierarchy H hot hle]; exact h.2⟩
    | some s =>
      obtain ⟨hd, m, hp, hf⟩ := h
      exact ⟨by rwa [g.methods.understands_mono g.hierarchy H hot hle],
        m, hp.mono hle, hs _ _ hf⟩

/-- A row has one callee. -/
theorem Leads.unique (H : t.WF) (h : g.Leads t ss k receiver args callee)
    (h' : g.Leads t ss k receiver args callee') : callee = callee' := by
  cases callee with
  | specialization s =>
    obtain ⟨m, hp, hf⟩ := h
    cases callee' with
    | specialization s' =>
      obtain ⟨m', hp', hf'⟩ := h'
      cases hp.unique H hp'
      exact congrArg _ (Option.some.inj (hf.symm.trans hf'))
    | allocate c => cases hp.unique H h'
    | new c i => cases hp.unique H h'.1
  | allocate c =>
    cases callee' with
    | specialization s' =>
      obtain ⟨m', hp', -⟩ := h'
      cases Picks.unique H h hp'
    | allocate c' => cases Picks.unique H h h'; rfl
    | new c' i => cases Picks.unique H h h'.1
  | new c i =>
    obtain ⟨hp, o, ho, h⟩ := h
    cases callee' with
    | specialization s' =>
      obtain ⟨m', hp', -⟩ := h'
      cases hp.unique H hp'
    | allocate c' => cases hp.unique H h'
    | new c' i' =>
      obtain ⟨hp', o', ho', h'⟩ := h'
      cases hp.unique H hp'
      have : o = o' := (has_of_shape (by simp [ho])).shape_inj (has_of_shape (by simp [ho']))
        (ho.trans ho'.symm)
      subst this
      cases i with
      | none =>
        cases i' with
        | none => rfl
        | some s' => simp [h.1, h.2] at h'
      | some s =>
        cases i' with
        | none => simp [h'.1, h'.2] at h
        | some s' =>
          obtain ⟨-, m, hp, hf⟩ := h
          obtain ⟨-, m', hp', hf'⟩ := h'
          cases hp.unique H hp'
          cases hf.symm.trans hf'
          rfl

end Registry

/-! ## Locals -/

namespace Inference

variable (t : TypeTable)

/-- The scope with a local that has just been assigned. -/
def Scope.bind (S : Scope) (n : Name) (a : TypeId) : Scope :=
  { S with locals := S.locals.insert n a }

/-- The scope in which the evaluation of a specialization begins. -/
def Scope.opened (key : SpecKey) : Scope :=
  { self := key.receiver, selfClass := key.receiver.bind t.instanceClass? }

/-- `b` is `a` without `nil`. -/
def DropsNil (a b : TypeId) : Prop :=
  t.Has a ∧ t.Has b ∧ ∀ m, m ∈ t.members b ↔ m ∈ t.members a ∧ m ≠ .nil

/-- Whatever is bound stays bound, to a type at least as wide. -/
def Locals.Inside (L L' : Locals) : Prop :=
  ∀ (n : Name) (a : TypeId), L[n]? = some a → ∃ b, L'[n]? = some b ∧ t.Inside a b

/-- Locals where two paths meet, each with whether it is dead. -/
def Locals.Joins (A : Locals) (aDead : Bool) (B : Locals) (bDead : Bool) (L : Locals) : Prop :=
  match aDead, bDead with
  | false, true => L = A
  | true, false => L = B
  | _, _ => ∀ n : Name, (A[n]? = none ∧ B[n]? = none ∧ L[n]? = none) ∨
      (A[n]? ≠ none ∨ B[n]? ≠ none) ∧ ∃ c, L[n]? = some c ∧
        t.Joins (A[n]?.getD (if aDead then .never else .nil))
          (B[n]?.getD (if aDead then .never else .nil)) c

/-- Locals with `nil` added to all but the bound ones. -/
def Locals.OrNils (bound L L' : Locals) : Prop :=
  ∀ n : Name, match L[n]? with
    | none => L'[n]? = none
    | some a =>
      if bound.contains n then L'[n]? = some a else ∃ b, L'[n]? = some b ∧ t.Joins a .nil b

/-- The rounds of typing a loop whose test and body are typed by `T` and `B`, from locals on, after
the test has bound `bound` in the first round. -/
inductive Rounds (T B : Locals → TypeId → Locals → Prop) :
    Option Locals → Locals → Locals → Prop
  | stop {bound L a L₁ L'} : T L a L₁ → (a = .never → L₁ = L) → (a ≠ .never → ∃ b, B L₁ b L) →
    Locals.OrNils t (bound.getD L₁) L L' → Rounds T B bound L L'
  | next {bound L a L₁ L₂ L'} : T L a L₁ → (a = .never → L₂ = L₁) →
    (a ≠ .never → ∃ b, B L₁ b L₂) → L₂ ≠ L → Rounds T B (some (bound.getD L₁)) L₂ L' →
    Rounds T B bound L L'

end Inference

/-! ## The judgement -/

/-- What does not change while a program is checked: the context, the class tree, and what is known
of all terms, the names they bind and where the calls stand. -/
structure World where
  ctx : Context
  tree : Hierarchy
  /-- The names that locals and assigned instance variables have. -/
  names : Finset Name
  /-- The call that stands at a position. -/
  callAt : ExprId → Option Term
  /-- How visits are answered when what has been inferred is inferred once more. -/
  answer : SpecId → Infer TypeId
  five_le : 5 ≤ tree.size
  term_known : ∀ d, (ctx.term d).Every fun u =>
    (∀ n ∈ u.bound, n ∈ names) ∧ ∀ k ∈ u.called, callAt u.id = some u
  main_known : ∀ t ∈ ctx.main, t.Every fun u =>
    (∀ n ∈ u.bound, n ∈ names) ∧ ∀ k ∈ u.called, callAt u.id = some u
  params_known : ∀ m md p, ctx.methods.get? m = some md → p ∈ md.definition.params →
    p.name ∈ names

namespace World

variable (W : World)

/-- A term whose names and calls are known. -/
def Known (u : Term) : Prop :=
  (∀ n ∈ u.bound, n ∈ W.names) ∧ ∀ k ∈ u.called, W.callAt u.id = some u

/-- The number of classes. -/
def classes : Nat := W.tree.size

/-- The tables that resolution reads. -/
def registry : Registry := ⟨W.ctx.names, W.ctx.core, W.tree, W.ctx.methods⟩

/-- The receiver of a call written without one, where `self` has the type `self`. -/
def sendReceiver (t : TypeTable) (self : Option TypeId) (k : Name) : Option TypeId :=
  (some (self.getD .object)).filter (W.registry.goesToSelf t k)

section
variable (τ : State) (U : Scope)

/-- What a callee answers, as far as is known. -/
def Answers : Callee → TypeId → Prop
  | .specialization s, b => ∃ i, τ.specs.get? s = some i ∧ i.returnType = b
  | .allocate c, b | .new c _, b => τ.types.shape b = .exact c

/-- The call `k` at a site has a row for every combination, whose answer is a part of `a`. -/
def Calls (e : ExprId) (k : Name) (receiver : Option TypeId) (args : List TypeId) (a : TypeId) :
    Prop :=
  ∀ r c, (r, c) ∈ Registry.combinations τ.types receiver args →
    ∃ callee, (U.body.dispatchAt e).find? r c = some callee ∧
      W.registry.Leads τ.types τ.specs k r c callee ∧
      ∃ b, Answers τ callee b ∧ τ.types.Inside b a

/-- What a primitive operation gives. -/
def Applies (op : Primitive) (as : List TypeId) (a : TypeId) : Prop :=
  if op.isComparison then a = .bool
  else match op with
    | .toInt => a = .int
    | .toFloat => a = .float
    | _ => ∃ number, τ.types.Joins .int .float number ∧
        (∀ b ∈ as, W.tree.isSubtype τ.types b number = true) ∧
        a = if as.all (· = .int) then .int else if as.contains .float then .float else number

/-- Typing the branch that runs if `test` holds, by `T`. -/
def Narrows (test : Term) (T : Locals → TypeId → Locals → Prop) (L : Locals) (a : TypeId)
    (L' : Locals) : Prop :=
  match InferIn.tested? test with
  | none => T L a L'
  | some n => ∃ narrow L₁ w, DropsNil τ.types (L[n]?.getD .nil) narrow ∧
      T (L.insert n narrow) a L₁ ∧ τ.types.Joins (L[n]?.getD .nil) (L₁[n]?.getD narrow) w ∧
      L' = L₁.insert n w

/-- The type of a local after an assignment. -/
def Assigns (n : Name) (a : TypeId) (L L' : Locals) : Prop :=
  a = .never ∧ L' = L ∨
    a ≠ .never ∧ ∃ b, τ.types.Joins (L[n]?.getD .never) a b ∧ L' = L.insert n b

/-- What follows something of type `a` is typed only if that has a value. -/
def Follows (a : TypeId) (L : Locals) (T : TypeId → Locals → Prop) (b : TypeId) (L' : Locals) :
    Prop :=
  a = .never ∧ b = .never ∧ L' = L ∨ a ≠ .never ∧ T b L'

mutual

/-- The term has type `a`, from the locals `L` to the locals `L'`: so it is typed in the state `τ`,
and the scope `U` has recorded it. -/
def Typed : Term → Locals → TypeId → Locals → Prop
  | t, L, a, L' => (∃ b, U.body.exprTypes[t.id]? = some b ∧ τ.types.Inside a b) ∧ match t with
    | .nil _ => a = .nil ∧ L' = L
    | .bool _ _ => a = .bool ∧ L' = L
    | .int _ _ => a = .int ∧ L' = L
    | .float _ _ => a = .float ∧ L' = L
    | .self _ => a = U.self.getD .object ∧ L' = L
    | .var _ n => a = L[n]?.getD .nil ∧ L' = L
    | .assign _ n value => ∃ L₁, Typed value L a L₁ ∧ Assigns τ n a L₁ L'
    | .ivar _ n => L' = L ∧ match U.selfClass with
      | none => a = .nil
      | some c => τ.types.Joins ((τ.hierarchy.ivarType c n).getD .never) .nil a
    | .setIvar _ n value => Typed value L a L' ∧ ∀ c ∈ U.selfClass, a ≠ .never →
        ∃ b, τ.hierarchy.ivarType c n = some b ∧ τ.types.Inside a b
    | .const _ n => L' = L ∧ ∃ c, W.tree.find? n = some c ∧ τ.types.shape a = .classObject c
    | .call site receiver method args => ∃ b L₁, Typed receiver L b L₁ ∧
        Follows b L₁ (fun a L' => ∃ as, TypedArgs args L₁ as L' ∧ match as with
          | none => a = .never
          | some as => Calls W τ U site.id method (some b) as a) a L'
    | .send site method args => ∃ as, TypedArgs args L as L' ∧ match as with
      | none => a = .never
      | some as => Calls W τ U site.id method (sendReceiver W τ.types U.self method) as a
    | .ifThen _ test yes => ∃ b L₁, Typed test L b L₁ ∧ Follows b L₁ (fun a L' =>
        ∃ c L₂, Narrows τ test (Typed yes) L₁ c L₂ ∧
          Locals.Joins τ.types L₂ (c = .never) L₁ false L' ∧ τ.types.Joins c .nil a) a L'
    | .ifElse _ test yes no => ∃ b L₁, Typed test L b L₁ ∧ Follows b L₁ (fun a L' =>
        ∃ c L₂ d L₃, Narrows τ test (Typed yes) L₁ c L₂ ∧ Typed no L₁ d L₃ ∧
          Locals.Joins τ.types L₂ (c = .never) L₃ (d = .never) L' ∧ τ.types.Joins c d a) a L'
    | .loop _ test body => a = .nil ∧ Rounds τ.types (Typed test) (Typed body) none L L'
    | .andAlso _ left right | .orElse _ left right => ∃ b L₁, Typed left L b L₁ ∧
        Follows b L₁ (fun a L' => ∃ c L₂, Typed right L₁ c L₂ ∧
          Locals.OrNils τ.types L₁ L₂ L' ∧ τ.types.Joins b c a) a L'
    | .ret _ => a = .never ∧ L' = L ∧ τ.types.Inside .nil U.returns
    | .retValue _ value => a = .never ∧ ∃ b, Typed value L b L' ∧ τ.types.Inside b U.returns
    | .block _ stmts => TypedStmts .nil stmts L a L'
    | .primitive _ op args => ∃ as, TypedArgs args L as L' ∧ match as with
      | none => a = .never
      | some as => Applies W τ op as a

/-- The types of some arguments; nothing if one of them has no value. -/
def TypedArgs : List Term → Locals → Option (List TypeId) → Locals → Prop
  | [], L, as, L' => as = some [] ∧ L' = L
  | t :: ts, L, as, L' => ∃ a L₁, Typed t L a L₁ ∧
      (a = .never ∧ as = none ∧ L' = L₁ ∨
        a ≠ .never ∧ ∃ as₁, TypedArgs ts L₁ as₁ L' ∧ as = as₁.map (a :: ·))

/-- The type of a sequence of statements that follow one of type `last`. -/
def TypedStmts (last : TypeId) : List Term → Locals → TypeId → Locals → Prop
  | [], L, a, L' => a = last ∧ L' = L
  | t :: ts, L, a, L' => ∃ b L₁, Typed t L b L₁ ∧
      Follows b L₁ (fun a L' => TypedStmts b ts L₁ a L') a L'

end

section
variable {W τ U} {t : Term} {L L' : Locals} {a : TypeId} (h : Typed W τ U t L a L')
include h

theorem Typed.recorded : ∃ b, U.body.exprTypes[t.id]? = some b ∧ τ.types.Inside a b := by
  cases t <;> simp only [Typed] at h <;> exact h.1

theorem Typed.has : τ.types.Has a := by
  obtain ⟨b, -, hin⟩ := h.recorded
  exact hin.1

end

/-- A default that fits the restriction of its parameter, now and later. -/
def FitsRestriction (m : Method) (key : SpecKey) (i : Nat) (a : TypeId) : Prop :=
  ∀ u : TypeTable, u.WF → τ.types ≤ u → ∀ r ∈ (m.restriction i key.receiver u).1,
    W.tree.isSubtype u a r = true

/-- Visits are answered with what is stored. -/
def Recalls : Prop :=
  ∀ s i, τ.specs.get? s = some i → W.answer s τ = some (.ok i.returnType, τ)

/-- Binding the parameters of a method from position `i` on leads from the scope `S` to the scope
`S'`, and is repeated if visits are answered with what is stored. -/
def Binds (m : Method) (key : SpecKey) : Nat → List Param → Scope → Scope → Prop
  | _, [], S, S' => S' = S
  | i, p :: ps, S, S' => ∃ a S₁, (match key.args[i]?, p.default with
      | some b, _ => a = b ∧ S₁ = S
      | none, none => a = .nil ∧ S₁ = S
      | none, some d => Typed W τ U (W.ctx.term d) S.locals a S₁.locals ∧
          FitsRestriction W τ m key i a) ∧
      (Recalls W τ → Infer.bindParams W.ctx W.answer m key i [p] (τ, S) =
        some (.ok (), τ, S₁.bind p.name a)) ∧
      Binds m key (i + 1) ps (S₁.bind p.name a) S'

/-- The body `U.body` of a specialization is typed, in a scope `S` in which the parameters of its
method `m` are bound, and the stored return type has the result. -/
structure CheckedBy (i : Specialization) (m : Method) (S : Scope) : Prop where
  method : W.ctx.methods.get? i.key.method = some m
  body : U.body = i.body
  self : U.self = i.key.receiver
  selfClass : U.selfClass = i.key.receiver.bind τ.types.instanceClass?
  binds : Binds W τ U m i.key 0 m.definition.params (.opened τ.types i.key) S
  typed : ∃ a L', Typed W τ U (W.ctx.term m.definition.body) S.locals a L' ∧
    τ.types.Inside a i.returnType
  returns : τ.types.Inside U.returns i.returnType

/-- The stored body of a specialization is typed, and the stored return type has the result. -/
def Checks (i : Specialization) : Prop := ∃ m U S, CheckedBy W τ U i m S

variable {W τ} in
/-- Only key, body and return type matter. -/
theorem Checks.congr {i j : Specialization} (h : Checks W τ i) (hk : j.key = i.key)
    (hb : j.body = i.body) (hr : j.returnType = i.returnType) : Checks W τ j := by
  obtain ⟨m, U, S, hc⟩ := h
  refine ⟨m, U, S, ?_, hc.body.trans hb.symm, ?_, ?_, ?_, hr ▸ hc.typed, hr ▸ hc.returns⟩
  · rw [hk]; exact hc.method
  · rw [hk]; exact hc.self
  · rw [hk]; exact hc.selfClass
  · rw [hk]; exact hc.binds

end

end World

end Multimethod
