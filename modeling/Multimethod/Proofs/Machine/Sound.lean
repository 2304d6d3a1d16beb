import Multimethod.Proofs.Machine.Local

/-!
# Sound configurations

A configuration is sound if it does what inference has found (`Basis.Sound`): the running body is
that of a specialization which the last pass has evaluated, or the top level; its locals fit those
at some point of its typing, and the work that remains is what typing does from there on
(`Basis.Waits`, one clause for each kind of work). What waits for a call to return is sound for the
return type of the callee. The objects that exist hold values of the types of their instance
variables.
-/

namespace Multimethod

open Inference TypeTable

/-- Whether a term returns early. -/
def Term.IsReturn : Term → Prop
  | .ret _ | .retValue _ _ => True
  | _ => False

instance : DecidablePred Term.IsReturn
  | .ret _ | .retValue _ _ => .isTrue trivial
  | .nil _ | .bool _ _ | .int _ _ | .float _ _ | .self _ | .var _ _ | .assign _ _ _ | .ivar _ _
  | .setIvar _ _ _ | .const _ _ | .call _ _ _ _ | .send _ _ _ | .ifThen _ _ _ | .ifElse _ _ _ _
  | .loop _ _ _ | .andAlso _ _ _ | .orElse _ _ _ | .block _ _ | .primitive _ _ _ => .isFalse id

/-- The specialization with this key is the one that some call leads to. -/
def World.Picked (W : World) (τ : State) (key : SpecKey) : Prop :=
  ∃ k, W.registry.Picks τ.types k key.receiver key.args (.method key.method)

namespace Machine

/-- A program and what inference found of it in a last pass that raised no errors and changed
nothing. -/
structure Converged where
  W : World
  /-- The state in which the pass has ended. -/
  τ : State
  /-- What the pass found the top level to do, and its type. -/
  top : Scope
  type : TypeId
  program : Program
  /-- The state that the program was made from. -/
  final : State
  /-- Whether the program has the dispatch rows that the pass found. -/
  Strict : Prop
  ok : W.Ok τ
  idle : World.AllIdle τ
  closed : Closed τ
  checks : ∀ s i, τ.specs.get? s = some i → i.donePass = some τ.pass → W.Checks τ i
  topSelf : top.self = none
  topClass : top.selfClass = none
  topRows : W.RowsOk τ none top.body
  topReached : ReachedBy τ top.body
  topTyped : ∃ a L', W.TypedTop τ top .nil W.ctx.main ∅ a L' ∧ τ.types.Inside a type
  topReturns : τ.types.Inside top.returns type
  finalOk : W.Ok final
  grows : τ.Grows final
  types_eq : program.types = final.types
  specs_eq : program.specs = final.specs
  methods_eq : program.methods = W.ctx.methods
  terms_eq : program.terms = W.ctx.terms
  main_eq : program.main = W.ctx.main
  find?_eq : ∀ n, program.hierarchy.find? n = W.tree.find? n
  mainRows : W.RowsOk final none program.mainBody
  strict_main : Strict → program.mainBody = top.body
  strict_spec : Strict → ∀ s i, τ.specs.get? s = some i →
    ∃ j, final.specs.get? s = some j ∧ j.body = i.body

/-- What a run relies on: besides what inference found, what the terms of the program consist of. -/
structure Basis extends Converged where
  /-- The classes that occur as class objects and of which there are objects. -/
  Occurs : ClassId → Prop
  /-- What terms may consist of. -/
  Allows : Term → Prop
  /-- The types of operands that an operation may be applied to. -/
  Operands : Primitive → List TypeId → Prop
  object : Occurs .object
  nil : ¬ Occurs .nil
  known : ∀ u, Allows u → W.Known u
  const : ∀ site n c, Allows (.const site n) → W.tree.find? n = some c → Occurs c
  arity : ∀ op as, Operands op as → as.length = op.arity
  operands : ∀ site op ts, Allows (.primitive site op ts) →
    ∀ as, as.length = ts.length → Operands op as
  mainAllowed : ∀ t ∈ W.ctx.main, t.Every Allows
  defaults : ∀ m md, W.ctx.methods.get? m = some md → ∀ q ∈ md.definition.params,
    ∀ d ∈ q.default, (W.ctx.term d).Every fun u => Allows u ∧ ¬ u.IsReturn
  /-- A body that is a primitive operation may be applied to operands of just the types that its
  parameters can have. -/
  bodies : ∀ s i m U S, τ.specs.get? s = some i → W.CheckedBy τ U i m S → W.Picked τ i.key →
    (W.ctx.term m.definition.body).Every Allows ∨
      ∃ site op ts, W.ctx.term m.definition.body = .primitive site op ts ∧
        Term.EveryOf Allows ts ∧ ∀ as L', W.TypedArgs τ U ts S.locals (some as) L' →
          Operands op as

/-- Whether a value is that of a parameter's default. -/
def Kont.isDefault : Kont → Bool
  | .default .. => true
  | _ => false

/-- A parameter's default is being evaluated. -/
def InDefault (ks : List Kont) : Prop := ks.any (·.isDefault) = true

namespace Basis

variable (B : Basis)

/-- The value is of the type; `cs` are the classes of the objects. -/
def Of (cs : List ClassId) (v : Value) (a : TypeId) : Prop := v.Of B.τ.types B.Occurs cs a

/-- The values are of the types. -/
def AllOf (cs : List ClassId) (vs : List Value) (as : List TypeId) : Prop :=
  List.Forall₂ (B.Of cs) vs as

/-- The locals have values of their types. -/
def Fits (cs : List ClassId) (ℓ : Map .name Value) (L : Locals) : Prop :=
  Multimethod.Fits B.τ.types B.Occurs cs ℓ L

/-- The value of `self` is of its type, or both are missing. -/
def SelfOf (cs : List ClassId) (self : Option Value) (a : Option TypeId) : Prop :=
  match self with
  | none => a = none
  | some v => ∃ b, a = some b ∧ B.Of cs v b

/-- What an expression gives has been recorded. -/
def Recorded (U : Scope) (id : ExprId) (a : TypeId) : Prop :=
  ∃ b, U.body.exprTypes[id]? = some b ∧ B.τ.types.Inside a b

/-- What terms consist of where they are evaluated before the work `ks` is done. -/
def Fine (ks : List Kont) (u : Term) : Prop := B.Allows u ∧ (InDefault ks → ¬ u.IsReturn)

/-- A term that may be evaluated from the locals `L` on. -/
def Ready (U : Scope) (ks : List Kont) (t : Term) (L : Locals) : Prop :=
  t.Every (B.Fine ks) ∨ ∃ site op ts, t = .primitive site op ts ∧ Term.EveryOf (B.Fine ks) ts ∧
    ∀ as L', B.W.TypedArgs B.τ U ts L (some as) L' → B.Operands op as

/-- A call to `k` stands at `e`. Its receiver, if it has been evaluated, is of type `r`; else it is
`self` or missing. -/
def Calling (cs : List ClassId) (U : Scope) (e : ExprId) (k : Name) (receiver : Option Value)
    (r : Option TypeId) : Prop :=
  ∃ u, B.W.callAt e = some u ∧ u.called = some k ∧ match receiver with
    | some v => ∃ a, r = some a ∧ B.Of cs v a
    | none => (∃ site as, u = .send site k as) ∧ r = B.W.sendReceiver B.τ.types U.self k

/-- What a call gives whose arguments have been typed, or one of them has no value. -/
def Gives (U : Scope) (e : ExprId) (k : Name) (receiver : Option TypeId)
    (as : Option (List TypeId)) (a : TypeId) : Prop :=
  match as with
  | none => a = .never
  | some as => B.W.Calls B.τ U e k receiver as a

/-- What a primitive operation gives whose operands have been typed, or one of them has no
value. -/
def Applied (op : Primitive) (as : Option (List TypeId)) (a : TypeId) : Prop :=
  match as with
  | none => a = .never
  | some as => B.W.Applies B.τ op as a ∧ B.Operands op as

/-- In the body of the specialization `s`, which is `i` and was found in the scopes `U` and `S'`,
the parameters `done` of its method `m` are bound, in the scope `S`; the parameters `rest` are still
to be bound, to `args` and then to their defaults. -/
structure Bound (cs : List ClassId) (U S : Scope) (rest : List Param) (args : List Value)
    (code : Term) (s : SpecId) (i : Specialization) (m : Method) (done : List Param)
    (S' : Scope) : Prop where
  spec : B.τ.specs.get? s = some i
  picked : B.W.Picked B.τ i.key
  checked : B.W.CheckedBy B.τ U i m S'
  params : m.definition.params = done ++ rest
  code : code = B.W.ctx.term m.definition.body
  args : B.AllOf cs args (i.key.args.drop done.length)
  rest : B.W.Binds B.τ U m i.key done.length rest S S'
  done : B.W.Binds B.τ U m i.key 0 done (.opened B.τ.types i.key) S

/-- In the body that runs, all parameters but `rest` are bound. -/
def Binding (cs : List ClassId) (unit : Option SpecId) (U S : Scope) (rest : List Param)
    (args : List Value) (code : Term) : Prop :=
  ∃ s i m done S', unit = some s ∧ B.Bound cs U S rest args code s i m done S'

/-! ## The work that remains -/

/-- What remains to be done in the body of `unit` with a value of type `a`, where the locals are
`L`, is what inference has found in the scope `U`, and its result is of type `R`. If `q` is a local,
the value is that of `q`. -/
def Waits (cs : List ClassId) (unit : Option SpecId) (U : Scope) (R : TypeId) :
    List Kont → TypeId → Locals → Option Name → Prop
  | [], a, _, _ => B.τ.types.Inside a R
  | k :: ks, a, L, q => a = .never ∨ match k with
    | .assign id n => B.Recorded U id a ∧
        ∃ L', World.Assigns B.τ n a L L' ∧ Waits cs unit U R ks a L' (some n)
    | .setIvar id n => B.Recorded U id a ∧ (∀ c ∈ U.selfClass,
          ∃ b, B.τ.hierarchy.ivarType c n = some b ∧ B.τ.types.Inside a b) ∧
        Waits cs unit U R ks a L none
    | .receiver site k args => Term.EveryOf (B.Fine ks) args ∧
        (∃ u, B.W.callAt site.id = some u ∧ u.called = some k) ∧
        ∃ as b L', B.W.TypedArgs B.τ U args L as L' ∧ B.Gives U site.id k (some a) as b ∧
          B.Recorded U site.id b ∧ Waits cs unit U R ks b L' none
    | .argument site receiver k done todo => Term.EveryOf (B.Fine ks) todo ∧
        ∃ r ds as b L', B.Calling cs U site.id k receiver r ∧ B.AllOf cs done ds ∧
          B.W.TypedArgs B.τ U todo L as L' ∧
          B.Gives U site.id k r (as.map (ds ++ a :: ·)) b ∧ B.Recorded U site.id b ∧
          Waits cs unit U R ks b L' none
    | .choose id yes no => yes.Every (B.Fine ks) ∧ (∀ t ∈ no, t.Every (B.Fine ks)) ∧
        ∃ test c L₂ d L₃ b L', (∀ n ∈ InferIn.tested? test, q = some n) ∧
          World.Narrows B.τ test (B.W.Typed B.τ U yes) L c L₂ ∧ (match no with
            | none => d = .nil ∧ L₃ = L
            | some no => B.W.Typed B.τ U no L d L₃) ∧
          Locals.Joins B.τ.types L₂ (c = .never) L₃ (d = .never) L' ∧
          B.τ.types.Joins c d b ∧ B.Recorded U id b ∧ Waits cs unit U R ks b L' none
    | .loopTest id test body => test.Every (B.Fine ks) ∧ body.Every (B.Fine ks) ∧
        B.Recorded U id .nil ∧ ∃ b L₂ L', Locals.Reads B.τ.types L L' ∧
          B.W.Typed B.τ U body L b L₂ ∧ B.W.Loops B.τ U test body L₂ L' ∧
          Waits cs unit U R ks .nil L' none
    | .loopBody id test body => test.Every (B.Fine ks) ∧ body.Every (B.Fine ks) ∧
        B.Recorded U id .nil ∧ ∃ L', B.W.Loops B.τ U test body L L' ∧
          Waits cs unit U R ks .nil L' none
    | .andAlso id right | .orElse id right => right.Every (B.Fine ks) ∧
        ∃ c L₂ b L', B.W.Typed B.τ U right L c L₂ ∧ Locals.OrNils B.τ.types L L₂ L' ∧
          B.τ.types.Joins a c b ∧ B.Recorded U id b ∧ Waits cs unit U R ks b L' none
    | .ret => B.τ.types.Inside a U.returns ∧ ¬ InDefault ks
    | .stmt id todo => Term.EveryOf (B.Fine ks) todo ∧
        ∃ b L', B.W.TypedStmts B.τ U a todo L b L' ∧ B.Recorded U id b ∧
          Waits cs unit U R ks b L' none
    | .operand site op done todo => Term.EveryOf (B.Fine ks) todo ∧
        ∃ ds as b L', B.AllOf cs done ds ∧ B.W.TypedArgs B.τ U todo L as L' ∧
          B.Applied op (as.map (ds ++ a :: ·)) b ∧ B.Recorded U site.id b ∧
          Waits cs unit U R ks b L' none
    | .same id => ∃ b L', B.τ.types.Inside a b ∧ Locals.Reads B.τ.types L L' ∧
        B.Recorded U id b ∧ Waits cs unit U R ks b L' none
    | .default p rest code => ks = [] ∧ ∃ S : Scope, S.locals = L ∧
        B.Binding cs unit U (S.bind p.name a) rest [] code
    | .top todo => ks = [] ∧ unit = none ∧ (∀ t ∈ todo, t.Every B.Allows) ∧
        ∃ b L', B.W.TypedTop B.τ U a todo L b L' ∧ B.τ.types.Inside b R

/-! ## Configurations -/

/-- A body that is run on `receiver`: the one of a specialization of the last pass, or the top
level. It was found in the scope `U` and returns values of type `R`. -/
def Runs (cs : List ClassId) (unit : Option SpecId) (receiver : Option Value) (U : Scope)
    (R : TypeId) : Prop :=
  match unit with
  | none => receiver = none ∧ U = B.top ∧ R = B.type
  | some s => ∃ i m S, B.τ.specs.get? s = some i ∧ i.donePass = some B.τ.pass ∧
      B.W.CheckedBy B.τ U i m S ∧ R = i.returnType ∧ B.SelfOf cs receiver U.self

/-- What waits for something of type `R` to be returned. -/
def Callers (cs : List ClassId) : TypeId → List Caller → Prop
  | R, [] => R = B.type
  | R, c :: callers => ∃ U R' L a, B.Runs cs c.activation.unit c.activation.receiver U R' ∧
      B.Fits cs c.activation.locals L ∧ B.Recorded U c.call a ∧
      (match c.object with
        | none => B.τ.types.Inside R a
        | some v => B.Of cs v a) ∧
      B.Waits cs c.activation.unit U R' c.activation.konts a L none ∧ Callers cs R' callers

/-- How a run may fail: by calls that are nested too deeply, by an operation on operands of types
that it may be applied to, or by a missing dispatch row, if rows may be missing. -/
def Fails (cause : RunError.Cause) : Prop :=
  (∃ n, cause = .stackOverflow n) ∨
    (∃ op as cs vs, B.Operands op as ∧ B.AllOf cs vs as ∧ op.apply vs = .error cause) ∨
    ¬ B.Strict

/-- Everything in a configuration but what is to be done next. -/
structure Around (cs : List ClassId) (U : Scope) (R : TypeId) (c : Config) : Prop where
  objects : [.object] <+: cs
  heap : c.heap.Holds B.τ.types B.Occurs B.τ.hierarchy.ivarType cs
  runs : B.Runs cs c.activation.unit c.activation.receiver U R
  callers : B.Callers cs R c.callers

/-- What is to be done next is what inference has found. -/
def Doing (cs : List ClassId) (U : Scope) (R : TypeId) (c : Config) : Prop :=
  let ks := c.activation.konts
  let Waits := B.Waits cs c.activation.unit U R ks
  match c.control with
  | .eval t => ∃ L a L', B.Fits cs c.activation.locals L ∧ B.W.Typed B.τ U t L a L' ∧
      B.Ready U ks t L ∧ Waits a L' (InferIn.tested? t)
  | .value id v => ∃ a L q, B.Fits cs c.activation.locals L ∧ B.Of cs v a ∧ B.Recorded U id a ∧
      (∀ n ∈ q, c.activation.locals[n]?.getD .nil = v) ∧ Waits a L q
  | .call site receiver k args => ∃ r as a L, B.Fits cs c.activation.locals L ∧
      B.Calling cs U site.id k receiver r ∧ B.AllOf cs args as ∧
      B.W.Calls B.τ U site.id k r as a ∧ B.Recorded U site.id a ∧ Waits a L none
  | .apply site op operands => ∃ as a L, B.Fits cs c.activation.locals L ∧
      B.AllOf cs operands as ∧ B.W.Applies B.τ op as a ∧ B.Operands op as ∧
      B.Recorded U site.id a ∧ Waits a L none
  | .bind params args code => ks = [] ∧ ∃ S, B.Fits cs c.activation.locals S.locals ∧
      B.Binding cs c.activation.unit U S params args code
  | .unwind v => B.Of cs v U.returns ∧ ¬ InDefault ks
  | .top last todo => ks = [] ∧ c.activation.unit = none ∧ (∀ t ∈ todo, t.Every B.Allows) ∧
      ∃ b L a L', B.Fits cs c.activation.locals L ∧ B.Of cs last b ∧
        B.W.TypedTop B.τ U b todo L a L' ∧ B.τ.types.Inside a R
  | .done (.ok v) => B.Of cs v B.type
  | .raise e | .done (.error e) => B.Fails e.cause

/-- A configuration that does what inference has found. -/
def Sound (c : Config) : Prop := ∃ cs U R, B.Around cs U R c ∧ B.Doing cs U R c

/-! ## Growing heaps -/

section
variable {B} {cs cs' : List ClassId} {unit : Option SpecId} {U S : Scope} {R a : TypeId}
  (hcs : cs <+: cs')
include hcs

theorem AllOf.mono {vs : List Value} {as : List TypeId} (h : B.AllOf cs vs as) :
    B.AllOf cs' vs as := h.imp fun _ _ h => h.mono hcs

theorem Calling.mono {e : ExprId} {k : Name} {receiver : Option Value} {r : Option TypeId}
    (h : B.Calling cs U e k receiver r) : B.Calling cs' U e k receiver r := by
  obtain ⟨u, hu, hk, h⟩ := h
  refine ⟨u, hu, hk, ?_⟩
  cases receiver with
  | none => exact h
  | some v =>
    obtain ⟨a, ha, hv⟩ := h
    exact ⟨a, ha, hv.mono hcs⟩

theorem Binding.mono {rest : List Param} {args : List Value} {code : Term}
    (h : B.Binding cs unit U S rest args code) : B.Binding cs' unit U S rest args code := by
  obtain ⟨s, i, m, done, S', hs, hb⟩ := h
  exact ⟨s, i, m, done, S', hs, { hb with args := hb.args.mono hcs }⟩

theorem Waits.mono {ks : List Kont} {L : Locals} {q : Option Name}
    (h : B.Waits cs unit U R ks a L q) : B.Waits cs' unit U R ks a L q := by
  induction ks generalizing a L q with
  | nil => exact h
  | cons k ks ih =>
    refine h.imp_right fun h => ?_
    cases k
    case assign => exact ⟨h.1, h.2.imp fun _ h => ⟨h.1, ih h.2⟩⟩
    case setIvar => exact ⟨h.1, h.2.1, ih h.2.2⟩
    case receiver =>
      obtain ⟨hts, hu, as, b, L', has, hg, hr, hw⟩ := h
      exact ⟨hts, hu, as, b, L', has, hg, hr, ih hw⟩
    case argument =>
      obtain ⟨hts, r, ds, as, b, L', hc, hds, has, hg, hr, hw⟩ := h
      exact ⟨hts, r, ds, as, b, L', hc.mono hcs, hds.mono hcs, has, hg, hr, ih hw⟩
    case choose =>
      obtain ⟨hy, hn, test, c, L₂, d, L₃, b, L', hq, hty, htn, hL, hj, hr, hw⟩ := h
      exact ⟨hy, hn, test, c, L₂, d, L₃, b, L', hq, hty, htn, hL, hj, hr, ih hw⟩
    case loopTest =>
      obtain ⟨ht, hb, hr, b, L₂, L', hL, htb, hl, hw⟩ := h
      exact ⟨ht, hb, hr, b, L₂, L', hL, htb, hl, ih hw⟩
    case loopBody =>
      obtain ⟨ht, hb, hr, L', hl, hw⟩ := h
      exact ⟨ht, hb, hr, L', hl, ih hw⟩
    case andAlso | orElse =>
      obtain ⟨hr, c, L₂, b, L', ht, hor, hj, hrec, hw⟩ := h
      exact ⟨hr, c, L₂, b, L', ht, hor, hj, hrec, ih hw⟩
    case ret => exact h
    case stmt =>
      obtain ⟨hts, b, L', ht, hr, hw⟩ := h
      exact ⟨hts, b, L', ht, hr, ih hw⟩
    case operand =>
      obtain ⟨hts, ds, as, b, L', hds, has, ha, hr, hw⟩ := h
      exact ⟨hts, ds, as, b, L', hds.mono hcs, has, ha, hr, ih hw⟩
    case same =>
      obtain ⟨b, L', hb, hL, hr, hw⟩ := h
      exact ⟨b, L', hb, hL, hr, ih hw⟩
    case default =>
      obtain ⟨hk, S, hS, hb⟩ := h
      exact ⟨hk, S, hS, hb.mono hcs⟩
    case top => exact h

theorem SelfOf.mono {self : Option Value} {a : Option TypeId} (h : B.SelfOf cs self a) :
    B.SelfOf cs' self a := by
  cases self with
  | none => exact h
  | some v =>
    obtain ⟨b, hb, hv⟩ := h
    exact ⟨b, hb, hv.mono hcs⟩

theorem Runs.mono {receiver : Option Value} (h : B.Runs cs unit receiver U R) :
    B.Runs cs' unit receiver U R := by
  cases unit with
  | none => exact h
  | some s =>
    obtain ⟨i, m, S, hi, hd, hc, hR, hself⟩ := h
    exact ⟨i, m, S, hi, hd, hc, hR, hself.mono hcs⟩

theorem Callers.mono {callers : List Caller} (h : B.Callers cs R callers) :
    B.Callers cs' R callers := by
  induction callers generalizing R with
  | nil => exact h
  | cons c callers ih =>
    obtain ⟨U, R', L, a, hr, hf, hrec, ho, hw, hcallers⟩ := h
    refine ⟨U, R', L, a, hr.mono hcs, Fits.mono hf hcs, hrec, ?_, hw.mono hcs, ih hcallers⟩
    cases hobject : c.object with
    | none => simpa [hobject] using ho
    | some v =>
      rw [hobject] at ho
      exact Value.Of.mono ho hcs

end

end Basis

end Machine

end Multimethod
