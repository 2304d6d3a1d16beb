import Multimethod.Proofs.Machine.Checked
import Multimethod.Proofs.Prelude

/-!
# Checked sources run as they were typed

A source that is built on the predefined methods may leave primitive operations to them
(`Term.Ordinary`). If it is checked without errors and everything that was inferred returns, a run
ends in a value of the type of the top level, or because calls are nested too deeply or an integer
does not fit; and whatever an expression gives on the way is of the type that was recorded for it
(`check_sound`).
-/

namespace Multimethod

open Inference TypeTable

/-- A term that does not use the classes of `nil`, truth values and numbers as objects, nor applies a
primitive operation. -/
def Term.Ordinary (core : CoreNames) : Term → Prop
  | .const _ n => n ≠ core.nil ∧ n ≠ core.bool ∧ n ≠ core.int ∧ n ≠ core.float
  | .primitive _ _ _ => False
  | _ => True

instance (core : CoreNames) : DecidablePred (Term.Ordinary core)
  | .const _ n =>
    inferInstanceAs (Decidable (n ≠ core.nil ∧ n ≠ core.bool ∧ n ≠ core.int ∧ n ≠ core.float))
  | .primitive _ _ _ => .isFalse id
  | .nil _ | .bool _ _ | .int _ _ | .float _ _ | .self _ | .var _ _ | .assign _ _ _ | .ivar _ _
  | .setIvar _ _ _ | .call _ _ _ _ | .send _ _ _ | .ifThen _ _ _ | .ifElse _ _ _ _ | .loop _ _ _
  | .andAlso _ _ _ | .orElse _ _ _ | .ret _ | .retValue _ _ | .block _ _ => .isTrue trivial

/-- The source `b` is built on `b₀`. All that it adds consists of ordinary terms, and no default
returns early. -/
structure Builder.OrdinaryOver (core : CoreNames) (b b₀ : Builder) : Prop
    extends b₀.Extends b where
  main : ∀ e ∈ b.source.main, (Arena.termAt b.source.arena.terms e).Every (·.Ordinary core)
  bodies : ∀ d ∈ b.source.definitions.drop b₀.source.definitions.length,
    (Arena.termAt b.source.arena.terms d.body).Every (·.Ordinary core)
  defaults : ∀ d ∈ b.source.definitions.drop b₀.source.definitions.length, ∀ q ∈ d.params,
    ∀ e ∈ q.default, (Arena.termAt b.source.arena.terms e).Every fun u =>
      u.Ordinary core ∧ ¬ u.IsReturn

/-- Types of operands of the predefined methods: but for identity, the operands are numbers. -/
def Primitive.Numbers (op : Primitive) (as : List TypeId) : Prop :=
  as.length = op.arity ∧ (op = .identical ∨ ∀ a ∈ as, a = .int ∨ a = .float)

/-! ## Operands of predefined methods -/

namespace TypeTable

/-- The types of numbers are those of the instances of the number classes. -/
theorem WF.number {t : TypeTable} (H : t.WF) {a : TypeId} {c : ClassId} (ha : t.shape a = .exact c)
    (hc : c = .int ∨ c = .float) : a = .int ∨ a = .float := by
  have hhas : t.Has a := has_of_shape (by rw [ha]; nofun)
  rcases hc with rfl | rfl
  · exact .inl (hhas.shape_inj (H.has_initial (by decide)) (ha.trans H.shape_int.symm))
  · exact .inr (hhas.shape_inj (H.has_initial (by decide)) (ha.trans H.shape_float.symm))

end TypeTable

section
variable {b : Builder} {limits : Limits} {es : List TypeError} {ctx : Context} {σ : State}
  (hk : Prepared b.names b.source limits es ctx σ)
include hk

theorem Prepared.find?_numeric {s : String} {n : Name} (hs : s ∈ Prelude.numeric)
    (hn : b.names.find? s = some n) :
    ∃ c, σ.hierarchy.find? n = some c ∧ (c = .int ∨ c = .float) := by
  obtain ⟨hint, hfloat⟩ := CoreNames.find?_intern b.names
  have hn := NameTable.find?_mono hn hk.names_le
  rw [hk.interned] at hint hfloat
  simp only [Prelude.numeric, List.mem_cons, List.not_mem_nil, or_false] at hs
  rcases hs with rfl | rfl
  · cases hn.symm.trans hint
    exact ⟨_, hk.predefined.int, .inl rfl⟩
  · cases hn.symm.trans hfloat
    exact ⟨_, hk.predefined.float, .inr rfl⟩

/-- A definition is a predefined one or one of those that were added. -/
theorem Prepared.definition_cases {names : NameTable} (hb : (Prelude.builder names).Extends b)
    {m : MethodId} {md : Method} (hm : ctx.methods.get? m = some md) :
    Prelude.Predefined b md.definition ∨ md.definition ∈
      b.source.definitions.drop (Prelude.builder names).source.definitions.length := by
  have hd := hk.methods.definition m md hm
  obtain ⟨ds, hds⟩ := hb.definitions
  rw [hds] at hd
  refine (List.mem_append.1 hd).imp (Prelude.builder_predefined hb _) fun hd => ?_
  rw [hds, List.drop_left]
  exact hd

/-- A numeric operand of a predefined method is its receiver or its argument, and this is an instance
of a number class or of one below it. -/
theorem Prepared.operand_below {answer : SpecId → Infer TypeId} {τ : State} {key : SpecKey}
    {m : Method} (hok : (hk.world answer).Ok τ) (hkey : (hk.world answer).KeyOk τ.types key)
    (hp : (hk.world answer).Picked τ key) (hm : ctx.methods.get? key.method = some m)
    (hle : σ.types ≤ τ.types) (hd : ∀ p ∈ m.definition.params, p.default = none) {e : ExprId}
    (he : Prelude.Numeric b m.definition e) :
    ∃ a d, τ.types.shape a = .exact d ∧ (∃ n ∈ [ClassId.int, .float], σ.hierarchy.isBelow d n) ∧
      (b.Stores e .self ∧ key.receiver = some a ∨ ∃ q, b.Stores e (.var q.name) ∧
        m.definition.params = [q] ∧ key.args[0]? = some a) := by
  have below {c d : ClassId} (hn : c = .int ∨ c = .float)
      (hdc : σ.hierarchy.tree.isBelow d c = true) :
      ∃ n ∈ [ClassId.int, .float], σ.hierarchy.isBelow d n :=
    ⟨c, by simpa using hn, by rwa [Hierarchy.isBelow_tree] at hdc⟩
  have root {c : ClassId} (hn : c = .int ∨ c = .float) : c ≠ .object := by
    rcases hn with rfl | rfl <;> decide
  rcases he with ⟨hs, s, hnum, n, hn, howner⟩ | ⟨p, hs, hparams, s, hnum, n, hn, hr⟩
  · -- The operand is the receiver.
    obtain ⟨c, hfind, hcn⟩ := hk.find?_numeric hnum hn
    have ho : m.owner = .instances c := by
      have hres := hk.methods.owner _ m hm
      simp only [MethodTable.resolveOwner, howner, Hierarchy.requireClass, hfind] at hres
      exact (Except.ok.inj hres).symm
    obtain ⟨a, d, hreceiver, hshape, hdc⟩ := hp.receiver_below hok hkey hm
      (fun n o i hi => (hk.methods.overload n o i hi).imp fun _ h => ⟨h.1, h.2.2⟩) ho (root hcn)
    exact ⟨a, d, hshape, below hcn hdc, .inl ⟨hs, hreceiver⟩⟩
  · -- The operand is the argument.
    obtain ⟨c, hfind, hcn⟩ := hk.find?_numeric hnum hn
    obtain ⟨x, hx, w, hw, hwc⟩ : ∃ x, key.args[0]? = some x ∧ ∃ w, m.declared 0 = some w ∧
        τ.types.shape w = .exact c := by
      obtain ⟨md, hmd, harity⟩ := hkey.method
      cases hmd.symm.trans hm
      have hplaced := MethodTable.default_of_acceptsArity (hk.methods.placed _ m hm) harity p
      have hrs := hk.methods.restrictions _ m hm
      rw [hparams] at hplaced hrs
      obtain ⟨w, hw, hp⟩ : ∃ w, m.restrictions = [w] ∧
          MethodTable.Restricts σ.hierarchy σ.types p w := by
        generalize m.restrictions = ws at hrs
        cases hrs with
        | cons h hnil => cases hnil; exact ⟨_, rfl, h⟩
      simp only [MethodTable.Restricts, hr] at hp
      obtain ⟨w, rfl, hhas, hname⟩ := hp
      obtain ⟨c', hc', hshape⟩ := hname n rfl
      cases hfind.symm.trans hc'
      have hlt : 0 < key.args.length := by
        by_contra h0
        refine hplaced ?_ (hd p (by simp [hparams]))
        rw [show key.args.length = 0 by omega]
        exact .head _
      exact ⟨_, List.getElem?_eq_getElem hlt, w, by simp [Method.declared, hw],
        (hhas.shape_eq hle).trans hshape⟩
    obtain ⟨d, hshape, hdc⟩ := hp.argument_below hok hkey hm hx hw hwc (root hcn)
    exact ⟨x, d, hshape, below hcn hdc, .inr ⟨p, hs, hparams, hx⟩⟩

variable {answer : SpecId → Infer TypeId} {τ : State} {U S : Scope} {i : Specialization}
  {m : Method} (hok : (hk.world answer).Ok τ)
  (hkey : (hk.world answer).KeyOk τ.types i.key) (hp : (hk.world answer).Picked τ i.key)
  (hc : (hk.world answer).CheckedBy τ U i m S)
  (hle : σ.types ≤ τ.types)
  (hbelow : ∀ c, ∀ n ∈ [ClassId.int, .float], σ.hierarchy.isBelow c n = true → c = n)
include hok hkey hp hc hle hbelow

/-- A numeric operand of a predefined method has the type of a number. -/
theorem Prepared.numeric {e : ExprId} (hd : ∀ p ∈ m.definition.params, p.default = none)
    (he : Prelude.Numeric b m.definition e) {a : TypeId} {L' : Locals}
    (ht : (hk.world answer).Typed τ U (ctx.term e) S.locals a L') : a = .int ∨ a = .float := by
  obtain ⟨x, d, hshape, ⟨n, hn, hdn⟩, hwhich⟩ :=
    hk.operand_below hok hkey hp hc.method hle hd he
  -- A class below that of a number is this class.
  have hx : x = .int ∨ x = .float := by
    cases hbelow d n hn hdn
    exact hok.types.number hshape (by simpa using hn)
  rw [Context.term, hk.terms] at ht
  rcases hwhich with ⟨hs, hreceiver⟩ | ⟨p, hs, hparams, harg⟩
  · obtain ⟨ts, span, hterm, -⟩ := hs.termAt
    rw [hterm, Node.term, World.Typed] at ht
    rw [ht.2.1, hc.self, hreceiver, Option.getD_some]
    exact hx
  · obtain ⟨ts, span, hterm, -⟩ := hs.termAt
    have hbinds := hc.binds
    rw [hparams] at hbinds
    obtain ⟨y, S₁, hy, -, rfl⟩ := hbinds
    rw [harg] at hy
    obtain ⟨rfl, rfl⟩ := hy
    rw [hterm, Node.term, World.Typed] at ht
    rw [ht.2.1, Scope.bind]
    simpa using hx

/-- The body of a predefined method consists of ordinary terms, or it is a primitive operation on
ordinary operands of types of numbers. -/
theorem Prepared.predefinedBody (hd : Prelude.Predefined b m.definition) :
    (ctx.term m.definition.body).Every (fun u => (hk.world answer).Known u ∧ u.Ordinary ctx.core) ∨
      ∃ site op ts, ctx.term m.definition.body = .primitive site op ts ∧
        Term.EveryOf (fun u => (hk.world answer).Known u ∧ u.Ordinary ctx.core) ts ∧
        ∀ as L', (hk.world answer).TypedArgs τ U ts S.locals (some as) L' → op.Numbers as := by
  have term (e : ExprId) : ctx.term e = Arena.termAt b.source.arena.terms e := by
    rw [Context.term, hk.terms]
  -- A term without parts is known, and ordinary unless it is a class.
  have leaf {e : ExprId} {t : Term} (ht : ctx.term e = t) (ho : t.Ordinary ctx.core)
      (hevery : ∀ P, t.Every P = P t) : (ctx.term e).Every fun u =>
        (hk.world answer).Known u ∧ u.Ordinary ctx.core := by
    have hknown := (hk.world answer).term_known e
    rw [show (hk.world answer).ctx.term e = t from ht, hevery] at hknown
    rw [ht, hevery]
    exact ⟨hknown, ho⟩
  rcases hd.body with hs | ⟨v, hs⟩ | ⟨op, es, ha, hlen, hes, hnum⟩
  · obtain ⟨ts, span, ht, -⟩ := hs.termAt
    exact .inl (leaf ((term _).trans ht) trivial fun P => by rw [Node.term, Term.Every])
  · obtain ⟨ts, span, ht, -⟩ := hs.termAt
    exact .inl (leaf ((term _).trans ht) trivial fun P => by rw [Node.term, Term.Every])
  · obtain ⟨site, ht⟩ := ha.termAt
    have operand {e : ExprId} (he : e ∈ es) :
        (∃ site, ctx.term e = .self site) ∨ ∃ site n, ctx.term e = .var site n := by
      rcases hes e he with hs | ⟨n, hs⟩ <;> obtain ⟨ts, span, ht, -⟩ := hs.termAt
      · exact .inl ⟨_, (term e).trans ht⟩
      · exact .inr ⟨_, n, (term e).trans ht⟩
    refine .inr ⟨site, op, _, (term _).trans ht, Term.everyOf_iff.2 fun t ht => ?_,
      fun as L' has => ⟨by rw [has.length_eq, List.length_map, hlen], hnum.imp_right fun hnum => ?_⟩⟩
    · obtain ⟨e, he, rfl⟩ := List.mem_map.1 ht
      rw [← term]
      rcases operand he with ⟨site, ht⟩ | ⟨site, n, ht⟩
      · exact leaf ht trivial fun P => by rw [Term.Every]
      · exact leaf ht trivial fun P => by rw [Term.Every]
    · refine has.all fun t ht a L' hta => ?_
      obtain ⟨e, he, rfl⟩ := List.mem_map.1 ht
      rw [← term] at hta
      refine ⟨?_, hk.numeric hok hkey hp hc hle hbelow hd.defaults (hnum e he) hta⟩
      rcases operand he with ⟨site, ht⟩ | ⟨site, n, ht⟩ <;> rw [ht, World.Typed] at hta
      · exact hta.2.2
      · exact hta.2.2

end

/-! ## Runs -/

namespace Machine

/-- What a run relies on where all terms but the bodies of the predefined methods are ordinary. -/
def Converged.ordinary (C : Converged) {core : CoreNames} (hcore : C.W.tree.Predefined core)
    (hmain : ∀ t ∈ C.W.ctx.main, t.Every (·.Ordinary core))
    (hdefaults : ∀ m md, C.W.ctx.methods.get? m = some md → ∀ q ∈ md.definition.params,
      ∀ d ∈ q.default, (C.W.ctx.term d).Every fun u => u.Ordinary core ∧ ¬ u.IsReturn)
    (hbodies : ∀ s i m U S, C.τ.specs.get? s = some i → C.W.CheckedBy C.τ U i m S →
      C.W.Picked C.τ i.key →
      (C.W.ctx.term m.definition.body).Every (fun u => C.W.Known u ∧ u.Ordinary core) ∨
        ∃ site op ts, C.W.ctx.term m.definition.body = .primitive site op ts ∧
          Term.EveryOf (fun u => C.W.Known u ∧ u.Ordinary core) ts ∧
          ∀ as L', C.W.TypedArgs C.τ U ts S.locals (some as) L' → op.Numbers as) : Basis where
  toConverged := C
  Occurs c := c ∉ [ClassId.nil, .bool, .int, .float]
  Allows u := C.W.Known u ∧ u.Ordinary core
  Operands := Primitive.Numbers
  object := by decide
  nil h := h (by decide)
  known _ hu := hu.1
  const site n c hu hc := by
    obtain ⟨-, hnil, hbool, hint, hfloat⟩ := hu
    simp only [List.mem_cons, List.not_mem_nil, or_false, not_or]
    refine ⟨?_, ?_, ?_, ?_⟩ <;> rintro rfl
    · exact hnil (Hierarchy.find?_inj hc hcore.nil)
    · exact hbool (Hierarchy.find?_inj hc hcore.bool)
    · exact hint (Hierarchy.find?_inj hc hcore.int)
    · exact hfloat (Hierarchy.find?_inj hc hcore.float)
  arity _ _ h := h.1
  operands _ _ _ hu := hu.2.elim
  mainAllowed t ht := (C.W.main_known t ht).and (hmain t ht)
  defaults m md hm q hq d hd := ((C.W.term_known d).and (hdefaults m md hm q hq d hd)).imp
    fun _ h => ⟨⟨h.1, h.2.1⟩, h.2.2⟩
  bodies := hbodies

/-- Where operands are numbers and there are no objects of number classes, a run fails only because
calls are nested too deeply or an integer does not fit. -/
theorem Basis.fails_of_numbers {B : Basis} (hs : B.Strict) (hop : B.Operands = Primitive.Numbers)
    (hi : ¬ B.Occurs .int) (hf : ¬ B.Occurs .float) {cause : RunError.Cause} (h : B.Fails cause) :
    (∃ n, cause = .stackOverflow n) ∨ ∃ op, cause = .integerOverflow op := by
  rcases h with hn | ⟨op, as, cs, vs, has, hvs, herr⟩ | hno
  · exact .inl hn
  · rw [hop] at has
    refine .inr ⟨_, Primitive.apply_error (hvs.length_eq.trans has.1) (has.2.imp_right ?_) herr⟩
    intro hnum v hv
    obtain ⟨i, hlt, rfl⟩ := List.getElem_of_mem hv
    have hlt' : i < as.length := hvs.length_eq ▸ hlt
    have := hvs.get hlt hlt'
    exact Value.Of.number this (hnum _ (List.getElem_mem hlt')) B.ok.types hi hf
  · exact absurd hs hno

end Machine

/-- Let a source be built on the predefined methods and otherwise ordinary, and no class stand below
one of numbers. If it is checked without errors and everything that was inferred returns, a run that
ends gives a value of the type of the top level, or fails because calls are nested too deeply or an
integer does not fit. Whenever an expression gets a value, this is of the type recorded for it. -/
theorem check_sound {names : NameTable} {b : Builder} {limits : Limits} {r : CheckResult}
    {passes : Passes} {σ : State} (h : check b.names b.source limits = some r) (he : r.errors = [])
    (hb : b.OrdinaryOver r.program.core (Prelude.builder names))
    (hbelow : ∀ c ∈ r.program.hierarchy.ids, ∀ n ∈ [ClassId.int, .float],
      r.program.hierarchy.isBelow c n = true → c = n)
    (hrun : runPasses (register b.names b.source limits).2.1 limits.passes {}
      (register b.names b.source limits).2.2 = some (passes, σ))
    (hreturns : ∀ s i, σ.specs.get? s = some i → i.returnType ≠ .never) (limit : Nat) :
    (∀ steps o, Machine.run r.program limit steps = some o → match o.result with
      | .ok v => ∃ m ∈ r.program.types.members r.program.mainType,
          v.type? r.program.types = some m
      | .error e => (∃ n, e.cause = .stackOverflow n) ∨ ∃ op, e.cause = .integerOverflow op) ∧
    ∀ n id v, ∀ c : Machine.Config,
      c = (Machine.step r.program limit)^[n] (Machine.start r.program) → c.control = .value id v →
      ∃ a, (Machine.bodyOf r.program c.activation.unit).exprTypes[id]? = some a ∧
        ∃ m ∈ r.program.types.members a, v.type? r.program.types = some m := by
  rcases hreg : register b.names b.source limits with ⟨es, ctx, σ₀⟩
  obtain ⟨hk, passes', top, σ₁, σ₂, hrun', htop, hcheck, hinferred⟩ := check_eq hreg
  rw [hreg] at hrun
  obtain ⟨rfl, rfl⟩ := Prod.mk.inj (Option.some.inj (hrun.symm.trans hrun'))
  obtain ⟨U, hi⟩ := hinferred (Infer.visit ctx (nestingBound ctx (World.frozen σ)))
  obtain rfl := Option.some.inj (h.symm.trans hcheck)
  obtain ⟨hch, last, σ', U', hlast, hnone, hclosed, hf⟩ := last_of_errors hi he
  -- Everything returns, so the final typing of the top level is that of the last pass.
  have hstrict : top = last ∧ σ₂ = World.frozen σ := by
    have hagrees := hf.agrees hnone hch (hf.returning fun s i _ => hreturns s i) rfl
    exact Prod.mk.inj (Option.some.inj (htop.symm.trans hagrees))
  have hterm (e : ExprId) : ctx.term e = Arena.termAt b.source.arena.terms e := by
    rw [Context.term, hk.terms]
  have htree : σ₀.hierarchy.tree = (World.frozen σ₂).hierarchy.tree := hi.ok.tree.symm
  replace hbelow : ∀ c, ∀ n ∈ [ClassId.int, .float], σ₀.hierarchy.isBelow c n = true → c = n := by
    intro c n hn hcn
    rw [← Hierarchy.isBelow_tree, htree, Hierarchy.isBelow_tree] at hcn
    by_cases hlt : c.index < (World.frozen σ₂).hierarchy.size
    · exact hbelow c (Hierarchy.mem_ids.2 hlt) n hn hcn
    · exact Hierarchy.eq_of_isBelow (Nat.le_of_not_lt hlt) hcn
  set C := Machine.Converged.of hi hclosed hf hnone hch
  have hcore : C.W.tree.Predefined ctx.core := ⟨hk.predefined.object, hk.predefined.nil,
    hk.predefined.bool, hk.predefined.int, hk.predefined.float⟩
  set B := C.ordinary hcore
    (fun t ht => by
        obtain ⟨e, he, rfl⟩ := List.mem_map.1 (hk.main ▸ ht : t ∈ b.source.main.map _)
        exact hb.main e he)
    (fun m md hm q hq d hd => (hk.definition_cases hb.toExtends hm).elim
      (fun hp => by cases (hp.defaults q hq).symm.trans hd)
      fun hadd => (hterm d).symm ▸ hb.defaults _ hadd q hq d hd)
    (fun s i m U S hs hc hp => (hk.definition_cases hb.toExtends hc.method).elim
      (hk.predefinedBody hi.passed (hi.passed.keys s i hs) hp hc hi.types hbelow)
      fun hadd => .inl (((hk.world _).term_known _).and ((hterm _).symm ▸ hb.bodies _ hadd)))
  have hsound (n : Nat) := B.run_sound limit n
  refine ⟨fun steps o ho => ?_, fun n id v c hc hv => ?_⟩
  · obtain ⟨n, hn⟩ := Machine.runFrom_done ho
    cases hr : o.result with
    | ok v => exact hstrict.1 ▸ (hsound n).result (hr ▸ hn)
    | error e =>
      have hfails : B.Fails e.cause := (hsound n).failure (hr ▸ hn)
      exact Machine.Basis.fails_of_numbers (B := B) hstrict rfl (fun h => h (by decide))
        (fun h => h (by decide)) hfails
  · exact (hc ▸ hsound n).value hstrict hv

/-- The top level calls a function that adds to its argument. -/
def callNext : Build Unit := do
  let x ← Build.param "x" (some (.named (← Build.name "Int"))) none
  Build.function "next" [x] (← Build.call (some (← Build.var "x")) "+" [← Build.int 1])
  Build.stmt (← Build.call none "next" [← Build.int 2])

theorem keeps_callNext : callNext.Keeps :=
  .bind (Build.keeps_name _) fun _ => .bind (Build.keeps_param _ _ _) fun _ =>
  .bind (Build.keeps_var _) fun _ => .bind (Build.keeps_expr _) fun _ =>
  .bind (Build.keeps_call _ _ _) fun _ => .bind (Build.keeps_function _ _ _) fun _ =>
  .bind (Build.keeps_expr _) fun _ => .bind (Build.keeps_call _ _ _) fun _ => Build.keeps_stmt _

-- Only the kernel evaluates it; elaboration would unfold all of the predefined methods.
@[irreducible] def successor : Builder := (callNext (Prelude.builder {})).2

theorem check_sound_successor : ∃ r passes σ o,
    check successor.names successor.source {} = some r ∧ r.errors = [] ∧
    successor.OrdinaryOver r.program.core (Prelude.builder {}) ∧
    (∀ c ∈ r.program.hierarchy.ids, ∀ n ∈ [ClassId.int, .float],
      r.program.hierarchy.isBelow c n = true → c = n) ∧
    runPasses (register successor.names successor.source {}).2.1 ({} : Limits).passes {}
      (register successor.names successor.source {}).2.2 = some (passes, σ) ∧
    (∀ s i, σ.specs.get? s = some i → i.returnType ≠ .never) ∧
    Machine.run r.program 10 100 = some o ∧ ∃ v, o.result = .ok v ∧
      ∃ m ∈ r.program.types.members r.program.mainType, v.type? r.program.types = some m := by
  obtain ⟨r, hr, he, hmain, hbodies, hdefaults, hbelow, hrun⟩ :
      ∃ r ∈ check successor.names successor.source {}, r.errors = [] ∧
        (∀ e ∈ successor.source.main, (Arena.termAt successor.source.arena.terms e).Every
          (·.Ordinary r.program.core)) ∧
        (∀ d ∈ successor.source.definitions.drop (Prelude.builder {}).source.definitions.length,
          (Arena.termAt successor.source.arena.terms d.body).Every (·.Ordinary r.program.core)) ∧
        (∀ d ∈ successor.source.definitions.drop (Prelude.builder {}).source.definitions.length,
          ∀ q ∈ d.params, ∀ e ∈ q.default, (Arena.termAt successor.source.arena.terms e).Every
            fun u => u.Ordinary r.program.core ∧ ¬ u.IsReturn) ∧
        (∀ c ∈ r.program.hierarchy.ids, ∀ n ∈ [ClassId.int, .float],
          r.program.hierarchy.isBelow c n = true → c = n) ∧
        (Machine.run r.program 10 100).any (·.result.isOk) = true := by decide +kernel
  have hordinary : successor.OrdinaryOver r.program.core (Prelude.builder {}) :=
    ⟨by rw [successor]; exact keeps_callNext _, hmain, hbodies, hdefaults⟩
  have hall : (runPasses (register successor.names successor.source {}).2.1
      ({} : Limits).passes {} (register successor.names successor.source {}).2.2).any (fun p =>
        p.2.specs.entries.entries.all fun i => decide (i.returnType ≠ .never)) = true := by
    decide +kernel
  obtain ⟨⟨passes, σ⟩, hpasses, hall⟩ := (Option.any_eq_true _ _).1 hall
  have hreturns : ∀ s i, σ.specs.get? s = some i → i.returnType ≠ .never := fun s i hi =>
    of_decide_eq_true (Array.all_eq_true'.1 hall i (Array.mem_of_getElem? hi))
  obtain ⟨o, ho, hok⟩ := (Option.any_eq_true _ _).1 hrun
  have hsound := (check_sound hr he hordinary hbelow hpasses hreturns 10).1 100 o ho
  refine ⟨r, passes, σ, o, hr, he, hordinary, hbelow, hpasses, hreturns, ho, ?_⟩
  cases hv : o.result with
  | error e => simp [hv, Except.isOk, Except.toBool] at hok
  | ok v =>
    rw [hv] at hsound
    exact ⟨v, rfl, hsound⟩

end Multimethod
