import Multimethod.Proofs.Machine.Operands
import Multimethod.Proofs.Soundness
import Multimethod.Proofs.WellFormed

/-!
# What predefined operations are applied to

In a source that is built on the predefined methods and leaves primitive operations to them, every
operation but identity is applied to numbers, or to objects of a number class or of one below it
(`check_operands`). There are such objects, since `new` and `allocate` make objects of any class; and
they pass for numbers wherever calls are resolved, but no operation admits them
(`check_operands_object`).
-/

namespace Multimethod

open Inference TypeTable

/-- The source `b` is built on `b₀`. Nothing that it adds applies a primitive operation. -/
structure Builder.DefersTo (b b₀ : Builder) : Prop extends b₀.Extends b where
  main : ∀ e ∈ b.source.main, (Arena.termAt b.source.arena.terms e).Defers
  bodies : ∀ d ∈ b.source.definitions.drop b₀.source.definitions.length,
    (Arena.termAt b.source.arena.terms d.body).Defers
  defaults : ∀ d ∈ b.source.definitions.drop b₀.source.definitions.length, ∀ q ∈ d.params,
    ∀ e ∈ q.default, (Arena.termAt b.source.arena.terms e).Defers

/-- The class is one of numbers or below one. -/
def Hierarchy.IsNumeric (h : Hierarchy) (c : ClassId) : Prop :=
  ∃ n ∈ [ClassId.int, .float], h.isBelow c n

instance (h : Hierarchy) (c : ClassId) : Decidable (h.IsNumeric c) :=
  inferInstanceAs (Decidable (∃ n ∈ [ClassId.int, .float], h.isBelow c n))

/-- The class that an object is made of. -/
def Callee.made? : Callee → Option ClassId
  | .specialization _ => none
  | .allocate c | .new c _ => some c

/-- The classes that calls in a body make objects of. -/
def Body.makes (b : Body) : List ClassId :=
  b.dispatch.toList.flatMap fun entry => entry.2.toList.filterMap (·.target.made?)

theorem Body.mem_makes {b : Body} {e : ExprId} {r : Option TypeId} {ms : List TypeId}
    {callee : Callee} {c : ClassId} (hf : (b.dispatchAt e).find? r ms = some callee)
    (hc : callee.made? = some c) : c ∈ b.makes := by
  rw [Body.dispatchAt] at hf
  cases ht : b.dispatch[e]? with
  | none =>
    rw [ht] at hf
    cases hf
  | some table =>
    rw [ht] at hf
    refine List.mem_flatMap.2 ⟨(e, table), ?_, List.mem_filterMap.2 ⟨⟨r, ms, callee⟩, ?_, hc⟩⟩
    · exact Std.ExtTreeMap.mem_toList_iff_getElem?_eq_some.2 ht
    · exact DispatchTable.mem_toList.2 hf

namespace Program

variable (p : Program)

/-- The classes that calls make objects of. -/
def makes : List ClassId := p.mainBody.makes ++ p.specs.ids.flatMap fun s =>
  (Machine.bodyOf p (some s)).makes

theorem mem_makes {unit : Option SpecId} {e : ExprId} {r : Option TypeId} {ms : List TypeId}
    {callee : Callee} {c : ClassId}
    (hf : ((Machine.bodyOf p unit).dispatchAt e).find? r ms = some callee)
    (hc : callee.made? = some c) : c ∈ p.makes := by
  cases unit with
  | none => exact List.mem_append_left _ (Body.mem_makes hf hc)
  | some s =>
    refine List.mem_append_right _ (List.mem_flatMap.2 ⟨s, ?_, Body.mem_makes hf hc⟩)
    cases hs : p.specs.get? s with
    | none =>
      rw [Machine.bodyOf, hs] at hf
      simp [Body.dispatchAt, DispatchTable.find?_empty] at hf
    | some i =>
      have hlt : s.index < p.specs.size := (Array.getElem?_eq_some_iff.1 hs).1
      exact List.mem_map.2 ⟨s.index, List.mem_range.2 hlt, rfl⟩

/-- A number, or an object that some call makes of a class of numbers or of one below it. -/
def Numeric (v : Value) : Prop :=
  (∃ n, Primitive.Number.ofValue? v = some n) ∨
    ∃ o, ∃ c ∈ p.makes, v = .object o c ∧ p.hierarchy.IsNumeric c

end Program

/-- What is of the type of the instances of a class other than those of `nil` and truth values is a
number or an object of this class. -/
theorem Value.number_or_object {t : TypeTable} (H : t.WF) {v : Value} {a : TypeId} {d : ClassId}
    (hv : v.type? t = some a) (ha : t.shape a = .exact d) (hnil : d ≠ .nil) (hbool : d ≠ .bool) :
    (∃ n, Primitive.Number.ofValue? v = some n) ∨ ∃ o, v = .object o d := by
  cases v with
  | int n => exact .inl ⟨_, rfl⟩
  | float x => exact .inl ⟨_, rfl⟩
  | nil =>
    cases hv
    cases ha.symm.trans H.shape_nil
    exact absurd rfl hnil
  | bool b =>
    cases hv
    cases ha.symm.trans H.shape_bool
    exact absurd rfl hbool
  | object o c =>
    have hc := (find?_eq_some.1 hv).2
    cases ha.symm.trans hc
    exact .inr ⟨o, rfl⟩
  | cls c =>
    have hc := (find?_eq_some.1 hv).2
    cases ha.symm.trans hc

section
variable {b : Builder} {limits : Limits} {es : List TypeError} {ctx : Context} {σ : State}
  (hk : Prepared b.names b.source limits es ctx σ)
include hk

/-- However classes are declared, no other predefined class comes to be below one of numbers. -/
theorem Prepared.isNumeric_ne {d : ClassId} (hd : σ.hierarchy.IsNumeric d) :
    d ≠ .object ∧ d ≠ .nil ∧ d ≠ .bool := by
  obtain ⟨n, hn, hdn⟩ := hd
  have hn : n = .int ∨ n = .float := by simpa using hn
  have flat {c : ClassId} (hc : c.index < 5) (hne : c ≠ .object) (hi : c ≠ .int)
      (hf : c ≠ .float) : d ≠ c := by
    rintro rfl
    have hs := hk.superclass_eq d hc hne
    rcases hn with rfl | rfl
    · rw [hk.rooted.not_isBelow hs hi.symm (by decide)] at hdn
      cases hdn
    · rw [hk.rooted.not_isBelow hs hf.symm (by decide)] at hdn
      cases hdn
  refine ⟨?_, flat (by decide) (by decide) (by decide) (by decide),
    flat (by decide) (by decide) (by decide) (by decide)⟩
  rintro rfl
  cases hk.rooted.eq_object (hk.rooted.isBelow_iff.1 hdn)
  rcases hn with hn | hn <;> cases hn

end

section
variable {names : NameTable} {b : Builder} {limits : Limits} {es : List TypeError} {ctx : Context}
  {σ : State} {hk : Prepared b.names b.source limits es ctx σ} {answer : SpecId → Infer TypeId}
  {passes : Passes} {top : TopResult} {σ₁ σ₂ : State} {U : Scope}
  (hi : (hk.world answer).Inferred σ passes top σ₁ σ₂ U)
include hi

/-- Inference does not place classes. -/
theorem isNumeric_frozen {c : ClassId} :
    (World.frozen σ₂).hierarchy.IsNumeric c ↔ σ.hierarchy.IsNumeric c := by
  have htree : (World.frozen σ₂).hierarchy.tree = σ.hierarchy.tree := hi.ok.tree
  refine exists_congr fun n => and_congr_right fun _ => ?_
  rw [← Hierarchy.isBelow_tree, htree, Hierarchy.isBelow_tree]

/-- A value of the type of the instances of a numeric class is numeric. -/
theorem numeric_of_type {v : Value} {a : TypeId} {d : ClassId}
    (hv : v.type? (World.frozen σ₂).types = some a)
    (ha : (World.frozen σ₂).types.shape a = .exact d) (hd : σ.hierarchy.IsNumeric d)
    (hwithin : v.Within fun c => c = .object ∨
      c ∈ (CheckResult.of es ctx passes top (World.frozen σ₂)).program.makes) :
    (CheckResult.of es ctx passes top (World.frozen σ₂)).program.Numeric v := by
  obtain ⟨hobject, hnil, hbool⟩ := hk.isNumeric_ne hd
  refine (v.number_or_object hi.ok.types hv ha hnil hbool).imp_right ?_
  rintro ⟨o, rfl⟩
  exact ⟨o, d, hwithin.resolve_left hobject, rfl, (isNumeric_frozen hi).2 hd⟩

variable (hb : b.DefersTo (Prelude.builder names))
include hb

/-- What a row enters has no operation in it, or is a predefined method on numeric operands. -/
theorem enters_of_picks {k : Name} {m : MethodId} {receiver : Option TypeId} {args : List TypeId}
    {s : SpecId} (hp : (hk.world answer).registry.Picks (World.frozen σ₂).types k receiver args
      (.method m)) (hf : (World.frozen σ₂).specs.find? ⟨m, receiver, args⟩ = some s) :
    let p := (CheckResult.of es ctx passes top (World.frozen σ₂)).program
    Machine.Enters p (fun c => c = .object ∨ c ∈ p.makes) p.Numeric s receiver args := by
  intro p i md hs hmd
  obtain ⟨i', hs', hkey⟩ := Specializations.find?_eq_some.1 hf
  cases hs.symm.trans hs'
  have term (e : ExprId) : Arena.termAt p.terms e = Arena.termAt b.source.arena.terms e :=
    congrArg (Arena.termAt · e) hk.terms
  rw [term]
  rcases hk.definition_cases hb.toExtends hmd with hd | hadd
  case inr => exact .inl (hb.bodies _ hadd)
  rcases hd.body with hstores | ⟨v, hstores⟩ | ⟨op, es', happlies, hlen, hes, hnum⟩
  · obtain ⟨ts, span, ht, -⟩ := hstores.termAt
    rw [ht]
    exact .inl id
  · obtain ⟨ts, span, ht, -⟩ := hstores.termAt
    rw [ht]
    exact .inl id
  · obtain ⟨site, ht⟩ := happlies.termAt
    refine .inr ⟨site, op, _, ht, by rw [List.length_map, hlen], hd.defaults, ?_⟩
    intro r vs hv t hmem
    obtain ⟨e, he, rfl⟩ := List.mem_map.1 hmem
    rcases hnum with rfl | hnum
    · -- Identity takes anything.
      rcases hes e he with hstores | ⟨n, hstores⟩
      · obtain ⟨ts, span, ht, -⟩ := hstores.termAt
        rw [ht]
        exact .inl rfl
      · obtain ⟨ts, span, ht, -⟩ := hstores.termAt
        rw [ht]
        exact .inl rfl
    · have hpicked : (hk.world answer).Picked (World.frozen σ₂) i.key := ⟨k, by rw [hkey]; exact hp⟩
      have hle : σ.types ≤ (World.frozen σ₂).types := le_trans hi.types hi.found.extend.types
      obtain ⟨a, d, hshape, hbelow, hwhich⟩ := hk.operand_below hi.ok (hi.ok.keys s i hs) hpicked
        hmd hle hd.defaults (hnum e he)
      rw [hkey] at hwhich
      rcases hwhich with ⟨hstores, hreceiver⟩ | ⟨q, hstores, hparams, harg⟩
      · obtain ⟨ts, span, ht, -⟩ := hstores.termAt
        obtain ⟨w, rfl, hw⟩ := hv.receiver a hreceiver
        rw [ht]
        exact .inr (numeric_of_type hi hw hshape hbelow (hv.receiverWithin w rfl))
      · obtain ⟨ts, span, ht, -⟩ := hstores.termAt
        obtain ⟨w, ws, rfl, hw⟩ := Machine.exactTypes_head hv.args harg
        have hlocal : (Machine.boundTo md.definition.params (w :: ws) ∅)[q.name]? = some w := by
          simp [hparams, Machine.boundTo]
        rw [ht]
        refine .inr ?_
        show p.Numeric ((Machine.boundTo md.definition.params (w :: ws) ∅)[q.name]?.getD .nil)
        rw [hlocal]
        exact numeric_of_type hi hw hshape hbelow (hv.argsWithin w (.head _))

/-- Operations are left to the predefined methods all along a run. -/
theorem confined :
    let p := (CheckResult.of es ctx passes top (World.frozen σ₂)).program
    Machine.Confined p (fun c => c = .object ∨ c ∈ p.makes) p.Numeric := by
  intro p
  have term (e : ExprId) : Arena.termAt p.terms e = Arena.termAt b.source.arena.terms e :=
    congrArg (Arena.termAt · e) hk.terms
  constructor
  case object => exact .inl rfl
  case main =>
    intro t ht
    have ht : t ∈ ctx.main := ht
    rw [hk.main] at ht
    obtain ⟨e, he, rfl⟩ := List.mem_map.1 ht
    exact hb.main e he
  case defaults =>
    intro m md hm q hq d hd
    rcases hk.definition_cases hb.toExtends hm with hpre | hadd
    · cases (hpre.defaults q hq).symm.trans hd
    · rw [term]
      exact hb.defaults _ hadd q hq d hd
  case rows =>
    intro unit e r ms callee hf
    obtain ⟨self, hrows⟩ := rowsOk_bodyOf hi unit
    obtain ⟨u, k, -, -, hrow, -⟩ := hrows e r ms callee hf
    have hleads := hrow.leads
    cases callee with
    | specialization s =>
      obtain ⟨m, hp, hs⟩ := hleads
      exact enters_of_picks hi hb hp hs
    | allocate c => exact .inr (p.mem_makes hf rfl)
    | new c initializer =>
      refine ⟨.inr (p.mem_makes hf rfl), ?_⟩
      rintro s ⟨⟩
      obtain ⟨-, o, ho, -, m, hp, hs⟩ := hleads
      have hhas : (World.frozen σ₂).types.Has o := has_of_shape (by rw [ho]; nofun)
      exact ⟨o, find?_eq_some.2 ⟨hhas, ho⟩, enters_of_picks hi hb hp hs⟩

end

/-- Let a source be built on the predefined methods, and leave primitive operations to them. Whatever
errors it has, in a run every operation has its number of operands, and unless it compares
identities, each is a number or an object that the program makes of a class of numbers or of one
below it. If there are no such objects, an operation fails only because an integer does not fit. -/
theorem check_operands {names : NameTable} {b : Builder} {limits : Limits} {r : CheckResult}
    (h : check b.names b.source limits = some r) (hb : b.DefersTo (Prelude.builder names))
    {limit n : Nat} {site : Site} {op : Primitive} {vs : List Value}
    (hc : ((Machine.step r.program limit)^[n] (Machine.start r.program)).control =
      .apply site op vs) :
    vs.length = op.arity ∧ (op = .identical ∨ ∀ v ∈ vs, r.program.Numeric v) ∧
    ((∀ c ∈ r.program.makes, ¬ r.program.hierarchy.IsNumeric c) →
      (op = .identical ∨ ∀ v ∈ vs, ∃ m, Primitive.Number.ofValue? v = some m) ∧
      ∀ cause, op.apply vs = .error cause → cause = .integerOverflow op.methodName) := by
  rcases hreg : register b.names b.source limits with ⟨es, ctx, σ⟩
  obtain ⟨hk, passes, top, σ₁, σ₂, -, -, hcheck, hinferred⟩ := check_eq hreg
  obtain ⟨U, hi⟩ := hinferred Infer.storedType
  obtain rfl := Option.some.inj (h.symm.trans hcheck)
  obtain ⟨hlen, hadmits⟩ := (confined hi hb).admits hc
  have hnumeric : op = .identical ∨ ∀ v ∈ vs,
      (CheckResult.of es ctx passes top (World.frozen σ₂)).program.Numeric v := by
    by_cases hop : op = .identical
    · exact .inl hop
    · exact .inr fun v hv => (hadmits v hv).resolve_left hop
  refine ⟨hlen, hnumeric, fun hmakes => ?_⟩
  have hnumbers := hnumeric.imp_right fun hall v hv => (hall v hv).resolve_right
    fun ⟨_, c, hmade, _, hc⟩ => hmakes c hmade hc
  exact ⟨hnumbers, fun cause => Primitive.apply_error hlen hnumbers⟩

/-- Two integers are to be added. -/
def Machine.Control.addsIntegers : Machine.Control → Bool
  | .apply _ .add [.int _, .int _] => true
  | _ => false

/-- Where a function adds two integers, both operands are integers. -/
theorem check_operands_successor : ∃ r site i j,
    check successor.names successor.source {} = some r ∧
    successor.DefersTo (Prelude.builder {}) ∧
    ((Machine.step r.program 10)^[20] (Machine.start r.program)).control =
      .apply site .add [.int i, .int j] ∧
    (∀ v ∈ [Value.int i, .int j], r.program.Numeric v) ∧
    (∀ c ∈ r.program.makes, ¬ r.program.hierarchy.IsNumeric c) ∧
    ∀ cause, Primitive.add.apply [.int i, .int j] = .error cause → cause = .integerOverflow "+" := by
  obtain ⟨r, hr, hmain, hbodies, hdefaults, hmakes, hrun⟩ :
      ∃ r ∈ check successor.names successor.source {},
        (∀ e ∈ successor.source.main, (Arena.termAt successor.source.arena.terms e).Defers) ∧
        (∀ d ∈ successor.source.definitions.drop (Prelude.builder {}).source.definitions.length,
          (Arena.termAt successor.source.arena.terms d.body).Defers) ∧
        (∀ d ∈ successor.source.definitions.drop (Prelude.builder {}).source.definitions.length,
          ∀ q ∈ d.params, ∀ e ∈ q.default, (Arena.termAt successor.source.arena.terms e).Defers) ∧
        (∀ c ∈ r.program.makes, ¬ r.program.hierarchy.IsNumeric c) ∧
        ((Machine.step r.program 10)^[20] (Machine.start r.program)).control.addsIntegers = true := by
    decide +kernel
  have hdefers : successor.DefersTo (Prelude.builder {}) :=
    ⟨by rw [successor]; exact keeps_callNext _, hmain, hbodies, hdefaults⟩
  unfold Machine.Control.addsIntegers at hrun
  split at hrun
  case h_2 => cases hrun
  case h_1 site i j hc =>
    obtain ⟨-, hnumeric, herror⟩ := check_operands hr hdefers hc
    exact ⟨r, site, i, j, hr, hdefers, hc, hnumeric.resolve_left (by simp), hmakes, (herror hmakes).2⟩

/-- The top level converts a new object of the class of integers to a float. -/
def convertNew : Build Unit := do
  Build.stmt (← Build.call (some (← Build.call (some (← Build.const "Int")) "new" [])) "to_f" [])

theorem keeps_convertNew : convertNew.Keeps :=
  .bind (.bind (Build.keeps_name _) fun _ => Build.keeps_expr _) fun _ =>
  .bind (Build.keeps_call _ _ _) fun _ => .bind (Build.keeps_call _ _ _) fun _ =>
  Build.keeps_stmt _

-- As above, only the kernel evaluates it.
@[irreducible] def converted : Builder := (convertNew (Prelude.builder {})).2

/-- An object of the class of integers is to be converted. -/
def Machine.Control.convertsInt : Machine.Control → Bool
  | .apply _ .toFloat [.object _ c] => c == .int
  | _ => false

/-- Such an object is taken for an integer by the checker, but not by the operation. -/
theorem check_operands_object : ∃ r site o,
    check converted.names converted.source {} = some r ∧ r.errors = [] ∧
    converted.DefersTo (Prelude.builder {}) ∧
    ((Machine.step r.program 10)^[12] (Machine.start r.program)).control =
      .apply site .toFloat [.object o .int] ∧
    Primitive.toFloat.apply [.object o .int] = .error (.noDispatch "to_f" ["Object"]) := by
  obtain ⟨r, hr, he, hmain, hbodies, hdefaults, hrun⟩ :
      ∃ r ∈ check converted.names converted.source {}, r.errors = [] ∧
        (∀ e ∈ converted.source.main, (Arena.termAt converted.source.arena.terms e).Defers) ∧
        (∀ d ∈ converted.source.definitions.drop (Prelude.builder {}).source.definitions.length,
          (Arena.termAt converted.source.arena.terms d.body).Defers) ∧
        (∀ d ∈ converted.source.definitions.drop (Prelude.builder {}).source.definitions.length,
          ∀ q ∈ d.params, ∀ e ∈ q.default, (Arena.termAt converted.source.arena.terms e).Defers) ∧
        ((Machine.step r.program 10)^[12] (Machine.start r.program)).control.convertsInt = true := by
    decide +kernel
  have hdefers : converted.DefersTo (Prelude.builder {}) :=
    ⟨by rw [converted]; exact keeps_convertNew _, hmain, hbodies, hdefaults⟩
  unfold Machine.Control.convertsInt at hrun
  split at hrun
  case h_2 => cases hrun
  case h_1 site o c hc =>
    obtain rfl := eq_of_beq hrun
    exact ⟨r, site, o, hr, he, hdefers, hc, rfl⟩

end Multimethod
