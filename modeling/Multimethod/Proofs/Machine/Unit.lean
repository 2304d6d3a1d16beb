import Multimethod.Proofs.Machine.Sound

/-!
# Running bodies and their calls

A call in a running body looks up its target in the program's table. The row that it finds, if there
is one, is the row that the last pass found for the types of receiver and arguments
(`Basis.lookUp_finds`), and leads to a specialization that this pass has evaluated.
-/

namespace Multimethod

open Inference TypeTable

namespace Value

variable {t u : TypeTable} {v : Value} {m : TypeId}

/-- The exact type of a value has no members but itself. -/
theorem isMember_of_type? (h : v.type? t = some m) (H : t.WF) : (t.shape m).IsMember := by
  cases v <;> simp only [type?, Option.some.injEq] at h
  case object o c => rw [(find?_eq_some.1 h).2]; trivial
  case cls c => rw [(find?_eq_some.1 h).2]; trivial
  case nil => rw [← h, H.shape_nil]; trivial
  case bool => rw [← h, H.shape_bool]; trivial
  case int => rw [← h, H.shape_int]; trivial
  case float => rw [← h, H.shape_float]; trivial

theorem type?_mono (h : v.type? t = some m) (hle : t ≤ u) : v.type? u = some m := by
  cases v <;> simp only [type?] at h ⊢
  case object | cls => exact find?_mono hle h
  all_goals exact h

/-- A value of a type is of its exact type, which is a member. -/
theorem Of.exact {P : ClassId → Prop} {cs : List ClassId} {a : TypeId} (h : v.Of t P cs a)
    (H : t.WF) : ∃ m ∈ t.members a, v.type? t = some m ∧ v.Of t P cs m := by
  obtain ⟨hk, m, hm, hv⟩ := h
  exact ⟨m, hm, hv, hk, m, mem_members_self (isMember_of_type? hv H), hv⟩

end Value

namespace Machine

variable {p : Program} {a : Activation} {e : ExprId} {args : List Value} {ms : List TypeId}

/-- With a receiver, the row for its type is used. -/
theorem lookUp_receiver {v : Value} {m : TypeId} (hv : v.type? p.types = some m)
    (hargs : exactTypes p args = some ms) :
    lookUp p a e (some v) args =
      (((bodyOf p a.unit).dispatchAt e).find? (some m) ms).map (·, some v) := by
  unfold lookUp Body.dispatchAt
  cases (bodyOf p a.unit).dispatch[e]? with
  | none => simp [DispatchTable.find?_empty]
  | some table => cases hf : table.find? (some m) ms <;> simp [hargs, hv, hf]

/-- Without a receiver, a row for `self` is used, and one without a receiver only if there is no
such row. -/
theorem lookUp_send {s : TypeId} (hs : (a.receiver.getD mainObject).type? p.types = some s)
    (hargs : exactTypes p args = some ms) :
    lookUp p a e none args =
      ((((bodyOf p a.unit).dispatchAt e).find? (some s) ms).map
          (·, some (a.receiver.getD mainObject))).or
        ((((bodyOf p a.unit).dispatchAt e).find? none ms).map (·, none)) := by
  unfold lookUp Body.dispatchAt
  cases (bodyOf p a.unit).dispatch[e]? with
  | none => simp [DispatchTable.find?_empty]
  | some table =>
    cases hf : table.find? (some s) ms <;> cases hn : table.find? none ms <;>
      simp [hargs, hs, hf, hn]

end Machine

namespace World

variable {W : World} {τ : State} {key : SpecKey}

theorem KeyOk.args_has {t : TypeTable} (h : W.KeyOk t key) : ∀ a ∈ key.args, t.Has a :=
  fun a ha => has_of_isMember (h.args a ha).isMember

/-- A specialization that some call leads to suits its key. -/
theorem Picked.suits (h : W.Picked τ key) (hok : W.Ok τ) (hkey : W.KeyOk τ.types key) :
    ∃ k, W.registry.Suits τ.types k key.receiver key.args (.method key.method) := by
  obtain ⟨k, hp⟩ := h
  exact ⟨k, hp.suits hok.types hok.described hkey.receiver_has hkey.args_has⟩

/-- Its arguments fit the restrictions of its method, now and later. -/
theorem Picked.isSubtype (h : W.Picked τ key) (hok : W.Ok τ) (hkey : W.KeyOk τ.types key)
    {m : Method} (hm : W.ctx.methods.get? key.method = some m) {j : Nat} {a : TypeId}
    (hj : key.args[j]? = some a) {u : TypeTable} (hu : u.WF) (hle : τ.types ≤ u) :
    ∀ r ∈ (m.restriction j key.receiver u).1, W.tree.isSubtype u a r = true := fun r hr => by
  obtain ⟨k, -, -, haccepts⟩ := h.suits hok hkey
  refine haccepts.isSubtype hu hle (hok.described.mono hle)
    (fun c hc => (hkey.receiver_has c hc).mono hle) (fun c hc => (hkey.args_has c hc).mono hle)
    hj r ?_
  simp only [Registry.restriction, World.registry, hm]
  exact hr

section
variable (h : W.Picked τ key) (hok : W.Ok τ) (hkey : W.KeyOk τ.types key) {m : Method}
  (hm : W.ctx.methods.get? key.method = some m) {c : ClassId}
include h hok hkey hm

/-- A method of the instances of a class other than the root is called on instances of it and of
classes below it. -/
theorem Picked.receiver_below (hover : ∀ n o i, i ∈ W.ctx.methods.overloads n o →
      ∃ md, W.ctx.methods.get? i = some md ∧ md.owner = o)
    (ho : m.owner = .instances c) (hc : c ≠ .object) : ∃ a d, key.receiver = some a ∧
      τ.types.shape a = .exact d ∧ W.tree.isBelow d c = true := by
  obtain ⟨k, hcand, -⟩ := h.suits hok hkey
  have owner {o : MethodOwner} (hi : key.method ∈ W.ctx.methods.overloads k o) :
      o = .instances c := by
    obtain ⟨md, hmd, rfl⟩ := hover k o _ hi
    cases hm.symm.trans hmd
    exact ho
  cases hr : key.receiver with
  | none =>
    rw [hr] at hcand
    cases owner hcand
  | some a =>
    rw [hr] at hcand
    obtain ⟨o, hlook, hi⟩ := List.mem_flatMap.1 hcand
    cases owner hi
    have hvalue := hkey.receiver a hr
    cases hs : τ.types.shape a with
    | exact d =>
      simp only [hs, MethodTable.lookupOrder, List.mem_map, MethodOwner.instances.injEq,
        exists_eq_right] at hlook
      exact ⟨a, d, rfl, hs, Hierarchy.isBelow_iff.2 hlook⟩
    | classObject d =>
      rw [hs] at hlook
      simp [MethodTable.lookupOrder, hc] at hlook
    | _ =>
      rw [hs] at hvalue
      exact hvalue.elim

/-- What is passed to a parameter that is restricted to a class other than the root is an instance
of it or of a class below it. -/
theorem Picked.argument_below {j : Nat} {a b : TypeId} (hj : key.args[j]? = some a)
    (hb : m.declared j = some b) (hs : τ.types.shape b = .exact c) (hc : c ≠ .object) :
    ∃ d, τ.types.shape a = .exact d ∧ W.tree.isBelow d c = true := by
  have hsub := h.isSubtype hok hkey hm hj hok.types (le_refl _) b (by
    simp only [Method.restriction, hb]
    show b ∈ some (forReceiver b _ τ.types).1
    rw [forReceiver_of_exact hok.types hs]
    rfl)
  have hvalue := hkey.args a (List.mem_of_getElem? hj)
  simp only [Hierarchy.isSubtype, members_of_isMember hvalue.isMember,
    members_of_isMember (show (τ.types.shape b).IsMember by rw [hs]; trivial), List.all_cons,
    List.all_nil, List.any_cons, List.any_nil, Bool.and_true, Bool.or_false,
    Hierarchy.memberBelow, Bool.or_eq_true, decide_eq_true_eq, hs] at hsub
  rcases hsub with rfl | hsub
  · refine ⟨c, hs, Hierarchy.isBelow_iff.2 ?_⟩
    obtain ⟨n, hn⟩ := Nat.exists_eq_succ_of_ne_zero (Nat.ne_of_gt (Nat.lt_of_lt_of_le
      (by decide) W.five_le))
    rw [Hierarchy.ancestors, hn, Hierarchy.chain]
    exact .head _
  · cases hsa : τ.types.shape a with
    | exact d =>
      rw [hsa] at hsub
      exact ⟨d, rfl, hsub⟩
    | classObject d =>
      rw [hsa] at hsub
      exact absurd (of_decide_eq_true hsub) hc
    | _ =>
      rw [hsa] at hvalue
      exact hvalue.elim

end

end World

namespace Machine

namespace Basis

variable {B : Basis} {cs : List ClassId} {unit : Option SpecId} {receiver : Option Value}
  {U : Scope} {R a : TypeId}

/-! ## What is known of a running body -/

namespace Runs

variable (h : B.Runs cs unit receiver U R)
include h

theorem returns : B.τ.types.Inside U.returns R := by
  cases unit with
  | none =>
    obtain ⟨-, rfl, rfl⟩ := h
    exact B.topReturns
  | some s =>
    obtain ⟨i, m, S, -, -, hc, rfl, -⟩ := h
    exact hc.returns

theorem selfClass : U.selfClass = U.self.bind B.τ.types.instanceClass? := by
  cases unit with
  | none =>
    obtain ⟨-, rfl, -⟩ := h
    rw [B.topSelf, B.topClass]
    rfl
  | some s =>
    obtain ⟨i, m, S, -, -, hc, -, -⟩ := h
    rw [hc.self, hc.selfClass]

/-- The value of `self` is of its type, if there is a receiver. -/
theorem self : B.SelfOf cs receiver U.self := by
  cases unit with
  | none =>
    obtain ⟨rfl, rfl, -⟩ := h
    exact B.topSelf
  | some s =>
    obtain ⟨i, m, S, -, -, hc, -, hself⟩ := h
    exact hself

theorem self_isMember : ∀ a ∈ U.self, (B.τ.types.shape a).IsMember := by
  cases unit with
  | none =>
    obtain ⟨-, rfl, -⟩ := h
    rw [B.topSelf]
    nofun
  | some s =>
    obtain ⟨i, m, S, hi, -, hc, -, -⟩ := h
    rw [hc.self]
    exact fun a ha => ((B.ok.keys s i hi).receiver a ha).isMember

theorem rows : B.W.RowsOk B.τ U.self U.body := by
  cases unit with
  | none =>
    obtain ⟨-, rfl, -⟩ := h
    rw [B.topSelf]
    exact B.topRows
  | some s =>
    obtain ⟨i, m, S, hi, -, hc, -, -⟩ := h
    rw [hc.self, hc.body]
    exact B.ok.rows s i hi

theorem reached : ReachedBy B.τ U.body := by
  cases unit with
  | none =>
    obtain ⟨-, rfl, -⟩ := h
    exact B.topReached
  | some s =>
    obtain ⟨i, m, S, hi, hd, hc, -, -⟩ := h
    rw [hc.body]
    exact B.closed s i hi (B.idle s i hi) hd

/-- The rows that the program has for the body are rows of its calls; they may all be there. -/
theorem program : B.W.RowsOk B.final U.self (bodyOf B.program unit) ∧
    (B.Strict → bodyOf B.program unit = U.body) := by
  cases unit with
  | none =>
    obtain ⟨-, rfl, -⟩ := h
    rw [B.topSelf]
    exact ⟨B.mainRows, B.strict_main⟩
  | some s =>
    obtain ⟨i, m, S, hi, hd, hc, -, -⟩ := h
    obtain ⟨j, hj, hkey, -⟩ := B.grows.specs s i hi
    have hbody : bodyOf B.program (some s) = j.body := by
      simp only [bodyOf, B.specs_eq, hj, Option.map_some, Option.getD_some]
    rw [hbody, hc.self, hc.body, ← hkey]
    refine ⟨B.finalOk.rows s j hj, fun hs => ?_⟩
    obtain ⟨j', hj', hb⟩ := B.strict_spec hs s i hi
    cases hj.symm.trans hj'
    exact hb

end Runs

theorem Around.self {c : Config} (h : B.Around cs U R c) :
    B.Of cs c.self (U.self.getD .object) := by
  have hself := h.runs.self
  unfold Config.self
  cases hr : c.activation.receiver with
  | none =>
    rw [hr] at hself
    rw [show U.self = none from hself]
    obtain ⟨l, hl⟩ := h.objects
    exact .object (by rw [← hl]; rfl) B.object B.ok.types.shape_object
  | some v =>
    rw [hr] at hself
    obtain ⟨a, ha, hv⟩ := hself
    rw [ha]
    exact hv

/-- An instance variable of `self`. -/
theorem Around.ivar {c : Config} (h : B.Around cs U R c) {n : Name} (ha : match U.selfClass with
      | none => a = .nil
      | some c => B.τ.types.Joins ((B.τ.hierarchy.ivarType c n).getD .never) .nil a) :
    B.Of cs (c.ivar n) a := by
  have hnil : B.Of cs .nil a := by
    have : B.Of cs .nil .nil := .nil B.ok.types
    split at ha
    · exact ha ▸ this
    · exact this.inside ha.right
  have hself := h.runs.self
  have hclass := h.runs.selfClass
  unfold Config.ivar
  split
  · rename_i o d hr
    rw [hr] at hself
    obtain ⟨b, hb, hv⟩ := hself
    have hshape : B.τ.types.shape b = .exact d := by
      have := hv.type?_of_isMember (h.runs.self_isMember b hb)
      exact (find?_eq_some.1 this).2
    have hd : U.selfClass = some d := by
      rw [hclass, hb, Option.bind_some, instanceClass?, hshape]
      rfl
    rw [hd] at ha
    exact h.heap.get B.ok.types hv.1.1 ha
  · exact hnil

/-- Assigning an instance variable of `self`. -/
theorem Around.setIvar {c : Config} (h : B.Around cs U R c) {n : Name} {v : Value}
    (hv : B.Of cs v a) (ha : ∀ c ∈ U.selfClass,
      ∃ b, B.τ.hierarchy.ivarType c n = some b ∧ B.τ.types.Inside a b) :
    B.Around cs U R (c.setIvar n v) ∧ (c.setIvar n v).activation = c.activation := by
  have hself := h.runs.self
  have hclass := h.runs.selfClass
  unfold Config.setIvar
  split
  · rename_i o d hr
    rw [hr] at hself
    obtain ⟨b, hb, hov⟩ := hself
    have hshape : B.τ.types.shape b = .exact d := by
      have := hov.type?_of_isMember (h.runs.self_isMember b hb)
      exact (find?_eq_some.1 this).2
    obtain ⟨b', hb', hin⟩ := ha d (by
      rw [hclass, hb, Option.bind_some, instanceClass?, hshape]
      rfl)
    exact ⟨⟨h.objects, h.heap.set hov.1.1 hb' (hv.inside hin), h.runs, h.callers⟩, rfl⟩
  · exact ⟨h, rfl⟩

/-! ## Looking up calls -/

/-- The exact types of values are members of their types. -/
theorem exactTypes_of {args : List Value} {as : List TypeId} (h : B.AllOf cs args as) :
    ∃ ms, List.Forall₂ (fun m a => m ∈ B.τ.types.members a) ms as ∧
      exactTypes B.program args = some ms ∧ B.AllOf cs args ms ∧
      ∀ m ∈ ms, (B.τ.types.shape m).IsMember := by
  induction h with
  | nil => exact ⟨[], .nil, rfl, .nil, by simp⟩
  | @cons v a args as hv _ ih =>
    obtain ⟨ms, hms, htypes, hall, hmem⟩ := ih
    obtain ⟨m, hm, htype, hvm⟩ := hv.exact B.ok.types
    refine ⟨m :: ms, .cons hm hms, ?_, .cons hvm hall,
      List.forall_mem_cons.2 ⟨Value.isMember_of_type? htype B.ok.types, hmem⟩⟩
    have hmono := Value.type?_mono htype (B.types_eq ▸ B.grows.types)
    unfold exactTypes at htypes ⊢
    rw [List.mapM_cons, hmono, htypes]
    rfl

/-- The program has no other row for a call than what inference found. -/
theorem row_unique (h : B.Runs cs unit receiver U R) {e : ExprId} {r : Option TypeId}
    {ms : List TypeId} {callee callee' : Callee}
    (hf : (U.body.dispatchAt e).find? r ms = some callee)
    (hf' : ((bodyOf B.program unit).dispatchAt e).find? r ms = some callee') :
    callee' = callee := by
  obtain ⟨u, k, hu, hk, hrow, -⟩ := h.rows e r ms callee hf
  obtain ⟨u', k', hu', hk', hrow', -⟩ := h.program.1 e r ms callee' hf'
  cases hu.symm.trans hu'
  cases hk.symm.trans hk'
  exact hrow'.leads.unique B.finalOk.types
    (hrow.leads.mono B.ok.types B.grows.types B.grows.keeps)

/-- What the look-up of a call finds: the target that inference found for the types of arguments and
`self`, which are `ms` and `r`. -/
structure Finds (B : Basis) (cs : List ClassId) (U : Scope) (e : ExprId) (k : Name) (a : TypeId)
    (args : List Value) (callee : Callee) (own : Option Value) (r : Option TypeId)
    (ms : List TypeId) : Prop where
  row : (U.body.dispatchAt e).find? r ms = some callee
  leads : B.W.registry.Leads B.τ.types B.τ.specs k r ms callee
  answers : ∃ b, World.Answers B.τ callee b ∧ B.τ.types.Inside b a
  args : B.AllOf cs args ms
  self : B.SelfOf cs own r
  argMembers : ∀ m ∈ ms, (B.τ.types.shape m).IsMember
  selfMember : ∀ m ∈ r, (B.τ.types.shape m).IsMember

/-- The look-up of a call with a receiver goes to the row for a member of the receiver's type. -/
theorem lookUp_receiver_row (a : Activation) (e : ExprId) {v : Value} {b : TypeId}
    {args : List Value} {ms : List TypeId} (hv : B.Of cs v b)
    (hargs : exactTypes B.program args = some ms) :
    ∃ m ∈ B.τ.types.members b, B.Of cs v m ∧ (B.τ.types.shape m).IsMember ∧
      lookUp B.program a e (some v) args =
        (((bodyOf B.program a.unit).dispatchAt e).find? (some m) ms).map (·, some v) := by
  obtain ⟨m, hm, htype, hvm⟩ := hv.exact B.ok.types
  exact ⟨m, hm, hvm, Value.isMember_of_type? htype B.ok.types,
    lookUp_receiver (Value.type?_mono htype (B.types_eq ▸ B.grows.types)) hargs⟩

/-- All rows of a call without a receiver have the receiver that `self` gives. -/
theorem receiver_of_send {c : Config} (h : B.Around cs U R c) {e : ExprId} {k : Name} {site : Site}
    {ts : List Term} (hu : B.W.callAt e = some (.send site k ts)) {r : Option TypeId}
    {ms : List TypeId} {callee : Callee}
    (hf : ((bodyOf B.program c.activation.unit).dispatchAt e).find? r ms = some callee) :
    r = B.W.sendReceiver B.τ.types U.self k := by
  obtain ⟨u, k', hu', hk', -, hsend⟩ := h.runs.program.1 e r ms callee hf
  cases hu.symm.trans hu'
  cases hk'
  exact (hsend site ts rfl).trans (World.sendReceiver_mono B.ok.types B.grows.types
    (fun a ha => has_of_isMember (h.runs.self_isMember a ha)) k)

/-- The look-up of a call without a receiver goes to the row for `self` if the call goes to `self`,
and else to the one without a receiver. -/
theorem lookUp_send_row {c : Config} (h : B.Around cs U R c) {e : ExprId} {k : Name} {site : Site}
    {ts : List Term} (hu : B.W.callAt e = some (.send site k ts)) {args : List Value}
    {ms : List TypeId} (hargs : exactTypes B.program args = some ms) :
    ∃ self, B.SelfOf cs self (B.W.sendReceiver B.τ.types U.self k) ∧
      lookUp B.program c.activation e none args =
        (((bodyOf B.program c.activation.unit).dispatchAt e).find?
          (B.W.sendReceiver B.τ.types U.self k) ms).map (·, self) := by
  have hmember : (B.τ.types.shape (U.self.getD .object)).IsMember := by
    cases hs : U.self with
    | none => rw [Option.getD_none, B.ok.types.shape_object]; trivial
    | some s => exact h.runs.self_isMember s hs
  have hrun := lookUp_send (a := c.activation) (e := e)
    (Value.type?_mono (h.self.type?_of_isMember hmember) (B.types_eq ▸ B.grows.types)) hargs
  have only {r : Option TypeId} {callee : Callee}
      (hf : ((bodyOf B.program c.activation.unit).dispatchAt e).find? r ms = some callee) :=
    receiver_of_send h hu hf
  cases hgoes : B.W.sendReceiver B.τ.types U.self k with
  | some s =>
    have hs : U.self.getD .object = s := Option.some.inj (Option.filter_eq_some_iff.1 hgoes).1
    refine ⟨some c.self, ⟨s, rfl, hs ▸ h.self⟩, ?_⟩
    rw [hrun, hs]
    cases hfn : ((bodyOf B.program c.activation.unit).dispatchAt e).find? none ms with
    | none => exact Option.or_none
    | some callee => cases (only hfn).trans hgoes
  | none =>
    refine ⟨none, rfl, ?_⟩
    rw [hrun]
    cases hfs : ((bodyOf B.program c.activation.unit).dispatchAt e).find?
        (some (U.self.getD .object)) ms with
    | none => rfl
    | some callee => cases (only hfs).trans hgoes

/-- What the look-up of a call comes down to: one row of its table, for a receiver that inference
knows. -/
theorem lookUp_row {c : Config} (h : B.Around cs U R c) {e : ExprId} {k : Name}
    {receiver : Option Value} {r : Option TypeId} {args : List Value} {ms : List TypeId}
    (hcall : B.Calling cs U e k receiver r) (hargs : exactTypes B.program args = some ms) :
    ∃ r' self, r' ∈ Registry.receivers B.τ.types r ∧ B.SelfOf cs self r' ∧
      (∀ m ∈ r', (B.τ.types.shape m).IsMember) ∧
      lookUp B.program c.activation e receiver args =
        (((bodyOf B.program c.activation.unit).dispatchAt e).find? r' ms).map (·, self) := by
  obtain ⟨u, hu, hk, hreceiver⟩ := hcall
  cases receiver with
  | some v =>
    obtain ⟨b, rfl, hv⟩ := hreceiver
    obtain ⟨m, hm, hvm, hmember, hrun⟩ := lookUp_receiver_row c.activation e hv hargs
    exact ⟨some m, some v, List.mem_map.2 ⟨m, hm, rfl⟩, ⟨m, rfl, hvm⟩,
      by rintro _ ⟨⟩; exact hmember, hrun⟩
  | none =>
    obtain ⟨⟨site, ts, rfl⟩, rfl⟩ := hreceiver
    obtain ⟨self, hself, hrun⟩ := lookUp_send_row h hu hargs
    have hmember := World.sendReceiver_isMember (W := B.W) B.ok.types h.runs.self_isMember (k := k)
    refine ⟨_, self, ?_, hself, hmember, hrun⟩
    rw [Registry.receivers_of_isMember hmember]
    exact .head _

/-- A call in a running body finds its target, or no row at all if rows may be missing. -/
theorem lookUp_finds {c : Config} (h : B.Around cs U R c) {e : ExprId} {k : Name}
    {receiver : Option Value} {r : Option TypeId} {args : List Value} {as : List TypeId}
    (hcall : B.Calling cs U e k receiver r) (hargs : B.AllOf cs args as)
    (hcalls : B.W.Calls B.τ U e k r as a) :
    (∃ callee self r ms, lookUp B.program c.activation e receiver args = some (callee, self) ∧
      B.Finds cs U e k a args callee self r ms) ∨
    lookUp B.program c.activation e receiver args = none ∧ ¬ B.Strict := by
  obtain ⟨ms, hms, htypes, hall, hmem⟩ := exactTypes_of hargs
  obtain ⟨r', self, hr', hself, hselfMember, hrun⟩ := lookUp_row h hcall htypes
  -- Inference has a row for these types, and the program's row, if there is one, is the same.
  obtain ⟨callee, hf, hleads, hanswers⟩ := hcalls r' ms (Registry.mem_combinations.2 ⟨hr', hms⟩)
  rw [hrun]
  cases hfind : ((bodyOf B.program c.activation.unit).dispatchAt e).find? r' ms with
  | none =>
    refine .inr ⟨rfl, fun hs => ?_⟩
    rw [← h.runs.program.2 hs, hfind] at hf
    cases hf
  | some callee' =>
    cases row_unique h.runs hf hfind
    exact .inl ⟨_, self, r', ms, rfl, hf, hleads, hanswers, hall, hself, hmem, hselfMember⟩

end Basis

end Machine

end Multimethod
