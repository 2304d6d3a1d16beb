import Multimethod.Machine.Step
import Multimethod.Proofs.Dispatch
import Multimethod.Proofs.Machine.Value

/-!
# Operands along a run

Where primitive operations are left to some methods, each of which consists of just one, no body that
is running ever has two of them to apply. Either its work has no operation in it (`Config.Defers`), or
it is on the way to its only one, whose operands are `self` or variables that nothing can have
assigned to (`Applying`). So the operands of an operation are what such a method was called with
(`Confined.run_working`).

All along, objects are of the classes that some row of a dispatch table makes objects of.
-/

namespace Multimethod

/-- Whether a term applies a primitive operation. -/
def Term.IsPrimitive : Term → Prop
  | .primitive _ _ _ => True
  | _ => False

instance : DecidablePred Term.IsPrimitive
  | .primitive _ _ _ => .isTrue trivial
  | .nil _ | .bool _ _ | .int _ _ | .float _ _ | .self _ | .var _ _ | .assign _ _ _ | .ivar _ _
  | .setIvar _ _ _ | .const _ _ | .call _ _ _ _ | .send _ _ _ | .ifThen _ _ _ | .ifElse _ _ _ _
  | .loop _ _ _ | .andAlso _ _ _ | .orElse _ _ _ | .ret _ | .retValue _ _ | .block _ _ =>
    .isFalse id

/-- The term leaves primitive operations to the methods that it calls. -/
abbrev Term.Defers (t : Term) : Prop := t.Every fun u => ¬ u.IsPrimitive

/-- An object is of a class that has the property. -/
def Value.Within (P : ClassId → Prop) : Value → Prop
  | .object _ c => P c
  | _ => True

/-- All objects that are held are of classes that have the property. -/
def Heap.Within (P : ClassId → Prop) (h : Heap) : Prop :=
  ∀ (o : ObjectId) (n : Name) v, (h.ivars o)[n]? = some v → v.Within P

namespace Heap.Within

variable {P : ClassId → Prop} {h : Heap}

theorem get (H : h.Within P) (o : ObjectId) (n : Name) : (h.get o n).Within P := by
  unfold Heap.get
  cases hv : (h.ivars o)[n]? with
  | none => trivial
  | some v => exact H o n v hv

theorem set (H : h.Within P) (o : ObjectId) (n : Name) {v : Value} (hv : v.Within P) :
    (h.set o n v).Within P := by
  intro o' n' w hw
  by_cases hlt : o.index < h.objects.size
  · rw [Heap.Holds.ivars_set o' n v hlt] at hw
    split at hw
    · rw [Std.ExtTreeMap.getElem?_insert] at hw
      split at hw
      · cases hw
        exact hv
      · exact H o' n' w hw
    · exact H o' n' w hw
  · -- There is no such object, so nothing changes.
    have hsame : (h.set o n v).ivars o' = h.ivars o' := by
      simp only [Heap.set, Heap.ivars, Array.getD_eq_getD_getElem?, Array.getElem?_modify]
      split
      · rename_i ho
        rw [← ho, Array.getElem?_eq_none (Nat.le_of_not_lt hlt)]
        rfl
      · rfl
    rw [hsame] at hw
    exact H o' n' w hw

theorem allocate (H : h.Within P) (c : ClassId) : (h.allocate c).2.Within P := by
  intro o n v hv
  simp only [Heap.allocate, Heap.ivars, Array.getD_eq_getD_getElem?, Array.getElem?_push] at hv
  split at hv
  · simp at hv
  · exact H o n v (by rwa [Heap.ivars, Array.getD_eq_getD_getElem?])

end Heap.Within

/-- No operation gives an object. -/
theorem Primitive.apply_within {P : ClassId → Prop} {op : Primitive} {vs : List Value} {v : Value}
    (h : op.apply vs = .ok v) : v.Within P := by
  unfold apply at h
  split at h
  · cases h
    trivial
  · split at h
    · cases h
      unfold convert
      split <;> trivial
    · cases h
  · split at h
    · cases h
      unfold convert
      split <;> trivial
    · cases h
  · split at h
    · rename_i m n _ _
      split at h
      · cases m <;> cases n <;> simp only [arithmetic] at h
        case int.int =>
          obtain ⟨i, rfl⟩ := checked_ok h
          trivial
        all_goals
          cases h
          trivial
      · cases h
        trivial
    · cases h
  · cases h

namespace Machine

variable (p : Program) (P : ClassId → Prop)

/-! ## Defers work -/

/-- The defaults of some parameters are plain. -/
def DefaultsDefer (qs : List Param) : Prop :=
  ∀ q ∈ qs, ∀ d ∈ q.default, (Arena.termAt p.terms d).Defers

/-- Work without primitive operations. -/
def Kont.Defers : Kont → Prop
  | .assign _ _ | .setIvar _ _ | .ret | .same _ => True
  | .receiver _ _ args => ∀ t ∈ args, t.Defers
  | .argument _ r _ done todo =>
    (∀ v ∈ r, v.Within P) ∧ (∀ v ∈ done, v.Within P) ∧ ∀ t ∈ todo, t.Defers
  | .choose _ yes no => yes.Defers ∧ ∀ t ∈ no, t.Defers
  | .loopTest _ test body | .loopBody _ test body => test.Defers ∧ body.Defers
  | .andAlso _ right | .orElse _ right => right.Defers
  | .stmt _ todo | .top todo => ∀ t ∈ todo, t.Defers
  | .operand _ _ _ _ => False
  | .default _ rest code => DefaultsDefer p rest ∧ code.Defers

/-- What is to be done next, if it is not to apply a primitive operation. -/
def Control.Defers : Control → Prop
  | .eval t => t.Defers
  | .value _ v | .unwind v => v.Within P
  | .call _ receiver _ args => (∀ v ∈ receiver, v.Within P) ∧ ∀ v ∈ args, v.Within P
  | .apply _ _ _ => False
  | .bind params args code => DefaultsDefer p params ∧ (∀ v ∈ args, v.Within P) ∧ code.Defers
  | .top last todo => last.Within P ∧ ∀ t ∈ todo, t.Defers
  | .raise _ | .done _ => True

structure Activation.Within (a : Activation) : Prop where
  receiver : ∀ v ∈ a.receiver, v.Within P
  locals : ∀ (n : Name) v, a.locals[n]? = some v → v.Within P

/-- What waits for a call has no operation in it. -/
structure Caller.Defers (x : Caller) : Prop where
  activation : x.activation.Within P
  konts : ∀ k ∈ x.activation.konts, k.Defers p P
  object : ∀ v ∈ x.object, v.Within P

/-- Whatever the running body does, nothing that waits for it has an operation in it. -/
structure Config.Around (c : Config) : Prop where
  activation : c.activation.Within P
  callers : ∀ x ∈ c.callers, x.Defers p P
  heap : c.heap.Within P

/-- Whatever is to be done next, no work that remains has an operation in it. -/
structure Config.Holds (c : Config) : Prop extends c.Around p P where
  konts : ∀ k ∈ c.activation.konts, k.Defers p P

/-- Neither the work that remains nor what is to be done next has an operation in it. -/
structure Config.Defers (c : Config) : Prop extends c.Holds p P where
  control : c.control.Defers p P

variable {p P} {c : Config} {v : Value} {t : Term}

namespace Config.Around

variable (h : c.Around p P)
include h

/-- Something else is to be done, but the values at hand are the same. -/
theorem congr {d : Config} (hr : d.activation.receiver = c.activation.receiver)
    (hl : d.activation.locals = c.activation.locals) (hc : d.callers = c.callers)
    (hh : d.heap = c.heap) : d.Around p P where
  activation := ⟨hr ▸ h.activation.receiver, hl ▸ h.activation.locals⟩
  callers := hc ▸ h.callers
  heap := hh ▸ h.heap

theorem setLocal (n : Name) (hv : v.Within P) : (c.setLocal n v).Around p P := by
  refine ⟨⟨h.activation.receiver, fun m w hw => ?_⟩, h.callers, h.heap⟩
  rw [Config.setLocal, Std.ExtTreeMap.getElem?_insert] at hw
  split at hw
  · cases hw
    exact hv
  · exact h.activation.locals m w hw

theorem self (hobject : P .object) : c.self.Within P := by
  unfold Config.self
  cases hr : c.activation.receiver with
  | none => exact hobject
  | some v => exact h.activation.receiver v hr

theorem ivar (n : Name) : (c.ivar n).Within P := by
  unfold Config.ivar
  split
  · exact h.heap.get _ n
  · trivial

theorem getLocal (n : Name) : (c.activation.locals[n]?.getD .nil).Within P := by
  cases hn : c.activation.locals[n]? with
  | none => trivial
  | some v => exact h.activation.locals n v hn

theorem holds (hk : c.activation.konts = []) : c.Holds p P := ⟨h, by simp [hk]⟩

end Config.Around

namespace Config.Holds

variable (h : c.Holds p P)
include h

theorem run {k : Control} (hk : k.Defers p P) : (c.run k).Defers p P :=
  ⟨⟨h.congr rfl rfl rfl rfl, h.konts⟩, hk⟩

theorem fail (cause : RunError.Cause) (span : Span) : (c.fail cause span).Defers p P :=
  h.run trivial

theorem push (k : Kont) (hk : k.Defers p P) {ctl : Control} (hc : ctl.Defers p P) :
    (c.push k ctl).Defers p P :=
  ⟨⟨h.congr rfl rfl rfl rfl, List.forall_mem_cons.2 ⟨hk, h.konts⟩⟩, hc⟩

theorem pop {k : Kont} {ks : List Kont} (hk : c.activation.konts = k :: ks) :
    (c.pop ks).Holds p P ∧ k.Defers p P := by
  have hks := h.konts
  rw [hk] at hks
  obtain ⟨hk, hks⟩ := List.forall_mem_cons.1 hks
  exact ⟨⟨h.congr rfl rfl rfl rfl, hks⟩, hk⟩

theorem setLocal (n : Name) (hv : v.Within P) : (c.setLocal n v).Holds p P :=
  ⟨h.toAround.setLocal n hv, h.konts⟩

theorem setIvar (n : Name) (hv : v.Within P) : (c.setIvar n v).Holds p P := by
  unfold Config.setIvar
  split
  · exact ⟨⟨h.activation, h.callers, h.heap.set _ n hv⟩, h.konts⟩
  · exact h

/-! ### The parts of a step -/

theorem nextArgument (site : Site) {receiver : Option Value} (hr : ∀ v ∈ receiver, v.Within P)
    (k : Name) {done : List Value} (hdone : ∀ v ∈ done, v.Within P) {todo : List Term}
    (htodo : ∀ t ∈ todo, t.Defers) : (nextArgument c site receiver k done todo).Defers p P := by
  cases todo with
  | nil => exact h.run ⟨hr, hdone⟩
  | cons t ts =>
    obtain ⟨ht, hts⟩ := List.forall_mem_cons.1 htodo
    exact h.push (.argument site receiver k done ts) ⟨hr, hdone, hts⟩ ht

theorem nextStmt (id : ExprId) (hv : v.Within P) {todo : List Term} (htodo : ∀ t ∈ todo, t.Defers) :
    (nextStmt c id v todo).Defers p P := by
  cases todo with
  | nil => exact h.run hv
  | cons t ts =>
    obtain ⟨ht, hts⟩ := List.forall_mem_cons.1 htodo
    exact h.push (.stmt id ts) hts ht

theorem eval (hobject : P .object) (ht : t.Defers) : (eval p c t).Defers p P := by
  cases t with
  | nil | bool | int | float => exact h.run trivial
  | self => exact h.run (h.self hobject)
  | var site n => exact h.run (h.getLocal n)
  | ivar site n => exact h.run (h.ivar n)
  | const site n =>
    simp only [Machine.eval]
    split
    · exact h.run trivial
    · exact h.fail _ _
  | ret => exact h.run trivial
  | assign site n value =>
    simp only [Term.Defers, Term.Every] at ht
    exact h.push (.assign site.id n) trivial ht.2
  | setIvar site n value =>
    simp only [Term.Defers, Term.Every] at ht
    exact h.push (.setIvar site.id n) trivial ht.2
  | retValue site value =>
    simp only [Term.Defers, Term.Every] at ht
    exact h.push .ret trivial ht.2
  | call site receiver k args =>
    simp only [Term.Defers, Term.Every] at ht
    exact h.push (.receiver site k args) (Term.everyOf_iff.1 ht.2.2) ht.2.1
  | send site k args =>
    simp only [Term.Defers, Term.Every] at ht
    exact h.nextArgument site (by simp) k (by simp) (Term.everyOf_iff.1 ht.2)
  | ifThen site test yes =>
    simp only [Term.Defers, Term.Every] at ht
    exact h.push (.choose site.id yes none) ⟨ht.2.2, by simp⟩ ht.2.1
  | ifElse site test yes no =>
    simp only [Term.Defers, Term.Every] at ht
    exact h.push (.choose site.id yes (some no)) ⟨ht.2.2.1, by simpa using ht.2.2.2⟩ ht.2.1
  | loop site test body =>
    simp only [Term.Defers, Term.Every] at ht
    exact h.push (.loopTest site.id test body) ht.2 ht.2.1
  | andAlso site left right =>
    simp only [Term.Defers, Term.Every] at ht
    exact h.push (.andAlso site.id right) ht.2.2 ht.2.1
  | orElse site left right =>
    simp only [Term.Defers, Term.Every] at ht
    exact h.push (.orElse site.id right) ht.2.2 ht.2.1
  | block site stmts =>
    simp only [Term.Defers, Term.Every] at ht
    exact h.nextStmt site.id (v := .nil) trivial (Term.everyOf_iff.1 ht.2)
  | primitive site op args => exact absurd trivial ht.self

theorem resume (hv : v.Within P) {k : Kont} (hk : k.Defers p P) : (resume c v k).Defers p P := by
  cases k with
  | assign id n => exact (h.setLocal n hv).run hv
  | setIvar id n => exact (h.setIvar n hv).run hv
  | receiver site k args => exact h.nextArgument site (by simpa using hv) k (by simp) hk
  | argument site receiver k done todo =>
    refine h.nextArgument site hk.1 k (fun w hw => ?_) hk.2.2
    rcases List.mem_append.1 hw with hw | hw
    · exact hk.2.1 w hw
    · cases List.mem_singleton.1 hw
      exact hv
  | choose id yes no =>
    simp only [Machine.resume]
    split
    · exact h.push (.same id) trivial hk.1
    · exact h.push (.same id) trivial (hk.2 _ rfl)
    · exact h.run trivial
  | loopTest id test body =>
    simp only [Machine.resume]
    split
    · exact h.push (.loopBody id test body) hk hk.2
    · exact h.run trivial
  | loopBody id test body => exact h.push (.loopTest id test body) hk hk.1
  | andAlso id right =>
    simp only [Machine.resume]
    split
    · exact h.push (.same id) trivial hk
    · exact h.run hv
  | orElse id right =>
    simp only [Machine.resume]
    split
    · exact h.run hv
    · exact h.push (.same id) trivial hk
  | ret => exact h.run hv
  | stmt id todo => exact h.nextStmt id hv hk
  | operand => exact hk.elim
  | same id => exact h.run hv
  | default q rest code => exact (h.setLocal q.name hv).run ⟨hk.1, by simp, hk.2⟩
  | top todo => exact h.run ⟨hv, hk⟩

theorem leave (hv : v.Within P) : (leave c v).Defers p P := by
  unfold Machine.leave
  split
  · exact h.run trivial
  · rename_i x xs hx
    have hcallers := h.callers
    rw [hx] at hcallers
    obtain ⟨hcaller, hcallers⟩ := List.forall_mem_cons.1 hcallers
    refine ⟨⟨⟨hcaller.activation, hcallers, h.heap⟩, hcaller.konts⟩, ?_⟩
    show (x.object.getD v).Within P
    cases ho : x.object with
    | none => exact hv
    | some w => exact hcaller.object w ho

theorem abandon (e : RunError) : (abandon c e).Defers p P := by
  unfold Machine.abandon
  split
  · exact h.run trivial
  · rename_i x xs hx
    have hcallers := h.callers
    rw [hx] at hcallers
    obtain ⟨hcaller, hcallers⟩ := List.forall_mem_cons.1 hcallers
    exact ⟨⟨⟨hcaller.activation, hcallers, h.heap⟩, hcaller.konts⟩, trivial⟩

theorem bind {qs : List Param} (hqs : DefaultsDefer p qs) {vs : List Value}
    (hvs : ∀ v ∈ vs, v.Within P) {code : Term} (hcode : code.Defers) :
    (bind p c code qs vs).Defers p P := by
  cases qs with
  | nil => exact h.run hcode
  | cons q qs =>
    obtain ⟨hq, hqs⟩ := List.forall_mem_cons.1 hqs
    cases vs with
    | cons v vs =>
      obtain ⟨hv, hvs⟩ := List.forall_mem_cons.1 hvs
      exact (h.setLocal q.name hv).run ⟨hqs, hvs, hcode⟩
    | nil =>
      simp only [Machine.bind]
      cases hd : q.default with
      | none => exact (h.setLocal q.name (v := .nil) trivial).run ⟨hqs, hvs, hcode⟩
      | some d => exact h.push (.default q qs code) ⟨hqs, hcode⟩ (hq d hd)

end Config.Holds

/-! ## On the way to an operation -/

/-- The locals once parameters without defaults are bound. -/
def boundTo : List Param → List Value → Map .name Value → Map .name Value
  | [], _, ℓ => ℓ
  | q :: qs, v :: vs, ℓ => boundTo qs vs (ℓ.insert q.name v)
  | q :: qs, [], ℓ => boundTo qs [] (ℓ.insert q.name .nil)

/-- The term is `self` or a variable, and has a value with the property. -/
def Yields (N : Value → Prop) (a : Activation) : Term → Prop
  | .self _ => N (a.receiver.getD mainObject)
  | .var _ n => N (a.locals[n]?.getD .nil)
  | _ => False

/-- What `op` may be applied to: identity to anything, and all else to values with the property. -/
def Admits (N : Value → Prop) (op : Primitive) (v : Value) : Prop := op = .identical ∨ N v

/-- The running body consists of an operation, and what there is yet to be done is to bind the
parameters, to evaluate the operands one after the other and to apply it. -/
inductive Applying (P : ClassId → Prop) (N : Value → Prop) (c : Config) : Prop where
  | bind {qs : List Param} {vs : List Value} {site : Site} {op : Primitive} {ts : List Term}
      (control : c.control = .bind qs vs (.primitive site op ts)) (konts : c.activation.konts = [])
      (args : ∀ v ∈ vs, v.Within P) (defaults : ∀ q ∈ qs, q.default = none)
      (length : ts.length = op.arity) (yields : ∀ t ∈ ts, Yields (Admits N op)
        { c.activation with locals := boundTo qs vs c.activation.locals } t)
  | eval {site : Site} {op : Primitive} {ts : List Term}
      (control : c.control = .eval (.primitive site op ts)) (konts : c.activation.konts = [])
      (length : ts.length = op.arity) (yields : ∀ t ∈ ts, Yields (Admits N op) c.activation t)
  | operand {t : Term} {site : Site} {op : Primitive} {done : List Value} {todo : List Term}
      (control : c.control = .eval t) (konts : c.activation.konts = [.operand site op done todo])
      (length : done.length + (t :: todo).length = op.arity) (admits : ∀ v ∈ done, Admits N op v)
      (yields : ∀ u ∈ t :: todo, Yields (Admits N op) c.activation u)
  | value {id : ExprId} {v : Value} {site : Site} {op : Primitive} {done : List Value}
      {todo : List Term} (control : c.control = .value id v)
      (konts : c.activation.konts = [.operand site op done todo])
      (length : (done ++ [v]).length + todo.length = op.arity)
      (admits : ∀ w ∈ done ++ [v], Admits N op w)
      (yields : ∀ u ∈ todo, Yields (Admits N op) c.activation u)
  | apply {site : Site} {op : Primitive} {vs : List Value} (control : c.control = .apply site op vs)
      (konts : c.activation.konts = []) (length : vs.length = op.arity)
      (admits : ∀ v ∈ vs, Admits N op v)

variable (p P) in
/-- What is being done is plain work, or leads to the one operation of a body. -/
inductive Working (N : Value → Prop) (c : Config) : Prop where
  | plain (h : c.Defers p P)
  | applying (around : c.Around p P) (h : Applying P N c)

variable {N : Value → Prop}

theorem nextOperand_working (h : c.Around p P) (hk : c.activation.konts = []) (site : Site)
    {op : Primitive} {done : List Value} {todo : List Term}
    (hlen : done.length + todo.length = op.arity) (hdone : ∀ v ∈ done, Admits N op v)
    (htodo : ∀ t ∈ todo, Yields (Admits N op) c.activation t) :
    Working p P N (nextOperand c site op done todo) := by
  cases todo with
  | nil => exact .applying (h.congr rfl rfl rfl rfl) (.apply rfl hk hlen hdone)
  | cons t ts =>
    have hpush : (nextOperand c site op done (t :: ts)).activation.konts =
        [.operand site op done ts] := congrArg (_ :: ·) hk
    exact .applying (h.congr rfl rfl rfl rfl) (.operand rfl hpush hlen hdone htodo)

/-- A step on the way to the operation of a body, or the operation itself. -/
theorem Applying.step (limit : Nat) (around : c.Around p P) (h : Applying P N c) :
    Working p P N (step p limit c) := by
  cases h with
  | @bind qs vs site op ts hc hk hargs hdefaults hlen hyields =>
    simp only [Machine.step, hc]
    cases qs with
    | nil => exact .applying (around.congr rfl rfl rfl rfl) (.eval rfl hk hlen hyields)
    | cons q qs =>
      obtain ⟨hq, hqs⟩ := List.forall_mem_cons.1 hdefaults
      cases vs with
      | nil =>
        simp only [Machine.bind, hq]
        refine .applying ?_ (.bind rfl hk hargs hqs hlen hyields)
        exact (around.setLocal q.name (v := .nil) trivial).congr rfl rfl rfl rfl
      | cons v vs =>
        obtain ⟨hv, hvs⟩ := List.forall_mem_cons.1 hargs
        refine .applying ?_ (.bind rfl hk hvs hqs hlen hyields)
        exact (around.setLocal q.name hv).congr rfl rfl rfl rfl
  | @eval site op ts hc hk hlen hyields =>
    simp only [Machine.step, hc]
    exact nextOperand_working around hk site (by simpa using hlen) (by simp) hyields
  | @operand t site op done todo hc hk hlen hadmits hyields =>
    obtain ⟨ht, htodo⟩ := List.forall_mem_cons.1 hyields
    have value {id : ExprId} {v : Value} (hv : Admits N op v) :
        Working p P N (c.run (.value id v)) := by
      refine .applying (around.congr rfl rfl rfl rfl) (.value rfl hk ?_ ?_ htodo)
      · simpa [Nat.add_assoc, Nat.add_comm 1] using hlen
      · simpa [or_imp, forall_and] using ⟨hadmits, hv⟩
    simp only [Machine.step, hc]
    cases t with
    | self => exact value ht
    | var => exact value ht
    | _ => exact ht.elim
  | @value id v site op done todo hc hk hlen hadmits hyields =>
    have hpop : (c.pop []).Around p P := around.congr rfl rfl rfl rfl
    simp only [Machine.step, hc, hk]
    exact nextOperand_working hpop rfl site hlen hadmits hyields
  | @apply site op vs hc hk hlen hadmits =>
    have H := around.holds hk
    simp only [Machine.step, hc]
    split
    · rename_i v hv
      exact .plain (H.run (Primitive.apply_within hv))
    · exact .plain (H.fail _ _)

/-! ## Calls -/

theorem exactTypes_head {vs : List Value} {args : List TypeId} {a : TypeId}
    (h : exactTypes p vs = some args) (ha : args[0]? = some a) :
    ∃ w ws, vs = w :: ws ∧ w.type? p.types = some a := by
  cases vs with
  | nil =>
    cases h
    cases ha
  | cons w ws =>
    rw [exactTypes, List.mapM_cons] at h
    obtain ⟨b, hb, h⟩ := Option.bind_eq_some_iff.1 h
    obtain ⟨bs, -, h⟩ := Option.bind_eq_some_iff.1 h
    cases h
    cases ha
    exact ⟨w, ws, rfl, hb⟩

variable (p P) in
/-- A receiver and arguments of these exact types. -/
structure HasTypes (receiver : Option TypeId) (args : List TypeId) (r : Option Value)
    (vs : List Value) : Prop where
  receiver : ∀ a ∈ receiver, ∃ v, r = some v ∧ v.type? p.types = some a
  args : exactTypes p vs = some args
  receiverWithin : ∀ v ∈ r, v.Within P
  argsWithin : ∀ v ∈ vs, v.Within P

variable (p P) in
/-- What is run of the specialization for these types is plain, or it is an operation on what the
method is called with. -/
def Enters (N : Value → Prop) (s : SpecId) (receiver : Option TypeId) (args : List TypeId) : Prop :=
  ∀ i m, p.specs.get? s = some i → p.methods.get? i.key.method = some m →
    (Arena.termAt p.terms m.definition.body).Defers ∨
      ∃ site op ts, Arena.termAt p.terms m.definition.body = .primitive site op ts ∧
        ts.length = op.arity ∧ (∀ q ∈ m.definition.params, q.default = none) ∧
        ∀ r vs, HasTypes p P receiver args r vs → ∀ t ∈ ts, Yields (Admits N op)
          { unit := some s, receiver := r, locals := boundTo m.definition.params vs ∅ } t

variable (p P) in
/-- Where a row for these types may lead. -/
def Reaches (N : Value → Prop) (receiver : Option TypeId) (args : List TypeId) : Callee → Prop
  | .specialization s => Enters p P N s receiver args
  | .allocate c => P c
  | .new c initializer => P c ∧ ∀ s ∈ initializer, ∃ o, p.types.findExact c = some o ∧
    Enters p P N s (some o) args

/-- A program in which operations are left to methods that each consist of one, on operands with the
property `N`, and in which there are objects only of classes with the property `P`. -/
structure Confined (p : Program) (P : ClassId → Prop) (N : Value → Prop) : Prop where
  object : P .object
  main : ∀ t ∈ p.main, t.Defers
  defaults : ∀ m md, p.methods.get? m = some md → DefaultsDefer p md.definition.params
  rows : ∀ unit e r ms callee, ((bodyOf p unit).dispatchAt e).find? r ms = some callee →
    Reaches p P N r ms callee

/-- What a look-up finds is the target of a row for the types of what is passed on. -/
theorem exists_row_of_lookUp {a : Activation} {id : ExprId} {receiver self : Option Value}
    {args : List Value} {callee : Callee}
    (h : lookUp p a id receiver args = some (callee, self)) : ∃ r ms,
      ((bodyOf p a.unit).dispatchAt id).find? r ms = some callee ∧
      exactTypes p args = some ms ∧ (∀ b ∈ r, ∃ v, self = some v ∧ v.type? p.types = some b) ∧
      ∀ v ∈ self, v ∈ receiver ∨ v = a.receiver.getD mainObject := by
  unfold lookUp at h
  obtain ⟨table, htable, h⟩ := Option.bind_eq_some_iff.1 h
  obtain ⟨ms, hms, h⟩ := Option.bind_eq_some_iff.1 h
  have hat : (bodyOf p a.unit).dispatchAt id = table := by
    rw [Body.dispatchAt, htable]
    rfl
  rw [hat]
  cases receiver with
  | some v =>
    obtain ⟨b, hb, h⟩ := Option.bind_eq_some_iff.1 h
    obtain ⟨target, hf, h⟩ := Option.bind_eq_some_iff.1 h
    cases h
    exact ⟨some b, ms, hf, hms, by simpa using hb, by simp⟩
  | none =>
    dsimp only at h
    split at h
    · rename_i target hown
      obtain ⟨b, hb, hf⟩ := Option.bind_eq_some_iff.1 hown
      cases h
      exact ⟨some b, ms, hf, hms, by simpa using hb, by simp⟩
    · obtain ⟨target, hf, h⟩ := Option.bind_eq_some_iff.1 h
      cases h
      exact ⟨none, ms, hf, hms, by simp, by simp⟩

namespace Confined

variable (C : Confined p P N)
include C

theorem invoke (h : c.Holds p P) (limit : Nat) (site : Site) {s : SpecId}
    {receiver : Option TypeId} {args : List TypeId} {r : Option Value} {vs : List Value}
    (hs : Enters p P N s receiver args) (hr : HasTypes p P receiver args r vs) {object : Option Value}
    (hobject : ∀ v ∈ object, v.Within P) :
    Working p P N (Machine.invoke p limit c site s r vs object) := by
  unfold Machine.invoke
  split
  · exact .plain (h.fail _ _)
  · split
    · exact .plain (h.run (k := .value site.id .nil) trivial)
    · rename_i m hm
      obtain ⟨i, hi, hm⟩ := Option.bind_eq_some_iff.1 hm
      have hcaller : Caller.Defers p P ⟨c.activation, site.id, object⟩ :=
        ⟨h.activation, h.konts, hobject⟩
      have hrest : Config.Holds p P
          { c with
            control := .bind m.definition.params vs (Arena.termAt p.terms m.definition.body)
            activation := { unit := some s, receiver := r }
            callers := ⟨c.activation, site.id, object⟩ :: c.callers
            depth := c.depth + 1 } :=
        ⟨⟨⟨hr.receiverWithin, fun n v hv => by simp at hv⟩,
          List.forall_mem_cons.2 ⟨hcaller, h.callers⟩, h.heap⟩, by simp⟩
      rcases hs i m hi hm with hplain | ⟨site', op, ts, hbody, hlen, hdefaults, hyields⟩
      · exact .plain ⟨hrest, C.defaults _ m hm, hr.argsWithin, hplain⟩
      · exact .applying hrest.toAround (.bind (congrArg _ hbody) rfl hr.argsWithin hdefaults hlen
          (hyields r vs hr))

theorem call (h : c.Holds p P) (limit : Nat) (site : Site) {receiver : Option Value} (k : Name)
    {args : List Value} (hr : ∀ v ∈ receiver, v.Within P) (hargs : ∀ v ∈ args, v.Within P) :
    Working p P N (Machine.call p limit c site receiver k args) := by
  have fresh {d : ClassId} (hd : P d) : ({ c with heap := (c.heap.allocate d).2 }).Holds p P ∧
      (c.heap.allocate d).1.Within P :=
    ⟨⟨⟨h.activation, h.callers, h.heap.allocate d⟩, h.konts⟩, hd⟩
  unfold Machine.call
  cases hl : lookUp p c.activation site.id receiver args with
  | none => exact .plain (h.fail _ _)
  | some found =>
    obtain ⟨callee, self⟩ := found
    obtain ⟨r, ms, hf, hms, htypes, hself⟩ := exists_row_of_lookUp hl
    have hreaches := C.rows _ _ _ _ _ hf
    have hselfWithin : ∀ v ∈ self, v.Within P := by
      intro v hv
      rcases hself v hv with hv | rfl
      · exact hr v hv
      · exact h.self C.object
    cases callee with
    | specialization s =>
      exact C.invoke h limit site hreaches ⟨htypes, hms, hselfWithin, hargs⟩ nofun
    | allocate d => exact .plain ((fresh hreaches).1.run (fresh hreaches).2)
    | new d initializer =>
      obtain ⟨hfresh, hobject⟩ := fresh hreaches.1
      cases initializer with
      | none => exact .plain (hfresh.run hobject)
      | some s =>
        obtain ⟨o, ho, henters⟩ := hreaches.2 s rfl
        refine C.invoke hfresh limit site henters ⟨?_, hms, ?_, hargs⟩ ?_
        · rintro a ⟨⟩
          exact ⟨_, rfl, ho⟩
        · rintro v ⟨⟩
          exact hobject
        · rintro v ⟨⟩
          exact hobject

/-- One step. -/
theorem step (limit : Nat) (h : Working p P N c) : Working p P N (Machine.step p limit c) := by
  cases h with
  | applying around h => exact h.step limit around
  | plain h =>
    have H := h.toHolds
    have hc := h.control
    unfold Machine.step
    cases hctl : c.control with
    | eval t =>
      rw [hctl] at hc
      exact .plain (H.eval C.object hc)
    | value id v =>
      rw [hctl] at hc
      dsimp only
      split
      · exact .plain (H.leave hc)
      · rename_i k ks hk
        obtain ⟨H, hk⟩ := H.pop hk
        exact .plain (H.resume hc hk)
    | call site receiver k args =>
      rw [hctl] at hc
      exact C.call H limit site k hc.1 hc.2
    | apply site op vs =>
      rw [hctl] at hc
      exact hc.elim
    | bind qs vs code =>
      rw [hctl] at hc
      exact .plain (H.bind hc.1 hc.2.1 hc.2.2)
    | unwind v =>
      rw [hctl] at hc
      dsimp only
      split
      · exact .plain (H.leave hc)
      · rename_i q rest code ks hk
        obtain ⟨H, hk⟩ := H.pop hk
        exact .plain (H.resume hc hk)
      · rename_i k ks _ hk
        exact .plain ((H.pop hk).1.run hc)
    | raise e =>
      dsimp only
      split
      · exact .plain (H.abandon e)
      · rename_i k ks hk
        exact .plain ((H.pop hk).1.run trivial)
    | top last todo =>
      rw [hctl] at hc
      cases todo with
      | nil => exact .plain (H.run trivial)
      | cons t ts =>
        obtain ⟨ht, hts⟩ := List.forall_mem_cons.1 hc.2
        exact .plain (H.push (.top ts) hts ht)
    | done result => exact .plain h

/-- Where a run begins. -/
theorem start : Working p P N (Machine.start p) := by
  refine .plain ⟨⟨⟨⟨by simp [Machine.start], fun n v hv => ?_⟩, nofun, ?_⟩, by simp [Machine.start]⟩,
    ⟨trivial, C.main⟩⟩
  · simp [Machine.start] at hv
  · exact Heap.Within.allocate (fun o n v hv => by simp [Heap.ivars] at hv) .object

/-- All of a run. -/
theorem run_working (limit n : Nat) :
    Working p P N ((Machine.step p limit)^[n] (Machine.start p)) := by
  induction n with
  | zero => exact C.start
  | succ n ih =>
    rw [Function.iterate_succ_apply']
    exact C.step limit ih

/-- The operands of an operation, whenever one is applied. -/
theorem admits {limit n : Nat} {site : Site} {op : Primitive} {vs : List Value}
    (hc : ((Machine.step p limit)^[n] (Machine.start p)).control = .apply site op vs) :
    vs.length = op.arity ∧ ∀ v ∈ vs, Admits N op v := by
  cases C.run_working limit n with
  | plain h =>
    have := h.control
    rw [hc] at this
    exact this.elim
  | applying _ h =>
    cases h with
    | apply hc' _ hlen hadmits =>
      cases hc.symm.trans hc'
      exact ⟨hlen, hadmits⟩
    | bind hc' | eval hc' | operand hc' | value hc' => cases hc.symm.trans hc'

end Confined

end Machine

end Multimethod
