import Multimethod.Machine.Step
import Multimethod.Proofs.Inference.Typed

/-!
# Values of a type

A value is of a type if its exact type is a member (`Value.Of`). Only some classes may occur as
class objects and have instances: an instance of the class of `nil` would count as true, and one of
a number class would be no number. What operations and the heap give is of the types that were
found for it.
-/

namespace Multimethod

open Inference TypeTable

variable {t : TypeTable} {P : ClassId → Prop} {cs cs' : List ClassId} {v : Value}
  {a b m : TypeId}

namespace Value

/-- A value that may occur, where `cs` are the classes of all objects and `P` says which classes may
be used. -/
def Known (P : ClassId → Prop) (cs : List ClassId) : Value → Prop
  | .object o c => cs[o.index]? = some c ∧ P c
  | .cls c => P c
  | _ => True

theorem Known.mono (h : v.Known P cs) (hcs : cs <+: cs') : v.Known P cs' := by
  cases v <;> simp only [Known] at h ⊢
  case object =>
    obtain ⟨l, rfl⟩ := hcs
    exact ⟨by rw [List.getElem?_append_left (List.getElem?_eq_some_iff.1 h.1).1, h.1], h.2⟩
  case cls => exact h

/-- The value is of the type. -/
def Of (t : TypeTable) (P : ClassId → Prop) (cs : List ClassId) (v : Value) (a : TypeId) : Prop :=
  v.Known P cs ∧ ∃ m ∈ t.members a, v.type? t = some m

namespace Of

theorem mono (h : v.Of t P cs a) (hcs : cs <+: cs') : v.Of t P cs' a := ⟨h.1.mono hcs, h.2⟩

theorem of_members (h : v.Of t P cs a) (hab : ∀ m ∈ t.members a, m ∈ t.members b) :
    v.Of t P cs b := by
  obtain ⟨hk, m, hm, hv⟩ := h
  exact ⟨hk, m, hab m hm, hv⟩

theorem inside (h : v.Of t P cs a) (hab : t.Inside a b) : v.Of t P cs b := h.of_members hab.2.2

section
variable (H : t.WF)
include H

theorem nil : Value.Of t P cs .nil .nil :=
  ⟨trivial, _, mem_members_self (by rw [H.shape_nil]; trivial), rfl⟩

theorem bool (b : Bool) : Value.Of t P cs (.bool b) .bool :=
  ⟨trivial, _, mem_members_self (by rw [H.shape_bool]; trivial), rfl⟩

theorem int (n : Int64) : Value.Of t P cs (.int n) .int :=
  ⟨trivial, _, mem_members_self (by rw [H.shape_int]; trivial), rfl⟩

theorem float (x : Float) : Value.Of t P cs (.float x) .float :=
  ⟨trivial, _, mem_members_self (by rw [H.shape_float]; trivial), rfl⟩

theorem ne_never (h : v.Of t P cs a) : a ≠ .never := by
  rintro rfl
  obtain ⟨-, m, hm, -⟩ := h
  simp [H.members_never] at hm

end

/-- The instances of a class are of its type. -/
theorem object {o : ObjectId} {c : ClassId} (hc : cs[o.index]? = some c) (hp : P c)
    (ha : t.shape a = .exact c) : Value.Of t P cs (.object o c) a :=
  ⟨⟨hc, hp⟩, a, mem_members_self (by rw [ha]; trivial),
    find?_eq_some.2 ⟨has_of_shape (by rw [ha]; nofun), ha⟩⟩

/-- A class as an object is of its type. -/
theorem cls {c : ClassId} (hp : P c) (ha : t.shape a = .classObject c) :
    Value.Of t P cs (.cls c) a :=
  ⟨hp, a, mem_members_self (by rw [ha]; trivial),
    find?_eq_some.2 ⟨has_of_shape (by rw [ha]; nofun), ha⟩⟩

/-- A value of a member type has this type. -/
theorem type?_of_isMember (h : v.Of t P cs a) (ha : (t.shape a).IsMember) : v.type? t = some a := by
  obtain ⟨-, m, hm, hv⟩ := h
  rw [members_of_isMember ha, List.mem_singleton] at hm
  rw [hv, hm]

/-- A class object is the class that its type says. -/
theorem eq_cls (h : v.type? t = some a) {c : ClassId} (ha : t.shape a = .classObject c)
    (H : t.WF) : v = .cls c := by
  cases v <;> simp only [type?, Option.some.injEq] at h
  case cls d =>
    obtain ⟨-, hd⟩ := find?_eq_some.1 h
    rw [Shape.classObject.inj (hd.symm.trans ha)]
  case object o d =>
    obtain ⟨-, hd⟩ := find?_eq_some.1 h
    cases hd.symm.trans ha
  case nil => subst h; cases H.shape_nil.symm.trans ha
  case bool => subst h; cases H.shape_bool.symm.trans ha
  case int => subst h; cases H.shape_int.symm.trans ha
  case float => subst h; cases H.shape_float.symm.trans ha

/-- A value of a number type is a number, if there are no objects of these classes. -/
theorem number (h : v.Of t P cs a) (ha : a = .int ∨ a = .float) (H : t.WF) (hi : ¬ P .int)
    (hf : ¬ P .float) : ∃ n, Primitive.Number.ofValue? v = some n := by
  obtain ⟨c, hc, hp⟩ : ∃ c, t.shape a = .exact c ∧ ¬ P c := by
    rcases ha with rfl | rfl
    · exact ⟨_, H.shape_int, hi⟩
    · exact ⟨_, H.shape_float, hf⟩
  have htype := h.type?_of_isMember (by rw [hc]; trivial)
  cases v <;> simp only [type?, Option.some.injEq] at htype
  case int n => exact ⟨.int n, rfl⟩
  case float x => exact ⟨.float x, rfl⟩
  case object o d =>
    cases (find?_eq_some.1 htype).2.symm.trans hc
    exact absurd h.1.2 hp
  case cls d => cases (find?_eq_some.1 htype).2.symm.trans hc
  case nil => subst htype; rcases ha with h | h <;> cases h
  case bool => subst htype; rcases ha with h | h <;> cases h

/-- What counts as true is not of type `nil`. -/
theorem dropsNil (h : v.Of t P cs a) (hv : v.truthy = true) (hn : ¬ P .nil) (H : t.WF)
    (hb : DropsNil t a b) : v.Of t P cs b := by
  obtain ⟨hk, m, hm, hvm⟩ := h
  refine ⟨hk, m, (hb.2.2 m).2 ⟨hm, ?_⟩, hvm⟩
  rintro rfl
  cases v <;> simp only [type?, Option.some.injEq] at hvm
  case nil => simp [truthy] at hv
  case bool => cases hvm
  case int => cases hvm
  case float => cases hvm
  case object o c =>
    cases (find?_eq_some.1 hvm).2.symm.trans H.shape_nil
    exact hn hk.2
  case cls c => cases (find?_eq_some.1 hvm).2.symm.trans H.shape_nil

end Of

end Value

/-- A number is an integer or a float. -/
theorem Primitive.Number.of_value {n : Number} (h : Number.ofValue? v = some n) :
    (∃ i, v = .int i ∧ n = .int i) ∨ ∃ x, v = .float x ∧ n = .float x := by
  cases v <;> simp [Number.ofValue?] at h
  · exact .inl ⟨_, rfl, h.symm⟩
  · exact .inr ⟨_, rfl, h.symm⟩

section
variable {W : World} {τ : State} {vs : List Value} {as : List TypeId}

/-- The result of integer arithmetic is an integer. -/
theorem Primitive.checked_ok {op : Primitive} {n : Int} (h : op.checked n = .ok v) :
    ∃ i, v = .int i := by
  unfold checked at h
  split at h
  · exact ⟨_, (Except.ok.inj h).symm⟩
  · cases h

theorem Primitive.checked_error {op : Primitive} {n : Int} {cause : RunError.Cause}
    (h : op.checked n = .error cause) : cause = .integerOverflow op.methodName := by
  unfold checked at h
  split at h
  · cases h
  · exact (Except.error.inj h).symm

theorem Primitive.arithmetic_of {op : Primitive} {v₁ v₂ : Value} {n₁ n₂ : Number}
    (H : τ.types.WF) {number : TypeId} (hj : τ.types.Joins .int .float number)
    (h₁ : Number.ofValue? v₁ = some n₁) (h₂ : Number.ofValue? v₂ = some n₂)
    (hvs : List.Forall₂ (Value.Of τ.types P cs) [v₁, v₂] as)
    (h : op.arithmetic n₁ n₂ = .ok v) : v.Of τ.types P cs
      (if as.all (· = .int) then .int else if as.contains .float then .float else number) := by
  obtain ⟨a₁, a₂, ha₁, ha₂, rfl⟩ : ∃ a₁ a₂, v₁.Of τ.types P cs a₁ ∧ v₂.Of τ.types P cs a₂ ∧
      as = [a₁, a₂] := by
    cases hvs with
    | cons h₁ h => cases h with
      | cons h₂ h => cases h; exact ⟨_, _, h₁, h₂, rfl⟩
  -- A float is not of type integer, nor the other way round.
  have notInt {x : Float} {a : TypeId} (h : Value.Of τ.types P cs (.float x) a) : a ≠ .int := by
    rintro rfl
    nomatch h.type?_of_isMember (by rw [H.shape_int]; trivial)
  have notFloat {i : Int64} {a : TypeId} (h : Value.Of τ.types P cs (.int i) a) : a ≠ .float := by
    rintro rfl
    nomatch h.type?_of_isMember (by rw [H.shape_float]; trivial)
  have float (x : Float) (hno : a₁ ≠ .int ∨ a₂ ≠ .int) : Value.Of τ.types P cs (.float x)
      (if [a₁, a₂].all (· = .int) then .int else if [a₁, a₂].contains .float then .float
        else number) := by
    rw [if_neg (by simp; tauto)]
    split
    · exact .float H x
    · exact (Value.Of.float H x).inside hj.right
  rcases Number.of_value h₁ with ⟨i, rfl, rfl⟩ | ⟨x, rfl, rfl⟩
  · rcases Number.of_value h₂ with ⟨j, rfl, rfl⟩ | ⟨y, rfl, rfl⟩
    · obtain ⟨k, rfl⟩ := checked_ok h
      split
      · exact .int H k
      · rw [if_neg (by simpa using ⟨(notFloat ha₁).symm, (notFloat ha₂).symm⟩)]
        exact (Value.Of.int H k).inside hj.left
    · cases h
      exact float _ (.inr (notInt ha₂))
  · cases h
    exact float _ (.inl (notInt ha₁))

theorem Primitive.arithmetic_of_apply {op : Primitive} {v₁ v₂ : Value} (hop : op.isArithmetic = true)
    (h : op.apply [v₁, v₂] = .ok v) : ∃ m n, Number.ofValue? v₁ = some m ∧
      Number.ofValue? v₂ = some n ∧ op.arithmetic m n = .ok v := by
  cases hm : Number.ofValue? v₁ <;> cases hn : Number.ofValue? v₂ <;>
    cases op <;> simp only [isArithmetic, reduceCtorEq] at hop <;>
    simp only [apply, hm, hn, isArithmetic, if_true, reduceCtorEq] at h
  all_goals exact ⟨_, _, rfl, rfl, h⟩

/-- What a primitive operation gives is of the type that was found for it. -/
theorem Primitive.apply_of {op : Primitive} (H : τ.types.WF) (h : World.Applies W τ op as a)
    (hop : as.length = op.arity) (hvs : List.Forall₂ (Value.Of τ.types P cs) vs as)
    (hv : op.apply vs = .ok v) : v.Of τ.types P cs a := by
  unfold World.Applies at h
  split at h
  · -- Comparisons give truth values.
    rename_i hcomp
    obtain ⟨b, rfl⟩ : ∃ b, v = .bool b := by
      unfold apply at hv
      split at hv
      · exact ⟨_, (Except.ok.inj hv).symm⟩
      · simp [isComparison] at hcomp
      · simp [isComparison] at hcomp
      · split at hv
        · rw [if_neg (by cases op <;> simp [isArithmetic, isComparison] at hcomp ⊢)] at hv
          exact ⟨_, (Except.ok.inj hv).symm⟩
        · cases hv
      · cases hv
    exact h ▸ .bool H b
  · rename_i hcomp
    rw [← hvs.length_eq] at hop
    split at h
    · obtain ⟨v₁, rfl⟩ := List.length_eq_one_iff.1 hop
      simp only [apply] at hv
      split at hv
      · rename_i n hn
        cases hv
        cases n <;> exact h ▸ .int H _
      · cases hv
    · obtain ⟨v₁, rfl⟩ := List.length_eq_one_iff.1 hop
      simp only [apply] at hv
      split at hv
      · cases hv
        exact h ▸ .float H _
      · cases hv
    · rename_i hint hfloat
      have hop' : op.isArithmetic = true := by
        cases op <;> simp_all [isArithmetic, isComparison]
      obtain ⟨number, hj, -, rfl⟩ := h
      obtain ⟨v₁, v₂, rfl⟩ := List.length_eq_two.1
        (hop.trans (by cases op <;> simp_all [isArithmetic, arity]))
      obtain ⟨m, n, hm, hn, hv⟩ := arithmetic_of_apply hop' hv
      exact arithmetic_of H hj hm hn hvs hv

end

/-- Arithmetic fails only if the result does not fit. -/
theorem Primitive.arithmetic_error {op : Primitive} {m n : Number} {cause : RunError.Cause}
    (h : op.arithmetic m n = .error cause) : cause = .integerOverflow op.methodName := by
  cases m <;> cases n <;> simp only [arithmetic] at h
  case int.int => exact checked_error h
  all_goals cases h

/-- An operation on as many operands as it takes, all numbers unless it compares identities, fails
only if the result does not fit. -/
theorem Primitive.apply_error {op : Primitive} {vs : List Value} {cause : RunError.Cause}
    (hlen : vs.length = op.arity)
    (hnum : op = .identical ∨ ∀ v ∈ vs, ∃ n, Number.ofValue? v = some n)
    (h : op.apply vs = .error cause) : cause = .integerOverflow op.methodName := by
  rcases hnum with rfl | hnum
  · obtain ⟨v, w, rfl⟩ := List.length_eq_two.1 hlen
    cases h
  cases op
  case toInt | toFloat =>
    obtain ⟨v, rfl⟩ := List.length_eq_one_iff.1 hlen
    obtain ⟨n, hn⟩ := hnum v (.head _)
    simp only [apply, hn] at h
    cases h
  case identical =>
    obtain ⟨v, w, rfl⟩ := List.length_eq_two.1 hlen
    cases h
  all_goals
    obtain ⟨v, w, rfl⟩ := List.length_eq_two.1 hlen
    obtain ⟨m, hm⟩ := hnum v (.head _)
    obtain ⟨n, hn⟩ := hnum w (.tail _ (.head _))
    simp only [apply, hm, hn, isArithmetic] at h
    first
      | cases h
      | exact arithmetic_error h

/-! ## The heap -/

/-- What the objects hold is of the types that `types` says, class by class. -/
structure Heap.Holds (t : TypeTable) (P : ClassId → Prop) (types : ClassId → Name → Option TypeId)
    (cs : List ClassId) (h : Heap) : Prop where
  size : h.objects.size = cs.length
  ivars : ∀ (o : ObjectId) c (n : Name) v, cs[o.index]? = some c → (h.ivars o)[n]? = some v →
    ∃ a, types c n = some a ∧ v.Of t P cs a

namespace Heap.Holds

variable {types : ClassId → Name → Option TypeId} {h : Heap} {o : ObjectId} {c : ClassId}

/-- The instance variable of an object is of its type or `nil`. -/
theorem get (H : h.Holds t P types cs) (ht : t.WF) (hc : cs[o.index]? = some c) {n : Name}
    (ha : t.Joins ((types c n).getD .never) .nil a) : (h.get o n).Of t P cs a := by
  unfold Heap.get
  cases hv : (h.ivars o)[n]? with
  | none => exact (Value.Of.nil ht).inside ha.right
  | some v =>
    obtain ⟨b, hb, hvb⟩ := H.ivars o c n v hc hv
    rw [hb] at ha
    exact hvb.inside ha.left

theorem ivars_set (o' : ObjectId) (n : Name) (v : Value) (hlt : o.index < h.objects.size) :
    (h.set o n v).ivars o' = if o'.index = o.index then (h.ivars o').insert n v else h.ivars o' := by
  simp only [Heap.set, Heap.ivars, Array.getD_eq_getD_getElem?, Array.getElem?_modify]
  by_cases ho : o.index = o'.index
  · rw [if_pos ho, if_pos ho.symm, ← ho, Array.getElem?_eq_getElem hlt]
    rfl
  · rw [if_neg ho, if_neg fun h => ho h.symm]

/-- Assigning a value of the right type to an instance variable. -/
theorem set (H : h.Holds t P types cs) (hc : cs[o.index]? = some c) {n : Name}
    (ha : types c n = some a) (hv : v.Of t P cs a) : (h.set o n v).Holds t P types cs where
  size := by
    rw [Heap.set, Array.size_modify]
    exact H.size
  ivars o' c' n' v' hc' hv' := by
    have hlt : o.index < h.objects.size := H.size ▸ (List.getElem?_eq_some_iff.1 hc).1
    rw [ivars_set o' n v hlt] at hv'
    split at hv'
    · rename_i ho
      rw [ho, hc] at hc'
      cases hc'
      rw [Std.ExtTreeMap.getElem?_insert] at hv'
      split at hv'
      · rename_i hn
        cases hv'
        rw [← Std.compare_eq_iff_eq.1 hn]
        exact ⟨a, ha, hv⟩
      · exact H.ivars o' c n' v' (by rw [ho, hc]) hv'
    · exact H.ivars o' c' n' v' hc' hv'

/-- A fresh object holds nothing. -/
theorem allocate (H : h.Holds t P types cs) (c : ClassId) :
    (h.allocate c).2.Holds t P types (cs ++ [c]) where
  size := by simp [Heap.allocate, H.size]
  ivars o' c' n v hc' hv := by
    simp only [Heap.allocate, Heap.ivars, Array.getD_eq_getD_getElem?, Array.getElem?_push] at hv
    split at hv
    · simp at hv
    · rename_i ho
      rw [H.size] at ho
      have hlt : o'.index < cs.length := by
        have := (List.getElem?_eq_some_iff.1 hc').1
        rw [List.length_append, List.length_singleton] at this
        omega
      rw [List.getElem?_append_left hlt] at hc'
      obtain ⟨a, ha, hva⟩ := H.ivars o' c' n v hc'
        (by rw [Heap.ivars, Array.getD_eq_getD_getElem?]; exact hv)
      exact ⟨a, ha, hva.mono (List.prefix_append _ _)⟩

end Heap.Holds

end Multimethod
