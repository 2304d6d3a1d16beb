import Multimethod.Proofs.Resolution.Growth

/-!
# What restrictions come to

The restriction of a parameter is described when it is compared, with the receiver in the place of
`self`, so which handle it gets depends on what has been described before. Its members do not
(`Registry.bound`), and by these it can be said what the comparisons of resolution come to: whether
an argument is within its restriction (`Registry.firstRejected_spec`), and whether one method is more
specific than another (`Registry.moreSpecific_spec`).
-/

namespace Multimethod

open TypeTable

variable {t u v : TypeTable}

/-! ## Comparing members -/

/-- Types, where there are any, are determined by their members. -/
theorem TypeTable.WF.map_members_inj (H : t.WF) {r q : Option TypeId} (hr : ∀ a ∈ r, t.Has a)
    (hq : ∀ a ∈ q, t.Has a) : r.map t.members = q.map t.members ↔ r = q := by
  refine ⟨fun h => ?_, congrArg _⟩
  cases r with
  | none => exact (Option.map_eq_none_iff.1 h.symm).symm
  | some a =>
    obtain ⟨b, rfl, hb⟩ := Option.map_eq_some_iff.1 h.symm
    rw [H.ext_members (hr a rfl) (hq b rfl) fun m => by rw [hb]]

namespace Hierarchy

variable {h : Hierarchy} {ms ns ks : List TypeId}

/-- Each of some members is below one of some others. -/
def MembersBelow (h : Hierarchy) (t : TypeTable) (ms ns : List TypeId) : Prop :=
  ∀ m ∈ ms, ∃ n ∈ ns, h.memberBelow t m n = true

theorem isSubtype_iff_membersBelow {a b : TypeId} :
    h.isSubtype t a b = true ↔ h.MembersBelow t (t.members a) (t.members b) := h.isSubtype_iff

namespace MembersBelow

theorem refl (ms : List TypeId) : h.MembersBelow t ms ms :=
  fun m hm => ⟨m, hm, by simp [memberBelow]⟩

/-- What described members are below does not change. -/
theorem congr (hle : t ≤ u) (hms : ∀ m ∈ ms, t.Has m) (hns : ∀ n ∈ ns, t.Has n) :
    h.MembersBelow u ms ns ↔ h.MembersBelow t ms ns := by
  refine forall₂_congr fun m hm => exists_congr fun n => and_congr_right fun hn => ?_
  rw [memberBelow, memberBelow, (hms m hm).shape_eq hle, (hns n hn).shape_eq hle]

end MembersBelow

end Hierarchy

namespace Registry

variable {g : Registry} {receiver : Option TypeId} {m d e : MethodId} {i n : Nat} {a : TypeId}
  {args : List TypeId}

/-! ## Bounds -/

/-- The members of a parameter's restriction, those of the receiver in the place of `self`. -/
def bound (g : Registry) (t : TypeTable) (receiver : Option TypeId) (m : MethodId) (i : Nat) :
    Option (List TypeId) :=
  ((g.methods.get? m).bind (·.declared i)).map fun a => Handle.sorted <|
    (t.members a).flatMap fun n =>
      if n = TypeId.self then t.members (receiver.getD .object) else [n]

/-- The argument is within the restriction of the parameter. -/
def Within (g : Registry) (t : TypeTable) (receiver : Option TypeId) (m : MethodId) (i : Nat)
    (a : TypeId) : Prop :=
  ∀ ns ∈ g.bound t receiver m i, g.hierarchy.MembersBelow t (t.members a) ns

/-- The parameter of `d` is unrestricted, or both are restricted and that of `e` not more widely. -/
def Narrows (g : Registry) (t : TypeTable) (receiver : Option TypeId) (e d : MethodId) (i : Nat) :
    Prop :=
  ∀ ns ∈ g.bound t receiver d i, ∃ ms ∈ g.bound t receiver e i, g.hierarchy.MembersBelow t ms ns

theorem Narrows.refl (d : MethodId) (i : Nat) : g.Narrows t receiver d d i :=
  fun ns hns => ⟨ns, hns, .refl ns⟩

theorem Narrows.of_eq (h : g.bound t receiver e i = g.bound t receiver d i) :
    g.Narrows t receiver e d i := fun ns hns => ⟨ns, h ▸ hns, .refl ns⟩

section
variable (H : t.WF) (D : g.Described t) (hr : ∀ a ∈ receiver, t.Has a)
include H D hr

theorem bound_has {ns : List TypeId} (hns : ns ∈ g.bound t receiver m i) : ∀ n ∈ ns, t.Has n := by
  obtain ⟨a, ha, rfl⟩ := Option.map_eq_some_iff.1 hns
  obtain ⟨md, hmd, hda⟩ := Option.bind_eq_some_iff.1 ha
  intro n hn
  rw [Handle.mem_sorted, List.mem_flatMap] at hn
  obtain ⟨k, hk, hn⟩ := hn
  split at hn
  · have hreceiver : t.Has (receiver.getD .object) := by
      cases receiver with
      | none => exact H.has_object
      | some b => exact hr b rfl
    exact (H.isMember_of_mem hreceiver hn).1
  · rw [List.mem_singleton.1 hn]
    exact (H.isMember_of_mem (D m md i a hmd hda) hk).1

/-- The restriction of a parameter is, in every later table, the type with the members of its
bound. -/
theorem restriction_spec (hu : u.WF) (hle : t ≤ u) (m : MethodId) (i : Nat) :
    Settles u (g.restriction m i receiver) fun r v =>
      r.map v.members = g.bound t receiver m i ∧ ∀ a ∈ r, v.Has a := by
  unfold restriction
  cases hm : g.methods.get? m with
  | none => exact .pure hu ⟨by simp [bound, hm], by simp⟩
  | some md =>
    simp only [Method.restriction]
    cases hd : md.declared i with
    | none => exact .pure hu ⟨by simp [bound, hm, hd], by simp⟩
    | some a =>
      have hb : t.Has (receiver.getD .object) := by
        cases receiver with
        | none => exact H.has_object
        | some b => exact hr b rfl
      have ha := D m md i a hm hd
      refine (forReceiver_settles hu (ha.mono hle) (hb.mono hle)).map ?_
      rintro c v hv hle' ⟨hc, hmem⟩
      have hlev := le_trans hle hle'
      refine ⟨?_, fun b hbc => by cases hbc; exact hc⟩
      simp only [bound, hm, Option.bind_some, hd, Option.map_some, Option.some_inj]
      refine Handle.eq_of_mem_iff hv.pairwise_members (Handle.pairwise_sorted _) fun n => ?_
      rw [hmem, ha.members_eq hlev, hb.members_eq hlev, Handle.mem_sorted, List.mem_flatMap]
      constructor
      · rintro (⟨hn, hne⟩ | ⟨hn, hself⟩)
        · exact ⟨n, hn, by simp [hne]⟩
        · exact ⟨TypeId.self, hself, by simpa using hn⟩
      · rintro ⟨k, hk, hn⟩
        split at hn
        · rename_i hself
          exact .inr ⟨hn, hself ▸ hk⟩
        · rename_i hne
          obtain rfl := List.mem_singleton.1 hn
          exact .inl ⟨hk, hne⟩

omit H in
/-- A type compares with a restriction as their members do. -/
theorem isSubtype_iff_within (H : t.WF) (hle : t ≤ u) (ha : t.Has a) {b : TypeId}
    (hb : some (u.members b) = g.bound t receiver m i) :
    g.isSubtype u a b = true ↔ g.Within t receiver m i a := by
  rw [Registry.isSubtype, Hierarchy.isSubtype_iff_membersBelow, ha.members_eq hle, Within, ← hb]
  simp only [Option.mem_def, Option.some_inj, forall_eq']
  exact Hierarchy.MembersBelow.congr hle (fun m hm => (H.isMember_of_mem ha hm).1)
    (bound_has H D hr hb.symm)

/-- Two restrictions compare as their members do. -/
theorem isSubtype_iff_narrows (hle : t ≤ u) {a b : TypeId}
    (he : some (u.members a) = g.bound t receiver e i)
    (hd : some (u.members b) = g.bound t receiver d i) :
    g.isSubtype u a b = true ↔ g.Narrows t receiver e d i := by
  rw [Registry.isSubtype, Hierarchy.isSubtype_iff_membersBelow, Narrows, ← he, ← hd]
  simp only [Option.mem_def, Option.some_inj, exists_eq_left', forall_eq']
  exact Hierarchy.MembersBelow.congr hle (bound_has H D hr he.symm) (bound_has H D hr hd.symm)

/-! ## The comparisons of resolution -/

/-- The restriction of the parameter is described. -/
def Found (g : Registry) (t : TypeTable) (receiver : Option TypeId) (m : MethodId) (i : Nat) :
    Prop :=
  ∀ u : TypeTable, u.WF → t ≤ u → (g.restriction m i receiver u).2 = u

/-- What is found of the arguments of the parameters from `i` on: that each is within its
restriction, or the first that is not, with this restriction. -/
def Rejects (g : Registry) (t : TypeTable) (receiver : Option TypeId) (m : MethodId) (i : Nat)
    (args : List TypeId) (r : Option (Nat × TypeId)) (u : TypeTable) : Prop :=
  match r with
  | none => ∀ j a, args[j]? = some a →
      g.Within t receiver m (i + j) a ∧ g.Found u receiver m (i + j)
  | some (k, r) => ∃ j a, k = i + j ∧ args[j]? = some a ∧ ¬ g.Within t receiver m k a ∧
      some (u.members r) = g.bound t receiver m k ∧ u.Has r ∧
      ∀ l < j, ∀ b, args[l]? = some b → g.Within t receiver m (i + l) b

omit H D hr in
/-- An argument that is within its restriction, before the others. -/
theorem Rejects.cons {r : Option (Nat × TypeId)} (ha : g.Within t receiver m i a)
    (hf : g.Found u receiver m i) (h : g.Rejects t receiver m (i + 1) args r u) :
    g.Rejects t receiver m i (a :: args) r u := by
  have hshift (l : Nat) : i + 1 + l = i + (l + 1) := by omega
  match r with
  | none =>
    intro j b hj
    cases j with
    | zero =>
      cases hj
      exact ⟨ha, hf⟩
    | succ j =>
      have := h j b hj
      rwa [hshift] at this
  | some (k, r) =>
    obtain ⟨j, b, rfl, hj, hnot, hbound, hhas, hbefore⟩ := h
    refine ⟨j + 1, b, hshift j, hj, hnot, hbound, hhas, fun l hl c hc => ?_⟩
    cases l with
    | zero =>
      cases hc
      exact ha
    | succ l =>
      have := hbefore l (Nat.lt_of_succ_lt_succ hl) c hc
      rwa [hshift] at this

theorem firstRejected_spec (hu : u.WF) (hle : t ≤ u) (ha : ∀ a ∈ args, t.Has a) (m : MethodId)
    (i : Nat) : Settles u (g.firstRejected m receiver i args) (g.Rejects t receiver m i args) := by
  induction args generalizing u i with
  | nil => exact .pure hu (by simp [Rejects])
  | cons a as ih =>
    simp only [firstRejected]
    have hs := restriction_spec H D hr hu hle m i
    refine (hs.settled).bind fun r v hv hle' hsettled => ?_
    obtain ⟨hrv, hagain⟩ := hsettled
    have hlev := le_trans hle hle'
    have next (hwithin : g.Within t receiver m i a) :=
      (ih hv hlev (fun b hb => ha b (.tail _ hb)) (i + 1)).mono fun _ w _ hlew h =>
        h.cons hwithin fun x hx hlex => congrArg Prod.snd (hagain x hx (le_trans hlew hlex))
    cases r with
    | none =>
      refine next fun ns hns => ?_
      rw [← hrv.1] at hns
      cases hns
    | some r =>
      have hat : t.Has a := ha a (.head _)
      have hiff := isSubtype_iff_within D hr H hlev hat hrv.1
      refine .get ?_ fun w hw hle'' => by
        rw [g.isSubtype_mono hv (hat.mono hlev) (hrv.2 r rfl) hle'']
      split
      · rename_i hsub
        exact next (hiff.1 hsub)
      · rename_i hsub
        exact .pure hv ⟨0, a, rfl, rfl, fun h => hsub (hiff.2 h), hrv.1, hrv.2 r rfl, by simp⟩

/-- A method takes arguments that are within its restrictions. -/
theorem accepts_spec (hu : u.WF) (hle : t ≤ u) (ha : ∀ a ∈ args, t.Has a) (m : MethodId) :
    Settles u (g.accepts m receiver args) fun r _ =>
      r = true ↔ ∀ i a, args[i]? = some a → g.Within t receiver m i a := by
  refine (firstRejected_spec H D hr hu hle ha m 0).bind fun r v hv _ hrv => .pure hv ?_
  match r with
  | none =>
    refine iff_of_true rfl fun i a hi => ?_
    have := (hrv i a hi).1
    rwa [Nat.zero_add] at this
  | some (k, r) =>
    obtain ⟨j, a, rfl, hj, hnot, -⟩ := hrv
    refine iff_of_false nofun fun h => hnot ?_
    rw [Nat.zero_add]
    exact h j a hj

/-- None of the restrictions of `e` in `n` parameters from `i` on is wider than that of `d`, and, if
not `narrower`, one differs. -/
def MoreSpecific (g : Registry) (t : TypeTable) (receiver : Option TypeId) (e d : MethodId)
    (i n : Nat) (narrower : Bool) : Prop :=
  (∀ j < n, g.Narrows t receiver e d (i + j)) ∧
    (narrower = true ∨ ∃ j < n, g.bound t receiver e (i + j) ≠ g.bound t receiver d (i + j))

theorem moreSpecific_spec (hu : u.WF) (hle : t ≤ u) (e d : MethodId) (i n : Nat)
    (narrower : Bool) :
    Settles u (g.moreSpecific e d receiver i n narrower) fun r _ =>
      r = true ↔ g.MoreSpecific t receiver e d i n narrower := by
  induction n generalizing u i narrower with
  | zero => exact .pure hu (by simp [MoreSpecific])
  | succ n ih =>
    simp only [moreSpecific]
    refine (restriction_spec H D hr hu hle e i).bind fun re v hv hle₁ hre => ?_
    have hlev := le_trans hle hle₁
    refine (restriction_spec H D hr hv hlev d i).bind fun rd w hw hle₂ hrd => ?_
    have hlew := le_trans hlev hle₂
    have next (hnarrows : g.Narrows t receiver e d i) (narrower' : Bool)
        (hnarrower : narrower' = true ↔
          narrower = true ∨ g.bound t receiver e i ≠ g.bound t receiver d i) :
        Settles w (g.moreSpecific e d receiver (i + 1) n narrower') fun r _ =>
          r = true ↔ g.MoreSpecific t receiver e d i (n + 1) narrower := by
      refine (ih hw hlew (i + 1) narrower').mono fun r _ _ _ h => ?_
      have hshift (j : Nat) : i + 1 + j = i + (j + 1) := by omega
      rw [h, MoreSpecific, MoreSpecific, hnarrower, Nat.forall_lt_succ_left,
        Nat.exists_lt_succ_left, or_assoc]
      simp only [hshift, Nat.add_zero, hnarrows, true_and]
    have stop (hnarrows : ¬ g.Narrows t receiver e d i) :
        Settles w (pure false : StateM TypeTable Bool) fun r _ =>
          r = true ↔ g.MoreSpecific t receiver e d i (n + 1) narrower :=
      .pure hw (iff_of_false Bool.false_ne_true fun h => hnarrows (h.1 0 (Nat.succ_pos n)))
    have hd := hrd.1
    have he := hre.1
    rcases re with _ | re <;> rcases rd with _ | rd
    case none.none =>
      refine next (.of_eq (he.symm.trans hd)) narrower ?_
      simp [← he, ← hd]
    case some.none =>
      refine next (fun ns hns => ?_) true ?_
      · rw [← hd] at hns
        cases hns
      · simp [← he, ← hd]
    case none.some =>
      refine stop fun h => ?_
      obtain ⟨ms, hms, -⟩ := h _ hd.symm
      rw [← he] at hms
      cases hms
    case some.some =>
      have hhas := (hre.2 re rfl).mono hle₂
      rw [Option.map_some, ← (hre.2 re rfl).members_eq hle₂] at he
      have hnarrows := isSubtype_iff_narrows H D hr hlew he hd
      refine .get ?_ fun x hx hle₃ => by
        rw [g.isSubtype_mono hw hhas (hrd.2 rd rfl) hle₃]
      split
      · rename_i hsub
        refine next (hnarrows.1 hsub) _ ?_
        rw [Bool.or_eq_true, decide_eq_true_iff, ← he, ← hd]
        refine or_congr_right (not_congr ?_)
        rw [← Option.some_inj, ← hw.map_members_inj (by simpa using hhas) hrd.2]
        rfl
      · rename_i hsub
        exact stop fun h => hsub (hnarrows.2 h)

end

end Registry

end Multimethod
