import Multimethod.Proofs.Resolution.Settles
import Multimethod.Proofs.Resolution.Split

/-!
# Resolving calls

Resolution of a call goes through the combinations of its parts: either each picks a target, and the
entries are these combinations in order, or it ends with the first one that misses
(`Registry.resolve_goes`). Values have exact types, so the types that inference gives to receivers and
arguments never take in the classes below one (`Splits`): their parts are their members
(`Registry.resolve_settles`).
-/

namespace Multimethod

open TypeTable

namespace Registry

variable {t u : TypeTable} {g : Registry} {a : TypeId} {receiver : Option TypeId}
  {args : List TypeId} {k : Name} {span : Span} {cs : List (Option TypeId × List TypeId)}

/-! ## Going through combinations -/

/-- An entry for a combination: it picks its target and the target suits it. -/
def Enters (g : Registry) (k : Name) (receiver : Option TypeId) (combination : List TypeId)
    (e : ResolutionEntry) (t : TypeTable) : Prop :=
  e.receiver = receiver ∧ e.args = combination ∧ g.Picks t k receiver combination e.target ∧
    ∃ u, u.WF ∧ u ≤ t ∧ g.Suits u k receiver combination e.target

theorem Enters.mono {k : Name} {receiver : Option TypeId} {c : List TypeId} {e : ResolutionEntry}
    (h : g.Enters k receiver c e t) (hle : t ≤ u) : g.Enters k receiver c e u := by
  obtain ⟨h1, h2, h3, v, hv, hle', h4⟩ := h
  exact ⟨h1, h2, h3.mono hle, v, hv, le_trans hle' hle, h4⟩

/-- The entries are the combinations in order, and each picks its target. -/
def Resolves (g : Registry) (t : TypeTable) (k : Name) (cs : List (Option TypeId × List TypeId))
    (es : Resolution) : Prop :=
  List.Forall₂ (fun c e => g.Enters k c.1 c.2 e t) cs es

theorem Resolves.mono {k : Name} {cs : List (Option TypeId × List TypeId)} {es : Resolution}
    (h : g.Resolves t k cs es) (hle : t ≤ u) : g.Resolves u k cs es :=
  h.imp fun _ _ h => h.mono hle

/-- A combination of types fails with `e`, now and later. -/
structure Fails (g : Registry) (t : TypeTable) (k : Name) (args : List TypeId) (span : Span)
    (c : Option TypeId × List TypeId) (e : TypeError) : Prop where
  misses : g.Misses t k c.1 c.2
  complaint : ¬ e.IsDivergence
  again : ∀ u : TypeTable, u.WF → t ≤ u → (g.resolveOne k args span c.1 c.2).run u = (.error e, u)

theorem Fails.mono {c : Option TypeId × List TypeId} {e : TypeError}
    (h : g.Fails t k args span c e) (hle : t ≤ u) : g.Fails u k args span c e :=
  ⟨h.misses.mono hle, h.complaint, fun v hv hle' => h.again v hv (le_trans hle hle')⟩

/-- What resolution comes to: the combinations have their entries, or it ends with the first of them
that fails. -/
def Goes (g : Registry) (k : Name) (args : List TypeId) (span : Span)
    (cs : List (Option TypeId × List TypeId)) (r : Except TypeError Resolution) (t : TypeTable) :
    Prop :=
  Ends (fun es t => g.Resolves t k cs es)
    (fun e t => ∃ l₁ c l₂, cs = l₁ ++ c :: l₂ ∧
      (∀ b ∈ l₁, ∃ e, g.Enters k b.1 b.2 e t) ∧ g.Fails t k args span c e) r t

theorem Goes.mono {r : Except TypeError Resolution} (h : g.Goes k args span cs r t) (hle : t ≤ u) :
    g.Goes k args span cs r u := by
  cases r with
  | ok es => exact Resolves.mono h hle
  | error e =>
    obtain ⟨l₁, c, l₂, hcs, hl₁, hfail⟩ := h
    exact ⟨l₁, c, l₂, hcs, fun b hb => (hl₁ b hb).imp fun _ h => h.mono hle, hfail.mono hle⟩

theorem resolveOne_settles (H : t.WF) (D : g.Described t) (k : Name) (span : Span) {c : List TypeId}
    (hr : ∀ a ∈ receiver, t.Has a) (hc : ∀ a ∈ c, t.Has a) (ha : ∀ a ∈ args, t.Has a) :
    Settles t (g.resolveOne k args span receiver c).run
      (Ends (g.Enters k receiver c) fun e u => g.Fails u k args span (receiver, c) e) := by
  have hs : Settles t (g.resolveOne k args span receiver c).run
      (Ends (g.Enters k receiver c) fun e u => g.Misses u k receiver c ∧ ¬ e.IsDivergence) := by
    refine (pick_settles H D hr hc k).lift.bindExcept (E := fun _ _ => False)
      (fun r u hu hle hp => ?_) fun e u _ _ h => h.elim
    cases r with
    | ok target => exact .pure hu ⟨rfl, rfl, hp.1, u, hu, le_refl u, hp.2⟩
    | error fitting =>
      refine (failure_settles hu (D.mono hle) (fun a h => (hr a h).mono hle) k
        (fun a h => (hc a h).mono hle) (fun a h => (ha a h).mono hle) fitting).lift.bindExcept
        (E := fun _ _ => False) (fun cause v hv hle' hcause => ?_) fun e u _ _ h => h.elim
      exact .pure hv ⟨hp.mono hle', fun ⟨name, n, h⟩ => hcause name n h⟩
  refine hs.settled.mono fun r u _ _ ⟨h, hagain⟩ => ?_
  cases r with
  | ok e => exact h
  | error e => exact ⟨h.1, h.2, hagain⟩

/-- A call is resolved by going through the combinations of its parts. -/
theorem resolve_goes (H : t.WF) (D : g.Described t) (hr : ∀ a ∈ receiver, t.Has a)
    (ha : ∀ a ∈ args, t.Has a) (k : Name) (span : Span) :
    Settles t (g.resolve k receiver args span).run fun r u => ∀ v : TypeTable, v.WF → u ≤ v →
      g.CallParts t receiver args v ∧ g.Goes k args span (g.callParts v receiver args) r v := by
  rw [resolve_eq]
  refine (splitCall_settles H hr ha).lift.bindExcept (E := fun _ _ => False)
    (fun cs u hu hle hcs => ?_) fun e u _ _ h => h.elim
  have one (c) (hc : c ∈ cs) (v : TypeTable) (hv : v.WF) (hle' : u ≤ v) :
      Settles v (g.resolveOne k args span c.1 c.2).run
        (Ends (g.Enters k c.1 c.2) fun e w => g.Fails w k args span c e) := by
    obtain ⟨rfl, P⟩ := hcs v hv hle'
    have hc := mem_callParts.1 hc
    have hlev := le_trans hle hle'
    exact resolveOne_settles hv (D.mono hlev) k span (P.has_receiver hc) (P.has_args hc)
      fun a hm => (ha a hm).mono hlev
  refine (Settles.mapMExcept (E := fun c e w => g.Fails w k args span c e)
    (fun _ _ _ _ hle h => h.mono hle) hu one).mono fun r v _ hle' h w hw hle'' => ?_
  obtain ⟨rfl, P⟩ := hcs w hw (le_trans hle' hle'')
  exact ⟨P, Goes.mono h hle''⟩

/-! ## Types that are not split -/

/-- The receivers that a call is resolved for. -/
def receivers (t : TypeTable) : Option TypeId → List (Option TypeId)
  | none => [none]
  | some a => (t.members a).map some

/-- The combinations of members that a call is resolved for, in the order of the entries. -/
def combinations (t : TypeTable) (receiver : Option TypeId) (args : List TypeId) :
    List (Option TypeId × List TypeId) :=
  (receivers t receiver).flatMap fun r => (Combination.all (args.map t.members)).map (r, ·)

theorem receivers_of_isMember {receiver : Option TypeId}
    (h : ∀ a ∈ receiver, (t.shape a).IsMember) : receivers t receiver = [receiver] := by
  cases receiver with
  | none => rfl
  | some a => simp only [receivers, members_of_isMember (h a rfl), List.map_cons, List.map_nil]

theorem mem_combinations {receiver r : Option TypeId} {args c : List TypeId} :
    (r, c) ∈ combinations t receiver args ↔
      r ∈ receivers t receiver ∧ List.Forall₂ (fun m a => m ∈ t.members a) c args := by
  simp only [combinations, List.mem_flatMap, List.mem_map, Prod.mk.injEq, Combination.mem_all]
  constructor
  · rintro ⟨r, hr, c, hc, rfl, rfl⟩
    exact ⟨hr, List.forall₂_map_right_iff.1 hc⟩
  · rintro ⟨hr, hc⟩
    exact ⟨r, hr, c, List.forall₂_map_right_iff.2 hc, rfl, rfl⟩

/-- Members have one combination, themselves. -/
theorem combinations_of_isMember {receiver : Option TypeId} {args : List TypeId}
    (hr : ∀ a ∈ receiver, (t.shape a).IsMember) (ha : ∀ a ∈ args, (t.shape a).IsMember) :
    combinations t receiver args = [(receiver, args)] := by
  have hall : Combination.all (args.map t.members) = [args] := by
    induction args with
    | nil => rfl
    | cons a as ih =>
      rw [List.map_cons, Combination.all, ih fun b hb => ha b (.tail _ hb),
        members_of_isMember (ha a (.head _))]
      rfl
  simp only [combinations, receivers_of_isMember hr, hall]
  rfl

/-- What types that are not split are split into. -/
theorem callParts_of_splits (H : t.WF) (hr : ∀ a ∈ receiver, Splits t a)
    (ha : ∀ a ∈ args, Splits t a) (hu : u.WF) (hle : t ≤ u) :
    g.callParts u receiver args = combinations t receiver args := by
  have parts {a : TypeId} (h : Splits t a) : g.parts u a = t.members a := by
    rw [Registry.parts, split_eq hu (h.mono H hle), h.1.members_eq hle]
  have hargs : args.map (g.parts u) = args.map t.members :=
    List.map_congr_left fun a hm => parts (ha a hm)
  cases receiver with
  | none => simp only [callParts, combinations, receiverParts, receivers, hargs]
  | some a => simp only [callParts, combinations, receiverParts, receivers, hargs, parts (hr a rfl)]

/-- A complaint about one of some combinations, all later look-ups of which miss too. -/
def Complains (g : Registry) (k : Name) (cs : List (Option TypeId × List TypeId)) (e : TypeError)
    (t : TypeTable) : Prop :=
  (∃ c ∈ cs, g.Misses t k c.1 c.2) ∧ ¬ e.IsDivergence

section
variable (H : t.WF) (D : g.Described t)
include H D

/-- A call on types that are not split is resolved by going through the combinations of their
members. -/
theorem resolve_settles (k : Name) (span : Span) (hr : ∀ a ∈ receiver, Splits t a)
    (ha : ∀ a ∈ args, Splits t a) :
    Settles t (g.resolve k receiver args span).run
      (Ends (fun es u => g.Resolves u k (combinations t receiver args) es)
        (g.Complains k (combinations t receiver args))) := by
  refine (resolve_goes H D (fun a h => (hr a h).1) (fun a h => (ha a h).1) k span).mono
    fun r u hu hle h => ?_
  obtain ⟨-, hgoes⟩ := h u hu (le_refl u)
  rw [callParts_of_splits H hr ha hu hle] at hgoes
  cases r with
  | ok es => exact hgoes
  | error e =>
    obtain ⟨l₁, c, l₂, hcs, -, hfail⟩ := hgoes
    exact ⟨⟨c, by simp [hcs], hfail.misses⟩, hfail.complaint⟩

/-- A call on members that pick a target has one entry, for this target. -/
theorem resolve_of_picks (hr : ∀ a ∈ receiver, Splits t a ∧ (t.shape a).IsMember)
    (ha : ∀ a ∈ args, Splits t a ∧ (t.shape a).IsMember) {k : Name} {target : Target}
    (hp : g.Picks t k receiver args target) (span : Span) :
    ((g.resolve k receiver args span).run t).1 = .ok [⟨receiver, args, target⟩] := by
  have hs := resolve_settles H D k span (fun a h => (hr a h).1) fun a h => (ha a h).1
  have hpicks := hp.mono hs.le
  rw [combinations_of_isMember (fun a h => (hr a h).2) fun a h => (ha a h).2] at hs
  cases hres : ((g.resolve k receiver args span).run t).1 with
  | ok es =>
    obtain ⟨⟨r, c, target'⟩, rfl, rfl, rfl, hp', -⟩ : ∃ e, es = [e] ∧
        g.Enters k receiver args e ((g.resolve k receiver args span).run t).2 := by
      cases hs.post_ok hres with
      | cons he hnil => cases hnil; exact ⟨_, rfl, he⟩
    rw [hpicks.unique hs.wf hp']
  | error e =>
    obtain ⟨⟨c, hc, hmiss⟩, -⟩ := hs.post_error hres
    rw [List.mem_singleton.1 hc] at hmiss
    exact absurd hmiss (hpicks.not_misses hs.wf)

omit D in
theorem goesToSelf_mono (hle : t ≤ u) {a : TypeId} (ha : t.Has a) (k : Name) :
    g.goesToSelf u k a = g.goesToSelf t k a := by
  simp only [goesToSelf, ha.flags_eq hle, g.methods.understands_mono g.hierarchy H ha hle]

omit D in
/-- A call without a receiver goes to `self`, if that can take it. -/
theorem resolveSend_of_resolve {k : Name} {self : TypeId} {P : Except TypeError Resolution →
    TypeTable → Prop} (hs : t.Has self)
    (h : Settles t (g.resolve k ((some self).filter (g.goesToSelf t k)) args span).run P) :
    Settles t (g.resolveSend k (some self) args span).run P := by
  refine ⟨h.wf, h.le, h.post, fun u hu hle => ?_⟩
  have hg : (some self).filter (g.goesToSelf u k) = (some self).filter (g.goesToSelf t k) := by
    simp only [Option.filter_some, goesToSelf_mono H (le_trans h.le hle) hs]
  show (g.resolve k ((some self).filter (g.goesToSelf u k)) args span).run u = _
  rw [hg]
  exact h.again u hu hle

/-- The receiver of a call without one: `self`, if that can take the call. -/
theorem resolveSend_settles (k : Name) (span : Span) {self : TypeId} (hs : Splits t self)
    (ha : ∀ a ∈ args, Splits t a) :
    Settles t (g.resolveSend k (some self) args span).run
      (Ends (fun es u => g.Resolves u k
          (combinations t ((some self).filter (g.goesToSelf t k)) args) es)
        (g.Complains k (combinations t ((some self).filter (g.goesToSelf t k)) args))) := by
  refine resolveSend_of_resolve H hs.1 (resolve_settles H D k span (fun a h => ?_) ha)
  cases (Option.filter_eq_some_iff.1 h).1
  exact hs

end

theorem combinations_mono {receiver : Option TypeId} {args : List TypeId} (hle : t ≤ u)
    (hr : ∀ a ∈ receiver, t.Has a) (ha : ∀ a ∈ args, t.Has a) :
    combinations u receiver args = combinations t receiver args := by
  have hargs : args.map u.members = args.map t.members :=
    List.map_congr_left fun a h => (ha a h).members_eq hle
  cases receiver with
  | none => simp only [combinations, receivers, hargs]
  | some a => simp only [combinations, receivers, hargs, (hr a rfl).members_eq hle]

end Registry

end Multimethod
