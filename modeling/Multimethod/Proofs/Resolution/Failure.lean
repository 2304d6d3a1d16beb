import Multimethod.Proofs.Resolution.Classes
import Multimethod.Proofs.Resolution.Distribution

/-!
# How calls fail

A call fails with its first combination that has no target. If just one candidate accepts the number
of arguments, the complaint is about the first argument that this candidate rejects, and else it lists
all candidates (`Registry.resolve_complains`). Complaints are made by going through the arguments a
second time; they fit because what an argument is compared with is settled by the table of the call.
-/

theorem List.exists_forall₂ {α β : Type} {R : α → β → Prop} {l : List α}
    (h : ∀ a ∈ l, ∃ b, R a b) : ∃ bs, Forall₂ R l bs := by
  induction l with
  | nil => exact ⟨[], .nil⟩
  | cons a l ih =>
    obtain ⟨⟨b, hb⟩, hl⟩ := List.forall_mem_cons.1 h
    obtain ⟨bs, hbs⟩ := ih hl
    exact ⟨b :: bs, .cons hb hbs⟩

namespace Multimethod

open TypeTable

namespace Registry

variable {g : Registry} {t u v : TypeTable} {receiver : Option TypeId} {args : List TypeId}
  {c : Option TypeId × List TypeId} {k : Name} {m : MethodId} {i : Nat} {span : Span} {e : TypeError}

/-! ## Complaints -/

/-- The first combination, in the order in which a call goes through them, that has no target. -/
def FirstMiss (g : Registry) (t : TypeTable) (k : Name) (receiver : Option TypeId)
    (args : List TypeId) (c : Option TypeId × List TypeId) : Prop :=
  ∃ l₁ l₂, g.callParts t receiver args = l₁ ++ c :: l₂ ∧ (∀ b ∈ l₁, g.HasTarget t k b) ∧
    ¬ g.HasTarget t k c

/-- `m` is the only candidate that accepts `n` arguments. -/
def OnlyFitting (g : Registry) (t : TypeTable) (k : Name) (receiver : Option TypeId) (n : Nat)
    (m : MethodId) : Prop :=
  ∀ d, d ∈ g.methods.candidates g.hierarchy t k receiver ∧ g.acceptsArity d n = true ↔ d = m

/-- The restriction of parameter `i` is `q`, and it is the first that rejects the argument. -/
def FirstRejects (g : Registry) (t : TypeTable) (receiver : Option TypeId) (args : List TypeId)
    (m : MethodId) (i : Nat) (q : TypeId) : Prop :=
  (g.restriction m i receiver t).1 = some q ∧ t.Has q ∧
    (∃ b, args[i]? = some b ∧ g.isSubtype t b q = false) ∧
    ∀ j < i, ∀ b, args[j]? = some b →
      ∀ r u, g.restriction m j receiver t = (some r, u) → g.isSubtype u b r = true

/-- The complaint about a combination `c` of a call with the arguments `args`. -/
inductive Complaint (g : Registry) (t : TypeTable) (k : Name) (args : List TypeId)
    (c : Option TypeId × List TypeId) : TypeError.Cause → Prop where
  | violation {m : MethodId} {md : Method} {i : Nat} {p : Param} {a q : TypeId}
      (only : g.OnlyFitting t k c.1 args.length m) (hm : g.methods.get? m = some md)
      (hp : md.definition.params[i]? = some p) (ha : args[i]? = some a)
      (first : g.FirstRejects t c.1 c.2 m i q) :
    Complaint g t k args c (.restrictionViolation (g.names.text k) (g.names.text p.name)
      (g.typeText t q) (g.typeText t a))
  | noOverload {ms : List MethodId} {mds : List Method}
      (none : ∀ m, ¬ g.OnlyFitting t k c.1 args.length m) (increasing : ms.Pairwise (· < ·))
      (candidates : ∀ m, m ∈ ms ↔ m ∈ g.methods.candidates g.hierarchy t k c.1)
      (methods : List.Forall₂ (fun m md => g.methods.get? m = some md) ms mds) :
    Complaint g t k args c (.noOverload (g.names.text k) (c.1.map (g.typeText t))
      (args.map (g.typeText t)) (mds.map (MethodTable.signatureOf g.hierarchy t g.names)))

/-- What the complaint is made of is there: the types are described, and they and the owners of
candidates name classes of the hierarchy only. -/
structure Legible (g : Registry) (t : TypeTable) (k : Name) (c : Option TypeId × List TypeId) :
    Prop where
  receiver : ∀ a ∈ c.1, t.Has a ∧ g.hierarchy.Over t a
  args : ∀ a ∈ c.2, t.Has a ∧ g.hierarchy.Over t a
  candidates : ∀ m ∈ g.methods.candidates g.hierarchy t k c.1, ∃ md, g.methods.get? m = some md ∧
    md.restrictions.length = md.definition.params.length ∧
    (∀ d, md.owner.class? = some d → d.index < g.hierarchy.size) ∧
    ∀ i a, md.declared i = some a → t.Has a ∧ g.hierarchy.Over t a
  restrictions : ∀ m i q u, g.restriction m i c.1 t = (some q, u) → u.Has q ∧ g.hierarchy.Over u q

/-! ## Candidates -/

theorem Sound.get?_of_mem_candidates (S : g.Sound t)
    (hm : m ∈ g.methods.candidates g.hierarchy t k receiver) : ∃ md, g.methods.get? m = some md := by
  have of_mem {o : MethodOwner} (hm : m ∈ g.methods.overloads k o) :
      ∃ md, g.methods.get? m = some md := (S.listed.mem_overloads.1 hm).imp fun _ h => h.1
  cases receiver with
  | none => exact of_mem hm
  | some a =>
    obtain ⟨o, -, hm⟩ := List.mem_flatMap.1 hm
    exact of_mem hm

theorem Sound.fitting_eq_singleton (S : g.Sound t) {n : Nat} :
    g.fitting t k receiver n = [m] ↔ g.OnlyFitting t k receiver n m := by
  simp only [OnlyFitting, ← mem_fitting]
  constructor
  · intro h d
    rw [h, List.mem_singleton]
  · intro h
    have hnodup : (g.fitting t k receiver n).Nodup := S.nodup_candidates.filter _
    refine List.perm_singleton.1 ((List.perm_ext_iff_of_nodup hnodup (List.nodup_singleton m)).2 ?_)
    simpa using h

/-- The signatures that a complaint lists are those of the candidates. -/
theorem Sound.signatures_eq (S : g.Sound t) (hr : ∀ a ∈ receiver, (t.shape a).IsMember) (k : Name) :
    ∃ ms mds, ms.Pairwise (· < ·) ∧
      (∀ m, m ∈ ms ↔ m ∈ g.methods.candidates g.hierarchy t k receiver) ∧
      List.Forall₂ (fun m md => g.methods.get? m = some md) ms mds ∧
      g.methods.signatures g.hierarchy t g.names k receiver =
        mds.map (MethodTable.signatureOf g.hierarchy t g.names) := by
  have hsignatures : g.methods.signatures g.hierarchy t g.names k receiver =
      (Handle.sorted (g.methods.candidates g.hierarchy t k receiver)).map
        (g.methods.signature g.hierarchy t g.names) := by
    cases receiver with
    | none => simp only [MethodTable.signatures, List.flatMap_singleton]
    | some a =>
      simp only [MethodTable.signatures, members_of_isMember (hr a rfl), List.map_cons, List.map_nil,
        List.flatMap_singleton]
  obtain ⟨mds, hmds⟩ := List.exists_forall₂ fun m (hm : m ∈ Handle.sorted _) =>
    S.get?_of_mem_candidates (Handle.mem_sorted.1 hm)
  refine ⟨_, mds, Handle.pairwise_sorted _, fun m => Handle.mem_sorted, hmds, ?_⟩
  rw [hsignatures, ← List.forall₂_eq_eq_eq, List.forall₂_map_left_iff, List.forall₂_map_right_iff]
  refine hmds.imp fun m md hm => ?_
  rw [MethodTable.signature, hm]
  rfl

/-! ## What is complained about -/

section
variable (H : t.WF) (D : g.Described t) (hr : ∀ a ∈ receiver, t.Has a)
include H D hr

/-- A type with the members of the restriction is the restriction. -/
theorem restriction_eq {q : TypeId} (hq : t.Has q)
    (hbound : g.bound t receiver m i = some (t.members q)) :
    (g.restriction m i receiver t).1 = some q := by
  have hs := restriction_spec H D hr H (le_refl t) m i
  have hqv := hq.mono hs.le
  refine (hs.wf.map_members_inj hs.post.2 fun a ha => by cases ha; exact hqv).1 ?_
  rw [hs.post.1, hbound, Option.map_some, hq.members_eq hs.le]

theorem FirstRejected.firstRejects (ha : ∀ a ∈ args, t.Has a) {q : TypeId} (hq : t.Has q)
    (h : g.FirstRejected t receiver args m (some (i, t.members q))) :
    g.FirstRejects t receiver args m i q := by
  obtain ⟨b, hb, hnot, hbound, hbefore⟩ := h
  have hbt := ha b (List.mem_of_getElem? hb)
  refine ⟨restriction_eq H D hr hq hbound, hq, ⟨b, hb, ?_⟩, fun j hj d hd => ?_⟩
  · rw [← Bool.not_eq_true, isSubtype_iff_within D hr H (le_refl t) hbt hbound.symm]
    exact hnot
  · exact (within_iff H D hr (ha d (List.mem_of_getElem? hd))).1 (hbefore j hj d hd)

end

/-- What is missed when nothing is chosen: no candidate of the right arity takes the arguments. -/
theorem Sound.fitting_of_pick (S : g.Sound t) (hr : ∀ a ∈ receiver, t.Has a)
    (ha : ∀ a ∈ args, t.Has a) {fitting : List MethodId}
    (hpick : (g.pick k receiver args t).1 = .error fitting) :
    fitting = g.fitting t k receiver args.length ∧ ∀ m ∈ fitting, ¬ g.Takes t receiver args m := by
  obtain ⟨best, hbest, hout⟩ := (pick_spec S.types S.restrictions hr ha k).post
  rw [hpick] at hout
  cases best with
  | some m => cases hout
  | none =>
    obtain rfl : fitting = g.fitting t k receiver args.length := by
      simp only [outcome] at hout
      split at hout
      · cases hout
      · exact Except.error.inj hout
    refine ⟨rfl, fun m hm htakes => ?_⟩
    have := hbest.isSome_iff.2 (.inr ⟨m, hm, htakes⟩)
    cases this

/-- The complaint about a combination without a target, made in a table that has all it needs. -/
theorem Sound.complaint (S : g.Sound t) (hr : ∀ a ∈ c.1, t.Has a ∧ (t.shape a).IsMember)
    (hc : ∀ a ∈ c.2, t.Has a) (ha : ∀ a ∈ args, t.Has a) (hlen : c.2.length = args.length)
    {fitting : List MethodId} {cause : TypeError.Cause}
    (hpick : (g.pick k c.1 c.2 t).1 = .error fitting)
    (hfail : g.failure k c.1 c.2 args fitting t = (cause, t)) : g.Complaint t k args c cause := by
  have hreceiver := fun a h => (hr a h).1
  obtain ⟨hfitting, hnone⟩ := S.fitting_of_pick hreceiver hc hpick
  rw [hlen] at hfitting
  have hblamed := (blamed_spec S.types S.restrictions hreceiver S.types (le_refl t) hc fitting).post
  obtain ⟨r, v, hrun⟩ : ∃ r v, g.blamed c.1 c.2 fitting t = (r, v) := ⟨_, _, rfl⟩
  rw [failure_run hrun] at hfail
  obtain ⟨rfl, rfl⟩ := Prod.mk.inj hfail
  rw [hrun] at hblamed
  obtain ⟨hblames, hhas⟩ := hblamed
  have only (m) : fitting = [m] ↔ g.OnlyFitting v k c.1 args.length m := by
    rw [hfitting]
    exact S.fitting_eq_singleton
  match r with
  | some (m, i, q) =>
    obtain ⟨hsingle, hfirst⟩ := hblames.of_some
    have hrejects := FirstRejected.firstRejects S.types S.restrictions hreceiver hc
      (hhas _ rfl) hfirst
    -- The index is one of an argument, and the method has as many parameters.
    obtain ⟨b, hb, -⟩ := hrejects.2.2.1
    have hi : i < args.length := hlen ▸ (List.getElem?_eq_some_iff.1 hb).1
    have harity := (mem_fitting.1 (hfitting ▸ hsingle ▸ List.mem_singleton_self m)).2
    obtain ⟨md, hmd, haccepts⟩ := (Option.any_eq_true _ _).1 harity
    have hparams : i < md.definition.params.length := by
      simp only [Definition.acceptsArity, Bool.and_eq_true, decide_eq_true_eq] at haccepts
      exact hi.trans_le haccepts.2
    have hp := List.getElem?_eq_getElem hparams
    have hargs := List.getElem?_eq_getElem hi
    simp only [Registry.complaint, Option.map_some, hmd, Option.bind_some, hp, hargs, Option.getD_some]
    exact .violation ((only m).1 hsingle) hmd hp hargs hrejects
  | none =>
    have hnot (m) : ¬ g.OnlyFitting v k c.1 args.length m := by
      intro hm
      obtain rfl := (only m).2 hm
      exact hnone m (List.mem_singleton_self m) hblames.of_none
    obtain ⟨ms, mds, hincreasing, hms, hmds, hsignatures⟩ :=
      S.signatures_eq (fun a h => (hr a h).2) k
    simp only [Registry.complaint, Option.map_none, hsignatures]
    exact .noOverload hnot hincreasing hms hmds

/-- A combination that misses is complained about. -/
theorem resolveOne_of_error {fitting : List MethodId}
    (hpick : g.pick k c.1 c.2 t = (.error fitting, u)) :
    (g.resolveOne k args span c.1 c.2).run t =
      (.error ⟨(g.failure k c.1 c.2 args fitting u).1, span⟩,
        (g.failure k c.1 c.2 args fitting u).2) := by
  have run {α : Type} (x : StateM TypeTable α)
      (f : α → ExceptT TypeError (StateM TypeTable) ResolutionEntry) (t : TypeTable) :
      ((x : ExceptT TypeError (StateM TypeTable) α) >>= f).run t = (f (x t).1).run (x t).2 := rfl
  unfold resolveOne
  rw [run, hpick]
  rfl

/-- What a combination of types over the classes is compared with is over the classes. -/
theorem Known.legible (K : g.Known t) (S : g.Sound t) (V : g.methods.Valid)
    (hr : ∀ a ∈ c.1, t.Has a ∧ g.hierarchy.Over t a) (hc : ∀ a ∈ c.2, t.Has a ∧ g.hierarchy.Over t a) :
    g.Legible t k c where
  receiver := hr
  args := hc
  candidates m hm := by
    obtain ⟨md, hmd⟩ := S.get?_of_mem_candidates hm
    exact ⟨md, hmd, V.length m md hmd, fun d hd => K.owners m md d hmd hd,
      fun i a ha => ⟨S.restrictions m md i a hmd ha, K.restrictions m md i a hmd ha⟩⟩
  restrictions m i q u hrun := by
    have hs := restriction_spec S.types S.restrictions (fun a h => (hr a h).1) S.types (le_refl t) m i
    obtain ⟨hbound, hhas⟩ := hs.post
    have hle := hs.le
    rw [hrun] at hbound hhas hle
    refine ⟨hhas q rfl, fun n hn d hd => ?_⟩
    have hnt := bound_has S.types S.restrictions (fun a h => (hr a h).1) hbound.symm n hn
    rw [hnt.shape_eq hle] at hd
    exact K.over_bound S.types (fun a h => (hr a h).2) hbound.symm n hn d hd

/-- The parts of a call on types over the classes are over the classes. -/
theorem CallParts.overClasses (P : g.CallParts t receiver args u) (F : g.hierarchy.Forest) (H : t.WF)
    (hr : ∀ a ∈ receiver, t.Has a ∧ g.hierarchy.Over t a)
    (ha : ∀ a ∈ args, t.Has a ∧ g.hierarchy.Over t a) (hc : g.IsCombination u receiver args c) :
    (∀ a ∈ c.1, g.hierarchy.Over u a) ∧ ∀ a ∈ c.2, g.hierarchy.Over u a := by
  obtain ⟨r, c⟩ := c
  constructor
  · cases receiver with
    | none =>
      obtain rfl : r = none := List.mem_singleton.1 hc.1
      nofun
    | some a =>
      obtain ⟨m, hm, rfl⟩ := List.mem_map.1 hc.1
      rintro _ ⟨⟩
      obtain ⟨hhas, hover⟩ := hr a rfl
      exact (P.ofReceiver a rfl).overClasses F H hhas hover m hm
  · intro b hb
    obtain ⟨a, ham, hba⟩ := hc.2.exists_of_mem_left hb
    obtain ⟨hhas, hover⟩ := ha a ham
    exact (P.ofArgs a ham).overClasses F H hhas hover b hba

/-- A call that fails complains about its first combination without a target: about the first argument
that the only candidate of the right arity rejects, or about all candidates. If the types of the call
are over the classes, everything that the complaint is made of is there. -/
theorem resolve_complains (hg : g.Reachable t) (hr : ∀ a ∈ receiver, t.Has a)
    (ha : ∀ a ∈ args, t.Has a) (hrun : (g.resolve k receiver args span).run t = (.error e, u)) :
    ∃ c, g.FirstMiss u k receiver args c ∧ e.span = span ∧ g.Complaint u k args c e.cause ∧
      ((∀ a ∈ receiver, g.hierarchy.Over t a) → (∀ a ∈ args, g.hierarchy.Over t a) →
        g.Legible u k c) := by
  have S := hg.sound
  have hs := resolve_goes S.types S.restrictions hr ha k span
  have hu := hs.wf
  have hle := hs.le
  have hpost := hs.post
  rw [hrun] at hu hle hpost
  obtain ⟨P, l₁, c, l₂, hcs, hbefore, hfail⟩ := hpost u hu (le_refl u)
  have Su := S.mono hu hle
  have hc : g.IsCombination u receiver args c := mem_callParts.1 (by simp [hcs])
  have hmember := fun a h => ((P.splits S.types hr ha hc).1 a h).2
  have hreceiver := fun a h => (⟨P.has_receiver hc a h, hmember a h⟩ : u.Has a ∧ (u.shape a).IsMember)
  refine ⟨c, ⟨l₁, l₂, hcs, fun b hb => ?_, hfail.misses.not_hasTarget hu⟩, ?_⟩
  · obtain ⟨e, -, -, hp, -⟩ := hbefore b hb
    exact hp.hasTarget hu
  · obtain ⟨fitting, hpick⟩ := hfail.misses u hu (le_refl u)
    have hone := hfail.again u hu (le_refl u)
    rw [resolveOne_of_error hpick] at hone
    obtain ⟨herror, htable⟩ := Prod.mk.inj hone
    obtain rfl := Except.error.inj herror
    have hcomplaint := Su.complaint hreceiver (P.has_args hc) (fun a h => (ha a h).mono hle)
      hc.2.length_eq (congrArg Prod.fst hpick) (Prod.ext rfl htable)
    refine ⟨rfl, hcomplaint, fun hr' ha' => ?_⟩
    obtain ⟨hr'', ha''⟩ := P.overClasses S.rooted.toForest S.types
      (fun a h => ⟨hr a h, hr' a h⟩) (fun a h => ⟨ha a h, ha' a h⟩) hc
    exact (hg.known.mono S hle).legible Su hg.valid
      (fun a h => ⟨P.has_receiver hc a h, hr'' a h⟩) fun a h => ⟨P.has_args hc a h, ha'' a h⟩

/-- A class `A` and `def f(x : Int)`, and the type `Int | A`. -/
def numberOnly : Registry × TypeTable :=
  let names := ["A", "x", "f"].foldl (fun names s => (NameTable.intern s names).2)
    (CoreNames.intern {}).2
  let f : Definition :=
    ⟨⟨11⟩, none, [⟨⟨10⟩, some (.named ⟨7⟩), none, .dummy⟩], ⟨0⟩, .dummy⟩
  let p := load names [⟨⟨9⟩, none, .dummy⟩] [f]
  (p.1, (TypeTable.union .int ⟨12⟩ p.2).2)

/-- The call `f(a)`, where `a` has the type `Int | A`, fails with the second member; what is found is
the whole type. -/
theorem resolve_complains_numberOnly :
    let g := numberOnly.1
    let t := numberOnly.2
    let cause := .restrictionViolation "f" "x" "Int" "Int | A"
    let run := (g.resolve ⟨11⟩ none [⟨14⟩] .dummy).run t
    g.Reachable t ∧ run.1 = .error ⟨cause, .dummy⟩ ∧
      ∃ c, g.FirstMiss run.2 ⟨11⟩ none [⟨14⟩] c ∧ g.Complaint run.2 ⟨11⟩ [⟨14⟩] c cause := by
  have hg : numberOnly.1.Reachable numberOnly.2 :=
    (load_reachable _ _ _).describe (o := .union .int ⟨12⟩) (by decide +kernel)
  have hrun : ((numberOnly.1.resolve ⟨11⟩ none [⟨14⟩] .dummy).run numberOnly.2).1 =
    .error ⟨.restrictionViolation "f" "x" "Int" "Int | A", .dummy⟩ := by decide +kernel
  have hr : ∀ a ∈ (none : Option TypeId), numberOnly.2.Has a := nofun
  have ha : ∀ a ∈ [(⟨14⟩ : TypeId)], numberOnly.2.Has a := by decide +kernel
  obtain ⟨c, hmiss, -, hcomplaint, -⟩ := resolve_complains hg hr ha (Prod.ext hrun rfl)
  exact ⟨hg, hrun, c, hmiss, hcomplaint⟩

end Registry

end Multimethod
