import Multimethod.Proofs.Resolution.Restriction

/-!
# Complaints

The complaint about a combination without a target says which argument the only method of the right
arity rejects, or lists what could have been called. Either is settled by the table of the call: which
argument is rejected, and by which members, does not depend on what has been described since
(`Registry.failure_spec`).
-/

namespace Multimethod

open TypeTable

namespace Registry

variable {g : Registry} {t u v : TypeTable} {receiver : Option TypeId} {m : MethodId}
  {args combination : List TypeId} {k : Name}

/-- The text of a class. -/
def className (g : Registry) (c : ClassId) : String := g.names.text (g.hierarchy.name c)

theorem typeText_eq (H : t.WF) (a : TypeId) :
    g.typeText t a = t.textOf g.className (t.members a) := H.text_eq g.className a

/-- The first argument that is not within the restriction of its parameter, with the members of this,
if there is such an argument. -/
def FirstRejected (g : Registry) (t : TypeTable) (receiver : Option TypeId) (args : List TypeId)
    (m : MethodId) : Option (Nat × List TypeId) → Prop
  | none => ∀ i a, args[i]? = some a → g.Within t receiver m i a
  | some (i, ns) => ∃ a, args[i]? = some a ∧ ¬ g.Within t receiver m i a ∧
      g.bound t receiver m i = some ns ∧ ∀ j < i, ∀ b, args[j]? = some b → g.Within t receiver m j b

theorem FirstRejected.unique {r q : Option (Nat × List TypeId)}
    (hr : g.FirstRejected t receiver args m r) (hq : g.FirstRejected t receiver args m q) : r = q := by
  match r, q with
  | none, none => rfl
  | none, some (i, ns) =>
    obtain ⟨a, ha, hnot, -⟩ := hq
    exact absurd (hr i a ha) hnot
  | some (i, ns), none =>
    obtain ⟨a, ha, hnot, -⟩ := hr
    exact absurd (hq i a ha) hnot
  | some (i, ns), some (j, ks) =>
    obtain ⟨a, ha, hnot, hns, hbefore⟩ := hr
    obtain ⟨b, hb, hnot', hks, hbefore'⟩ := hq
    obtain rfl : i = j := by
      rcases Nat.lt_trichotomy i j with hlt | heq | hlt
      · exact absurd (hbefore' i hlt a ha) hnot
      · exact heq
      · exact absurd (hbefore j hlt b hb) hnot'
    rw [Option.some.inj (hns.symm.trans hks)]

/-- What is blamed for a combination without a target: the argument that the only method of the right
arity rejects, or nothing in particular. -/
def Blames (g : Registry) (t : TypeTable) (receiver : Option TypeId) (combination : List TypeId) :
    List MethodId → Option (MethodId × Nat × List TypeId) → Prop
  | [m], r => ∃ q, g.FirstRejected t receiver combination m q ∧ r = q.map (m, ·)
  | _, r => r = none

theorem Blames.unique {fitting : List MethodId} {r q : Option (MethodId × Nat × List TypeId)}
    (hr : g.Blames t receiver combination fitting r)
    (hq : g.Blames t receiver combination fitting q) : r = q := by
  match fitting with
  | [m] =>
    obtain ⟨r, hr, rfl⟩ := hr
    obtain ⟨q, hq, rfl⟩ := hq
    rw [hr.unique hq]
  | [] | _ :: _ :: _ => exact Eq.trans hr (Eq.symm hq)

theorem Blames.of_some {fitting : List MethodId} {i : Nat} {ns : List TypeId}
    (h : g.Blames t receiver combination fitting (some (m, i, ns))) :
    fitting = [m] ∧ g.FirstRejected t receiver combination m (some (i, ns)) := by
  match fitting with
  | [d] =>
    obtain ⟨q, hq, heq⟩ := h
    obtain ⟨p, rfl, hp⟩ := Option.map_eq_some_iff.1 heq.symm
    cases hp
    exact ⟨rfl, hq⟩
  | [] | _ :: _ :: _ => cases h

theorem Blames.of_none (h : g.Blames t receiver combination [m] none) :
    g.FirstRejected t receiver combination m none := by
  obtain ⟨q, hq, heq⟩ := h
  rwa [Option.map_eq_none_iff.1 heq.symm] at hq

/-- Look for what is to blame, the restriction being a type that is described for it. -/
def blamed (g : Registry) (receiver : Option TypeId) (combination : List TypeId) :
    List MethodId → StateM TypeTable (Option (MethodId × Nat × TypeId))
  | [m] => (·.map fun r => (m, r)) <$> g.firstRejected m receiver 0 combination
  | _ => pure none

/-- The complaint, given what is to blame with the text of the restriction. -/
def complaint (g : Registry) (t : TypeTable) (k : Name) (receiver : Option TypeId)
    (args : List TypeId) : Option (MethodId × Nat × String) → TypeError.Cause
  | some (m, i, expected) =>
    .restrictionViolation (g.names.text k)
      ((((g.methods.get? m).bind (·.definition.params[i]?)).map fun p => g.names.text p.name).getD "")
      expected ((args[i]?.map (g.typeText t)).getD "")
  | none =>
    .noOverload (g.names.text k) (receiver.map (g.typeText t)) (args.map (g.typeText t))
      (g.methods.signatures g.hierarchy t g.names k receiver)

/-- To complain is to look for what is to blame, and then to name it. -/
theorem failure_eq (k : Name) (receiver : Option TypeId) (combination args : List TypeId)
    (fitting : List MethodId) : g.failure k receiver combination args fitting = do
      let r ← g.blamed receiver combination fitting
      let t ← get
      return g.complaint t k receiver args (r.map fun p => (p.1, p.2.1, g.typeText t p.2.2)) := by
  unfold failure blamed
  rcases fitting with _ | ⟨m, _ | ⟨n, ms⟩⟩ <;>
    exact bind_congr fun r => funext fun t => by cases r <;> rfl

theorem failure_run {fitting : List MethodId} {r : Option (MethodId × Nat × TypeId)}
    (hrun : g.blamed receiver combination fitting t = (r, u)) (k : Name) (args : List TypeId) :
    g.failure k receiver combination args fitting t =
      (g.complaint u k receiver args (r.map fun p => (p.1, p.2.1, g.typeText u p.2.2)), u) := by
  rw [failure_eq]
  show (let p := g.blamed receiver combination fitting t
    (g.complaint p.2 k receiver args (p.1.map fun q => (q.1, q.2.1, g.typeText p.2 q.2.2)), p.2)) = _
  rw [hrun]

section
variable (H : t.WF) (D : g.Described t) (hr : ∀ a ∈ receiver, t.Has a)
include H D hr

theorem firstRejected_firstRejected (hu : u.WF) (hle : t ≤ u) (ha : ∀ a ∈ args, t.Has a)
    (m : MethodId) : Settles u (g.firstRejected m receiver 0 args) fun r v =>
      g.FirstRejected t receiver args m (r.map fun p => (p.1, v.members p.2)) ∧
        ∀ p ∈ r, v.Has p.2 := by
  refine (firstRejected_spec H D hr hu hle ha m 0).mono fun r v _ _ h => ?_
  match r with
  | none =>
    refine ⟨fun i a hi => ?_, nofun⟩
    have := (h i a hi).1
    rwa [Nat.zero_add] at this
  | some (k, q) =>
    obtain ⟨j, a, rfl, hj, hnot, hq, hhas, hbefore⟩ := h
    simp only [Nat.zero_add] at hnot hq hbefore ⊢
    exact ⟨⟨a, hj, hnot, hq.symm, hbefore⟩, fun p hp => by cases hp; exact hhas⟩

/-- The texts of a complaint stay the same. -/
theorem complaint_mono (ha : ∀ a ∈ args, t.Has a) (hle : t ≤ u)
    (r : Option (MethodId × Nat × String)) :
    g.complaint u k receiver args r = g.complaint t k receiver args r := by
  have texts {a : TypeId} (h : t.Has a) : g.typeText u a = g.typeText t a :=
    g.hierarchy.typeText_mono H h hle g.names
  match r with
  | some (m, i, expected) =>
    have harg : args[i]?.map (g.typeText u) = args[i]?.map (g.typeText t) :=
      Option.map_congr fun a hi => texts (ha a (List.mem_of_getElem? hi))
    simp only [complaint, harg]
  | none =>
    have hreceiver : receiver.map (g.typeText u) = receiver.map (g.typeText t) :=
      Option.map_congr fun a h => texts (hr a h)
    have hargs : args.map (g.typeText u) = args.map (g.typeText t) :=
      List.map_congr_left fun a h => texts (ha a h)
    simp only [complaint, hreceiver, hargs,
      g.methods.signatures_mono g.hierarchy H D hle g.names k hr]

theorem blamed_spec (hu : u.WF) (hle : t ≤ u) (hc : ∀ a ∈ combination, t.Has a)
    (fitting : List MethodId) : Settles u (g.blamed receiver combination fitting) fun r v =>
      g.Blames t receiver combination fitting (r.map fun p => (p.1, p.2.1, v.members p.2.2)) ∧
        ∀ p ∈ r, v.Has p.2.2 := by
  match fitting with
  | [m] =>
    refine (firstRejected_firstRejected H D hr hu hle hc m).map fun r v _ _ ⟨h, hhas⟩ =>
      ⟨⟨_, h, by cases r <;> rfl⟩, ?_⟩
    cases r with
    | none => nofun
    | some p => exact fun q hq => by cases hq; exact hhas p rfl
  | [] | _ :: _ :: _ => exact .pure hu ⟨rfl, nofun⟩

/-- What is blamed are members of the table. -/
theorem Blames.has {fitting : List MethodId} {r : Option (MethodId × Nat × List TypeId)}
    (h : g.Blames t receiver combination fitting r) : ∀ p ∈ r, ∀ n ∈ p.2.2, t.Has n := by
  match fitting with
  | [m] =>
    obtain ⟨q, hq, rfl⟩ := h
    match q with
    | none => nofun
    | some (i, ns) =>
      obtain ⟨-, -, -, hns, -⟩ := hq
      rintro _ ⟨⟩
      exact bound_has H D hr hns
  | [] | _ :: _ :: _ =>
    cases h
    nofun

/-- What the complaint is, whatever has been described since. -/
theorem failure_spec (hu : u.WF) (hle : t ≤ u) (hc : ∀ a ∈ combination, t.Has a)
    (ha : ∀ a ∈ args, t.Has a) (k : Name) (fitting : List MethodId) :
    Settles u (g.failure k receiver combination args fitting) fun e _ => ∃ r,
      g.Blames t receiver combination fitting r ∧ e = g.complaint t k receiver args
        (r.map fun p => (p.1, p.2.1, t.textOf g.className p.2.2)) := by
  rw [failure_eq]
  refine (blamed_spec H D hr hu hle hc fitting).bind fun r v hv hle' ⟨hblames, hhas⟩ => ?_
  have hlev := le_trans hle hle'
  -- The text of the restriction is that of its members, which are in the table of the call.
  have text (w : TypeTable) (hw : w.WF) (hle'' : v ≤ w) :
      g.complaint w k receiver args (r.map fun p => (p.1, p.2.1, g.typeText w p.2.2)) =
        g.complaint t k receiver args ((r.map fun p => (p.1, p.2.1, v.members p.2.2)).map
          fun p => (p.1, p.2.1, t.textOf g.className p.2.2)) := by
    rw [complaint_mono H D hr ha (le_trans hlev hle''), Option.map_map]
    refine congrArg _ (Option.map_congr fun p hp => ?_)
    have hmembers := hblames.has H D hr _ (Option.mem_map_of_mem _ hp)
    simp only [Function.comp_apply, typeText_eq hw, (hhas p hp).members_eq hle'',
      textOf_mono g.className hmembers (le_trans hlev hle'')]
  refine .get (.pure hv ⟨_, hblames, text v hv (le_refl v)⟩) fun w hw hle'' => ?_
  rw [text w hw hle'', text v hv (le_refl v)]

end

end Registry

end Multimethod
