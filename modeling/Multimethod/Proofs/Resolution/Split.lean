import Multimethod.Proofs.Hierarchy.Descendants
import Multimethod.Proofs.Resolution.Odometer
import Multimethod.Proofs.Type.Sequence

/-!
# Splitting the types of a call

A type is split into its members, and a member that takes in the classes below one into the exact
types of these (`Registry.Parts`). To resolve a call is to split the receiver and the arguments and
to go through the combinations of what they are split into (`Registry.resolve_eq`).
-/

namespace Multimethod

open Relation TypeTable

variable {t u v : TypeTable}

/-! ## Splitting a member -/

namespace Hierarchy

variable {h : Hierarchy} {c d : ClassId}

/-- A member of the first shape is split into types of the second. -/
inductive PartOf (h : Hierarchy) : Shape → Shape → Prop where
  | same {s : Shape} (hs : ∀ c, s ≠ .below c) : PartOf h s s
  | below {c d : ClassId} (hd : d ∈ h.descendants c) : PartOf h (.below c) (.exact d)

namespace PartOf

variable {s s' : Shape}

theorem isMember (hp : h.PartOf s s') (hs : s.IsMember) : s'.IsMember := by
  cases hp with
  | same => exact hs
  | below => trivial

theorem ne_below (hp : h.PartOf s s') (c : ClassId) : s' ≠ .below c := by
  cases hp with
  | same hs => exact hs c
  | below => nofun

/-- No member is split into nothing. -/
theorem exists_part (hsize : 0 < h.size) (s : Shape) : ∃ s', h.PartOf s s' := by
  by_cases hs : ∃ c, s = .below c
  · obtain ⟨c, rfl⟩ := hs
    exact ⟨_, .below (mem_descendants_self hsize c)⟩
  · exact ⟨s, .same fun c hc => hs ⟨c, hc⟩⟩

end PartOf

end Hierarchy

/-! ## Splitting a type -/

/-- The types `l` are described, and they have just the shapes with `P`. -/
structure TypeTable.HasShapes (P : Shape → Prop) (l : List TypeId) (u : TypeTable) : Prop where
  has : ∀ b ∈ l, u.Has b
  shapes : ∀ s, (∃ b ∈ l, u.shape b = s) ↔ P s

theorem TypeTable.HasShapes.mono {P : Shape → Prop} {l : List TypeId} (h : HasShapes P l u)
    (hle : u ≤ v) : HasShapes P l v where
  has b hb := (h.has b hb).mono hle
  shapes s := by
    rw [← h.shapes s]
    exact exists_congr fun b => and_congr_right fun hb => by rw [(h.has b hb).shape_eq hle]

namespace Registry

variable {g : Registry} {a b : TypeId} {l : List TypeId}

/-- No member of the type takes in the classes below one. -/
def Splits (t : TypeTable) (a : TypeId) : Prop :=
  t.Has a ∧ ∀ m ∈ t.members a, ∀ c, t.shape m ≠ .below c

theorem Splits.mono (H : t.WF) (h : Splits t a) (hle : t ≤ u) : Splits u a := by
  refine ⟨h.1.mono hle, fun m hm c => ?_⟩
  rw [h.1.members_eq hle] at hm
  rw [(H.isMember_of_mem h.1 hm).1.shape_eq hle]
  exact h.2 m hm c

/-- Split a member. -/
def splitMember (g : Registry) (m : TypeId) : StateM TypeTable (List TypeId) := do
  match (← get).shape m with
  | .below c => (g.hierarchy.descendants c).mapM TypeTable.exact
  | _ => pure [m]

/-- A type is split member by member. -/
theorem split_eq_mapM (g : Registry) (a : TypeId) : g.split a = do
    let parts ← ((← get).members a).mapM g.splitMember
    return Handle.sorted parts.flatten := rfl

theorem splitMember_eq {m : TypeId} (hm : ∀ c, t.shape m ≠ .below c) :
    g.splitMember m t = ([m], t) := by
  show (match t.shape m with
    | .below c => (g.hierarchy.descendants c).mapM TypeTable.exact
    | _ => pure [m] : StateM TypeTable (List TypeId)) t = ([m], t)
  generalize t.shape m = s at hm
  cases s with
  | below c => exact absurd rfl (hm c)
  | _ => rfl

theorem splitMember_below {m : TypeId} {c : ClassId} (hc : t.shape m = .below c) :
    g.splitMember m t = (g.hierarchy.descendants c).mapM TypeTable.exact t := by
  show (match t.shape m with
    | .below c => (g.hierarchy.descendants c).mapM TypeTable.exact
    | _ => pure [m] : StateM TypeTable (List TypeId)) t = _
  rw [hc]

theorem mapM_splitMember_eq {ms : List TypeId} (hms : ∀ m ∈ ms, ∀ c, t.shape m ≠ .below c) :
    ms.mapM g.splitMember t = (ms.map ([·]), t) := by
  induction ms with
  | nil => rfl
  | cons m ms ih =>
    obtain ⟨hm, hms⟩ := List.forall_mem_cons.1 hms
    rw [List.mapM_cons]
    show (let (b, u) := g.splitMember m t
      let (bs, v) := ms.mapM g.splitMember u
      (b :: bs, v)) = _
    rw [splitMember_eq hm]
    simp only [ih hms, List.map_cons]

theorem split_eq (H : t.WF) (h : Splits t a) : g.split a t = (t.members a, t) := by
  have hsorted : Handle.sorted ((t.members a).map ([·])).flatten = t.members a := by
    rw [← List.flatMap_def, List.flatMap_singleton', Handle.sorted_eq_self H.pairwise_members]
  rw [split_eq_mapM]
  show (let (parts, u) := (t.members a).mapM g.splitMember t
    (Handle.sorted parts.flatten, u)) = _
  simp only [mapM_splitMember_eq h.2, hsorted]

/-- The type `a` of `t` is split into the types `l` of `u`. -/
structure Parts (g : Registry) (t : TypeTable) (a : TypeId) (l : List TypeId) (u : TypeTable) : Prop
    extends HasShapes (fun s => ∃ m ∈ t.members a, g.hierarchy.PartOf (t.shape m) s) l u where
  increasing : l.Pairwise (· < ·)

namespace Parts

theorem mono (h : g.Parts t a l u) (hle : u ≤ v) : g.Parts t a l v :=
  ⟨h.toHasShapes.mono hle, h.increasing⟩

/-- The parts of a type in a later table are those that it has in an earlier one. -/
theorem of_le (h : g.Parts u a l v) (H : t.WF) (ha : t.Has a) (hle : t ≤ u) :
    g.Parts t a l v where
  has := h.has
  shapes s := by
    rw [h.shapes s, ha.members_eq hle]
    exact exists_congr fun m => and_congr_right fun hm => by
      rw [(H.isMember_of_mem ha hm).1.shape_eq hle]
  increasing := h.increasing

theorem isMember (h : g.Parts t a l u) (H : t.WF) (ha : t.Has a) (hb : b ∈ l) :
    (u.shape b).IsMember := by
  obtain ⟨m, hm, hp⟩ := (h.shapes _).1 ⟨b, hb, rfl⟩
  exact hp.isMember (H.isMember_of_mem ha hm).2

/-- A part is not split any further. -/
theorem splits (h : g.Parts t a l u) (H : t.WF) (ha : t.Has a) (hb : b ∈ l) : Splits u b := by
  refine ⟨h.has b hb, fun m hm c => ?_⟩
  rw [members_of_isMember (h.isMember H ha hb), List.mem_singleton] at hm
  subst hm
  obtain ⟨n, -, hp⟩ := (h.shapes _).1 ⟨m, hb, rfl⟩
  exact hp.ne_below c

theorem eq_nil_iff (h : g.Parts t a l u) (hsize : 0 < g.hierarchy.size) (H : t.WF)
    (ha : t.Has a) : l = [] ↔ a = .never := by
  rw [← H.members_eq_nil ha]
  constructor
  · rintro rfl
    refine List.eq_nil_iff_forall_not_mem.2 fun m hm => ?_
    obtain ⟨s, hs⟩ := Hierarchy.PartOf.exists_part hsize (t.shape m)
    obtain ⟨b, hb, -⟩ := (h.shapes s).2 ⟨m, hm, hs⟩
    cases hb
  · intro hnil
    refine List.eq_nil_iff_forall_not_mem.2 fun b hb => ?_
    obtain ⟨m, hm, -⟩ := (h.shapes _).1 ⟨b, hb, rfl⟩
    rw [hnil] at hm
    cases hm

end Parts

theorem splitMember_settles (H : t.WF) {m : TypeId} (hm : t.Has m) :
    Settles t (g.splitMember m) (HasShapes (g.hierarchy.PartOf (t.shape m))) := by
  refine .get ?_ fun u hu hle => by rw [hm.shape_eq hle]
  split
  · rename_i c hc
    have hds := Settles.mapM (f := TypeTable.exact) (l := g.hierarchy.descendants c)
      (R := fun d b v => v.Has b ∧ v.shape b = .exact d)
      (fun d b v w hle hb => ⟨hb.1.mono hle, (hb.1.shape_eq hle).trans hb.2⟩) H
      fun d _ v hv _ => exact_settles hv d
    refine hds.mono fun bs u _ _ hbs => ⟨fun b hb => ?_, fun s => ?_⟩
    · obtain ⟨d, -, hd⟩ := hbs.exists_of_mem_right hb
      exact hd.1
    · rw [hc]
      constructor
      · rintro ⟨b, hb, rfl⟩
        obtain ⟨d, hd, -, hs⟩ := hbs.exists_of_mem_right hb
        exact hs ▸ .below hd
      · rintro (hs | hd)
        · exact absurd rfl (hs c)
        · obtain ⟨b, hb, -, hs⟩ := hbs.exists_of_mem_left hd
          exact ⟨b, hb, hs⟩
  · rename_i hne
    refine .pure H ⟨by simpa using hm, fun s => ?_⟩
    constructor
    · rintro ⟨b, hb, rfl⟩
      rw [List.mem_singleton.1 hb]
      exact .same hne
    · generalize hs : t.shape m = s' at hne
      rintro (_ | _)
      · exact ⟨m, .head _, hs⟩
      · exact absurd rfl (hne _)

theorem split_parts (H : t.WF) (ha : t.Has a) : Settles t (g.split a) (g.Parts t a) := by
  have hmembers := Settles.mapM (l := t.members a)
    (R := fun m bs u => HasShapes (g.hierarchy.PartOf (t.shape m)) bs u)
    (fun _ _ _ _ hle h => h.mono hle) H fun m hm u hu hle => by
      have hhas := (H.isMember_of_mem ha hm).1
      have := splitMember_settles (g := g) hu (hhas.mono hle)
      rwa [hhas.shape_eq hle] at this
  rw [split_eq_mapM]
  refine .get ?_ fun u hu hle => by rw [ha.members_eq hle]
  refine hmembers.bind fun bss u hu _ hbss => .pure hu ⟨⟨fun b hb => ?_, fun s => ?_⟩,
    Handle.pairwise_sorted _⟩
  · rw [Handle.mem_sorted, List.mem_flatten] at hb
    obtain ⟨bs, hbs, hb⟩ := hb
    obtain ⟨m, -, hm⟩ := hbss.exists_of_mem_right hbs
    exact hm.has b hb
  · simp only [Handle.mem_sorted, List.mem_flatten]
    constructor
    · rintro ⟨b, ⟨bs, hbs, hb⟩, hs⟩
      obtain ⟨m, hm, hshapes⟩ := hbss.exists_of_mem_right hbs
      exact ⟨m, hm, (hshapes.shapes s).1 ⟨b, hb, hs⟩⟩
    · rintro ⟨m, hm, hp⟩
      obtain ⟨bs, hbs, hshapes⟩ := hbss.exists_of_mem_left hm
      obtain ⟨b, hb, hs⟩ := (hshapes.shapes s).2 hp
      exact ⟨b, ⟨bs, hbs, hb⟩, hs⟩

/-! ## Splitting a call -/

/-- What a type is split into. -/
def parts (g : Registry) (t : TypeTable) (a : TypeId) : List TypeId := (g.split a t).1

/-- What the receiver of a call is split into; there is one way to have none. -/
def receiverParts (g : Registry) (t : TypeTable) : Option TypeId → List (Option TypeId)
  | none => [none]
  | some a => (g.parts t a).map some

/-- All ways to choose a part of the receiver and of each argument, the last argument varying
fastest. -/
def callParts (g : Registry) (t : TypeTable) (receiver : Option TypeId) (args : List TypeId) :
    List (Option TypeId × List TypeId) :=
  (g.receiverParts t receiver).flatMap fun r =>
    (Combination.all (args.map (g.parts t))).map (r, ·)

/-- Split the receiver, if there is one. -/
def splitReceiver (g : Registry) : Option TypeId → StateM TypeTable (List (Option TypeId))
  | none => pure [none]
  | some a => (·.map some) <$> g.split a

/-- Split the receiver, then the arguments. -/
def splitCall (g : Registry) (receiver : Option TypeId) (args : List TypeId) :
    StateM TypeTable (List (Option TypeId × List TypeId)) := do
  let rs ← g.splitReceiver receiver
  let ls ← args.mapM g.split
  return rs.flatMap fun r => (Combination.all ls).map (r, ·)

theorem liftM_mapM {α β ε : Type} (f : α → StateM TypeTable β) (l : List α) :
    l.mapM (fun a => (liftM (f a) : ExceptT ε (StateM TypeTable) β)) = liftM (l.mapM f) := by
  induction l with
  | nil => simp
  | cons a l ih => simp [List.mapM_cons, ih]

/-- Resolving a call goes through what the call is split into. -/
theorem resolve_eq (k : Name) (receiver : Option TypeId) (args : List TypeId) (span : Span) :
    g.resolve k receiver args span = (do
      let cs ← (g.splitCall receiver args : ExceptT TypeError (StateM TypeTable) _)
      cs.mapM fun c => g.resolveOne k args span c.1 c.2) := by
  have finish (rs : StateM TypeTable (List (Option TypeId))) : (do
      let rs ← (rs : ExceptT TypeError (StateM TypeTable) _)
      let ls ← args.mapM fun a => (g.split a : ExceptT TypeError (StateM TypeTable) _)
      if rs.isEmpty || ls.any (·.isEmpty) then return []
      Combination.rounds (g.resolveOne k args span) ls rs (Combination.Cursor.start ls)) = (do
      let cs ← ((do
        let rs ← rs
        let ls ← args.mapM g.split
        return rs.flatMap fun r => (Combination.all ls).map (r, ·) : StateM TypeTable _) :
          ExceptT TypeError (StateM TypeTable) _)
      cs.mapM fun c => g.resolveOne k args span c.1 c.2) := by
    simp only [liftM_mapM, Combination.ite_rounds_eq_mapM, liftM_bind, bind_assoc, liftM_pure,
      pure_bind]
  unfold resolve splitCall
  rw [← finish]
  cases receiver with
  | none => simp [splitReceiver]
  | some a => rfl

/-- From `u` on, the type `a` is split into the types `l`. -/
def SplitsInto (g : Registry) (t : TypeTable) (a : TypeId) (l : List TypeId) (u : TypeTable) : Prop :=
  ∀ v : TypeTable, v.WF → u ≤ v → g.parts v a = l ∧ g.Parts t a l v

theorem SplitsInto.mono (h : g.SplitsInto t a l u) (hle : u ≤ v) : g.SplitsInto t a l v :=
  fun w hw hle' => h w hw (le_trans hle hle')

theorem SplitsInto.parts (h : g.SplitsInto t a l u) (hv : v.WF) (hle : u ≤ v) :
    g.Parts t a (g.parts v a) v := by
  obtain ⟨rfl, hp⟩ := h v hv hle
  exact hp

theorem split_splitsInto (H : t.WF) (ha : t.Has a) (hu : u.WF) (hle : t ≤ u) :
    Settles u (g.split a) (g.SplitsInto t a) :=
  (split_parts hu (ha.mono hle)).settled.mono fun l v _ _ h w hw hle' =>
    ⟨by rw [Registry.parts, h.2 w hw hle'], (h.1.mono hle').of_le H ha hle⟩

variable {receiver : Option TypeId} {args : List TypeId} {c : Option TypeId × List TypeId}

/-- The types of a call of `t` are split into their parts in `v`. -/
structure CallParts (g : Registry) (t : TypeTable) (receiver : Option TypeId) (args : List TypeId)
    (v : TypeTable) : Prop where
  ofReceiver : ∀ a ∈ receiver, g.Parts t a (g.parts v a) v
  ofArgs : ∀ a ∈ args, g.Parts t a (g.parts v a) v

theorem splitCall_settles (H : t.WF) (hr : ∀ a ∈ receiver, t.Has a) (ha : ∀ a ∈ args, t.Has a) :
    Settles t (g.splitCall receiver args) fun cs u => ∀ v : TypeTable, v.WF → u ≤ v →
      cs = g.callParts v receiver args ∧ g.CallParts t receiver args v := by
  have hreceiver : Settles t (g.splitReceiver receiver) fun rs u =>
      ∀ v : TypeTable, v.WF → u ≤ v → rs = g.receiverParts v receiver ∧
        ∀ a ∈ receiver, g.Parts t a (g.parts v a) v := by
    cases receiver with
    | none => exact .pure H fun v _ _ => ⟨rfl, nofun⟩
    | some b =>
      refine (split_splitsInto H (hr b rfl) H (le_refl t)).map fun l u _ _ h v hv hle =>
        ⟨?_, fun a hab => ?_⟩
      · rw [receiverParts, (h v hv hle).1]
      · cases hab
        exact h.parts hv hle
  refine hreceiver.bind fun rs u hu hle hrs => ?_
  refine (Settles.mapM (R := g.SplitsInto t) (fun _ _ _ _ hle h => h.mono hle) hu
    fun a hm v hv hle' => split_splitsInto H (ha a hm) hv (le_trans hle hle')).bind
    fun ls w hw hle' hls => .pure hw fun v hv hle'' => ?_
  obtain ⟨rfl, hr⟩ := hrs v hv (le_trans hle' hle'')
  have hparts : ls = args.map (g.parts v) := by
    rw [← List.forall₂_eq_eq_eq, List.forall₂_map_right_iff]
    exact hls.flip.imp fun l a h => ((h v hv hle'').1).symm
  refine ⟨by rw [hparts, callParts], hr, fun a hm => ?_⟩
  obtain ⟨l, -, h⟩ := hls.exists_of_mem_left hm
  exact h.parts hv hle''

/-! ## The combinations of a call -/

/-- A part of the receiver and of each argument. -/
def IsCombination (g : Registry) (t : TypeTable) (receiver : Option TypeId) (args : List TypeId)
    (c : Option TypeId × List TypeId) : Prop :=
  c.1 ∈ g.receiverParts t receiver ∧ List.Forall₂ (fun b a => b ∈ g.parts t a) c.2 args

theorem mem_callParts : c ∈ g.callParts t receiver args ↔ g.IsCombination t receiver args c := by
  obtain ⟨r, c⟩ := c
  simp only [callParts, IsCombination, List.mem_flatMap, List.mem_map, Prod.mk.injEq,
    Combination.mem_all, List.forall₂_map_right_iff]
  constructor
  · rintro ⟨r, hr, c, hc, rfl, rfl⟩
    exact ⟨hr, hc⟩
  · rintro ⟨hr, hc⟩
    exact ⟨r, hr, c, hc, rfl, rfl⟩

namespace CallParts

variable (P : g.CallParts t receiver args v)
include P

theorem has_receiver (hc : g.IsCombination v receiver args c) : ∀ b ∈ c.1, v.Has b := by
  obtain ⟨r, c⟩ := c
  cases receiver with
  | none =>
    obtain rfl : r = none := List.mem_singleton.1 hc.1
    nofun
  | some a =>
    obtain ⟨m, hm, rfl⟩ := List.mem_map.1 hc.1
    rintro _ ⟨⟩
    exact (P.ofReceiver a rfl).has m hm

theorem has_args (hc : g.IsCombination v receiver args c) : ∀ b ∈ c.2, v.Has b := by
  intro b hb
  obtain ⟨a, ha, hba⟩ := hc.2.exists_of_mem_left hb
  exact (P.ofArgs a ha).has b hba

/-- The parts of a call are members and are not split any further. -/
theorem splits (H : t.WF) (hr : ∀ a ∈ receiver, t.Has a) (ha : ∀ a ∈ args, t.Has a)
    (hc : g.IsCombination v receiver args c) :
    (∀ b ∈ c.1, Splits v b ∧ (v.shape b).IsMember) ∧
      ∀ b ∈ c.2, Splits v b ∧ (v.shape b).IsMember := by
  obtain ⟨r, c⟩ := c
  constructor
  · cases receiver with
    | none =>
      obtain rfl : r = none := List.mem_singleton.1 hc.1
      nofun
    | some a =>
      obtain ⟨m, hm, rfl⟩ := List.mem_map.1 hc.1
      rintro _ ⟨⟩
      have hparts := P.ofReceiver a rfl
      exact ⟨hparts.splits H (hr a rfl) hm, hparts.isMember H (hr a rfl) hm⟩
  · intro b hb
    obtain ⟨a, ham, hba⟩ := hc.2.exists_of_mem_left hb
    have hparts := P.ofArgs a ham
    exact ⟨hparts.splits H (ha a ham) hba, hparts.isMember H (ha a ham) hba⟩

end CallParts

end Registry

end Multimethod
