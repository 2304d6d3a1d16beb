import Multimethod.Proofs.Type.Flags

/-!
# Computations on a growing table

A computation settles from `t` if it only describes more types and, run again in any later table,
gives the same result and describes nothing (`Settles`). Every operation of the type table
settles, and its result is given by its members.
-/

namespace Multimethod.TypeTable

variable {α β : Type} {t u : TypeTable}

/-- Run from `t`, the computation `x` only adds types and gives a result with `P`; from every
table that has these types it gives the same result and adds none. -/
structure Settles (t : TypeTable) (x : StateM TypeTable α) (P : α → TypeTable → Prop) :
    Prop where
  wf : (x t).2.WF
  le : t ≤ (x t).2
  post : P (x t).1 (x t).2
  again : ∀ u : TypeTable, u.WF → (x t).2 ≤ u → x u = ((x t).1, u)

namespace Settles

variable {x : StateM TypeTable α} {f : α → StateM TypeTable β} {P : α → TypeTable → Prop}
  {Q : β → TypeTable → Prop}

theorem pure (H : t.WF) {a : α} (h : P a t) : Settles t (pure a) P :=
  ⟨H, le_refl t, h, fun _ _ _ => rfl⟩

/-- A computation may look at the table if what it makes of it stays the same later. -/
theorem get {f : TypeTable → StateM TypeTable β} (hf : Settles t (f t) Q)
    (hfu : ∀ u : TypeTable, u.WF → t ≤ u → f u = f t) :
    Settles t (do f (← MonadState.get)) Q where
  wf := hf.wf
  le := hf.le
  post := hf.post
  again u hu hle := by
    have : f u = f t := hfu u hu (le_trans hf.le hle)
    show f u u = _
    rw [this]
    exact hf.again u hu hle

theorem mono {R : α → TypeTable → Prop} (h : Settles t x P)
    (hp : ∀ a u, u.WF → t ≤ u → P a u → R a u) : Settles t x R :=
  ⟨h.wf, h.le, hp _ _ h.wf h.le h.post, h.again⟩

theorem bind (h : Settles t x P)
    (hf : ∀ a u, u.WF → t ≤ u → P a u → Settles u (f a) Q) : Settles t (x >>= f) Q := by
  have h' := hf _ _ h.wf h.le h.post
  refine ⟨h'.wf, le_trans h.le h'.le, h'.post, fun u hu hle => ?_⟩
  show f (x u).1 (x u).2 = _
  rw [h.again u hu (le_trans h'.le hle)]
  exact h'.again u hu hle

theorem map {g : α → β} (h : Settles t x P) (hg : ∀ a u, u.WF → t ≤ u → P a u → Q (g a) u) :
    Settles t (g <$> x) Q :=
  ⟨h.wf, h.le, hg _ _ h.wf h.le h.post, fun u hu hle => by
    show (g (x u).1, (x u).2) = _
    rw [h.again u hu hle]; rfl⟩

/-- What a computation has settled on is found again in every later table. -/
theorem settled (h : Settles t x P) :
    Settles t x fun a u => P a u ∧ ∀ v : TypeTable, v.WF → u ≤ v → x v = (a, v) :=
  ⟨h.wf, h.le, ⟨h.post, h.again⟩, h.again⟩

end Settles

/-! ## Describing types -/

variable {a b m : TypeId}

/-- A shape that a well-formed table may describe. -/
def Fits (t : TypeTable) : Shape → Prop
  | .union ms => 2 ≤ ms.length ∧ ms.Pairwise (· < ·) ∧ ∀ m ∈ ms, t.Has m ∧ (t.shape m).IsMember
  | _ => True

theorem WF.push (H : t.WF) {s : Shape} (hs : t.Fits s) (h : t.entries.find? s.code = none) :
    WF ⟨t.entries.push ⟨s, t.flagsOf s⟩ h⟩ ∧ t ≤ ⟨t.entries.push ⟨s, t.flagsOf s⟩ h⟩ := by
  set u : TypeTable := ⟨t.entries.push ⟨s, t.flagsOf s⟩ h⟩ with hu
  have hget : ∀ i, u.entries.get? i = if i = t.size then some ⟨s, t.flagsOf s⟩
      else t.entries.get? i := fun i => by
    simp only [hu, Catalog.push, Catalog.get?, Array.getElem?_push]; rfl
  have hle : t ≤ u := fun i e he => by
    have hlt : i < t.size := (Array.getElem?_eq_some_iff.1 he).1
    rw [hget, if_neg (by omega), he]
  have hnew : u.shape ⟨t.size⟩ = s := by simp [shape, hget]
  have hold : ∀ {a : TypeId}, u.Has a → a = ⟨t.size⟩ ∨ t.Has a := fun {a} ha => by
    obtain ⟨e, he⟩ := has_iff.1 ha
    rw [hget] at he
    split at he
    · exact .inl (Handle.ext_index ‹_›)
    · exact .inr (has_iff.2 ⟨e, he⟩)
  refine ⟨⟨le_trans H.initial_le hle, ?_, ?_, ?_, ?_, ?_⟩, hle⟩
  · intro a ms hms
    rcases hold (has_of_shape (by rw [hms]; simp)) with rfl | ha
    · rw [hnew] at hms; subst hms; exact hs.1
    · rw [ha.shape_eq hle] at hms; exact H.two_le hms
  · intro a ms hms
    rcases hold (has_of_shape (by rw [hms]; simp)) with rfl | ha
    · rw [hnew] at hms; subst hms; exact hs.2.1
    · rw [ha.shape_eq hle] at hms; exact H.increasing hms
  · intro a ms hms
    rcases hold (has_of_shape (by rw [hms]; simp)) with rfl | ha
    · rw [hnew] at hms; subst hms; exact fun m hm => (hs.2.2 m hm).1
    · rw [ha.shape_eq hle] at hms; exact H.smaller hms
  · intro a ms hms m hm
    have hmt : t.Has m ∧ (t.shape m).IsMember := by
      rcases hold (has_of_shape (by rw [hms]; simp)) with rfl | ha
      · rw [hnew] at hms; subst hms; exact hs.2.2 m hm
      · rw [ha.shape_eq hle] at hms; exact H.isMember hms m hm
    exact ⟨hmt.1.mono hle, by rw [hmt.1.shape_eq hle]; exact hmt.2⟩
  · intro a ha
    rcases hold ha with rfl | ha
    · have hf : u.flags ⟨t.size⟩ = t.flagsOf s := by simp [flags, hget]
      rw [hf, hnew]
      cases s with
      | union ms =>
        simp only [flagsOf]
        refine List.foldl_ext _ _ _ fun f m hm => ?_
        rw [(hs.2.2 m hm).1.flags_eq hle]
      | _ => rfl
    · rw [ha.shape_eq hle, ha.flags_eq hle, H.flags_eq ha, H.flagsOf_mono hle]

/-- A shape that is described already is found. -/
theorem intern_shape (ha : t.Has a) : intern (t.shape a) t = (a, t) := by
  have hf := find?_eq_some.2 ⟨ha, rfl⟩
  simp only [find?, Option.map_eq_some_iff] at hf
  obtain ⟨i, hi, rfl⟩ := hf
  unfold intern; split
  · simp_all
  · simp_all

theorem intern_settles (H : t.WF) {s : Shape} (hs : t.Fits s) :
    Settles t (intern s) fun a u => u.Has a ∧ u.shape a = s := by
  have again {t : TypeTable} {a : TypeId} (ha : t.Has a) (hsh : t.shape a = s) (u : TypeTable)
      (hle : t ≤ u) : intern s u = (a, u) := by
    have := intern_shape (ha.mono hle)
    rwa [ha.shape_eq hle, hsh] at this
  cases hf : t.entries.find? s.code with
  | some i =>
    have hp : t.Has ⟨i⟩ ∧ t.shape ⟨i⟩ = s := find?_eq_some.1 (by simp [find?, hf])
    have hx := again hp.1 hp.2 t (le_refl t)
    constructor <;> rw [hx]
    · exact H
    · exact le_refl t
    · exact hp
    · exact fun u _ hle => again hp.1 hp.2 u hle
  | none =>
    have hx : intern s t = (⟨t.size⟩, ⟨t.entries.push ⟨s, t.flagsOf s⟩ hf⟩) := by
      unfold intern; split
      · simp_all
      · rfl
    obtain ⟨hwf, hle⟩ := H.push hs hf
    have hp : Has ⟨t.entries.push ⟨s, t.flagsOf s⟩ hf⟩ ⟨t.size⟩ ∧
        shape ⟨t.entries.push ⟨s, t.flagsOf s⟩ hf⟩ ⟨t.size⟩ = s := by
      constructor
      · simp [Has, size, Catalog.size, Catalog.push]
      · simp [shape, size, Catalog.size, Catalog.push, Catalog.get?]
    constructor <;> rw [hx]
    · exact hwf
    · exact hle
    · exact hp
    · exact fun u _ hle => again hp.1 hp.2 u hle

/-- Describing a type describes no other. -/
theorem has_intern {s : Shape} (ha : (intern s t).2.Has a) :
    t.Has a ∨ (intern s t).2.shape a = s := by
  unfold intern at ha ⊢
  split at ha
  · exact .inl ha
  · by_cases hlt : a.index < t.size
    · exact .inl hlt
    · have hindex : a.index = t.size := by
        simp only [Has, size, Catalog.size, Catalog.push, Array.size_push] at ha hlt ⊢
        omega
      right
      simp [shape, Catalog.get?, Catalog.push, hindex, size, Catalog.size]

theorem exact_settles (H : t.WF) (c : ClassId) :
    Settles t (exact c) fun a u => u.Has a ∧ u.shape a = .exact c := intern_settles H trivial

theorem classObject_settles (H : t.WF) (c : ClassId) :
    Settles t (classObject c) fun a u => u.Has a ∧ u.shape a = .classObject c :=
  intern_settles H trivial

theorem below_settles (H : t.WF) (c : ClassId) :
    Settles t (below c) fun a u => u.Has a ∧ u.shape a = .below c := intern_settles H trivial

/-! ## Unions -/

theorem ofMembers_settles (H : t.WF) {ms : List TypeId} (hp : ms.Pairwise (· < ·))
    (hm : ∀ m ∈ ms, t.Has m ∧ (t.shape m).IsMember) :
    Settles t (ofMembers ms) fun a u => u.Has a ∧ u.members a = ms := by
  match ms with
  | [] => exact .pure H ⟨H.has_never, H.members_never⟩
  | [a] =>
    obtain ⟨ha, hs⟩ := hm a (by simp)
    exact .pure H ⟨ha, members_of_isMember hs⟩
  | a :: b :: ms =>
    refine (intern_settles H (s := .union (a :: b :: ms)) ⟨by simp, hp, hm⟩).mono ?_
    rintro c u - - ⟨hc, hs⟩
    exact ⟨hc, by simp [members, hs]⟩

theorem unionOf_settles (H : t.WF) {as : List TypeId} (h : ∀ a ∈ as, t.Has a) :
    Settles t (unionOf as) fun a u =>
      u.Has a ∧ ∀ m, m ∈ u.members a ↔ ∃ b ∈ as, m ∈ u.members b := by
  have hm : ∀ m ∈ Handle.sorted (as.flatMap t.members), t.Has m ∧ (t.shape m).IsMember := by
    intro m hm
    simp only [Handle.mem_sorted, List.mem_flatMap] at hm
    obtain ⟨a, ha, hma⟩ := hm
    exact H.isMember_of_mem (h a ha) hma
  have hs := ofMembers_settles H (Handle.pairwise_sorted _) hm
  refine ⟨hs.wf, hs.le, ?_, ?_⟩
  · obtain ⟨ha, hma⟩ := hs.post
    refine ⟨ha, fun m => ?_⟩
    rw [show (unionOf as t) = ofMembers (Handle.sorted (as.flatMap t.members)) t from rfl, hma]
    simp only [Handle.mem_sorted, List.mem_flatMap]
    constructor
    · rintro ⟨b, hb, hm⟩
      exact ⟨b, hb, by rwa [(h b hb).members_eq hs.le]⟩
    · rintro ⟨b, hb, hm⟩
      exact ⟨b, hb, by rwa [(h b hb).members_eq hs.le] at hm⟩
  · intro u hu hle
    have : as.flatMap u.members = as.flatMap t.members := by
      refine List.flatMap_congr fun b hb => ?_
      exact (h b hb).members_eq (le_trans hs.le hle)
    show ofMembers (Handle.sorted (as.flatMap u.members)) u = _
    rw [this]
    exact hs.again u hu hle

theorem union_settles (H : t.WF) (ha : t.Has a) (hb : t.Has b) :
    Settles t (union a b) fun c u =>
      u.Has c ∧ ∀ m, m ∈ u.members c ↔ m ∈ u.members a ∨ m ∈ u.members b := by
  unfold union
  split
  · rename_i h
    refine .pure H ⟨ha, fun m => ?_⟩
    rcases h with rfl | rfl
    · simp
    · simp [H.members_never]
  · split
    · rename_i h
      subst h
      exact .pure H ⟨hb, fun m => by simp [H.members_never]⟩
    · refine (unionOf_settles H (show ∀ c ∈ [a, b], t.Has c by simp [ha, hb])).mono ?_
      rintro c u - - ⟨hc, hm⟩
      exact ⟨hc, fun m => by simp [hm]⟩

theorem orNil_settles (H : t.WF) (ha : t.Has a) :
    Settles t (orNil a) fun c u => u.Has c ∧ ∀ m, m ∈ u.members c ↔ m ∈ u.members a ∨ m = .nil := by
  refine (union_settles H ha H.has_nil).mono ?_
  rintro c u hu - ⟨hc, hm⟩
  refine ⟨hc, fun m => ?_⟩
  rw [hm, members_of_isMember (a := .nil) (by rw [hu.shape_nil]; trivial), List.mem_singleton]

theorem dropNil_settles (H : t.WF) (ha : t.Has a) :
    Settles t (dropNil a) fun c u =>
      u.Has c ∧ ∀ m, m ∈ u.members c ↔ m ∈ u.members a ∧ m ≠ .nil := by
  by_cases hn : t.isNilable a = true
  · have hmem : ∀ m ∈ (t.members a).filter (· ≠ .nil), t.Has m := fun m hm =>
      (H.isMember_of_mem ha (List.mem_of_mem_filter hm)).1
    have hs := unionOf_settles H hmem
    have hx : ∀ u : TypeTable, t ≤ u →
        dropNil a u = unionOf ((t.members a).filter (· ≠ .nil)) u := fun u hle => by
      simp [dropNil, isNilable, ha.flags_eq hle, ha.members_eq hle,
        show (t.flags a).nilable = true from hn]
    constructor <;> rw [hx t (le_refl t)]
    · exact hs.wf
    · exact hs.le
    · obtain ⟨hc, hm⟩ := hs.post
      refine ⟨hc, fun m => ?_⟩
      rw [hm, ha.members_eq hs.le]
      constructor
      · rintro ⟨b, hb, hmb⟩
        rw [List.mem_filter] at hb
        have hb' := H.isMember_of_mem ha hb.1
        rw [hb'.1.members_eq hs.le, members_of_isMember hb'.2, List.mem_singleton] at hmb
        subst hmb
        exact ⟨hb.1, by simpa using hb.2⟩
      · rintro ⟨hma, hne⟩
        have hm' := H.isMember_of_mem ha hma
        refine ⟨m, List.mem_filter.2 ⟨hma, by simpa using hne⟩, ?_⟩
        rw [hm'.1.members_eq hs.le]
        exact mem_members_self hm'.2
    · intro u hu hle
      rw [hx u (le_trans hs.le hle)]
      exact hs.again u hu hle
  · have hx : ∀ u : TypeTable, t ≤ u → dropNil a u = (a, u) := fun u hle => by
      have hn' : (t.flags a).nilable = false := by simpa [isNilable] using hn
      simp [dropNil, isNilable, ha.flags_eq hle, hn']
    constructor <;> rw [hx t (le_refl t)]
    · exact H
    · exact le_refl t
    · refine ⟨ha, fun m => ⟨fun hm => ⟨hm, ?_⟩, And.left⟩⟩
      rintro rfl
      exact hn ((H.flag_nilable ha).2 hm)
    · exact fun u _ hle => hx u hle

/-- Only the placeholder is replaced. -/
theorem forReceiver_of_exact (H : t.WF) {c : ClassId} (ha : t.shape a = .exact c) (b : TypeId) :
    forReceiver a b t = (a, t) := by
  have hf : (t.flags a).hasSelf = false := by
    rw [H.flags_eq (has_of_shape (by rw [ha]; nofun)), ha]
    rfl
  simp [forReceiver, hf]

theorem forReceiver_settles (H : t.WF) (ha : t.Has a) (hb : t.Has b) :
    Settles t (forReceiver a b) fun c u => u.Has c ∧
      ∀ m, m ∈ u.members c ↔
        m ∈ u.members a ∧ m ≠ .self ∨ m ∈ u.members b ∧ .self ∈ u.members a := by
  by_cases hf : (t.flags a).hasSelf = true
  · set ms := (t.members a).map fun m => if m = .self then b else m with hms
    have hmem : ∀ m ∈ ms, t.Has m := by
      intro m hm
      simp only [hms, List.mem_map] at hm
      obtain ⟨n, hn, rfl⟩ := hm
      split
      · exact hb
      · exact (H.isMember_of_mem ha hn).1
    have hs := unionOf_settles H hmem
    have hx : ∀ u : TypeTable, t ≤ u → forReceiver a b u = unionOf ms u := fun u hle => by
      simp [forReceiver, ha.flags_eq hle, ha.members_eq hle, hf, hms]
    constructor <;> rw [hx t (le_refl t)]
    · exact hs.wf
    · exact hs.le
    · obtain ⟨hc, hm⟩ := hs.post
      refine ⟨hc, fun m => ?_⟩
      rw [hm, ha.members_eq hs.le]
      simp only [hms, List.mem_map]
      constructor
      · rintro ⟨n, ⟨k, hk, rfl⟩, hmn⟩
        split at hmn
        · rename_i h
          subst h
          exact .inr ⟨hmn, hk⟩
        · rename_i h
          have hk' := H.isMember_of_mem ha hk
          rw [hk'.1.members_eq hs.le, members_of_isMember hk'.2, List.mem_singleton] at hmn
          subst hmn
          exact .inl ⟨hk, h⟩
      · rintro (⟨hma, hne⟩ | ⟨hmb, hself⟩)
        · have hm' := H.isMember_of_mem ha hma
          refine ⟨m, ⟨m, hma, if_neg hne⟩, ?_⟩
          rw [hm'.1.members_eq hs.le]
          exact mem_members_self hm'.2
        · exact ⟨b, ⟨.self, hself, if_pos rfl⟩, hmb⟩
    · intro u hu hle
      rw [hx u (le_trans hs.le hle)]
      exact hs.again u hu hle
  · have hx : ∀ u : TypeTable, t ≤ u → forReceiver a b u = (a, u) := fun u hle => by
      simp [forReceiver, ha.flags_eq hle, hf]
    have hno : .self ∉ t.members a := fun h => hf ((H.flag_hasSelf ha).2 h)
    constructor <;> rw [hx t (le_refl t)]
    · exact H
    · exact le_refl t
    · refine ⟨ha, fun m => ⟨fun hm => .inl ⟨hm, ?_⟩, ?_⟩⟩
      · rintro rfl
        exact hno hm
      · rintro (h | h)
        · exact h.1
        · exact absurd h.2 hno
    · exact fun u _ hle => hx u hle

end Multimethod.TypeTable
