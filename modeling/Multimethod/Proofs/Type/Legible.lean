import Multimethod.Proofs.Type.Text

/-!
# Types are told apart by their texts

If the names of classes are words, free of the marks that the texts of types are made with, then the
text of a type shows its members: `?` ends the text of a type with `nil`, blanks part the members of
other unions, and `+` and `.` tell how a class is meant. So types with the same text are the same
(`TypeTable.WF.text_inj`).
-/

namespace List

variable {α : Type} {c : α} {l m r s sep : List α} {ls ms : List (List α)}

/-- Lists are the same up to the first `c` if they are the same. -/
theorem append_cons_inj (hl : c ∉ l) (hm : c ∉ m) (h : l ++ c :: r = m ++ c :: s) :
    l = m ∧ r = s := by
  rcases append_eq_append_iff.1 h with ⟨_ | ⟨d, k⟩, hk, hr⟩ | ⟨_ | ⟨d, k⟩, hk, hs⟩
  · simp_all
  · cases hr
    simp [hk] at hm
  · simp_all
  · cases hs
    simp [hk] at hl

theorem notMem_intercalate (hsep : c ∉ sep) (hls : ∀ l ∈ ls, c ∉ l) : c ∉ sep.intercalate ls := by
  induction ls with
  | nil => simp
  | cons l ls ih =>
    have hl := hls l (.head _)
    have hrest := ih fun k hk => hls k (.tail _ hk)
    cases ls with
    | nil => simpa using hl
    | cons k ks => simp [intercalate_cons_cons, hl, hsep, hrest]

theorem mem_intercalate (hc : c ∈ sep) (hls : 2 ≤ ls.length) : c ∈ sep.intercalate ls := by
  match ls with
  | l :: k :: ks => simp [intercalate_cons_cons, hc]

/-- What is put together with a separator that does not occur in the parts can be taken apart. -/
theorem intercalate_inj (hls : ∀ l ∈ ls, c ∉ l) (hms : ∀ l ∈ ms, c ∉ l) (hne : ls ≠ [])
    (hne' : ms ≠ []) (h : (c :: sep).intercalate ls = (c :: sep).intercalate ms) : ls = ms := by
  induction ls generalizing ms with
  | nil => exact absurd rfl hne
  | cons l ls ih =>
    obtain ⟨m, ms, rfl⟩ := exists_cons_of_ne_nil hne'
    have hl := hls l (.head _)
    have hm := hms m (.head _)
    rcases ls with _ | ⟨l', ls⟩ <;> rcases ms with _ | ⟨m', ms⟩
    · simpa using h
    · rw [intercalate_singleton, intercalate_cons_cons] at h
      rw [h] at hl
      simp at hl
    · rw [intercalate_singleton, intercalate_cons_cons] at h
      rw [← h] at hm
      simp at hm
    · simp only [intercalate_cons_cons, append_assoc, cons_append] at h
      obtain ⟨rfl, hrest⟩ := append_cons_inj hl hm h
      rw [ih (fun k hk => hls k (.tail _ hk)) (fun k hk => hms k (.tail _ hk)) (cons_ne_nil _ _)
        (cons_ne_nil _ _) (append_cancel_left hrest)]

end List

namespace Multimethod

/-- A text without the marks that the texts of types are made with. -/
structure IsWord (s : String) : Prop where
  ne_empty : s ≠ ""
  plain : ∀ c ∈ s.toList, c ∉ [' ', '|', '+', '.', '?']

theorem IsWord.notMem {s : String} (h : IsWord s) {c : Char} (hc : c ∈ [' ', '|', '+', '.', '?']) :
    c ∉ s.toList := fun hs => h.plain c hs hc

/-- Letters, digits and underscores make words. -/
theorem IsWord.of_alphanum {s : String} (hne : s ≠ "")
    (h : ∀ c ∈ s.toList, c.isAlphanum = true ∨ c = '_') : IsWord s := by
  refine ⟨hne, fun c hc hmark => ?_⟩
  simp only [List.mem_cons, List.not_mem_nil, or_false] at hmark
  rcases hmark with rfl | rfl | rfl | rfl | rfl <;> exact absurd (h _ hc) (by decide)

namespace TypeTable

/-- The names of the classes with `C` are words other than the texts of the empty type and of the
placeholder, and tell these classes apart. -/
structure Legible (className : ClassId → String) (C : ClassId → Prop) : Prop where
  word : ∀ c, C c → IsWord (className c)
  ne_never : ∀ c, C c → className c ≠ "NoReturn"
  ne_self : ∀ c, C c → className c ≠ "self"
  inj : ∀ c d, C c → C d → className c = className d → c = d

/-- The class that a type names, if it does, has `C`. -/
def Names (t : TypeTable) (C : ClassId → Prop) (m : TypeId) : Prop :=
  ∀ c, (t.shape m).instanceClass? = some c ∨ t.shape m = .classObject c → C c

variable {t : TypeTable} {className : ClassId → String} {C : ClassId → Prop} {a b m n : TypeId}
  {ms ns : List TypeId} {s : String} {c : ClassId}

namespace Names

theorem exact (h : t.Names C m) (hs : t.shape m = .exact c) : C c := h c (.inl (by rw [hs]; rfl))

theorem below (h : t.Names C m) (hs : t.shape m = .below c) : C c := h c (.inl (by rw [hs]; rfl))

theorem classObject (h : t.Names C m) (hs : t.shape m = .classObject c) : C c := h c (.inr hs)

end Names

/-! ## Members -/

namespace Legible

variable (L : Legible className C)
include L

/-- In the text of a member there are only marks that tell how its class is meant. -/
theorem notMem_memberText (hm : t.Names C m) {d : Char} (hd : d = ' ' ∨ d = '?') :
    d ∉ (t.memberText className m).toList := by
  have word (c : ClassId) (hc : C c) : d ∉ (className c).toList := by
    apply (L.word c hc).notMem
    rcases hd with rfl | rfl <;> simp
  have other {l : List Char} (h₁ : ' ' ∉ l) (h₂ : '?' ∉ l) : d ∉ l := by
    rcases hd with rfl | rfl <;> assumption
  cases hs : t.shape m with
  | never => simpa only [memberText, hs] using other (by simp) (by simp)
  | exact c => simpa only [memberText, hs] using word c (hm.exact hs)
  | below c =>
    simp only [memberText, hs, String.toList_append, List.mem_append, not_or]
    exact ⟨word c (hm.below hs), other (by simp) (by simp)⟩
  | classObject c =>
    simp only [memberText, hs, String.toList_append, List.mem_append, not_or]
    exact ⟨word c (hm.classObject hs), other (by simp) (by simp)⟩
  | self => simpa only [memberText, hs] using other (by simp) (by simp)
  | union => simpa only [memberText, hs] using other (by simp) (by simp)

theorem plus_mem_memberText (hm : t.Names C m) :
    '+' ∈ (t.memberText className m).toList ↔ ∃ c, t.shape m = .below c := by
  cases hs : t.shape m with
  | exact c => simpa [memberText, hs] using (L.word c (hm.exact hs)).notMem (by simp)
  | classObject c => simpa [memberText, hs] using (L.word c (hm.classObject hs)).notMem (by simp)
  | _ => simp [memberText, hs]

theorem dot_mem_memberText (hm : t.Names C m) :
    '.' ∈ (t.memberText className m).toList ↔ ∃ c, t.shape m = .classObject c := by
  cases hs : t.shape m with
  | exact c => simpa [memberText, hs] using (L.word c (hm.exact hs)).notMem (by simp)
  | below c => simpa [memberText, hs] using (L.word c (hm.below hs)).notMem (by simp)
  | _ => simp [memberText, hs]

theorem memberText_ne_never (hm : t.Names C m) (hmember : (t.shape m).IsMember) :
    t.memberText className m ≠ "NoReturn" := by
  intro h
  have hplus := L.plus_mem_memberText hm
  have hdot := L.dot_mem_memberText hm
  cases hs : t.shape m with
  | exact c => exact L.ne_never c (hm.exact hs) (by simpa only [memberText, hs] using h)
  | below c => simp [h, hs] at hplus
  | classObject c => simp [h, hs] at hdot
  | self => simp [memberText, hs] at h
  | never | union => rw [hs] at hmember; exact hmember.elim

/-- The text of a member shows its shape, and there is one type of a shape. -/
theorem memberText_inj (hm : t.Names C m) (hmember : (t.shape m).IsMember) (hn : t.Names C n)
    (hmember' : (t.shape n).IsMember) (h : t.memberText className m = t.memberText className n) :
    m = n := by
  apply (has_of_isMember hmember).shape_inj (has_of_isMember hmember')
  have hplus := (L.plus_mem_memberText hm).symm.trans (h ▸ L.plus_mem_memberText hn)
  have hdot := (L.dot_mem_memberText hm).symm.trans (h ▸ L.dot_mem_memberText hn)
  cases hs : t.shape m <;> cases hs' : t.shape n <;>
    simp only [hs, hs', Shape.IsMember] at hmember hmember'
  case exact.exact c d =>
    simp only [memberText, hs, hs'] at h
    rw [L.inj c d (hm.exact hs) (hn.exact hs') h]
  case below.below c d =>
    simp only [memberText, hs, hs', String.append_left_inj] at h
    rw [L.inj c d (hm.below hs) (hn.below hs') h]
  case classObject.classObject c d =>
    simp only [memberText, hs, hs', String.append_left_inj] at h
    rw [L.inj c d (hm.classObject hs) (hn.classObject hs') h]
  case self.self => rfl
  case exact.self c =>
    simp only [memberText, hs, hs'] at h
    exact absurd h (L.ne_self c (hm.exact hs))
  case self.exact c =>
    simp only [memberText, hs, hs'] at h
    exact absurd h.symm (L.ne_self c (hn.exact hs'))
  all_goals simp [hs, hs'] at hplus hdot

end Legible

/-! ## Types -/

/-- The text `s` of the type with the members `ms`, and by which marks it is known. -/
inductive Form (t : TypeTable) (className : ClassId → String) (ms : List TypeId) (s : String) :
    Prop where
  | plain (hmark : '?' ∉ s.toList) (hblank : ' ' ∉ s.toList)
    (hs : ms = [] ∧ s = "NoReturn" ∨ ∃ m, ms = [m] ∧ s = t.memberText className m)
  | orNil (hmark : '?' ∈ s.toList) {m : TypeId} (hm : m ∈ ms) (hms : ∀ k, k ∈ ms ↔ k = m ∨ k = .nil)
    (hs : s = t.memberText className m ++ "?")
  | several (hmark : '?' ∉ s.toList) (hblank : ' ' ∈ s.toList) (hne : ms ≠ [])
    (hs : s = " | ".intercalate (ms.map (t.memberText className)))

section

variable (L : Legible className C) (hms : ∀ m ∈ ms, t.Names C m ∧ (t.shape m).IsMember)
include L hms

/-- Members of a union are parted by blanks, of which there are none in their texts. -/
theorem Legible.map_memberText_inj (hns : ∀ n ∈ ns, t.Names C n ∧ (t.shape n).IsMember)
    (hne : ms ≠ []) (hne' : ns ≠ [])
    (h : " | ".intercalate (ms.map (t.memberText className)) =
      " | ".intercalate (ns.map (t.memberText className))) :
    ms.map (t.memberText className) = ns.map (t.memberText className) := by
  have blank {ms : List TypeId} (hms : ∀ m ∈ ms, t.Names C m ∧ (t.shape m).IsMember) :
      ∀ l ∈ (ms.map (t.memberText className)).map String.toList, ' ' ∉ l := by
    simp only [List.mem_map, exists_exists_and_eq_and, forall_exists_index, and_imp,
      forall_apply_eq_imp_iff₂]
    exact fun m hm => L.notMem_memberText (hms m hm).1 (.inl rfl)
  have h := congrArg String.toList h
  rw [String.toList_intercalate, String.toList_intercalate] at h
  have h := List.intercalate_inj (blank hms) (blank hns) (by simpa) (by simpa) h
  exact (List.map_inj_right fun _ _ => String.toList_inj.1).1 h

theorem Legible.form_several (htwo : 2 ≤ ms.length) :
    t.Form className ms (" | ".intercalate (ms.map (t.memberText className))) := by
  refine .several ?_ ?_ (by rintro rfl; cases htwo) rfl
  · rw [String.toList_intercalate]
    refine List.notMem_intercalate (by simp) ?_
    simp only [List.mem_map, exists_exists_and_eq_and, forall_exists_index, and_imp,
      forall_apply_eq_imp_iff₂]
    exact fun m hm => L.notMem_memberText (hms m hm).1 (.inr rfl)
  · rw [String.toList_intercalate]
    exact List.mem_intercalate (by simp) (by simpa using htwo)

theorem Legible.form_textOf : t.Form className ms (t.textOf className ms) := by
  have orNil {m : TypeId} (hm : m ∈ ms) (hk : ∀ k, k ∈ ms ↔ k = m ∨ k = .nil) :
      t.Form className ms (t.memberText className m ++ "?") :=
    .orNil (by simp) hm hk rfl
  match ms with
  | [] => exact .plain (by simp [textOf]) (by simp [textOf]) (.inl ⟨rfl, rfl⟩)
  | [m] =>
    have hm := (hms m (.head _)).1
    exact .plain (L.notMem_memberText hm (.inr rfl)) (L.notMem_memberText hm (.inl rfl))
      (.inr ⟨m, rfl, rfl⟩)
  | [m, n] =>
    simp only [textOf]
    split
    · rename_i hm
      exact orNil (by simp) fun k => by simp [hm, or_comm]
    · split
      · rename_i hn
        exact orNil (by simp) fun k => by simp [hn]
      · exact L.form_several hms (by simp)
  | _ :: _ :: _ :: _ => exact L.form_several hms (by simp)

/-- A text has one form, and its members are told by their texts. -/
theorem Form.unique (hns : ∀ n ∈ ns, t.Names C n ∧ (t.shape n).IsMember)
    (h : t.Form className ms s) (h' : t.Form className ns s) : ∀ k, k ∈ ms ↔ k ∈ ns := by
  have inj {m n : TypeId} (hm : m ∈ ms) (hn : n ∈ ns)
      (h : t.memberText className m = t.memberText className n) : m = n :=
    L.memberText_inj (hms m hm).1 (hms m hm).2 (hns n hn).1 (hns n hn).2 h
  cases h with
  | plain hmark hblank hs =>
    cases h' with
    | plain _ _ hs' =>
      rcases hs with ⟨rfl, hs⟩ | ⟨m, rfl, hs⟩ <;> rcases hs' with ⟨rfl, hs'⟩ | ⟨n, rfl, hs'⟩
      · exact fun _ => .rfl
      · obtain ⟨hn, hmember⟩ := hns n (.head _)
        exact absurd (hs'.symm.trans hs) (L.memberText_ne_never hn hmember)
      · obtain ⟨hm, hmember⟩ := hms m (.head _)
        exact absurd (hs.symm.trans hs') (L.memberText_ne_never hm hmember)
      · rw [inj (.head _) (.head _) (hs.symm.trans hs')]
        exact fun _ => .rfl
    | orNil hmark' => exact absurd hmark' hmark
    | several _ hblank' => exact absurd hblank' hblank
  | @orNil hmark m hm hk hs =>
    cases h' with
    | plain hmark' => exact absurd hmark hmark'
    | @orNil _ n hn hk' hs' =>
      rw [hs, String.append_left_inj] at hs'
      obtain rfl := inj hm hn hs'
      exact fun k => (hk k).trans (hk' k).symm
    | several hmark' => exact absurd hmark hmark'
  | several hmark hblank hne hs =>
    cases h' with
    | plain _ hblank' => exact absurd hblank hblank'
    | orNil hmark' => exact absurd hmark' hmark
    | several _ _ hne' hs' =>
      have htexts := L.map_memberText_inj hms hns hne hne' (hs.symm.trans hs')
      intro k
      constructor
      · intro hk
        obtain ⟨n, hn, he⟩ := List.mem_map.1 (htexts ▸ List.mem_map_of_mem hk)
        rwa [inj hk hn he.symm]
      · intro hk
        obtain ⟨m, hm, he⟩ := List.mem_map.1 (htexts ▸ List.mem_map_of_mem hk)
        rwa [← inj hm hk he]

end

/-- Types that name classes with legible names are told apart by their texts. -/
theorem WF.text_inj (H : t.WF) (L : Legible className C) (ha : t.Has a) (hb : t.Has b)
    (hna : ∀ m ∈ t.members a, t.Names C m) (hnb : ∀ m ∈ t.members b, t.Names C m) :
    t.text className a = t.text className b ↔ a = b := by
  constructor
  · intro h
    have named {a : TypeId} (ha : t.Has a) (hna : ∀ m ∈ t.members a, t.Names C m) :
        ∀ m ∈ t.members a, t.Names C m ∧ (t.shape m).IsMember :=
      fun m hm => ⟨hna m hm, (H.isMember_of_mem ha hm).2⟩
    have hforma := L.form_textOf (named ha hna)
    have hformb := L.form_textOf (named hb hnb)
    rw [← H.text_eq] at hforma hformb
    exact H.ext_members ha hb (hforma.unique L (named ha hna) (named hb hnb) (h ▸ hformb))
  · rintro rfl
    rfl

end TypeTable

end Multimethod
