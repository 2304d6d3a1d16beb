import Multimethod.Proofs.Hierarchy.Grounded
import Multimethod.Proofs.Hierarchy.Subtype

/-!
# What later changes keep

A type holds classes, and what these are is looked up in a hierarchy that goes on changing. But a
change only adds classes after those there are and places none of these anew (`Keeps`), and it only
describes more types. So everything that could be said of a class, or of a type that names classes
which are there, stays as it was (`reachable_growth`). In a session, where types are described by
classes that are there (`Session`), all types are of this kind.
-/

namespace Multimethod

open Relation TypeTable

/-! ## The class that a type is described by -/

/-- The class that a type without members names. -/
def Shape.class? : Shape → Option ClassId
  | .exact c | .below c | .classObject c => some c
  | _ => none

theorem Shape.class?_eq_some {s : Shape} {c : ClassId} :
    s.class? = some c ↔ s.instanceClass? = some c ∨ s = .classObject c := by
  cases s <;> simp [class?, instanceClass?]

theorem Shape.IsValue.class_lt {s : Shape} {c : ClassId} {n : Nat} (hs : s.IsValue n)
    (hc : s.class? = some c) : c.index < n := by
  cases s with
  | exact | classObject =>
    cases hc
    exact hs
  | _ => exact hs.elim

namespace TypeTable

variable {t : TypeTable} {a : TypeId}

theorem has_ofMembers {ms : List TypeId} (ha : (ofMembers ms t).2.Has a) :
    t.Has a ∨ ((ofMembers ms t).2.shape a).class? = none := by
  unfold ofMembers at ha ⊢
  split at ha
  · exact .inl ha
  · exact .inl ha
  · refine (has_intern ha).imp_right fun hshape => ?_
    rw [hshape]
    rfl

theorem has_union {b c : TypeId} (ha : (union b c t).2.Has a) :
    t.Has a ∨ ((union b c t).2.shape a).class? = none := by
  unfold union at ha ⊢
  split at ha
  · exact .inl ha
  · rename_i hsame
    rw [if_neg hsame]
    split at ha
    · exact .inl ha
    · rename_i hnever
      rw [if_neg hnever]
      exact has_ofMembers ha

namespace Op

/-- The class that a type is described by. -/
def class? : Op → Option ClassId
  | exact c | below c | classObject c => some c
  | _ => none

/-- A new type names the class that it is described by. -/
theorem has_run {o : Op} (ha : (o.run t).2.Has a) :
    t.Has a ∨ ((o.run t).2.shape a).class? = o.class? := by
  cases o with
  | exact c | below c | classObject c =>
    refine (has_intern ha).imp_right fun hshape => ?_
    exact congrArg Shape.class? hshape
  | union | orNil => exact has_union ha
  | unionOf => exact has_ofMembers ha
  | dropNil b =>
    simp only [run, TypeTable.dropNil] at ha ⊢
    split at ha
    · rename_i hnil
      rw [if_pos hnil]
      exact has_ofMembers ha
    · exact .inl ha
  | forReceiver b receiver =>
    simp only [run, TypeTable.forReceiver] at ha ⊢
    split at ha
    · rename_i hself
      rw [if_pos hself]
      exact has_ofMembers ha
    · exact .inl ha

end Op

end TypeTable

namespace Hierarchy

variable {h h' h'' : Hierarchy} {t u : TypeTable} {a b : TypeId} {c d : ClassId} {n : Name}
  {k k' : Nat} {s s' : Shape} {x y : Hierarchy × TypeTable}

/-- The classes of `h` have their names and their superclasses in `h'`. -/
structure Keeps (h h' : Hierarchy) : Prop where
  size : h.size ≤ h'.size
  name : ∀ c : ClassId, c.index < h.size → h'.name c = h.name c
  superclass : ∀ c : ClassId, c.index < h.size → h'.superclass c = h.superclass c

namespace Keeps

theorem refl (h : Hierarchy) : Keeps h h := ⟨Nat.le_refl _, fun _ _ => rfl, fun _ _ => rfl⟩

theorem trans (K : Keeps h h') (K' : Keeps h' h'') : Keeps h h'' where
  size := K.size.trans K'.size
  name c hc := (K'.name c (hc.trans_le K.size)).trans (K.name c hc)
  superclass c hc := (K'.superclass c (hc.trans_le K.size)).trans (K.superclass c hc)

theorem of_grows (G : Grows h.size h h') : Keeps h h' where
  size := G.size
  name c hc := by
    obtain ⟨i, hi⟩ : ∃ i, h.get? c = some i := ⟨_, Array.getElem?_eq_getElem hc⟩
    obtain ⟨cs, hi'⟩ := G.keeps c i hc hi
    rw [name_eq hi, name_eq hi']
  superclass _ hc := G.superclass hc hc

/-- The types of instance variables do not matter. -/
theorem of_tree (htree : h'.tree = h.tree) : Keeps h h' where
  size := by rw [← size_tree, ← htree, size_tree]
  name c _ := by rw [← name_tree, htree, name_tree]
  superclass c _ := by rw [← superclass_tree, htree, superclass_tree]

variable (K : Keeps h h')
include K

/-! ### Classes -/

theorem find? (hc : h.find? n = some c) : h'.find? n = some c := by
  rw [find?_iff] at hc ⊢
  obtain ⟨hlt, rfl⟩ := hc
  exact ⟨hlt.trans_le K.size, K.name c hlt⟩

theorem find?_of_lt (hc : h'.find? n = some c) (hlt : c.index < h.size) : h.find? n = some c := by
  rw [find?_iff] at hc ⊢
  exact ⟨hlt, (K.name c hlt).symm.trans hc.2⟩

/-- The way up is as long as it was, and leads through the same classes. -/
theorem chain (F : h.Forest) (hc : c.index < h.size) {n : Nat} (hn : h.Depth c n) (hk : n < k)
    (hk' : n < k') : h'.chain k' c = h.chain k c := by
  induction hn generalizing k k' with
  | root hroot =>
    obtain ⟨k, rfl⟩ := Nat.exists_eq_add_of_lt hk
    obtain ⟨k', rfl⟩ := Nat.exists_eq_add_of_lt hk'
    simp only [Hierarchy.chain, K.superclass _ hc, hroot]
  | @up c p n hup _ ih =>
    obtain ⟨k, rfl⟩ := Nat.exists_eq_add_of_lt hk
    obtain ⟨k', rfl⟩ := Nat.exists_eq_add_of_lt hk'
    have hup' : h'.superclass c = some p := (K.superclass c hc).trans hup
    rw [Hierarchy.chain, Hierarchy.chain, hup', show h.superclass c = some p from hup]
    congr 1
    exact ih (F.lt_size c p hup) (by omega) (by omega)

theorem ancestors (F : h.Forest) (hc : c.index < h.size) : h'.ancestors c = h.ancestors c := by
  obtain ⟨n, hn⟩ := F.depth c
  have hlt := F.depth_lt_size hn (Nat.zero_lt_of_lt hc)
  exact K.chain F hc hn hlt (hlt.trans_le K.size)

theorem isBelow (F : h.Forest) (hc : c.index < h.size) (d : ClassId) :
    h'.isBelow c d = h.isBelow c d := by
  rw [Bool.eq_iff_iff, isBelow_iff, isBelow_iff, K.ancestors F hc]

/-! ### Types -/

theorem shapeBelow (F : h.Forest)
    (hs : ∀ c, s.instanceClass? = some c ∨ s = .classObject c → c.index < h.size) (s' : Shape) :
    h'.shapeBelow s s' = h.shapeBelow s s' := by
  cases s with
  | exact c | below c =>
    have hc := hs c (.inl rfl)
    cases s' <;> simp only [Hierarchy.shapeBelow, K.isBelow F hc]
  | classObject c =>
    have hc := hs c (.inr rfl)
    cases s' <;> simp only [Hierarchy.shapeBelow, K.isBelow F hc]
  | never | self | union => rfl

theorem isSubtype (F : h.Forest) (hover : h.Over t a) (b : TypeId) :
    h'.isSubtype t a b = h.isSubtype t a b := by
  rw [Bool.eq_iff_iff, isSubtype_iff, isSubtype_iff]
  refine forall₂_congr fun m hm => exists_congr fun n => and_congr_right fun _ => ?_
  rw [memberBelow, memberBelow, K.shapeBelow F (hover m hm)]

/-- The names of the classes may be looked up in a later table. -/
theorem typeText (H : t.WF) (hover : h.Over t a) {names names' : NameTable}
    (hnames : ∀ c, c.index < h.size → names'.text (h.name c) = names.text (h.name c)) :
    h'.typeText t names' a = h.typeText t names a := by
  rw [Hierarchy.typeText, Hierarchy.typeText, H.text_eq, H.text_eq]
  apply textOf_congr
  intro m hm
  have hm := hover m hm
  have text (c : ClassId) (hc : c.index < h.size) :
      names'.text (h'.name c) = names.text (h.name c) := by
    rw [K.name c hc, hnames c hc]
  unfold memberText
  split
  case h_2 c hs | h_3 c hs => simp only [text c (hm c (.inl (by rw [hs]; rfl)))]
  case h_4 c hs => simp only [text c (hm c (.inr hs))]
  case h_1 | h_5 | h_6 => rfl

end Keeps

/-! ## Every change keeps what there is -/

theorem Described.mono (D : Described h t) (hu : u.WF) (hle : t ≤ u) : Described h u :=
  ⟨D.rooted, hu, fun c n a ha => (D.ivars c n a ha).mono hle⟩

/-- Whatever changes, the types described so far stay described. -/
theorem Step.types_le (hs : Step x y) (D : Described x.1 x.2) : x.2 ≤ y.2 := by
  cases hs with
  | describe ho => exact (TypeTable.Op.run_settles D.types ho).le
  | declare h t names ds => exact (Declared.declare (h := h) D.types names ds).types
  | @assignIvar h t c a n hc ha =>
    show t ≤ (h.assignIvar c n a t).2
    rw [snd_assignIvar]
    exact (union_settles D.types (D.has_ivarType c n) ha).le

theorem Step.keeps (hs : Step x y) (D : Described x.1 x.2) : Keeps x.1 y.1 := by
  cases hs with
  | describe => exact .refl _
  | declare h t names ds => exact .of_grows (D.rooted.declare names ds t).2
  | assignIvar n => exact .of_tree (tree_assignIvar _ _ n _ _)

theorem Described.grows (D : Described x.1 x.2) (hs : ReflTransGen Step x y) :
    Keeps x.1 y.1 ∧ x.2 ≤ y.2 := by
  induction hs with
  | refl => exact ⟨.refl _, TypeTable.le_refl _⟩
  | tail hs hstep ih =>
    have D' := D.later hs
    exact ⟨ih.1.trans (hstep.keeps D'), TypeTable.le_trans ih.2 (hstep.types_le D')⟩

/-! ## Types of classes that are there -/

theorem Over.mono (hover : h.Over t a) (H : t.WF) (ha : t.Has a) (hle : t ≤ u)
    (hsize : h.size ≤ h'.size) : h'.Over u a := by
  intro m hm c hc
  rw [ha.members_eq hle] at hm
  rw [(H.isMember_of_mem ha hm).1.shape_eq hle] at hc
  exact Nat.lt_of_lt_of_le (hover m hm c hc) hsize

/-- A change in which a type is described by no class but one that is there. -/
inductive OwnStep : Hierarchy × TypeTable → Hierarchy × TypeTable → Prop where
  | describe {h : Hierarchy} {t : TypeTable} {o : TypeTable.Op} (ho : o.Fits t)
      (hc : ∀ c, o.class? = some c → c.index < h.size) :
    OwnStep (h, t) (h, (o.run t).2)
  | declare (h : Hierarchy) (t : TypeTable) (names : NameTable) (ds : List ClassDecl) :
    OwnStep (h, t) ((h.declare names ds t).1.2, (h.declare names ds t).2)
  | assignIvar {h : Hierarchy} {t : TypeTable} {c : ClassId} {a : TypeId} (n : Name)
      (hc : c.index < h.size) (ha : t.Has a) :
    OwnStep (h, t) ((h.assignIvar c n a t).1.2, (h.assignIvar c n a t).2)

/-- What is reached when types are only described by classes that are there. -/
def Session (h : Hierarchy) (t : TypeTable) : Prop :=
  ∃ names, ReflTransGen OwnStep (initial (CoreNames.intern names).1 .initial) (h, t)

theorem OwnStep.step (hs : OwnStep x y) : Step x y := by
  cases hs with
  | describe ho => exact .describe ho
  | declare => apply Step.declare
  | assignIvar n hc ha => exact .assignIvar n hc ha

/-- No type names a class that is not there. -/
def Covers (h : Hierarchy) (t : TypeTable) : Prop :=
  ∀ a, t.Has a → ∀ c, (t.shape a).class? = some c → c.index < h.size

namespace Covers

theorem types_over (C : h.Covers t) (H : t.WF) (ha : t.Has a) : h.Over t a := by
  intro m hm c hc
  apply C m (H.isMember_of_mem ha hm).1
  exact Shape.class?_eq_some.2 hc

/-- The types that there were name classes that there were. -/
theorem extend (C : h.Covers t) (hle : t ≤ u) (hsize : h.size ≤ h'.size)
    (hnew : ∀ a, u.Has a → ¬ t.Has a → ∀ c, (u.shape a).class? = some c → c.index < h'.size) :
    h'.Covers u := by
  intro a ha c hc
  by_cases hold : t.Has a
  · rw [hold.shape_eq hle] at hc
    exact (C a hold c hc).trans_le hsize
  · exact hnew a ha hold c hc

theorem initial {core : CoreNames} {names : NameTable} (hc : core.Fits names) :
    (Hierarchy.initial core .initial).1.Covers (Hierarchy.initial core .initial).2 := by
  intro a ha c hac
  have hfive := (initial_declared initial_wf hc).2.five_le
  rcases (Grounded.predefined core).value a ha with hs | hs | hs
  · rw [hs] at hac
    cases hac
  · rw [hs] at hac
    cases hac
  · rw [Nat.max_eq_right hfive] at hs
    exact hs.class_lt hac

theorem step (C : x.1.Covers x.2) (D : Described x.1 x.2) (hs : OwnStep x y) :
    y.1.Covers y.2 := by
  refine C.extend (hs.step.types_le D) (hs.step.keeps D).size ?_
  intro a ha hnew c hc
  cases hs with
  | describe ho hown =>
    have hclass := (TypeTable.Op.has_run ha).resolve_left hnew
    exact hown c (hclass.symm.trans hc)
  | declare h t names ds =>
    have hvalue := (has_declare D.types names ds ha).resolve_left hnew
    exact hvalue.class_lt hc
  | assignIvar n =>
    dsimp only at ha hnew hc
    rw [snd_assignIvar] at ha hc
    cases ((has_union ha).resolve_left hnew).symm.trans hc

end Covers

theorem Session.covers (hs : Session h t) : Described h t ∧ h.Covers t := by
  obtain ⟨names, hs⟩ := hs
  have hfits := (CoreNames.intern_fits names).2
  suffices ∀ y, ReflTransGen OwnStep (Hierarchy.initial (CoreNames.intern names).1 .initial) y →
      Described y.1 y.2 ∧ y.1.Covers y.2 from this _ hs
  intro y hs
  induction hs with
  | refl => exact ⟨initial_described initial_wf hfits, .initial hfits⟩
  | tail _ hstep ih =>
    obtain ⟨D, C⟩ := ih
    exact ⟨hstep.step.described D, C.step D hstep⟩

/-! ## Nothing that could be said changes -/

/-- What is said of types and classes in `h` and `t` is said of them in `h'` and `t'`. Of types whose
classes are not there it is not said what they are below, or how they read. -/
structure SameAnswers (h : Hierarchy) (t : TypeTable) (h' : Hierarchy) (t' : TypeTable) : Prop where
  types : ∀ a, t.Has a → t'.Has a ∧ t'.shape a = t.shape a ∧ t'.flags a = t.flags a
  isSubtype : ∀ a b, t.Has a → t.Has b → h.Over t a → h'.isSubtype t' a b = h.isSubtype t a b
  typeText : ∀ names names' : NameTable,
    (∀ c, c.index < h.size → names'.text (h.name c) = names.text (h.name c)) →
      ∀ a, t.Has a → h.Over t a → h'.typeText t' names' a = h.typeText t names a
  superclass : ∀ c : ClassId, c.index < h.size → h'.superclass c = h.superclass c
  ancestors : ∀ c : ClassId, c.index < h.size → h'.ancestors c = h.ancestors c
  find? : ∀ c : ClassId, c.index < h.size →
    h.find? (h.name c) = some c ∧ h'.find? (h.name c) = some c

/-- Whatever is described, declared or assigned later, declarations that fail included, what could be
said of types and classes stays as it was. When types have only been described by classes that were
there, that is so for all types. -/
theorem reachable_growth {t' : TypeTable} (hr : Reachable h t)
    (hs : ReflTransGen Step (h, t) (h', t')) :
    SameAnswers h t h' t' ∧ (Session h t → ∀ a, t.Has a → h.Over t a) := by
  have D := hr.described
  obtain ⟨K, hle⟩ := D.grows hs
  have F := D.rooted.toForest
  have H := D.types
  refine ⟨?_, fun hsession a ha => hsession.covers.2.types_over H ha⟩
  constructor
  case types => exact fun a ha => ⟨ha.mono hle, ha.shape_eq hle, ha.flags_eq hle⟩
  case isSubtype =>
    intro a b ha hb hover
    rw [h'.isSubtype_mono H ha hb hle, K.isSubtype F hover]
  case typeText =>
    intro names names' hnames a ha hover
    rw [typeText, text_mono _ H ha hle]
    exact K.typeText H hover hnames
  case superclass => exact K.superclass
  case ancestors => exact fun c hc => K.ancestors F hc
  case find? =>
    intro c hc
    have hfind : h.find? (h.name c) = some c := find?_iff.2 ⟨hc, rfl⟩
    exact ⟨hfind, K.find? hfind⟩

/-- A class below the first of the two, which is then opened again with another superclass. -/
def reopening : List ClassDecl := [⟨⟨11⟩, some ⟨9⟩, .dummy⟩, ⟨⟨9⟩, some ⟨11⟩, .dummy⟩]

/-- After that, a type of the new class is described, and an instance variable gets a type. -/
def reopened : Hierarchy × TypeTable :=
  let r := crossed.1.declare {} reopening crossed.2
  let s := r.1.2.assignIvar ⟨5⟩ ⟨12⟩ ⟨14⟩ (TypeTable.below ⟨7⟩ r.2).2
  (s.1.2, s.2)

theorem crossed_reopened : ReflTransGen Step crossed reopened := by
  have hdeclare := Step.declare crossed.1 crossed.2 {} reopening
  have hdescribe := Step.describe (h := (crossed.1.declare {} reopening crossed.2).1.2)
    (t := (crossed.1.declare {} reopening crossed.2).2) (o := .below ⟨7⟩) (by decide +kernel)
  have hassign := Step.assignIvar (h := (crossed.1.declare {} reopening crossed.2).1.2)
    (t := (TypeTable.below ⟨7⟩ (crossed.1.declare {} reopening crossed.2).2).2)
    (c := ⟨5⟩) (a := ⟨14⟩) ⟨12⟩ (by decide +kernel) (by decide +kernel)
  exact ((ReflTransGen.single hdeclare).tail hdescribe).tail hassign

theorem crossed_session : Session crossed.1 crossed.2 := by
  have hs := OwnStep.declare (initial (CoreNames.intern {}).1 .initial).1
    (initial (CoreNames.intern {}).1 .initial).2 {} (crossing ⟨9⟩ ⟨10⟩)
  exact ⟨{}, .single hs⟩

/-- The second declaration fails, and the class stays below the same classes. -/
theorem reachable_growth_reopened : Reachable crossed.1 crossed.2 ∧
    ReflTransGen Step crossed reopened ∧
      SameAnswers crossed.1 crossed.2 reopened.1 reopened.2 ∧
        (∀ a, crossed.2.Has a → crossed.1.Over crossed.2 a) ∧
          (crossed.1.declare {} reopening crossed.2).1.1.length = 1 ∧
            reopened.1.ancestors ⟨7⟩ = ⟨7⟩ :: crossed.1.ancestors ⟨5⟩ := by
  have hgrowth := reachable_growth crossed_reachable crossed_reopened
  exact ⟨crossed_reachable, crossed_reopened, hgrowth.1, hgrowth.2 crossed_session,
    by decide +kernel⟩

end Hierarchy

end Multimethod
