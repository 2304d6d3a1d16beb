import Multimethod.Proofs.Resolution.Resolve
import Multimethod.Proofs.Type.Value

/-!
# Types in two tables

Two tables that grow from a common one describe the types of values alike, but may give other
handles to the unions of these. A type of one table and a type of the other are the same (`Same`) if
they have the same members, and computations on two such tables are alike (`Alike`) if their results
correspond. All operations of the type table are.
-/

namespace Option.Rel

variable {α β γ : Type} {R : α → β → Prop} {a : Option α} {b : Option β}

theorem imp {S : α → β → Prop} (h : Option.Rel R a b) (hS : ∀ a b, R a b → S a b) :
    Option.Rel S a b := by
  cases h with
  | some h => exact .some (hS _ _ h)
  | none => exact .none

theorem flip (h : Option.Rel R a b) : Option.Rel (fun b a => R a b) b a := by
  cases h with
  | some h => exact .some h
  | none => exact .none

theorem getD (h : Option.Rel R a b) {x : α} {y : β} (hx : R x y) : R (a.getD x) (b.getD y) := by
  cases h with
  | some h => exact h
  | none => exact hx

theorem isSome_eq (h : Option.Rel R a b) : a.isSome = b.isSome := by
  cases h <;> rfl

theorem biUnique (h : Relator.BiUnique R) : Relator.BiUnique (Option.Rel R) := by
  constructor
  · rintro a b _ (⟨ha⟩ | _) (⟨hb⟩ | _)
    · rw [h.1 ha hb]
    · rfl
  · rintro _ b c (⟨hb⟩ | _) (⟨hc⟩ | _)
    · rw [h.2 hb hc]
    · rfl

end Option.Rel

namespace List.Forall₂

variable {α β : Type} {R : α → β → Prop} {as : List α} {bs : List β} {p : α → Bool} {q : β → Bool}

theorem find? (h : Forall₂ R as bs) (hpq : ∀ a b, R a b → p a = q b) :
    Option.Rel R (as.find? p) (bs.find? q) := by
  induction h with
  | nil => exact .none
  | @cons a b as bs hab _ ih =>
    rw [List.find?_cons, List.find?_cons, hpq a b hab]
    split
    · exact .some hab
    · exact ih

theorem all_eq (h : Forall₂ R as bs) (hpq : ∀ a b, R a b → p a = q b) : as.all p = bs.all q := by
  induction h with
  | nil => rfl
  | cons hab _ ih => rw [List.all_cons, List.all_cons, hpq _ _ hab, ih]

theorem any_eq (h : Forall₂ R as bs) (hpq : ∀ a b, R a b → p a = q b) : as.any p = bs.any q := by
  induction h with
  | nil => rfl
  | cons hab _ ih => rw [List.any_cons, List.any_cons, hpq _ _ hab, ih]

end List.Forall₂

namespace Multimethod

open TypeTable

/-- A table with the types of the values of some classes, and no unions. -/
structure Ground where
  table : TypeTable
  classes : Nat
  wf : table.WF
  value : ∀ a, table.Has a → table.shape a = .never ∨ table.shape a = .self ∨
    (table.shape a).IsValue classes
  described : ∀ s : Shape, s.IsValue classes → ∃ a, table.Has a ∧ table.shape a = s

/-- What corresponds in two results that may be errors; errors are equal. -/
def Outcomes {α β ε : Type} (R : α → β → Prop) : Except ε α → Except ε β → Prop
  | .ok a, .ok b => R a b
  | .error e, .error e' => e = e'
  | _, _ => False

namespace Ground

variable (G : Ground)

/-- Two tables that have grown from the common one. -/
structure Twins (t u : TypeTable) : Prop where
  left : t.WF
  right : u.WF
  left_le : G.table ≤ t
  right_le : G.table ≤ u

/-- A type of the common table that may be a member. -/
def Atom (a : TypeId) : Prop := (G.table.shape a).IsMember

/-- The types have the same members, which are in the common table. -/
structure Same (t u : TypeTable) (a b : TypeId) : Prop where
  left : t.Has a
  right : u.Has b
  members : t.members a = u.members b
  atoms : ∀ m ∈ t.members a, G.Atom m

/-- Computations on two tables whose results correspond. -/
structure Alike {α β : Type} (t u : TypeTable) (x : StateM TypeTable α) (y : StateM TypeTable β)
    (R : TypeTable → TypeTable → α → β → Prop) : Prop where
  twins : G.Twins (x t).2 (y u).2
  left : t ≤ (x t).2
  right : u ≤ (y u).2
  post : R (x t).2 (y u).2 (x t).1 (y u).1

variable {G} {t t' u u' : TypeTable} {a a' b b' c m : TypeId}

/-! ## Types of the common table -/

theorem Atom.has (h : G.Atom a) : G.table.Has a := has_of_isMember h

/-- The shapes of the members of types. -/
theorem Atom.shape (h : G.Atom a) : G.table.shape a = .self ∨
    (G.table.shape a).IsValue G.classes := by
  rcases G.value a h.has with hs | hs
  · rw [Atom, hs] at h
    exact h.elim
  · exact hs

theorem atom_of_isValue (h : (G.table.shape a).IsValue G.classes) : G.Atom a := h.isMember

/-- An instance is of one of the classes. -/
theorem Atom.lt (h : G.Atom a) {c : ClassId}
    (hs : G.table.shape a = .exact c ∨ G.table.shape a = .classObject c) :
    c.index < G.classes := by
  rcases h.shape with hself | hv
  · rw [hself] at hs
    rcases hs with hs | hs <;> cases hs
  · rcases hs with hs | hs <;> rwa [hs] at hv

theorem Atom.ne_below (h : G.Atom a) (c : ClassId) : G.table.shape a ≠ .below c := by
  intro hs
  rcases h.shape with hself | hv
  · rw [hself] at hs
    cases hs
  · rw [hs] at hv
    exact hv

theorem atom_initial (ha : initial.Has a) (hm : (initial.shape a).IsMember) : G.Atom a := by
  rw [Atom, G.wf.shape_initial ha]
  exact hm

theorem atom_object : G.Atom .object := atom_initial (by decide) trivial

theorem atom_nil : G.Atom .nil := atom_initial (by decide) trivial

theorem atom_self : G.Atom .self := atom_initial (by decide) trivial

theorem atom_bool : G.Atom .bool := atom_initial (by decide) trivial

theorem atom_int : G.Atom .int := atom_initial (by decide) trivial

theorem atom_float : G.Atom .float := atom_initial (by decide) trivial

/-! ## Twins -/

namespace Twins

theorem symm (h : G.Twins t u) : G.Twins u t := ⟨h.right, h.left, h.right_le, h.left_le⟩

theorem shape_left (h : G.Twins t u) (ha : G.Atom a) : t.shape a = G.table.shape a :=
  ha.has.shape_eq h.left_le

theorem shape_right (h : G.Twins t u) (ha : G.Atom a) : u.shape a = G.table.shape a :=
  ha.has.shape_eq h.right_le

theorem shape_eq (h : G.Twins t u) (ha : G.Atom a) : t.shape a = u.shape a :=
  (h.shape_left ha).trans (h.shape_right ha).symm

theorem members_left (h : G.Twins t u) (ha : G.Atom a) : t.members a = [a] :=
  members_of_isMember (by rw [h.shape_left ha]; exact ha)

theorem members_right (h : G.Twins t u) (ha : G.Atom a) : u.members a = [a] :=
  h.symm.members_left ha

theorem flags_eq (h : G.Twins t u) (ha : G.Atom a) : t.flags a = u.flags a :=
  (ha.has.flags_eq h.left_le).trans (ha.has.flags_eq h.right_le).symm

/-- Describing the type of a value finds it in the common table. -/
theorem intern_eq (h : G.Twins t u) {s : Shape} (hs : s.IsValue G.classes) :
    ∃ a, G.Atom a ∧ G.table.shape a = s ∧ intern s t = (a, t) ∧ intern s u = (a, u) := by
  obtain ⟨a, ha, rfl⟩ := G.described s hs
  have hatom := atom_of_isValue hs
  have hl := intern_shape (hatom.has.mono h.left_le)
  have hr := intern_shape (hatom.has.mono h.right_le)
  rw [h.shape_left hatom] at hl
  rw [h.shape_right hatom] at hr
  exact ⟨a, hatom, rfl, hl, hr⟩

end Twins

/-! ## Same types -/

namespace Same

theorem symm (h : G.Same t u a b) : G.Same u t b a :=
  ⟨h.right, h.left, h.members.symm, fun m hm => h.atoms m (h.members ▸ hm)⟩

theorem mono (h : G.Same t u a b) (hl : t ≤ t') (hr : u ≤ u') : G.Same t' u' a b where
  left := h.left.mono hl
  right := h.right.mono hr
  members := by rw [h.left.members_eq hl, h.right.members_eq hr, h.members]
  atoms := by
    rw [h.left.members_eq hl]
    exact h.atoms

theorem trans {v : TypeTable} (h : G.Same t u a b) (h' : G.Same u v b c) : G.Same t v a c :=
  ⟨h.left, h'.right, h.members.trans h'.members, h.atoms⟩

theorem atom (H : G.Twins t u) (ha : G.Atom a) : G.Same t u a a where
  left := ha.has.mono H.left_le
  right := ha.has.mono H.right_le
  members := by rw [H.members_left ha, H.members_right ha]
  atoms m hm := by
    rw [H.members_left ha, List.mem_singleton] at hm
    exact hm ▸ ha

theorem never (H : G.Twins t u) : G.Same t u .never .never where
  left := H.left.has_never
  right := H.right.has_never
  members := by rw [H.left.members_never, H.right.members_never]
  atoms := by simp [H.left.members_never]

theorem nil (H : G.Twins t u) : G.Same t u .nil .nil := atom H atom_nil

/-- Types with the same members, in whatever order these are given. -/
theorem of_mem_iff (H : G.Twins t u) (ha : t.Has a) (hb : u.Has b)
    (hm : ∀ m, m ∈ t.members a ↔ m ∈ u.members b) (hatom : ∀ m ∈ t.members a, G.Atom m) :
    G.Same t u a b :=
  ⟨ha, hb, Handle.eq_of_mem_iff H.left.pairwise_members H.right.pairwise_members hm, hatom⟩

theorem mem_iff (h : G.Same t u a b) : m ∈ t.members a ↔ m ∈ u.members b := by rw [h.members]

/-- Types are equal in one table if those that they are the same as are in the other. -/
theorem eq_iff (H : G.Twins t u) (h : G.Same t u a b) (h' : G.Same t u a' b') :
    a = a' ↔ b = b' := by
  constructor
  · rintro rfl
    exact H.right.ext_members h.right h'.right fun m => h.mem_iff.symm.trans h'.mem_iff
  · rintro rfl
    exact H.left.ext_members h.left h'.left fun m => h.mem_iff.trans h'.mem_iff.symm

theorem biUnique (H : G.Twins t u) : Relator.BiUnique (G.Same t u) :=
  ⟨fun _ _ _ h h' => (h.eq_iff H h').2 rfl, fun _ _ _ h h' => (h.eq_iff H h').1 rfl⟩

theorem eq_never (H : G.Twins t u) (h : G.Same t u a b) : a = .never ↔ b = .never :=
  h.eq_iff H (never H)

theorem eq_atom (H : G.Twins t u) (h : G.Same t u a b) (hc : G.Atom c) : a = c ↔ b = c :=
  h.eq_iff H (atom H hc)

theorem decide_eq_never (H : G.Twins t u) (h : G.Same t u a b) :
    decide (a = .never) = decide (b = .never) := by simp only [h.eq_never H]

theorem shape_eq (H : G.Twins t u) (h : G.Same t u a b) : t.shape a = u.shape b := by
  have hm := h.members
  cases hs : t.shape a with
  | never =>
    have hb : b = .never := (h.eq_never H).1 ((H.left.shape_eq_never h.left).1 hs)
    rw [hb, H.right.shape_never]
  | union ms =>
    have htwo := H.left.two_le hs
    rw [show t.members a = ms by simp [TypeTable.members, hs]] at hm
    cases hs' : u.shape b with
    | union ms' => simpa [TypeTable.members, hs'] using hm
    | never =>
      rw [show u.members b = [] by simp [TypeTable.members, hs']] at hm
      simp [hm] at htwo
    | _ =>
      rw [show u.members b = [b] by simp [TypeTable.members, hs']] at hm
      simp [hm] at htwo
  | _ =>
    have hself : a ∈ t.members a := mem_members_self (by rw [hs]; trivial)
    have hatom := h.atoms a hself
    have hb : b = a := ((h.eq_atom H hatom).1 rfl)
    rw [hb, ← hs, H.shape_eq hatom]

theorem splits (H : G.Twins t u) (h : G.Same t u a b) : Registry.Splits t a :=
  ⟨h.left, fun m hm c => by
    rw [H.shape_left (h.atoms m hm)]
    exact (h.atoms m hm).ne_below c⟩

theorem flags_eq (H : G.Twins t u) (h : G.Same t u a b) : t.flags a = u.flags b := by
  rw [H.left.flags_eq h.left, H.right.flags_eq h.right, ← h.shape_eq H]
  cases hs : t.shape a with
  | union ms =>
    have hms : ∀ m ∈ ms, G.Atom m := fun m hm => h.atoms m (by
      rwa [show t.members a = ms by simp [TypeTable.members, hs]])
    simp only [flagsOf]
    refine List.foldl_ext _ _ _ fun f m hm => ?_
    rw [H.flags_eq (hms m hm)]
  | _ => rfl

end Same

/-! ## Related computations -/

namespace Alike

variable {α α' β β' : Type} {x : StateM TypeTable α} {y : StateM TypeTable β}
  {R : TypeTable → TypeTable → α → β → Prop}

theorem pure (H : G.Twins t u) {r : α} {s : β} (h : R t u r s) :
    G.Alike t u (Pure.pure r) (Pure.pure s) R := ⟨H, le_refl t, le_refl u, h⟩

theorem mono {R' : TypeTable → TypeTable → α → β → Prop} (h : G.Alike t u x y R)
    (hR : ∀ t' u' r s, G.Twins t' u' → t ≤ t' → u ≤ u' → R t' u' r s → R' t' u' r s) :
    G.Alike t u x y R' := ⟨h.twins, h.left, h.right, hR _ _ _ _ h.twins h.left h.right h.post⟩

theorem bind {f : α → StateM TypeTable α'} {g : β → StateM TypeTable β'}
    {Q : TypeTable → TypeTable → α' → β' → Prop} (h : G.Alike t u x y R)
    (hf : ∀ t' u' r s, G.Twins t' u' → t ≤ t' → u ≤ u' → R t' u' r s →
      G.Alike t' u' (f r) (g s) Q) : G.Alike t u (x >>= f) (y >>= g) Q := by
  have h' := hf _ _ _ _ h.twins h.left h.right h.post
  exact ⟨h'.twins, le_trans h.left h'.left, le_trans h.right h'.right, h'.post⟩

theorem map {f : α → α'} {g : β → β'} {Q : TypeTable → TypeTable → α' → β' → Prop}
    (h : G.Alike t u x y R) (hf : ∀ t' u' r s, G.Twins t' u' → t ≤ t' → u ≤ u' → R t' u' r s →
      Q t' u' (f r) (g s)) : G.Alike t u (f <$> x) (g <$> y) Q :=
  ⟨h.twins, h.left, h.right, hf _ _ _ _ h.twins h.left h.right h.post⟩

/-- Computations that do the same on the tables at hand. -/
theorem congr {x' : StateM TypeTable α} {y' : StateM TypeTable β} (hx : x t = x' t)
    (hy : y u = y' u) (h : G.Alike t u x' y' R) : G.Alike t u x y R := by
  obtain ⟨twins, left, right, post⟩ := h
  rw [← hx, ← hy] at twins post
  exact ⟨twins, hx ▸ left, hy ▸ right, post⟩

/-- A computation that only the left side begins with. -/
theorem left_bind {f : α → StateM TypeTable α'} {y : StateM TypeTable β'}
    {Q : TypeTable → TypeTable → α' → β' → Prop} {P : α → TypeTable → Prop} (H : G.Twins t u)
    (hx : (x t).2.WF ∧ t ≤ (x t).2 ∧ P (x t).1 (x t).2)
    (hf : ∀ t' r, G.Twins t' u → t ≤ t' → P r t' → G.Alike t' u (f r) y Q) :
    G.Alike t u (x >>= f) y Q := by
  have h := hf _ _ ⟨hx.1, H.right, le_trans H.left_le hx.2.1, H.right_le⟩ hx.2.1 hx.2.2
  exact ⟨h.twins, le_trans hx.2.1 h.left, h.right, h.post⟩

/-- Branches taken on both sides or on neither. -/
theorem ite {p q : Prop} [Decidable p] [Decidable q] {x' : StateM TypeTable α}
    {y' : StateM TypeTable β} (hpq : p ↔ q) (hx : p → G.Alike t u x y R)
    (hx' : ¬ p → G.Alike t u x' y' R) :
    G.Alike t u (if p then x else x') (if q then y else y') R := by
  by_cases hp : p
  · rw [if_pos hp, if_pos (hpq.1 hp)]
    exact hx hp
  · rw [if_neg hp, if_neg (mt hpq.2 hp)]
    exact hx' hp

/-- Computations that look at their tables. -/
theorem get {f : TypeTable → StateM TypeTable α} {g : TypeTable → StateM TypeTable β}
    (h : G.Alike t u (f t) (g u) R) :
    G.Alike t u (do f (← MonadState.get)) (do g (← MonadState.get)) R :=
  ⟨h.twins, h.left, h.right, h.post⟩

section
variable {ε : Type}

/-- Computations that may end in an error, followed by others. -/
theorem bindExcept {x : ExceptT ε (StateM TypeTable) α} {y : ExceptT ε (StateM TypeTable) β}
    {f : α → ExceptT ε (StateM TypeTable) α'} {g : β → ExceptT ε (StateM TypeTable) β'}
    {Q : TypeTable → TypeTable → α' → β' → Prop}
    (h : G.Alike t u x.run y.run fun t u => Outcomes (R t u))
    (hf : ∀ t' u' r s, G.Twins t' u' → t ≤ t' → u ≤ u' → R t' u' r s →
      G.Alike t' u' (f r).run (g s).run fun t u => Outcomes (Q t u)) :
    G.Alike t u (x >>= f).run (y >>= g).run fun t u => Outcomes (Q t u) := by
  have : G.Alike t u (x.run >>= ExceptT.bindCont f) (y.run >>= ExceptT.bindCont g)
      fun t u => Outcomes (Q t u) := by
    refine h.bind fun t' u' r s H hl hr hrs => ?_
    match r, s with
    | .ok a, .ok b => exact hf t' u' a b H hl hr hrs
    | .error e, .error e' => exact .pure H hrs
  exact this

/-- Computations that cannot fail, as ones that may. -/
theorem lift (h : G.Alike t u x y R) :
    G.Alike t u (x : ExceptT ε (StateM TypeTable) α).run (y : ExceptT ε (StateM TypeTable) β).run
      fun t u => Outcomes (R t u) :=
  h.map (f := Except.ok) (g := Except.ok) fun _ _ _ _ _ _ _ h => h

/-- Going through two lists in parallel. -/
theorem mapM {A : α → α' → Prop} {f : α → ExceptT ε (StateM TypeTable) β}
    {g : α' → ExceptT ε (StateM TypeTable) β'} {B : TypeTable → TypeTable → β → β' → Prop}
    (hB : ∀ t u t' u' r s, t ≤ t' → u ≤ u' → B t u r s → B t' u' r s)
    {l : List α} {l' : List α'} (hl : List.Forall₂ A l l') :
    ∀ {t u : TypeTable}, G.Twins t u →
      (∀ t' u' r s, G.Twins t' u' → t ≤ t' → u ≤ u' → A r s →
        G.Alike t' u' (f r).run (g s).run fun t u => Outcomes (B t u)) →
      G.Alike t u (l.mapM f).run (l'.mapM g).run fun t u => Outcomes (List.Forall₂ (B t u)) := by
  induction hl with
  | nil =>
    intro t u H _
    rw [List.mapM_nil, List.mapM_nil]
    exact .pure H .nil
  | cons ha _ ih =>
    intro t u H hf
    rw [List.mapM_cons, List.mapM_cons]
    refine (hf t u _ _ H (le_refl t) (le_refl u) ha).bindExcept fun t₁ u₁ r s H₁ hl₁ hr₁ hrs => ?_
    refine (ih H₁ fun t' u' r s H' hl hr => hf t' u' r s H' (le_trans hl₁ hl)
      (le_trans hr₁ hr)).bindExcept fun t₂ u₂ rs ss H₂ hl₂ hr₂ hrss => ?_
    exact .pure H₂ (.cons (hB _ _ _ _ _ _ hl₂ hr₂ hrs) hrss)

end

end Alike

/-! ## Operations of the type table -/

theorem unionOf_alike (H : G.Twins t u) {as bs : List TypeId}
    (h : List.Forall₂ (G.Same t u) as bs) :
    G.Alike t u (unionOf as) (unionOf bs) G.Same := by
  have hs := unionOf_settles H.left fun a ha => by
    obtain ⟨b, -, hab⟩ := h.exists_of_mem_left ha
    exact hab.left
  have hs' := unionOf_settles H.right fun b hb => by
    obtain ⟨a, -, hab⟩ := h.exists_of_mem_right hb
    exact hab.right
  have twins : G.Twins (unionOf as t).2 (unionOf bs u).2 :=
    ⟨hs.wf, hs'.wf, le_trans H.left_le hs.le, le_trans H.right_le hs'.le⟩
  have hlater : List.Forall₂ (G.Same (unionOf as t).2 (unionOf bs u).2) as bs :=
    h.imp fun _ _ h => h.mono hs.le hs'.le
  refine ⟨twins, hs.le, hs'.le, .of_mem_iff twins hs.post.1 hs'.post.1 (fun m => ?_) fun m hm => ?_⟩
  · rw [hs.post.2, hs'.post.2]
    constructor
    · rintro ⟨a, ha, hm⟩
      obtain ⟨b, hb, hab⟩ := hlater.exists_of_mem_left ha
      exact ⟨b, hb, hab.mem_iff.1 hm⟩
    · rintro ⟨b, hb, hm⟩
      obtain ⟨a, ha, hab⟩ := hlater.exists_of_mem_right hb
      exact ⟨a, ha, hab.mem_iff.2 hm⟩
  · obtain ⟨a, ha, hma⟩ := (hs.post.2 m).1 hm
    obtain ⟨b, -, hab⟩ := hlater.exists_of_mem_left ha
    exact hab.atoms m hma

theorem union_alike (H : G.Twins t u) (ha : G.Same t u a b) (hb : G.Same t u a' b') :
    G.Alike t u (union a a') (union b b') G.Same := by
  unfold union
  exact .ite (or_congr (ha.eq_iff H hb) (hb.eq_never H)) (fun _ => .pure H ha) fun _ =>
    .ite (ha.eq_never H) (fun _ => .pure H hb) fun _ => unionOf_alike H (.cons ha (.cons hb .nil))

theorem orNil_alike (H : G.Twins t u) (h : G.Same t u a b) :
    G.Alike t u (orNil a) (orNil b) G.Same := union_alike H h (.nil H)

/-- Members taken over from a type. -/
theorem same_members (H : G.Twins t u) {l : List TypeId} (hl : ∀ m ∈ l, G.Atom m) :
    List.Forall₂ (G.Same t u) l l :=
  List.forall₂_same.2 fun m hm => .atom H (hl m hm)

theorem dropNil_alike (H : G.Twins t u) (h : G.Same t u a b) :
    G.Alike t u (dropNil a) (dropNil b) G.Same := by
  by_cases hn : (t.flags a).nilable = true
  · have hl : dropNil a t = unionOf ((t.members a).filter (· ≠ .nil)) t := by
      simp [dropNil, isNilable, hn]
    have hr : dropNil b u = unionOf ((t.members a).filter (· ≠ .nil)) u := by
      simp [dropNil, isNilable, ← h.flags_eq H, hn, h.members]
    exact (unionOf_alike H (same_members H fun m hm =>
      h.atoms m (List.mem_of_mem_filter hm))).congr hl hr
  · have hl : dropNil a t = (a, t) := by simp [dropNil, isNilable, hn]
    have hr : dropNil b u = (b, u) := by simp [dropNil, isNilable, ← h.flags_eq H, hn]
    exact (Alike.pure H h).congr hl hr

theorem forReceiver_alike (H : G.Twins t u) (h : G.Same t u a b) {receiver : TypeId}
    (hr : G.Atom receiver) :
    G.Alike t u (forReceiver a receiver) (forReceiver b receiver) G.Same := by
  set ms := (t.members a).map fun m => if m = .self then receiver else m with hms
  by_cases hn : (t.flags a).hasSelf = true
  · have hl : forReceiver a receiver t = unionOf ms t := by simp [forReceiver, hn, hms]
    have hr' : forReceiver b receiver u = unionOf ms u := by
      simp [forReceiver, ← h.flags_eq H, hn, hms, h.members]
    have hatoms : ∀ m ∈ ms, G.Atom m := fun m hm => by
      obtain ⟨n, hn, rfl⟩ := List.mem_map.1 hm
      split
      · exact hr
      · exact h.atoms n hn
    exact (unionOf_alike H (same_members H hatoms)).congr hl hr'
  · have hl : forReceiver a receiver t = (a, t) := by simp [forReceiver, hn]
    have hr' : forReceiver b receiver u = (b, u) := by simp [forReceiver, ← h.flags_eq H, hn]
    exact (Alike.pure H h).congr hl hr'

/-- Describing the type of a value, on both sides. -/
theorem intern_alike (H : G.Twins t u) {s : Shape} (hs : s.IsValue G.classes) :
    G.Alike t u (intern s) (intern s) fun _ _ a b =>
      b = a ∧ G.Atom a ∧ G.table.shape a = s := by
  obtain ⟨a, ha, hsa, hl, hr⟩ := H.intern_eq hs
  exact (Alike.pure H ⟨rfl, ha, hsa⟩).congr hl hr

theorem exact_alike (H : G.Twins t u) {c : ClassId} (hc : c.index < G.classes) :
    G.Alike t u (exact c) (exact c) fun _ _ a b => b = a ∧ G.Atom a ∧ G.table.shape a = .exact c :=
  intern_alike H hc

theorem classObject_alike (H : G.Twins t u) {c : ClassId} (hc : c.index < G.classes) :
    G.Alike t u (classObject c) (classObject c) fun _ _ a b =>
      b = a ∧ G.Atom a ∧ G.table.shape a = .classObject c :=
  intern_alike H hc

/-! ## Subtypes and texts -/

section
variable (h : Hierarchy) (H : G.Twins t u) (ha : G.Same t u a b)
include H ha

theorem isSubtype_eq (hb : G.Same t u a' b') : h.isSubtype t a a' = h.isSubtype u b b' := by
  simp only [Hierarchy.isSubtype, ← ha.members, ← hb.members, Hierarchy.memberBelow]
  rw [Bool.eq_iff_iff]
  simp only [List.all_eq_true, List.any_eq_true]
  refine forall₂_congr fun m hm => exists_congr fun n => and_congr_right fun hn => ?_
  rw [H.shape_eq (ha.atoms m hm), H.shape_eq (hb.atoms n hn)]

theorem typeText_eq (names : NameTable) : h.typeText t names a = h.typeText u names b := by
  rw [Hierarchy.typeText, Hierarchy.typeText, H.left.text_eq, H.right.text_eq, ← ha.members]
  exact textOf_congr fun m hm => by simp only [memberText, H.shape_eq (ha.atoms m hm)]

end

end Ground

end Multimethod
