import Multimethod.Proofs.Hierarchy.Declare
import Multimethod.Proofs.Type.Value

/-!
# The types of the values of the classes

Declaring a class describes the type of its instances and that of its class object, and no other
type (`has_declare`). So once classes are declared, exactly the types of their values are described,
and no unions of them (`Grounded`).
-/

namespace Multimethod.Hierarchy

open TypeTable

variable {h : Hierarchy} {t : TypeTable} {a : TypeId}

/-! ## What declaring describes -/

/-- A new class comes with the types of its values. -/
theorem has_add (H : t.WF) {n : Name} {span : Span} (ha : (h.add n span t).2.Has a) :
    t.Has a ∨ ((h.add n span t).2.shape a).IsValue (h.add n span t).1.size := by
  cases hf : h.find? n with
  | some c =>
    rw [add_of_find? hf] at ha
    exact .inl ha
  | none =>
    obtain ⟨h', hadd, hsize, -⟩ := add_of_find?_none (t := t) hf span
    rw [hadd] at ha ⊢
    have hnew : h.size < h'.size := by omega
    have hexact := exact_settles H ⟨h.size⟩
    have hobject := classObject_settles hexact.wf ⟨h.size⟩
    rcases has_intern ha with ha | hshape
    · refine (has_intern ha).imp_right fun hshape => ?_
      rw [ha.shape_eq hobject.le, TypeTable.exact, hshape]
      exact hnew
    · exact .inr (hshape ▸ hnew)

theorem described_add (H : t.WF) {n : Name} {span : Span} {s : Shape}
    (hs : s.IsValue (h.add n span t).1.size) :
    s.IsValue h.size ∨ ∃ a, (h.add n span t).2.Has a ∧ (h.add n span t).2.shape a = s := by
  cases hf : h.find? n with
  | some c =>
    rw [add_of_find? hf] at hs
    exact .inl hs
  | none =>
    obtain ⟨h', hadd, hsize, -⟩ := add_of_find?_none (t := t) hf span
    rw [hadd] at hs ⊢
    have hexact := exact_settles H ⟨h.size⟩
    have hobject := classObject_settles hexact.wf ⟨h.size⟩
    have new {c : ClassId} (hc : c.index < h'.size) (hne : ¬ c.index < h.size) : c = ⟨h.size⟩ :=
      Handle.ext_index (show c.index = h.size by omega)
    cases s with
    | exact c =>
      refine or_iff_not_imp_left.2 fun hne => ?_
      obtain rfl := new hs hne
      obtain ⟨ha, hshape⟩ := hexact.post
      exact ⟨_, ha.mono hobject.le, (ha.shape_eq hobject.le).trans hshape⟩
    | classObject c =>
      refine or_iff_not_imp_left.2 fun hne => ?_
      obtain rfl := new hs hne
      exact ⟨_, hobject.post⟩
    | _ => exact hs.elim

theorem has_declare (H : t.WF) (names : NameTable) (ds : List ClassDecl)
    (ha : (h.declare names ds t).2.Has a) :
    t.Has a ∨ ((h.declare names ds t).2.shape a).IsValue (h.declare names ds t).1.2.size := by
  let Adds (h' : Hierarchy) (t' : TypeTable) : Prop := Declared h t h' t' ∧
    ∀ a, t'.Has a → t.Has a ∨ (t'.shape a).IsValue h'.size
  have hadds : Adds (h.declare names ds t).1.2 (h.declare names ds t).2 := by
    apply declare_induction
    · intro h' t' n span hadds
      obtain ⟨hd, hvalue⟩ := hadds
      have hd' := (Declared.add (h := h') hd.wf n span).1
      refine ⟨hd.trans hd', fun a ha => ?_⟩
      rcases has_add hd.wf ha with hold | hnew
      · rw [hold.shape_eq hd'.types]
        exact (hvalue a hold).imp_right fun hv => hv.mono hd'.size
      · exact .inr hnew
    · intro h' t' c p hadds
      obtain ⟨hd, hvalue⟩ := hadds
      refine ⟨hd.trans (.place hd.wf c p), ?_⟩
      rw [size_place]
      exact hvalue
    · exact ⟨.refl H, fun _ => .inl⟩
  exact hadds.2 a ha

/-! ## Nothing but the types of values -/

/-- What is described, besides the empty type and the placeholder, are the types of the values of
the classes. Those of the predefined instances are there before their classes are. -/
structure Grounded (h : Hierarchy) (t : TypeTable) : Prop where
  wf : t.WF
  value : ∀ a, t.Has a → t.shape a = .never ∨ t.shape a = .self ∨
    (t.shape a).IsValue (max 5 h.size)
  described : ∀ s : Shape, s.IsValue h.size → ∃ a, t.Has a ∧ t.shape a = s

namespace Grounded

theorem empty : Grounded ⟨∅⟩ .initial where
  wf := initial_wf
  value a ha := by
    have instances {a : TypeId} {c : ClassId} (hs : TypeTable.initial.shape a = .exact c)
        (hc : c.index < 5) : TypeTable.initial.shape a = .never ∨
          TypeTable.initial.shape a = .self ∨ (TypeTable.initial.shape a).IsValue (max 5 0) :=
      .inr (.inr (hs ▸ hc))
    have hlt : a.index < 7 := by
      have : TypeTable.initial.size = 7 := by rw [TypeTable.size, Catalog.size, initial_shapes]; rfl
      exact this ▸ ha
    obtain ⟨i⟩ := a
    have hi : i = 0 ∨ i = 1 ∨ i = 2 ∨ i = 3 ∨ i = 4 ∨ i = 5 ∨ i = 6 := by
      have : i < 7 := hlt
      omega
    rcases hi with rfl | rfl | rfl | rfl | rfl | rfl | rfl
    · exact .inl initial_wf.shape_never
    · exact instances initial_wf.shape_object (by decide)
    · exact instances initial_wf.shape_nil (by decide)
    · exact instances initial_wf.shape_bool (by decide)
    · exact instances initial_wf.shape_int (by decide)
    · exact instances initial_wf.shape_float (by decide)
    · exact .inr (.inl (by simp [shape, Catalog.get?, initial_shapes]))
  described s hs := by
    cases s with
    | exact c | classObject c => exact absurd hs (Nat.not_lt_zero _)
    | _ => exact hs.elim

/-- The types of the values of one more class. -/
theorem add (G : h.Grounded t) (n : Name) (span : Span) :
    (h.add n span t).1.Grounded (h.add n span t).2 := by
  have hd := (Declared.add (h := h) G.wf n span).1
  refine ⟨hd.wf, fun a ha => ?_, fun s hs => ?_⟩
  · rcases has_add G.wf ha with hold | hnew
    · rw [hold.shape_eq hd.types]
      have hmax : max 5 h.size ≤ max 5 (h.add n span t).1.size := max_le_max_left 5 hd.size
      exact (G.value a hold).imp_right fun hv => hv.imp_right fun hv => hv.mono hmax
    · exact .inr (.inr (hnew.mono (Nat.le_max_right _ _)))
  · rcases described_add G.wf hs with hold | hnew
    · obtain ⟨a, ha, rfl⟩ := G.described s hold
      exact ⟨a, ha.mono hd.types, ha.shape_eq hd.types⟩
    · exact hnew

theorem place (G : h.Grounded t) (c p : ClassId) : (h.place c p).Grounded t := by
  have hsize := size_place (h := h) c p
  exact ⟨G.wf, by rw [hsize]; exact G.value, by rw [hsize]; exact G.described⟩

theorem predefined (core : CoreNames) :
    (Hierarchy.initial core .initial).1.Grounded (Hierarchy.initial core .initial).2 :=
  initial_induction (motive := Grounded) (fun _ _ n span G => G.add n span)
    (fun _ _ c p G => G.place c p) core empty

/-- However classes are declared, the types of their values are described. -/
theorem declare (G : h.Grounded t) (names : NameTable) (ds : List ClassDecl) :
    (h.declare names ds t).1.2.Grounded (h.declare names ds t).2 :=
  declare_induction (motive := Grounded) (fun _ _ n span G => G.add n span)
    (fun _ _ c p G => G.place c p) names ds G

end Grounded

end Multimethod.Hierarchy
