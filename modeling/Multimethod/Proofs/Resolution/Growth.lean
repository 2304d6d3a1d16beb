import Multimethod.Proofs.Hierarchy.Tree
import Multimethod.Proofs.Type.Settles
import Multimethod.Proofs.Type.Text

/-!
# Look-up on a growing table

Subtyping, the candidates of a call and the texts of types and signatures are the same when more
types are described.
-/

namespace Multimethod

open TypeTable

variable {t u v : TypeTable} {a b m n : TypeId}

namespace Hierarchy

variable (h : Hierarchy)

theorem isSubtype_mono (H : t.WF) (ha : t.Has a) (hb : t.Has b) (hle : t ≤ u) :
    h.isSubtype u a b = h.isSubtype t a b := by
  simp only [isSubtype, ha.members_eq hle, hb.members_eq hle]
  rw [Bool.eq_iff_iff]
  simp only [List.all_eq_true, List.any_eq_true, memberBelow]
  refine forall₂_congr fun m hm => exists_congr fun n => and_congr_right fun hn => ?_
  rw [(H.isMember_of_mem ha hm).1.shape_eq hle, (H.isMember_of_mem hb hn).1.shape_eq hle]

theorem isSubtype_iff : h.isSubtype t a b = true ↔
    ∀ m ∈ t.members a, ∃ n ∈ t.members b, h.memberBelow t m n = true := by
  simp [isSubtype]

/-- Fewer members, still below. -/
theorem isSubtype_of_subset {a' : TypeId} (hs : ∀ m ∈ t.members a', m ∈ t.members a)
    (hab : h.isSubtype t a b = true) : h.isSubtype t a' b = true :=
  (h.isSubtype_iff).2 fun m hm => (h.isSubtype_iff).1 hab m (hs m hm)

theorem typeText_mono (H : t.WF) (ha : t.Has a) (hle : t ≤ u) (names : NameTable) :
    h.typeText u names a = h.typeText t names a := text_mono _ H ha hle

end Hierarchy

namespace MethodTable

variable (ms : MethodTable) (h : Hierarchy)

theorem candidates_mono {receiver : Option TypeId} (hr : ∀ a ∈ receiver, t.Has a) (hle : t ≤ u)
    (k : Name) : ms.candidates h u k receiver = ms.candidates h t k receiver := by
  cases receiver with
  | none => rfl
  | some a => simp [candidates, (hr a rfl).shape_eq hle]

theorem understands_mono (H : t.WF) (ha : t.Has a) (hle : t ≤ u) (k : Name) :
    ms.understands h u k a = ms.understands h t k a := by
  simp only [understands, ha.members_eq hle]
  rw [Bool.eq_iff_iff]
  simp only [List.any_eq_true]
  refine exists_congr fun m => and_congr_right fun hm => ?_
  rw [ms.candidates_mono h (fun b hb => by
    cases hb; exact (H.isMember_of_mem ha hm).1) hle]

theorem paramText_mono (H : t.WF) (hle : t ≤ u) (names : NameTable) (p : Param)
    {r : Option TypeId} (hr : ∀ a ∈ r, t.Has a) :
    paramText h u names p r = paramText h t names p r := by
  cases r with
  | none => rfl
  | some a =>
    simp only [paramText, Option.map_some, h.typeText_mono H (hr a rfl) hle names]

theorem paramTexts_mono (H : t.WF) (hle : t ≤ u) (names : NameTable) (ps : List Param)
    {rs : List (Option TypeId)} (hr : ∀ r ∈ rs, ∀ a ∈ r, t.Has a) :
    List.zipWith (paramText h u names) ps rs = List.zipWith (paramText h t names) ps rs := by
  induction ps generalizing rs with
  | nil => rw [List.zipWith_nil_left, List.zipWith_nil_left]
  | cons p ps ih =>
    cases rs with
    | nil => rw [List.zipWith_nil_right, List.zipWith_nil_right]
    | cons r rs =>
      rw [List.zipWith_cons_cons, List.zipWith_cons_cons,
        ih fun q hq => hr q (.tail _ hq), paramText_mono h H hle names p (hr r (.head _))]

theorem signatureOf_mono (H : t.WF) (hle : t ≤ u) (names : NameTable) {m : Method}
    (hr : ∀ r ∈ m.restrictions, ∀ a ∈ r, t.Has a) :
    signatureOf h u names m = signatureOf h t names m := by
  unfold signatureOf
  rw [paramTexts_mono h H hle names m.definition.params hr]

theorem signature_mono (H : t.WF)
    (D : ∀ m md i a, ms.get? m = some md → md.declared i = some a → t.Has a) (hle : t ≤ u)
    (names : NameTable) (m : MethodId) :
    ms.signature h u names m = ms.signature h t names m := by
  refine congrArg (Option.getD · "") (Option.map_congr fun md hm => ?_)
  refine signatureOf_mono h H hle names fun r hr a ha => ?_
  obtain ⟨i, hi⟩ := List.getElem?_of_mem hr
  refine D m md i a hm ?_
  rw [Method.declared, hi, Option.mem_def.1 ha]
  rfl

theorem signatures_mono (H : t.WF)
    (D : ∀ m md i a, ms.get? m = some md → md.declared i = some a → t.Has a) (hle : t ≤ u)
    (names : NameTable) (k : Name) {receiver : Option TypeId} (hr : ∀ a ∈ receiver, t.Has a) :
    ms.signatures h u names k receiver = ms.signatures h t names k receiver := by
  simp only [signatures, funext fun m => ms.signature_mono h H D hle names m]
  congr 2
  cases receiver with
  | none => rfl
  | some a =>
    have ha := hr a rfl
    simp only [ha.members_eq hle, List.flatMap_map]
    refine List.flatMap_congr fun m hm => ?_
    exact ms.candidates_mono h (fun b hb => by
      cases hb; exact (H.isMember_of_mem ha hm).1) hle k

end MethodTable

namespace Registry

variable (g : Registry)

theorem isSubtype_mono (H : t.WF) (ha : t.Has a) (hb : t.Has b) (hle : t ≤ u) :
    g.isSubtype u a b = g.isSubtype t a b := g.hierarchy.isSubtype_mono H ha hb hle

/-- The restrictions of all methods are types of the table. -/
def Described (t : TypeTable) : Prop :=
  ∀ m md i a, g.methods.get? m = some md → md.declared i = some a → t.Has a

variable {g}

theorem Described.mono (D : g.Described t) (hle : t ≤ u) : g.Described u :=
  fun m md i a h h' => (D m md i a h h').mono hle

end Registry

end Multimethod
