import Multimethod.Proofs.Hierarchy.Growth
import Multimethod.Proofs.Type.Legible

/-!
# Types of classes are told apart by their texts

Classes have different names, and names have different texts. So if the names of classes are words
other than those that types have of their own, a type is known by its text (`reachable_legible`).
-/

namespace Multimethod.Hierarchy

open Relation TypeTable

variable {h : Hierarchy} {t : TypeTable} {names : NameTable}

/-- The names of the classes are words, and not the texts of types that name no class. -/
def Worded (h : Hierarchy) (names : NameTable) : Prop :=
  ∀ c : ClassId, c.index < h.size → IsWord (names.text (h.name c)) ∧
    names.text (h.name c) ≠ "NoReturn" ∧ names.text (h.name c) ≠ "self"

/-- A class is known by the text of its name. -/
theorem Worded.legible (hw : h.Worded names) (hn : names.Reachable) :
    Legible (fun c => names.text (h.name c)) fun c => c.index < h.size where
  word c hc := (hw c hc).1
  ne_never c hc := (hw c hc).2.1
  ne_self c hc := (hw c hc).2.2
  inj c d hc hd he := by
    have hnc := NameTable.names_text (hw c hc).1.ne_empty
    have hnd := NameTable.names_text (hw d hd).1.ne_empty
    rw [← he] at hnd
    have hname := hn.name_unique hnc hnd
    have hfind : h.find? (h.name d) = some c := find?_iff.2 ⟨hc, hname⟩
    exact Option.some.inj (hfind.symm.trans (find?_iff.2 ⟨hd, rfl⟩))

/-- Whatever types have been described and whatever classes declared, types with the same text are
the same if the classes that they name are there, which in a session they are. -/
theorem reachable_legible (hr : Reachable h t) (hn : names.Reachable) (hw : h.Worded names) :
    (∀ a b, t.Has a → t.Has b → h.Over t a → h.Over t b →
      (h.typeText t names a = h.typeText t names b ↔ a = b)) ∧
    (Session h t → ∀ a, t.Has a → h.Over t a) := by
  have H := hr.described.types
  refine ⟨fun a b ha hb hna hnb => ?_, fun hs a ha => hs.covers.2.types_over H ha⟩
  exact H.text_inj (hw.legible hn) ha hb hna hnb

/-- Names for the predefined classes and two more. -/
def lettered : NameTable :=
  (NameTable.intern "Leaf" (NameTable.intern "Node_1" (CoreNames.intern {}).2).2).2

theorem lettered_reachable : lettered.Reachable := by
  have hcore : (CoreNames.intern {}).2.Reachable :=
    (((((((NameTable.Reachable.empty.intern "new").intern "allocate").intern "initialize").intern
      "Object").intern "Nil").intern "Bool").intern "Int").intern "Float"
  exact (hcore.intern "Node_1").intern "Leaf"

theorem crossed_worded : crossed.1.Worded lettered := by
  have hsize : crossed.1.size = 7 := by decide +kernel
  have htexts : ∀ i, i < 7 → lettered.text (crossed.1.name ⟨i⟩) ∈
      ["Object", "Nil", "Bool", "Int", "Float", "Node_1", "Leaf"] := by decide +kernel
  have hwords : ∀ s ∈ ["Object", "Nil", "Bool", "Int", "Float", "Node_1", "Leaf"],
      IsWord s ∧ s ≠ "NoReturn" ∧ s ≠ "self" := by
    intro s hs
    simp only [List.mem_cons, List.not_mem_nil, or_false] at hs
    rcases hs with rfl | rfl | rfl | rfl | rfl | rfl | rfl <;>
      exact ⟨.of_alphanum (by decide) (by simp), by decide, by decide⟩
  exact fun c hc => hwords _ (htexts c.index (hsize ▸ hc))

/-- A class and its class object read differently, and are different. -/
theorem reachable_legible_crossed : Reachable crossed.1 crossed.2 ∧ lettered.Reachable ∧
    crossed.1.Worded lettered ∧ Session crossed.1 crossed.2 ∧
      (∀ a b, crossed.2.Has a → crossed.2.Has b →
        (crossed.1.typeText crossed.2 lettered a =
          crossed.1.typeText crossed.2 lettered b ↔ a = b)) ∧
      crossed.1.typeText crossed.2 lettered ⟨12⟩ = "Node_1" ∧
        crossed.1.typeText crossed.2 lettered ⟨13⟩ = "Node_1.class" := by
  obtain ⟨hlegible, hover⟩ := reachable_legible crossed_reachable lettered_reachable crossed_worded
  have hover := hover crossed_session
  exact ⟨crossed_reachable, lettered_reachable, crossed_worded, crossed_session,
    fun a b ha hb => hlegible a b ha hb (hover a ha) (hover b hb), by decide +kernel,
    by decide +kernel⟩

end Multimethod.Hierarchy
