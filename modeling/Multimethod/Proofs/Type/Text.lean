import Multimethod.Proofs.Type.Table
import Multimethod.Type.Text

/-!
# Texts and members

The text of a type says which members it has and nothing else, so two types with the same members
have the same text even if they are described in different tables (`TypeTable.WF.text_eq`).
-/

namespace Multimethod.TypeTable

variable {t u : TypeTable} {ms : List TypeId} (className : ClassId → String)

/-- The text of the type that has some members. -/
def textOf (t : TypeTable) : List TypeId → String
  | [] => "NoReturn"
  | [m] => t.memberText className m
  | [m, n] =>
    if m = .nil then t.memberText className n ++ "?"
    else if n = .nil then t.memberText className m ++ "?"
    else t.memberText className m ++ " | " ++ t.memberText className n
  | ms => " | ".intercalate (ms.map (t.memberText className))

theorem memberText_mono {m : TypeId} (hm : t.Has m) (hle : t ≤ u) :
    u.memberText className m = t.memberText className m := by
  simp only [memberText, hm.shape_eq hle]

theorem textOf_congr {className className' : ClassId → String}
    (h : ∀ m ∈ ms, u.memberText className' m = t.memberText className m) :
    u.textOf className' ms = t.textOf className ms := by
  match ms with
  | [] => rfl
  | [m] => exact h m (by simp)
  | [m, n] => simp only [textOf, h m (by simp), h n (by simp)]
  | _ :: _ :: _ :: _ => simp only [textOf, List.map_congr_left h]

theorem textOf_mono (hms : ∀ m ∈ ms, t.Has m) (hle : t ≤ u) :
    u.textOf className ms = t.textOf className ms :=
  textOf_congr fun m hm => memberText_mono className (hms m hm) hle

theorem text_eq {a : TypeId} (h : ∀ ms, t.shape a = .union ms → 2 ≤ ms.length) :
    t.text className a = t.textOf className (t.members a) := by
  cases hs : t.shape a with
  | never => simp only [text, memberText, members, hs, textOf]
  | union ms =>
    have hlen := h ms hs
    simp only [text, members, hs]
    rcases ms with _ | ⟨m, _ | ⟨n, _ | ⟨k, ms⟩⟩⟩
    · cases hlen
    · exact absurd hlen (by simp)
    · rfl
    · rfl
  | _ => simp only [text, members, hs, textOf]

theorem WF.text_eq (H : t.WF) (a : TypeId) :
    t.text className a = t.textOf className (t.members a) :=
  TypeTable.text_eq className fun _ => H.two_le

/-- The text of a type stays the same. -/
theorem text_mono (H : t.WF) {a : TypeId} (ha : t.Has a) (hle : t ≤ u) :
    u.text className a = t.text className a := by
  have hu : ∀ ms, u.shape a = .union ms → 2 ≤ ms.length := by
    rw [ha.shape_eq hle]
    exact fun _ => H.two_le
  rw [text_eq className hu, H.text_eq, ha.members_eq hle]
  exact textOf_mono className (fun m hm => (H.isMember_of_mem ha hm).1) hle

end Multimethod.TypeTable
