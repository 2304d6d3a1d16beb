import Multimethod.Type.Table

/-!
# The text of a type

The empty type reads `NoReturn`, a class with everything below it `C+`, a class object `C.class`
and the placeholder `self`. A type made nilable reads `T?`; other unions list their members.
-/

namespace Multimethod.TypeTable

variable (className : ClassId → String)

/-- The text of a type that is no union. -/
def memberText (t : TypeTable) (a : TypeId) : String :=
  match t.shape a with
  | .never => "NoReturn"
  | .exact c => className c
  | .below c => className c ++ "+"
  | .classObject c => className c ++ ".class"
  | .self => "self"
  | .union _ => ""

/-- The text of a type, `className` giving the names of classes. -/
def text (t : TypeTable) (a : TypeId) : String :=
  match t.shape a with
  | .union [m, n] =>
    if m = .nil then t.memberText className n ++ "?"
    else if n = .nil then t.memberText className m ++ "?"
    else t.memberText className m ++ " | " ++ t.memberText className n
  | .union members => " | ".intercalate (members.map (t.memberText className))
  | _ => t.memberText className a

end Multimethod.TypeTable
