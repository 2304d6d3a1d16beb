import Multimethod.Span

/-!
# Diagnostics

A diagnostic is what is shown to the user: an error code, a message, the places it is about and
notes. `Diagnostic.text` lays it out as plain text.
-/

namespace Multimethod

/-- Error codes. The first digit is the phase: 2 for checking, 6 for running. -/
inductive ErrorCode where
  /-- An argument's type violates a restriction. -/
  | E2001
  /-- A class is not defined. -/
  | E2002
  /-- No overload matches a call. -/
  | E2003
  /-- Inference did not reach a fixed point. -/
  | E2005
  /-- A definition is repeated. -/
  | E2006
  /-- A required parameter follows one with a default. -/
  | E2007
  /-- A superclass clause contradicts the hierarchy. -/
  | E2008
  /-- A call has no dispatch row for its arguments. -/
  | E6001
  /-- Calls are nested too deeply. -/
  | E6002
  /-- A constant is not defined. -/
  | E6003
  /-- Integer arithmetic overflowed. -/
  | E6004
deriving DecidableEq, Repr

namespace ErrorCode

def text : ErrorCode → String
  | E2001 => "E2001"
  | E2002 => "E2002"
  | E2003 => "E2003"
  | E2005 => "E2005"
  | E2006 => "E2006"
  | E2007 => "E2007"
  | E2008 => "E2008"
  | E6001 => "E6001"
  | E6002 => "E6002"
  | E6003 => "E6003"
  | E6004 => "E6004"

/-- Whether the code belongs to the checking phase. -/
def isTypeError : ErrorCode → Bool
  | E2001 | E2002 | E2003 | E2005 | E2006 | E2007 | E2008 => true
  | E6001 | E6002 | E6003 | E6004 => false

end ErrorCode

/-- How grave a diagnostic is. -/
inductive Severity where
  | error
deriving DecidableEq, Repr

def Severity.text : Severity → String
  | .error => "error"

/-- A place with a remark on it. -/
structure Label where
  span : Span
  message : String
  /-- Whether this is the place the diagnostic is about. -/
  primary : Bool
deriving DecidableEq, Repr

structure Diagnostic where
  code : ErrorCode
  severity : Severity
  message : String
  labels : List Label
  notes : List String
deriving DecidableEq, Repr

namespace Diagnostic

/-- An error with nothing said about it yet. -/
def error (code : ErrorCode) : Diagnostic := ⟨code, .error, "", [], []⟩

def say (d : Diagnostic) (message : String) : Diagnostic := { d with message }

def pointAt (d : Diagnostic) (span : Span) (message : String) : Diagnostic :=
  { d with labels := d.labels ++ [⟨span, message, true⟩] }

def mention (d : Diagnostic) (span : Span) (message : String) : Diagnostic :=
  { d with labels := d.labels ++ [⟨span, message, false⟩] }

def addNote (d : Diagnostic) (note : String) : Diagnostic :=
  { d with notes := d.notes ++ [note] }

def isError (d : Diagnostic) : Bool := d.severity = .error

/-- The span of the first primary label. -/
def primarySpan (d : Diagnostic) : Option Span := (d.labels.find? (·.primary)).map (·.span)

/-- One line for the error itself, then one for each label and each note. -/
def lines (d : Diagnostic) : List String :=
  (d.severity.text ++ "[" ++ d.code.text ++ "]: " ++ d.message) ::
    d.labels.map (fun l => "  at " ++ l.span.text ++ ": " ++ l.message) ++
    d.notes.map ("  = note: " ++ ·)

def text (d : Diagnostic) : String := "\n".intercalate d.lines

end Diagnostic

end Multimethod
