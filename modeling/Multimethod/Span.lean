/-!
# Source spans

A span is a half-open range of offsets.
-/

namespace Multimethod

/-- The offsets from `start` up to, not including, `stop`. -/
structure Span where
  start : Nat
  stop : Nat
deriving DecidableEq, Repr, Inhabited

namespace Span

/-- The span of what no source text stands for. -/
def dummy : Span := ⟨0, 0⟩

/-- The span of one place. -/
def single (start : Nat) : Span := ⟨start, start + 1⟩

def length (s : Span) : Nat := s.stop - s.start

def isEmpty (s : Span) : Bool := s.start = s.stop

/-- The least span that covers both. -/
def merge (s t : Span) : Span := ⟨min s.start t.start, max s.stop t.stop⟩

def text (s : Span) : String := toString s.start ++ ".." ++ toString s.stop

theorem merge_comm (s t : Span) : s.merge t = t.merge s := by
  simp [merge, Nat.min_comm, Nat.max_comm]

end Span

end Multimethod
