/-!
# Shortest decimals

The text of a float is the decimal with the fewest digits among those that are nearer to it than to
any other float; of several the one closest to the float, and of two equally close the larger. It
is found by trying, for one digit, two digits and so on, the two decimals around the float.
-/

namespace Multimethod

/-- The number `coefficient * 10 ^ exponent`. -/
structure Decimal where
  coefficient : Nat
  exponent : Int
deriving DecidableEq, Repr

namespace Decimal

/-- A positive float is `num / den`; what reads back as it lies from `low / den` to `high / den`,
ends included if `closed`. -/
structure Rounding where
  num : Nat
  den : Nat
  low : Nat
  high : Nat
  closed : Bool
deriving Repr

/-- The float with a given magnitude as bits: neither zero nor infinite nor undefined. The float
below a power of two is half as far away as the one above. -/
def Rounding.ofBits (bits : Nat) : Rounding :=
  let field := bits / Nat.pow 2 52 % Nat.pow 2 11
  let fraction := bits % Nat.pow 2 52
  let m := if field = 0 then fraction else Nat.pow 2 52 + fraction
  let scale := Nat.pow 2 (max field 1 - 1)
  { num := 4 * m * scale
    den := Nat.pow 2 1076
    low := (if fraction = 0 ∧ 1 < field then 4 * m - 1 else 4 * m - 2) * scale
    high := (4 * m + 2) * scale
    closed := m % 2 = 0 }

namespace Rounding

/-- `n / den` compared with the decimal `c * 10 ^ e`, both scaled to natural numbers. -/
def scaled (r : Rounding) (n : Nat) (d : Decimal) : Nat × Nat :=
  (n * Nat.pow 10 (-d.exponent).toNat, d.coefficient * Nat.pow 10 d.exponent.toNat * r.den)

/-- Whether a decimal reads back as the float. -/
def readsBack (r : Rounding) (d : Decimal) : Bool :=
  let (low, x) := r.scaled r.low d
  let (high, y) := r.scaled r.high d
  if r.closed then low ≤ x ∧ y ≤ high else low < x ∧ y < high

/-- Whether the upper of two neighbouring decimals `lower` and `lower + 1` is at least as close. -/
def upperCloser (r : Rounding) (lower : Decimal) : Bool :=
  let (n, x) := r.scaled (2 * r.num) { lower with coefficient := 2 * lower.coefficient + 1 }
  x ≤ n

/-- The decimals with exponent `e` around the float, cut down to those that read back. -/
def around (r : Rounding) (e : Int) : List Decimal :=
  let lower : Decimal := ⟨r.num * Nat.pow 10 (-e).toNat / (Nat.pow 10 e.toNat * r.den), e⟩
  let upper := { lower with coefficient := lower.coefficient + 1 }
  (if r.upperCloser lower then [upper, lower] else [lower, upper]).filter r.readsBack

/-- How many digits the float has before the point; if none, less the zeros after it. -/
def magnitude (r : Rounding) : Int :=
  (Nat.toDigits 10 (r.num * Nat.pow 10 400 / r.den)).length - 400

/-- The shortest decimal that reads back as the float. Seventeen digits always suffice. -/
def shortest (r : Rounding) : Decimal :=
  (((List.range 17).findSome? fun (n : Nat) => (r.around (r.magnitude - (n + 1))).head?)).getD
    ⟨r.num * Nat.pow 10 1076 / r.den, -1076⟩

end Rounding

end Decimal

end Multimethod
