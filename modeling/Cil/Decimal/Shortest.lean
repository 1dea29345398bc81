import Cil.Decimal.Binary

/-! The shortest decimal that reads back as a given binary number.

A decimal reads back as `m * 2 ^ q` when it lies between the midpoints to the
neighbouring numbers; the midpoints themselves belong to an even mantissa. The
search goes through ever finer grids `10 ^ e` and stops at the first that has a
point there. Only the two points next to the number need a look: if any point of
the grid lies in the interval, so does one of them. Of two, the nearer is taken,
and the upper one if both are as near. -/
namespace Cil.Decimal

/-- The decimal `coefficient * 10 ^ exponent`. -/
structure Scientific where
  coefficient : Nat
  exponent : Int
  deriving DecidableEq, Repr

/-- `2 ^ q / 10 ^ e` as a fraction of naturals. -/
def ratio (q e : Int) : Nat × Nat :=
  (Nat.pow 2 q.toNat * Nat.pow 10 (-e).toNat, Nat.pow 2 (-q).toNat * Nat.pow 10 e.toNat)

/-- The multiple of `10 ^ e` that reads back as `x`, if there is one next to it.
All lengths are counted in quarters of the last place of `x`. -/
def pointOn? (x : Magnitude) (e : Int) : Option Nat :=
  let (num, den) := ratio (x.exponent - 2) e
  let value := 4 * x.mantissa * num
  let low := (4 * x.mantissa - if x.narrow then 1 else 2) * num
  let high := (4 * x.mantissa + 2) * num
  let reads (d : Nat) : Bool :=
    if x.mantissa % 2 = 0 then low ≤ d * den && d * den ≤ high
    else low < d * den && d * den < high
  let below := value / den
  if reads below then
    if reads (below + 1) && (below + 1) * den - value ≤ value - below * den then some (below + 1)
    else some below
  else if reads (below + 1) then some (below + 1)
  else none

/-- The first hit on the grids `10 ^ e`, `10 ^ (e - 1)`, … . -/
def search (x : Magnitude) : (grids : Nat) → (e : Int) → Scientific
  | 0, e => ⟨4 * x.mantissa * (ratio (x.exponent - 2) e).1 / (ratio (x.exponent - 2) e).2, e⟩
  | grids + 1, e =>
    match pointOn? x e with
    | some d => ⟨d, e⟩
    | none => search x grids (e - 1)

/-- A grid too coarse for `x`: `10 ^ coarse x` is above `x` and its upper midpoint. -/
def coarse (x : Magnitude) : Int :=
  (x.exponent + (Nat.log2 x.mantissa + 1 : Nat)) * 30103 / 100000 + 2

/-- The shortest decimal that reads back as `x`. Seventeen digits always suffice for
the formats in use, and `coarse` is at most three grids above the first digit. -/
def shortest (x : Magnitude) : Scientific := search x 24 (coarse x)

end Cil.Decimal
