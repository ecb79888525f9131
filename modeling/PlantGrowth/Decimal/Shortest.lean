/-!
# Shortest decimal in a rounding cell

A binary number stands for every real that rounds to it, an interval around its
exact value. `Cell.shortest` finds the decimal with the fewest digits in that
interval, and of two such decimals the nearer one: it tries the grids of multiples
of ten, coarsest first, and on each grid the two neighbours of the exact value. If
any point of a grid lies in the interval, so does one of those two. Where both are
equally near, the written form decides (`Tie`).
-/

namespace PlantGrowth.Decimal

/-- Decimal number `coefficient * 10 ^ exponent`. -/
structure Numeral where
  coefficient : Nat
  exponent : Int

/-- Choice between two neighbours on a grid that are equally near. -/
inductive Tie where
  /-- The neighbour with the even coefficient. -/
  | even
  /-- The larger neighbour. -/
  | up

/-- The neighbour that a tie between `below` and `below + 1` goes to. -/
def Tie.choose (tie : Tie) (below : Nat) : Nat :=
  match tie with
  | even => if below % 2 = 0 then below else below + 1
  | up => below + 1

/-- The reals that round to one positive binary number: those between `low` and
`high` quarter units, where a quarter unit is `2 ^ exponent` and the number itself
is `middle` quarter units. The ends belong to the cell when `closed` holds. -/
structure Cell where
  low : Nat
  middle : Nat
  high : Nat
  closed : Bool
  exponent : Int

namespace Cell

/-- Cell of the number `mantissa * 2 ^ exponent`. Below a power of two the numbers
lie half as far apart, so there the cell reaches down half as far (`atPower`). A
real halfway between two numbers rounds to the one with the even mantissa. -/
def ofDyadic (mantissa : Nat) (exponent : Int) (atPower : Bool) : Cell where
  low := 4 * mantissa - (if atPower then 1 else 2)
  middle := 4 * mantissa
  high := 4 * mantissa + 2
  closed := mantissa % 2 = 0
  exponent := exponent - 2

/-- Numerator and denominator of `2 ^ c.exponent / 10 ^ k`. -/
def scale (c : Cell) (k : Int) : Nat × Nat :=
  (Nat.pow 2 c.exponent.toNat * Nat.pow 10 (-k).toNat,
    Nat.pow 2 (-c.exponent).toNat * Nat.pow 10 k.toNat)

/-- Whether `n * 10 ^ k` lies in the cell. -/
def holds (c : Cell) (n : Nat) (k : Int) : Bool :=
  let (num, den) := c.scale k
  if c.closed then c.low * num ≤ n * den && n * den ≤ c.high * num
  else c.low * num < n * den && n * den < c.high * num

/-- The point of the grid of multiples of `10 ^ k` that stands for the cell, if the
grid has one: the nearer of the exact value's two neighbours. -/
def onGrid? (c : Cell) (tie : Tie) (k : Int) : Option Nat :=
  let (num, den) := c.scale k
  -- the two neighbours of the exact value on the grid
  let below := c.middle * num / den
  let above := below + 1
  match c.holds below k, c.holds above k with
  | false, false => none
  | true, false => some below
  | false, true => some above
  | true, true =>
    -- both neighbours lie in the cell: compare twice the value with their sum
    let twice := 2 * (c.middle * num)
    let half := (below + above) * den
    if twice < half then some below
    else if half < twice then some above
    else some (tie.choose below)

/-- The first grid with a point in the cell, from `10 ^ k` on downwards through
`steps` finer grids. -/
def search (c : Cell) (tie : Tie) : Nat → Int → Numeral
  | 0, k => ⟨c.middle * (c.scale k).1 / (c.scale k).2, k⟩
  | steps + 1, k =>
    match c.onGrid? tie k with
    | some n => ⟨n, k⟩
    | none => search c tie steps (k - 1)

/-- Number of decimal digits of the whole part of the cell's upper end. -/
def wholeDigits (c : Cell) : Nat :=
  (Nat.toDigits 10 (c.high * (c.scale 0).1 / (c.scale 0).2)).length

/-- The shortest decimal in the cell. The exact value itself is a point of the grid
`10 ^ min c.exponent 0`, where the search ends at the latest. -/
def shortest (c : Cell) (tie : Tie) : Numeral :=
  c.search tie (c.wholeDigits + (-c.exponent).toNat) c.wholeDigits

end Cell

end PlantGrowth.Decimal
