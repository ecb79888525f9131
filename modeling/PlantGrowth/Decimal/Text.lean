import PlantGrowth.Scalar
import PlantGrowth.Decimal.Shortest

/-!
# Decimal text of binary numbers

Three written forms. `plain` has the fewest digits that read back, a tie going to the
larger decimal, always in positional notation, and writes whole numbers without a point.
`fixedTenth` has one place after the point, rounded from the exact value with a half
going to the even neighbour. `NumberStyle.write` is the form of numbers in JSON text: fewest digits, a
tie going to the even one, at least one place, and an exponent part outside a range of
magnitudes.
-/

namespace PlantGrowth.Decimal

open Float.Model (UnpackedFloat Format)

/-- The digits of a whole number. -/
def digits (n : Nat) : List Char := Nat.toDigits 10 n

/-- Exponent of the first digit: `d` for a decimal written `x.yyy * 10 ^ d`. -/
def Numeral.magnitude (d : Numeral) : Int :=
  d.exponent + (digits d.coefficient).length - 1

/-- Positional notation; `point` asks for a place after the point in a whole
number, too. -/
def Numeral.positional (d : Numeral) (point : Bool) : List Char :=
  let ds := digits d.coefficient
  if 0 ≤ d.exponent then
    ds ++ List.replicate d.exponent.toNat '0' ++ (if point then ['.', '0'] else [])
  else
    let places := (-d.exponent).toNat
    if places < ds.length then
      ds.take (ds.length - places) ++ ['.'] ++ ds.drop (ds.length - places)
    else
      ['0', '.'] ++ List.replicate (places - ds.length) '0' ++ ds

/-- Notation with an exponent part, as in `1.5e-7` and `1e+21`. -/
def Numeral.scientific (d : Numeral) : List Char :=
  let mantissa := match digits d.coefficient with
    | [] => []
    | [c] => [c]
    | c :: cs => c :: '.' :: cs
  let sign := if d.magnitude < 0 then '-' else '+'
  mantissa ++ ['e', sign] ++ digits d.magnitude.natAbs

/-- The shortest decimal that rounds to the positive number `m * 2 ^ e` of the
format. -/
def shortest (spec : Format) (tie : Tie) (m : Nat) (e : Int) : Numeral :=
  let least : Int := 2 - Nat.pow 2 (spec.exponentBits - 1) - spec.mantissaBitsWithoutImplicit
  (Cell.ofDyadic m e (m = Nat.pow 2 spec.mantissaBitsWithoutImplicit && least < e)).shortest tie

/-- A minus sign in front of the text of a negative number. -/
def signed (s : UnpackedFloat.Sign) (text : List Char) : List Char :=
  match s with
  | .negative => '-' :: text
  | .positive => text

/-- Fewest digits that read back, positional. -/
def plain (x : Scalar) : String :=
  match x.toModel.unpack with
  | .notANumber => "NaN"
  | .infinity s => .ofList (signed s ['i', 'n', 'f'])
  | .zero s => .ofList (signed s ['0'])
  | .finite s m e _ => .ofList (signed s ((shortest .binary32 .up m e).positional false))

/-- The quotient rounded to the nearest whole number, a half to the even one. -/
def roundHalfEven (num den : Nat) : Nat :=
  let q := num / den
  let r := 2 * (num % den)
  if r < den then q else if den < r then q + 1 else if q % 2 = 0 then q else q + 1

/-- One place after the point. -/
def fixedTenth (x : Scalar) : String :=
  match x.toModel.unpack with
  | .notANumber => "NaN"
  | .infinity s => .ofList (signed s ['i', 'n', 'f'])
  | .zero s => .ofList (signed s ['0', '.', '0'])
  | .finite s m e _ =>
    let tenths := roundHalfEven (10 * m * Nat.pow 2 e.toNat) (Nat.pow 2 (-e).toNat)
    .ofList (signed s (digits (tenths / 10) ++ ['.'] ++ digits (tenths % 10)))

/-- The magnitudes that a JSON number of one width writes positionally. -/
structure NumberStyle where
  least : Int
  greatest : Int

/-- Single-precision numbers are positional from `1e-6` to below `1e13`. -/
def NumberStyle.single : NumberStyle := ⟨-6, 12⟩

/-- Double-precision numbers are positional from `1e-5` to below `1e16`. -/
def NumberStyle.double : NumberStyle := ⟨-5, 15⟩

/-- A decimal in the style. -/
def NumberStyle.write (style : NumberStyle) (d : Numeral) : List Char :=
  if style.least ≤ d.magnitude ∧ d.magnitude ≤ style.greatest then d.positional true
  else d.scientific

/-- Text of a number read into a format; nothing for a number that is not finite. -/
def NumberStyle.text? (style : NumberStyle) (spec : Format) : UnpackedFloat → Option (List Char)
  | .notANumber => none
  | .infinity _ => none
  | .zero s => some (signed s ['0', '.', '0'])
  | .finite s m e _ => some (signed s (style.write (shortest spec .even m e)))

/-- JSON text of a single-precision number, if it is finite. -/
def jsonScalar? (x : Scalar) : Option (List Char) :=
  NumberStyle.single.text? .binary32 x.toModel.unpack

/-- JSON text of a double-precision number, if it is finite. -/
def jsonFloat? (x : Float) : Option (List Char) :=
  NumberStyle.double.text? .binary64 x.toModel.unpack

end PlantGrowth.Decimal
