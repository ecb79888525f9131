/-!
# Single-precision scalars

Lengths, angles, times and colour channels are binary32 numbers. Addition,
multiplication, division and square root round once, to nearest even. This file
adds the operations the growth model needs beside them: the whole part below a
number (`floor`), the exact remainder (`rem`) and its non-negative form (`wrap`),
the choice between two numbers where one may be no number (`maxNum`, `minNum`),
clamping, the saturating conversion to a 32-bit integer and the linear change of
scale (`remap`).

`maxNum_nan` says that a missing number loses.
-/

namespace PlantGrowth

/-- Binary32 number. -/
abbrev Scalar := Float32

namespace Scalar

/-- Half a turn in radians. -/
def pi : Scalar := Float32.ofBits 0x40490fdb

/-- One degree in radians. -/
def degree : Scalar := Float32.ofBits 0x3c8efa35

/-- Radians of an angle given in degrees. -/
def toRadians (degrees : Scalar) : Scalar := degrees * degree

/-- The larger of two numbers; where one is no number, the other. -/
def maxNum (a b : Scalar) : Scalar :=
  if a.isNaN then b else if a < b then b else a

/-- The smaller of two numbers; where one is no number, the other. -/
def minNum (a b : Scalar) : Scalar :=
  if a.isNaN then b else if b < a then b else a

/-- The number moved into `[lo, hi]`; no number stays no number. -/
def clamp (lo hi x : Scalar) : Scalar :=
  let raised := if x < lo then lo else x
  if hi < raised then hi else raised

/-- The largest whole number that is not above `x`. From `2 ^ 23` on every
number is whole. -/
def floor (x : Scalar) : Scalar :=
  if x.abs < 8388608 then
    let whole : Scalar := x.abs.toUInt32.toFloat32
    if whole == x.abs then x else if x < 0 then -(whole + 1) else whole
  else x

/-- Binary32 number of an exactly known value. -/
def pack (u : Float.Model.UnpackedFloat) : Scalar := ⟨.pack u⟩

/-- The remainder of the truncated quotient `x / y`, with the sign of `x`. The
remainder of two dyadic numbers is dyadic and no longer than they are, so nothing is
rounded away. -/
def rem (x y : Scalar) : Scalar :=
  match x.toModel.unpack, y.toModel.unpack with
  | .finite s m e _, .finite _ n f _ =>
    -- both on the grid of the finer unit, where the remainder is one of integers
    let unit := min e f
    let r := (m <<< (e - unit).toNat) % (n <<< (f - unit).toNat)
    pack (.round .binary32 s r unit)
  | .finite .., .infinity _ => x
  | .zero _, .finite .. => x
  | .zero _, .infinity _ => x
  | _, _ => pack .notANumber

/-- The remainder moved into the non-negative numbers. A tiny negative remainder
may round up to `m` itself. -/
def wrap (x m : Scalar) : Scalar :=
  let r := rem x m
  if r < 0 then r + m.abs else r

/-- The whole part as a 32-bit integer; numbers out of range go to the nearest
bound, no number goes to zero. -/
def toInt32 (x : Scalar) : Int32 :=
  if x < 0 then
    if x ≤ -2147483648 then Int32.minValue else -x.abs.toUInt32.toInt32
  else if 2147483648 ≤ x then Int32.maxValue
  else x.toUInt32.toInt32

/-- Binary32 number nearest to a binary64 number. -/
def ofFloat (x : Float) : Scalar :=
  match x.toModel.unpack with
  | .finite s m e _ => pack (.round .binary32 s m e)
  | u => pack u

/-- The map that carries `[inLo, inHi]` to `[outLo, outHi]` linearly, not clamped.
An empty input range goes to `outLo`. -/
def remap (value inLo inHi outLo outHi : Scalar) : Scalar :=
  let span := inHi - inLo
  if span == 0 then outLo else outLo + (value - inLo) / span * (outHi - outLo)

/-- The point at parameter `t` on the way from `a` to `b`. -/
def lerp (a b t : Scalar) : Scalar := a + (b - a) * t

theorem maxNum_nan {a : Scalar} (h : a.isNaN) (b : Scalar) : maxNum a b = b :=
  if_pos h

end Scalar

end PlantGrowth
