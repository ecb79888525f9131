import PlantGrowth.Scalar
import PlantGrowth.Fault

/-!
# Random sources

Rule choice, lengths, angles and leaf colours draw from a source handed in by the
caller, so a seeded source grows the same plant again. A `RandomSource` samples
intervals and index sets. A source of 32-bit words (`WordSource`) is one: a sample
of an interval takes one word, an index one or two.

`index_zero` says that the empty index set costs no draw, `range_of_not_lt` that an
empty interval does not either.
-/

namespace PlantGrowth

/-- Source of random samples. -/
class RandomSource (σ : Type) where
  /-- Sample of `[lo, hi)`; `lo` if the interval is empty. -/
  range : Scalar → Scalar → σ → Except Fault (Scalar × σ)
  /-- Index below a length; zero if the length is zero. -/
  index : Nat → σ → Nat × σ

/-- Sample of `[-extent, extent)`. -/
def RandomSource.spread {σ : Type} [RandomSource σ] (extent : Scalar) (source : σ) :
    Except Fault (Scalar × σ) :=
  RandomSource.range (-extent) extent source

/-- Source of random 32-bit words. -/
class WordSource (σ : Type) where
  next : σ → UInt32 × σ

namespace WordSource

variable {σ : Type} [WordSource σ]

/-- The number of `[0, 1)` made of the upper 23 bits of a word. -/
def unit (word : UInt32) : Scalar := Float32.ofBits ((0x3f800000 : UInt32) ||| (word >>> 9)) - 1

/-- One word stretched over `[lo, hi)`. Stops, without a draw, where an end or the
width is not finite. -/
def range (lo hi : Scalar) (source : σ) : Except Fault (Scalar × σ) :=
  if lo < hi then
    if lo.isFinite && hi.isFinite && (hi - lo).isFinite then
      let (word, source) := next source
      .ok (unit word * (hi - lo) + lo, source)
    else .error .unboundedRange
  else .ok (lo, source)

/-- A number below `2 ^ 64`, its lower half drawn first. -/
def next64 (source : σ) : Nat × σ :=
  let (low, source) := next source
  let (high, source) := next source
  (low.toNat + UInt32.size * high.toNat, source)

/-- Index below `length` from draws below `bound`: the whole part of `draw * length
/ bound`. Where the fraction is so large that a further draw could carry, that draw
is made, so that all indices are nearly equally likely. -/
def scaledIndex (bound : Nat) (draw : σ → Nat × σ) (length : Nat) (source : σ) : Nat × σ :=
  let (first, source) := draw source
  let whole := first * length / bound
  let fraction := first * length % bound
  -- a further draw adds less than `length`, so only here can the sum reach `bound`
  if bound - length < fraction then
    let (second, source) := draw source
    if bound ≤ fraction + second * length / bound then (whole + 1, source)
    else (whole, source)
  else (whole, source)

/-- Index below `length` from 32-bit draws where these suffice, else from 64-bit
draws. -/
def index (length : Nat) (source : σ) : Nat × σ :=
  if length = 0 then (0, source)
  else if length < UInt32.size then
    scaledIndex UInt32.size (fun s => let (w, s) := next s; (w.toNat, s)) length source
  else scaledIndex UInt64.size next64 length source

instance : RandomSource σ := ⟨range, index⟩

theorem range_of_not_lt {lo hi : Scalar} (h : ¬ lo < hi) (source : σ) :
    range lo hi source = .ok (lo, source) := by
  simp [range, h]

theorem index_zero (source : σ) : index 0 source = (0, source) := by
  simp [index]

end WordSource

end PlantGrowth
