import PlantGrowth.Chance.Source

/-!
# Word sources

A permuted congruential generator (`Pcg`), a fixed reel of words that starts over at
its end (`Reel`), the choice between two sources, and a counter of the words taken
from a source (`Counted`).
-/

namespace PlantGrowth

/-- Permuted congruential generator: a 64-bit linear congruence whose state is
scrambled into a 32-bit word. -/
structure Pcg where
  state : UInt64
  increment : UInt64

namespace Pcg

/-- Multiplier of the congruence. -/
def multiplier : UInt64 := 6364136223846793005

/-- The word of a state: two shifts of it, combined and then rotated by its top five
bits. -/
def scramble (s : UInt64) : UInt32 :=
  let folded := (((s >>> 18) ^^^ s) >>> 27).toUInt32
  let turn := (s >>> 59).toUInt32
  (folded >>> turn) ||| (folded <<< ((32 - turn) &&& 31))

/-- Next word and generator. -/
def next (g : Pcg) : UInt32 × Pcg :=
  (scramble g.state, { g with state := g.state * multiplier + g.increment })

/-- One step of the congruence that spreads a seed. -/
def seedStep (s : UInt64) : UInt64 := s * multiplier + 11634580027462260723

/-- Generator of a seed. Four words spread from the seed give the first state and the
increment, which is odd. -/
def ofSeed (seed : UInt64) : Pcg :=
  let s0 := seedStep seed
  let s1 := seedStep s0
  let s2 := seedStep s1
  let s3 := seedStep s2
  let join (low high : UInt64) : UInt64 :=
    (scramble low).toUInt64 ||| ((scramble high).toUInt64 <<< 32)
  let increment := join s2 s3 ||| 1
  -- the first state is one step on from where the seed put it
  ⟨(join s0 s1 + increment) * multiplier + increment, increment⟩

instance : WordSource Pcg := ⟨next⟩

end Pcg

/-- Fixed words, repeated for ever. -/
structure Reel where
  words : Array UInt32
  position : Nat := 0

namespace Reel

/-- Next word and reel; an empty reel gives zeros. -/
def next (r : Reel) : UInt32 × Reel :=
  (r.words.getD r.position 0, { r with position := (r.position + 1) % r.words.size })

instance : WordSource Reel := ⟨next⟩

end Reel

/-- One of two sources. -/
instance {α β : Type} [WordSource α] [WordSource β] : WordSource (α ⊕ β) where
  next
    | .inl a => let (w, a) := WordSource.next a; (w, .inl a)
    | .inr b => let (w, b) := WordSource.next b; (w, .inr b)

/-- Source with the number of words taken from it. -/
structure Counted (σ : Type) where
  source : σ
  draws : Nat := 0

instance {σ : Type} [WordSource σ] : WordSource (Counted σ) where
  next c := let (w, s) := WordSource.next c.source; (w, ⟨s, c.draws + 1⟩)

end PlantGrowth
