/-!
# Faults and checked 32-bit arithmetic

A computation that leaves the range of its numbers stops with a `Fault`. Depths,
ages, identities and counters are 32-bit words; `addWord` and `mulWord` stop where
the exact result does not fit, and are exact otherwise (`addWord_ok`).
-/

namespace PlantGrowth

/-- Reason why a computation stops without a result. -/
inductive Fault where
  /-- A sum left the range of its integers. -/
  | addOverflow
  /-- A product left the range of its integers. -/
  | mulOverflow
  /-- An index at or above the length of what it points into. -/
  | outOfBounds (length index : Nat)
  /-- A random sample from an interval whose ends or width are not finite. -/
  | unboundedRange
  deriving DecidableEq

/-- Checked sum of two words. -/
def addWord (a b : UInt32) : Except Fault UInt32 :=
  if a.toNat + b.toNat < UInt32.size then .ok (a + b) else .error .addOverflow

/-- Checked product of two words. -/
def mulWord (a b : UInt32) : Except Fault UInt32 :=
  if a.toNat * b.toNat < UInt32.size then .ok (a * b) else .error .mulOverflow

/-- A sum that is computed is the exact one. -/
theorem addWord_ok {a b c : UInt32} (h : addWord a b = .ok c) :
    c.toNat = a.toNat + b.toNat := by
  unfold addWord at h
  split at h
  · cases h
    rw [UInt32.toNat_add, Nat.mod_eq_of_lt ‹_›]
  · cases h

end PlantGrowth
