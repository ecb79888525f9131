import PlantGrowth.Scalar
import Mathlib

/-!
# Exact values of scalars

A scalar that is a number is a rational number (`Scalar.value?`), and up to the sign of zero the
rational determines it. `Scalar.Same` is equality up to the sign of zero: additions respect it
(`Same.add`), and to add a zero changes nothing else (`add_same_of_isZero`).

The latter rests on `Float32.ofBits_toBits`: taking a scalar apart and putting it together again
gives the same scalar.
-/

set_option autoImplicit false

namespace PlantGrowth.Scalar

open Float.Model (Format UnpackedFloat)
open Float.Model.UnpackedFloat (Sign)

/-! ## Equality up to the sign of zero -/

/-- One of the two zeros. -/
def IsZero (x : Scalar) : Prop := ∃ s, x.toModel.unpack = .zero s

/-- Equal up to the sign of zero. -/
def Same (x y : Scalar) : Prop := x = y ∨ IsZero x ∧ IsZero y

theorem isZero_pack (s : Sign) : IsZero (.ofModel (.pack (.zero s))) := by
  cases s with
  | negative => exact ⟨.negative, rfl⟩
  | positive => exact ⟨.positive, rfl⟩

theorem isNaN_pack : (Float32.ofModel (.pack .notANumber)).isNaN = true := by decide

/-- What equals zero is one of the two zeros. -/
theorem isZero_of_beq {x : Scalar} (h : (x == 0) = true) : IsZero x := by
  change x.toModel.unpack.compare (.zero .positive) == some .eq at h
  cases hx : x.toModel.unpack with
  | zero s => exact ⟨s, hx⟩
  | notANumber =>
    rw [hx] at h
    cases h
  | infinity s =>
    rw [hx] at h
    cases s <;> cases h
  | finite s m e hm =>
    rw [hx] at h
    cases s <;> cases h

theorem IsZero.neg {x : Scalar} (h : IsZero x) : IsZero (-x) := by
  obtain ⟨s, hs⟩ := h
  have hneg : -x = .ofModel (.pack x.toModel.unpack.neg) := rfl
  rw [hneg, hs]
  exact isZero_pack (-s)

/-- A zero times a number is a zero. -/
theorem IsZero.mul {x y : Scalar} (h : IsZero x) {s : Sign} {m : Nat} {e : Int} {hm : 0 < m}
    (hy : y.toModel.unpack = .finite s m e hm) : IsZero (x * y) := by
  obtain ⟨t, ht⟩ := h
  have hmul : x * y = .ofModel (.pack (.mul Format.binary32 x.toModel.unpack y.toModel.unpack)) :=
    rfl
  rw [hmul, ht, hy]
  exact isZero_pack (t * s)

/-- A zero times anything is a zero, or no number. -/
theorem IsZero.mul_cases {x : Scalar} (h : IsZero x) (y : Scalar) :
    IsZero (x * y) ∨ (x * y).isNaN = true := by
  obtain ⟨t, ht⟩ := h
  have hmul : x * y = .ofModel (.pack (.mul Format.binary32 x.toModel.unpack y.toModel.unpack)) :=
    rfl
  rw [hmul, ht]
  cases y.toModel.unpack with
  | zero s => exact Or.inl (isZero_pack (t * s))
  | finite s m e hm => exact Or.inl (isZero_pack (t * s))
  | notANumber => exact Or.inr isNaN_pack
  | infinity s => exact Or.inr isNaN_pack

/-- The two zeros do not come one before the other. -/
theorem IsZero.not_lt {x y : Scalar} (hx : IsZero x) (hy : IsZero y) : ¬ x < y := by
  obtain ⟨s, hs⟩ := hx
  obtain ⟨t, ht⟩ := hy
  intro h
  have hlt : x.toModel.unpack.lt y.toModel.unpack = true := of_decide_eq_true h
  rw [hs, ht] at hlt
  cases hlt

/-- The larger of two zeros is a zero, also where the first is no number. -/
theorem isZero_maxNum {x y : Scalar} (hx : IsZero x ∨ x.isNaN = true) (hy : IsZero y) :
    IsZero (maxNum x y) := by
  unfold maxNum
  split
  · exact hy
  · rename_i hnan
    rw [if_neg ((hx.resolve_right hnan).not_lt hy)]
    exact hx.resolve_right hnan

namespace Same

theorem refl (x : Scalar) : Same x x := Or.inl rfl

theorem trans {x y z : Scalar} (h : Same x y) (h' : Same y z) : Same x z := by
  rcases h with rfl | ⟨hx, hy⟩
  · exact h'
  · rcases h' with rfl | ⟨-, hz⟩
    · exact Or.inr ⟨hx, hy⟩
    · exact Or.inr ⟨hx, hz⟩

/-- Scalars that are the same are both zero or neither. -/
theorem isZero {x y : Scalar} (h : Same x y) (hx : IsZero x) : IsZero y := by
  rcases h with rfl | ⟨-, hy⟩
  · exact hx
  · exact hy

/-- The sign of a zero is lost in a sum with anything but a zero. -/
theorem add {x y : Scalar} (h : Same x y) (z : Scalar) : Same (x + z) (y + z) := by
  rcases h with rfl | ⟨⟨s, hs⟩, ⟨t, ht⟩⟩
  · exact refl _
  have hx : x + z = .ofModel (.pack (.add Format.binary32 x.toModel.unpack z.toModel.unpack)) := rfl
  have hy : y + z = .ofModel (.pack (.add Format.binary32 y.toModel.unpack z.toModel.unpack)) := rfl
  rw [hx, hy, hs, ht]
  -- only the sum of two zeros shows their signs
  cases z.toModel.unpack with
  | notANumber => exact refl _
  | infinity u => exact refl _
  | finite u m e hm => exact refl _
  | zero u =>
    have hzero : ∀ v : Sign,
        IsZero (.ofModel (.pack (UnpackedFloat.add Format.binary32 (.zero v) (.zero u)))) := by
      intro v
      cases v <;> cases u <;> exact isZero_pack _
    exact Or.inr ⟨hzero s, hzero t⟩

end Same

/-- To add a zero changes at most the sign of a zero. -/
theorem add_same_of_isZero {z : Scalar} (hz : IsZero z) (x : Scalar) : Same (x + z) x := by
  obtain ⟨s, hs⟩ := hz
  have hadd : x + z = .ofModel (.pack (.add Format.binary32 x.toModel.unpack z.toModel.unpack)) :=
    rfl
  have hx : .ofModel (.pack x.toModel.unpack) = x := Float32.ofBits_toBits x
  rw [hadd, hs]
  cases hu : x.toModel.unpack with
  | notANumber =>
    rw [hu] at hx
    exact Or.inl hx
  | infinity t =>
    rw [hu] at hx
    exact Or.inl hx
  | finite t m e hm =>
    rw [hu] at hx
    exact Or.inl hx
  | zero t =>
    refine Or.inr ⟨?_, t, hu⟩
    cases s <;> cases t <;> exact isZero_pack _

/-! ## Values -/

/-- The rational number that a scalar stands for; none if it is infinite or no number. -/
def value? (x : Scalar) : Option ℚ :=
  match x.toModel.unpack with
  | .zero _ => some 0
  | .finite s m e _ => some (s.apply m * 2 ^ e)
  | .infinity _ | .notANumber => none

/-- Both zeros stand for zero. -/
theorem IsZero.value? {x : Scalar} (h : IsZero x) : x.value? = some 0 := by
  obtain ⟨s, hs⟩ := h
  rw [Scalar.value?, hs]

/-- Scalars that are the same stand for one number. -/
theorem Same.value? {x y : Scalar} (h : Same x y) : x.value? = y.value? := by
  rcases h with rfl | ⟨hx, hy⟩
  · rfl
  · rw [hx.value?, hy.value?]

end PlantGrowth.Scalar
