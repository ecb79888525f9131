import PlantGrowth.Proofs.ExactValue
import PlantGrowth.Proofs.Outcome

/-!
# Turns and the rotations that take them up

The turtle adds the rotations of its turns one after the other (`Turn.total`), and hands the sum
to the next node. Where brackets and replaced nodes cut a sequence of turns into parts, several
nodes on one way take up one part each. `Segments` says that a list of rotations takes up a
sequence of turns in this manner, up to the sign of zeros and up to parts that cancel.

`Segments.exactSum_eq` is what is left of that where the sums are exact: the rotations add up to
the net number of turns times the angle. `Steady.rotation_same` says when a node takes up the
turns alone, without a random turn of its own.
-/

set_option autoImplicit false

namespace PlantGrowth

open Scalar

/-- A turn of the turtle by its angle. -/
inductive Turn where
  /-- Counter-clockwise. -/
  | left
  /-- Clockwise. -/
  | right
  deriving DecidableEq

namespace Turn

/-- Action of a turn. -/
def action : Turn → Action
  | left => .turnLeft
  | right => .turnRight

/-- Rotation of a turn by an angle. -/
def rotation (angle : Scalar) : Turn → Scalar
  | left => angle
  | right => -angle

/-- Number of turns to the left, less the number of turns to the right. -/
def net : List Turn → ℤ
  | [] => 0
  | left :: turns => net turns + 1
  | right :: turns => net turns - 1

/-- Sum of the rotations as the turtle forms it, from the first turn to the last. -/
def total (angle : Scalar) (turns : List Turn) : Scalar :=
  turns.foldl (fun sum t => sum + t.rotation angle) 0

/-- All sums of at most so many turns are the exact multiples of the angle. -/
def Exact (angle : Scalar) (value : ℚ) (bound : Nat) : Prop :=
  ∀ turns : List Turn, turns.length ≤ bound →
    (total angle turns).value? = some (net turns * value)

theorem net_append (turns more : List Turn) : net (turns ++ more) = net turns + net more := by
  induction turns with
  | nil => simp [net]
  | cons t turns ih =>
    cases t with
    | left =>
      rw [List.cons_append, net, net, ih]
      ring
    | right =>
      rw [List.cons_append, net, net, ih]
      ring

theorem total_concat (angle : Scalar) (turns : List Turn) (t : Turn) :
    total angle (turns ++ [t]) = total angle turns + t.rotation angle := by
  rw [total, List.foldl_append]
  rfl

end Turn

/-! ## Rotations that take up turns -/

/-- Exact sum of rotations; none if one of them is not a number. -/
def exactSum : List Scalar → Option ℚ
  | [] => some 0
  | r :: rs => do return (← r.value?) + (← exactSum rs)

theorem exactSum_append {rs more : List Scalar} {a b : ℚ} (h : exactSum rs = some a)
    (h' : exactSum more = some b) : exactSum (rs ++ more) = some (a + b) := by
  induction rs generalizing a with
  | nil =>
    cases h
    simpa using h'
  | cons r rs ih =>
    simp only [exactSum, Option.bind_eq_bind, Option.bind_eq_some_iff, Option.pure_def,
      Option.some.injEq] at h
    obtain ⟨q, hq, s, hs, rfl⟩ := h
    simp [exactSum, hq, ih hs, add_assoc]

/-- The rotations take up the turns: the turns fall into parts, and each part is the sum of one
rotation or cancels. -/
inductive Segments (angle : Scalar) : List Scalar → List Turn → Prop
  | nil : Segments angle [] []
  | taken {rs : List Scalar} {turns part : List Turn} {r : Scalar} : Segments angle rs turns →
      Same r (Turn.total angle part) → Segments angle (rs ++ [r]) (turns ++ part)
  | cancelled {rs : List Scalar} {turns part : List Turn} : Segments angle rs turns →
      IsZero (Turn.total angle part) → Segments angle rs (turns ++ part)

theorem Segments.exactSum_eq {angle : Scalar} {value : ℚ} {rs : List Scalar} {turns : List Turn}
    (h : Segments angle rs turns) {bound : Nat} (hexact : Turn.Exact angle value bound)
    (hbound : turns.length ≤ bound) : exactSum rs = some (Turn.net turns * value) := by
  induction h with
  | nil => simp [exactSum, Turn.net]
  | @taken rs turns part r _ hr ih =>
    rw [List.length_append] at hbound
    -- a part is no longer than the whole, so its sum is exact
    have hpart := hexact part (by omega)
    rw [← hr.value?] at hpart
    have hlast : exactSum [r] = some (Turn.net part * value) := by simp [exactSum, hpart]
    rw [exactSum_append (ih (by omega)) hlast, Turn.net_append]
    push_cast
    rw [add_mul]
  | @cancelled rs turns part _ hzero ih =>
    rw [List.length_append] at hbound
    have hpart := hexact part (by omega)
    rw [hzero.value?, Option.some.injEq] at hpart
    rw [ih (by omega), Turn.net_append]
    push_cast
    rw [add_mul, ← hpart, add_zero]

/-! ## Nodes without a turn of their own -/

/-- Branches are not turned at random: both parameters for it are zero, and where an interval is
empty the source gives its lower end, as random sources have to. -/
structure Steady (σ : Type) [RandomSource σ] (params : GrowthParams) : Prop where
  branchJitter : (params.branchJitter == 0) = true
  minBranchJitter : (params.minBranchJitter == 0) = true
  range_empty : ∀ (lo hi : Scalar) (source : σ), ¬ lo < hi →
    ∃ source', RandomSource.range lo hi source = .ok (lo, source')

theorem isZero_toRadians {x : Scalar} (h : IsZero x) : IsZero (toRadians x) := by
  obtain ⟨s, m, e, hm, hdegree⟩ : ∃ s m e hm, degree.toModel.unpack = .finite s m e hm :=
    ⟨_, _, _, _, rfl⟩
  exact h.mul hdegree

namespace Steady

variable {σ : Type} [RandomSource σ] {params : GrowthParams}

theorem isZero_wander (h : Steady σ params) (age depth : UInt32) :
    IsZero (Turtle.wander params age depth) := by
  apply isZero_maxNum
  · exact (isZero_of_beq h.branchJitter).mul_cases _
  · exact isZero_of_beq h.minBranchJitter

/-- A node takes up the rotation of its frame as it is. -/
theorem rotation_same (h : Steady σ params) {age : UInt32} {frame : Frame} {action : Action}
    {source source' : σ} {rotation : Scalar} {kind : Kind}
    (hshape : Turtle.shape params age frame action source = .ok ((rotation, kind), source')) :
    Same rotation frame.rotation := by
  unfold Turtle.shape at hshape
  cases action with
  | branch =>
    simp only [Turtle.sproutBranch, RandomSource.spread, Outcome.except_bind_eq_ok,
      Outcome.except_pure_eq_ok] at hshape
    obtain ⟨⟨⟨rotation', branch⟩, source₁⟩, ⟨⟨turn, source₂⟩, hturn, h₃⟩, h₄⟩ := hshape
    obtain ⟨⟨factor, source₃⟩, hfactor, ⟨leaf, source₄⟩, hleaf, h₅⟩ := h₃
    -- the interval of the random turn is empty, and its lower end is a zero
    have hzero := h.isZero_wander age frame.depth
    obtain ⟨source₅, hrange⟩ := h.range_empty _ _ source (hzero.neg.not_lt hzero)
    rw [hrange] at hturn
    cases hturn
    cases h₅
    cases h₄
    exact add_same_of_isZero (isZero_toRadians hzero.neg) frame.rotation
  | bud =>
    simp only [Outcome.except_bind_eq_ok, Outcome.except_pure_eq_ok] at hshape
    obtain ⟨⟨colour, source₁⟩, -, h₁⟩ := hshape
    cases h₁
    exact Same.refl _
  | turnLeft => cases hshape; exact Same.refl _
  | turnRight => cases hshape; exact Same.refl _
  | save => cases hshape; exact Same.refl _
  | restore => cases hshape; exact Same.refl _
  | placeholder => cases hshape; exact Same.refl _

end Steady

end PlantGrowth
