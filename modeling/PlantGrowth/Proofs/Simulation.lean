import PlantGrowth.Proofs.Lockstep

/-!
# One computation follows another

`Comparison.Follows` compares two computations on states that are related: as long as a measure of
the first state stays within a bound, both have related results and end in related states, or both
stop with the same fault. The measure says how large the state has become; what is related at one
size may be used at any larger one. `Follows.bind` and `Follows.mapM` put such comparisons
together. They ask that the measure never falls (`Raises`), so that a bound at the end is one
throughout.
-/

set_option autoImplicit false

namespace PlantGrowth.Outcome

universe u

variable {ε σ τ α β γ δ : Type u}

/-! ## Measures that never fall -/

/-- State in which a computation ends or stops. -/
def final : EStateM.Result ε σ α → σ
  | .ok _ s => s
  | .error _ s => s

/-- The measure of the state is at the end at least what it was before. -/
def Raises (μ : σ → Nat) (x : EStateM ε σ α) : Prop := ∀ s, μ s ≤ μ (final (x s))

namespace Raises

variable {μ : σ → Nat}

theorem pure (a : α) : Raises μ (Pure.pure a : EStateM ε σ α) := fun _ => Nat.le_refl _

/-- A sequence does not lower the measure if none of its parts does. -/
theorem bind {x : EStateM ε σ α} {f : α → EStateM ε σ β} (hx : Raises μ x)
    (hf : ∀ a, Raises μ (f a)) : Raises μ (x >>= f) := by
  intro s
  show _ ≤ μ (final (EStateM.bind x f s))
  unfold EStateM.bind
  have hs := hx s
  cases h : x s with
  | ok a s' =>
    rw [h] at hs
    exact Nat.le_trans hs (hf a s')
  | error e s' =>
    rw [h] at hs
    exact hs

theorem map {x : EStateM ε σ α} {f : α → β} (hx : Raises μ x) : Raises μ (f <$> x) := by
  intro s
  show _ ≤ μ (final (EStateM.map f x s))
  unfold EStateM.map
  have hs := hx s
  cases h : x s with
  | ok a s' =>
    rw [h] at hs
    exact hs
  | error e s' =>
    rw [h] at hs
    exact hs

/-- Going through a list does not lower the measure if no element does. -/
theorem mapM {f : α → EStateM ε σ β} (hf : ∀ a, Raises μ (f a)) (as : List α) :
    Raises μ (as.mapM f) := by
  induction as with
  | nil =>
    rw [List.mapM_nil]
    exact pure []
  | cons a as ih =>
    rw [List.mapM_cons]
    exact bind (hf a) fun _ => bind ih fun _ => pure _

end Raises

/-! ## Comparisons -/

/-- What a comparison of computations on two kinds of states starts from. -/
structure Comparison (σ τ : Type u) where
  /-- Size of a state of the first kind. -/
  measure : σ → Nat
  /-- Size up to which the states are compared. -/
  bound : Nat
  Related : σ → τ → Prop

namespace Comparison

/-- On related states, the first of size at least `n`, the computations have the same outcome:
related results and states, or the same fault. -/
def Follows (C : Comparison σ τ) (n : Nat) (R : Nat → α → β → Prop) (x : EStateM ε σ α)
    (y : EStateM ε τ β) : Prop :=
  ∀ s t, C.Related s t → n ≤ C.measure s → C.measure (final (x s)) ≤ C.bound →
    Alike C.Related (fun a s' b t' => R (C.measure s') a b ∧ C.Related s' t' ∧
      C.measure s ≤ C.measure s') (x s) (y t)

namespace Follows

variable {C : Comparison σ τ} {n : Nat} {Q R : Nat → α → β → Prop} {S : Nat → γ → δ → Prop}

theorem pure {a : α} {b : β} (h : ∀ m, n ≤ m → R m a b) :
    C.Follows n R (Pure.pure a : EStateM ε σ α) (Pure.pure b : EStateM ε τ β) :=
  fun s _ hst hn _ => .ok ⟨h (C.measure s) hn, hst, Nat.le_refl _⟩

/-- What is known of the results may be weakened. -/
theorem imp {x : EStateM ε σ α} {y : EStateM ε τ β} (h : C.Follows n Q x y)
    (hQR : ∀ m a b, n ≤ m → Q m a b → R m a b) : C.Follows n R x y := by
  intro s t hst hn hbound
  refine (h s t hst hn hbound).mono (fun _ _ he => he) ?_
  rintro a s' b t' ⟨hq, hst', hle⟩
  exact ⟨hQR _ a b (Nat.le_trans hn hle) hq, hst', hle⟩

/-- Sequences follow each other part by part. The second parts have to raise the measure, for only
then does the bound at the end hold in between. -/
theorem bind {x : EStateM ε σ α} {y : EStateM ε τ β} {f : α → EStateM ε σ γ}
    {g : β → EStateM ε τ δ} (h : C.Follows n Q x y) (hf : ∀ a, Raises C.measure (f a))
    (hfg : ∀ m a b, n ≤ m → Q m a b → C.Follows m S (f a) (g b)) :
    C.Follows n S (x >>= f) (y >>= g) := by
  intro s t hst hn hbound
  -- what comes next does not make the state smaller, so the bound holds in between as well
  have hbound' : C.measure (final (x s)) ≤ C.bound := by
    refine Nat.le_trans ?_ hbound
    show _ ≤ C.measure (final (EStateM.bind x f s))
    unfold EStateM.bind
    cases x s with
    | ok a s' => exact hf a s'
    | error e s' => exact Nat.le_refl _
  refine Alike.bind (h s t hst hn hbound').and_ok ?_
  rintro a s' b t' ⟨⟨hq, hst', hle⟩, hx, -⟩
  have hnext : C.measure (final (f a s')) ≤ C.bound := by
    refine Nat.le_trans (Nat.le_of_eq ?_) hbound
    show _ = C.measure (final (EStateM.bind x f s))
    rw [EStateM.bind, hx]
  have hlater := hfg _ a b (Nat.le_trans hn hle) hq s' t' hst' (Nat.le_refl _) hnext
  refine hlater.mono (fun _ _ he => he) ?_
  rintro c s'' d t'' ⟨hs, hst'', hle'⟩
  exact ⟨hs, hst'', Nat.le_trans hle hle'⟩

theorem map {x : EStateM ε σ α} {y : EStateM ε τ β} {f : α → γ} {g : β → δ}
    (h : C.Follows n Q x y) (hS : ∀ {m m' c d}, m ≤ m' → S m c d → S m' c d)
    (hfg : ∀ m a b, n ≤ m → Q m a b → S m (f a) (g b)) : C.Follows n S (f <$> x) (g <$> y) := by
  rw [← bind_pure_comp, ← bind_pure_comp]
  exact h.bind (fun _ => .pure _) fun m a b hm hq => pure fun _ hm' => hS hm' (hfg m a b hm hq)

/-- Rows that are related item by item at some size. -/
theorem mapM {f : α → EStateM ε σ γ} {g : β → EStateM ε τ δ} {A : Nat → α → β → Prop}
    (hf : ∀ a, Raises C.measure (f a)) (hA : ∀ {m m' a b}, m ≤ m' → A m a b → A m' a b)
    (hS : ∀ {m m' c d}, m ≤ m' → S m c d → S m' c d)
    (hfg : ∀ m a b, A m a b → C.Follows m S (f a) (g b)) {as : List α} {bs : List β}
    (h : List.Forall₂ (A n) as bs) :
    C.Follows n (fun m => List.Forall₂ (S m)) (as.mapM f) (bs.mapM g) := by
  suffices ∀ m, n ≤ m → C.Follows m (fun m => List.Forall₂ (S m)) (as.mapM f) (bs.mapM g) from
    this n (Nat.le_refl n)
  induction h with
  | nil =>
    intro m _
    rw [List.mapM_nil, List.mapM_nil]
    exact pure fun _ _ => .nil
  | @cons a b as bs hab _ ih =>
    intro m hm
    rw [List.mapM_cons, List.mapM_cons]
    refine bind (hfg m a b (hA hm hab)) (fun _ => .bind (.mapM hf as) fun _ => .pure _) ?_
    intro m₁ c d hm₁ hc
    refine bind (ih m₁ (Nat.le_trans hm hm₁)) (fun _ => .pure _) ?_
    intro m₂ cs ds hm₂ hcs
    exact pure fun m₃ hm₃ => .cons (hS (Nat.le_trans hm₂ hm₃) hc) (hcs.imp fun _ _ => hS hm₃)

end Follows

end Comparison

end PlantGrowth.Outcome
