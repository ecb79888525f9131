import PlantGrowth.Proofs.Outcome
import Mathlib.Data.List.Forall2

/-!
# Two computations side by side

`Alike` compares the outcomes of two computations: both give a result, or both stop with the
same fault. What the results and the states have to do with each other is left to two relations,
one for each case. `Alike.bind` and `Alike.mapM` put such comparisons together, so that what is
shown of single steps holds of whole runs, faults included. `Matched` is the same for
computations without a state, such as samples from a source.
-/

set_option autoImplicit false

namespace PlantGrowth.Outcome

universe u

variable {ε σ τ α β γ δ : Type u}

/-- Both computations have a result, or both stop with the same fault. `Q` relates results and
states at the end, `E` the states at a fault. -/
inductive Alike (E : σ → τ → Prop) (Q : α → σ → β → τ → Prop) :
    EStateM.Result ε σ α → EStateM.Result ε τ β → Prop
  | ok {a : α} {s : σ} {b : β} {t : τ} : Q a s b t → Alike E Q (.ok a s) (.ok b t)
  | error {e : ε} {s : σ} {t : τ} : E s t → Alike E Q (.error e s) (.error e t)

namespace Alike

variable {E E' : σ → τ → Prop} {Q Q' : α → σ → β → τ → Prop}

/-- Less may be asked of the ends of two runs that are alike. -/
theorem mono {x : EStateM.Result ε σ α} {y : EStateM.Result ε τ β} (h : Alike E Q x y)
    (hE : ∀ s t, E s t → E' s t) (hQ : ∀ a s b t, Q a s b t → Q' a s b t) : Alike E' Q' x y := by
  cases h with
  | ok hq => exact .ok (hQ _ _ _ _ hq)
  | error he => exact .error (hE _ _ he)

/-- What is known of the outcomes by themselves can be used where they are compared. -/
theorem and_ok {x : EStateM.Result ε σ α} {y : EStateM.Result ε τ β} (h : Alike E Q x y) :
    Alike E (fun a s b t => Q a s b t ∧ x = .ok a s ∧ y = .ok b t) x y := by
  cases h with
  | ok hq => exact .ok ⟨hq, rfl, rfl⟩
  | error he => exact .error he

/-- If the one run has a result, so has the other. -/
theorem exists_of_ok {x : EStateM.Result ε σ α} {y : EStateM.Result ε τ β} (h : Alike E Q x y)
    {a : α} {s : σ} (hx : x = .ok a s) : ∃ b t, y = .ok b t ∧ Q a s b t := by
  cases h with
  | ok hq =>
    cases hx
    exact ⟨_, _, rfl, hq⟩
  | error _ => cases hx

/-- If the one run stops with a fault, the other stops with the same. -/
theorem exists_of_error {x : EStateM.Result ε σ α} {y : EStateM.Result ε τ β}
    (h : Alike E Q x y) {e : ε} {s : σ} (hx : x = .error e s) : ∃ t, y = .error e t ∧ E s t := by
  cases h with
  | ok _ => cases hx
  | error he =>
    cases hx
    exact ⟨_, rfl, he⟩

/-- Outcomes whose results and states are equal are equal. -/
theorem eq {x y : EStateM.Result ε σ α}
    (h : Alike (fun s t => s = t) (fun a s b t => a = b ∧ s = t) x y) : x = y := by
  cases h with
  | ok hq =>
    obtain ⟨rfl, rfl⟩ := hq
    rfl
  | error he =>
    cases he
    rfl

/-- Sequences are alike if their first parts are and their second parts are from there on. -/
theorem bind {x : EStateM ε σ α} {y : EStateM ε τ β} {f : α → EStateM ε σ γ}
    {g : β → EStateM ε τ δ} {R : γ → σ → δ → τ → Prop} {s : σ} {t : τ}
    (h : Alike E Q (x s) (y t))
    (hfg : ∀ a s b t, Q a s b t → Alike E R (f a s) (g b t)) :
    Alike E R ((x >>= f) s) ((y >>= g) t) := by
  show Alike E R (EStateM.bind x f s) (EStateM.bind y g t)
  unfold EStateM.bind
  generalize x s = o at h ⊢
  generalize y t = o' at h ⊢
  cases h with
  | ok hq => exact hfg _ _ _ _ hq
  | error he => exact .error he

theorem pure {a : α} {b : β} {s : σ} {t : τ} (h : Q a s b t) :
    Alike E Q ((Pure.pure a : EStateM ε σ α) s) ((Pure.pure b : EStateM ε τ β) t) :=
  .ok h

/-- Rows that are related item by item, where every item keeps a relation of the states. -/
theorem mapM {f : α → EStateM ε σ γ} {g : β → EStateM ε τ δ} {A : α → β → Prop}
    {C : γ → δ → Prop} {I : σ → τ → Prop}
    (hfg : ∀ a b, A a b → ∀ s t, I s t →
      Alike E (fun c s d t => C c d ∧ I s t) (f a s) (g b t))
    {as : List α} {bs : List β} (hab : List.Forall₂ A as bs) {s : σ} {t : τ} (hst : I s t) :
    Alike E (fun cs s ds t => List.Forall₂ C cs ds ∧ I s t) ((as.mapM f) s) ((bs.mapM g) t) := by
  induction hab generalizing s t with
  | nil =>
    rw [List.mapM_nil, List.mapM_nil]
    exact pure ⟨.nil, hst⟩
  | cons ha _ ih =>
    rw [List.mapM_cons, List.mapM_cons]
    refine bind (hfg _ _ ha s t hst) ?_
    rintro c s d t ⟨hc, hst⟩
    refine bind (ih hst) ?_
    rintro cs s ds t ⟨hcs, hst⟩
    exact pure ⟨.cons hc hcs, hst⟩

end Alike

/-- A row whose steps have results has the same results with steps that agree where there are
any. -/
theorem mapM_of_ok {f g : α → EStateM ε σ β} (hfg : ∀ a s b t, f a s = .ok b t → g a s = .ok b t)
    {as : List α} {bs : List β} {s t : σ} (h : (as.mapM f) s = .ok bs t) :
    (as.mapM g) s = .ok bs t := by
  induction as generalizing bs s with
  | nil => exact h
  | cons a as ih =>
    obtain ⟨b, r, bs', hb, hbs, rfl⟩ := mapM_cons_eq_ok.mp h
    exact mapM_cons_eq_ok.mpr ⟨b, r, bs', hfg a s b r hb, ih hbs, rfl⟩

/-- Rows with equal images item by item have equal images. -/
theorem map_eq_of_forall₂ {f : α → γ} {g : β → γ} {as : List α} {bs : List β}
    (h : List.Forall₂ (fun a b => g b = f a) as bs) : bs.map g = as.map f := by
  induction h with
  | nil => rfl
  | cons hab _ ih => rw [List.map_cons, List.map_cons, hab, ih]

/-- Both computations without a state have a result, and `R` relates the results, or both stop
with the same fault. -/
inductive Matched (R : α → β → Prop) : Except ε α → Except ε β → Prop
  | ok {a : α} {b : β} : R a b → Matched R (.ok a) (.ok b)
  | error (e : ε) : Matched R (.error e) (.error e)

namespace Matched

variable {R : α → β → Prop}

theorem refl {R : α → α → Prop} (hR : ∀ a, R a a) (x : Except ε α) : Matched R x x := by
  cases x with
  | ok a => exact .ok (hR a)
  | error e => exact .error e

theorem same (x : Except ε α) : Matched (fun a b => b = a) x x :=
  refl (R := fun a b => b = a) (fun _ => rfl) x

/-- The same for computations without a state. -/
theorem bind {R' : γ → δ → Prop} {x : Except ε α} {y : Except ε β} {f : α → Except ε γ}
    {g : β → Except ε δ} (h : Matched R x y) (hfg : ∀ a b, R a b → Matched R' (f a) (g b)) :
    Matched R' (x >>= f) (y >>= g) := by
  cases h with
  | ok hab => exact hfg _ _ hab
  | error e => exact .error e

end Matched

end PlantGrowth.Outcome

namespace PlantGrowth

open Outcome

/-! ## Steps on two sites -/

namespace OnSite

variable {σ τ α β : Type} {E : Site σ → Site τ → Prop} {s : Site σ} {t : Site τ}

/-- Joints are looked up in skeletons of one size. -/
theorem joint_alike {i : JointId} {J : Joint → Joint → Prop} (hE : E s t)
    (hsize : t.skeleton.size = s.skeleton.size)
    (h : Option.Rel J (s.skeleton.get? i) (t.skeleton.get? i)) :
    Alike E (fun e s' e' t' => J e e' ∧ s' = s ∧ t' = t) (joint i s) (joint i t) := by
  unfold joint
  generalize s.skeleton.get? i = x at h ⊢
  generalize t.skeleton.get? i = y at h ⊢
  cases h with
  | some hJ => exact .ok ⟨hJ, rfl, rfl⟩
  | none =>
    rw [hsize]
    exact .error hE

/-- Writing at one handle succeeds on both sites or on neither. -/
theorem setJoint_alike {i : JointId} {x y : Joint} (hE : E s t)
    (hsize : t.skeleton.size = s.skeleton.size) :
    Alike E (fun _ s' _ t' => i.index < s.skeleton.size ∧
        s' = ⟨s.skeleton.put i x, s.source⟩ ∧ t' = ⟨t.skeleton.put i y, t.source⟩)
      (setJoint i x s) (setJoint i y t) := by
  unfold setJoint
  rw [hsize]
  split
  · exact .ok ⟨‹_›, rfl, rfl⟩
  · exact .error hE

/-- Draws are alike where the samples match. -/
theorem draw_alike {f : σ → Except Fault (α × σ)} {g : τ → Except Fault (β × τ)}
    {A : α → β → Prop} {S : σ → τ → Prop} (hE : E s t)
    (h : Matched (fun a b => A a.1 b.1 ∧ S a.2 b.2) (f s.source) (g t.source)) :
    Alike E (fun a s' b t' => A a b ∧ ∃ source source', S source source' ∧
        s' = ⟨s.skeleton, source⟩ ∧ t' = ⟨t.skeleton, source'⟩)
      (draw f s) (draw g t) := by
  unfold draw
  generalize f s.source = x at h ⊢
  generalize g t.source = y at h ⊢
  cases h with
  | @ok a b hab => exact .ok ⟨hab.1, a.2, b.2, hab.2, rfl, rfl⟩
  | error e => exact .error hE

end OnSite

/-! ## Steps in two gardens -/

theorem Surroundings.eq_of_kept {σ : Type} {s s' t' : Surroundings σ}
    (h : s'.source = t'.source ∧ s'.journal = s.journal ∧ t'.journal = s.journal) : s' = t' := by
  obtain ⟨source, journal⟩ := s'
  obtain ⟨source', journal'⟩ := t'
  obtain ⟨rfl, rfl, rfl⟩ := h
  rfl

/-- Computations on skeletons, in gardens whose journals they leave alone. -/
theorem Garden.onSkeleton_alike {σ τ α β : Type} {x : OnSite σ α} {y : OnSite τ β}
    {k k' : Skeleton} {s : Surroundings σ} {t : Surroundings τ} {S : σ → τ → Prop}
    {A : α → Skeleton → β → Skeleton → Prop}
    (h : Alike (fun s t => S s.source t.source)
      (fun a s b t => A a s.skeleton b t.skeleton ∧ S s.source t.source)
      (x ⟨k, s.source⟩) (y ⟨k', t.source⟩)) :
    Alike (fun s' t' => S s'.source t'.source ∧ s'.journal = s.journal ∧ t'.journal = t.journal)
      (fun a s' b t' => A a.1 a.2 b.1 b.2 ∧ S s'.source t'.source ∧ s'.journal = s.journal ∧
        t'.journal = t.journal)
      (onSkeleton k x s) (onSkeleton k' y t) := by
  unfold onSkeleton
  generalize x ⟨k, s.source⟩ = o at h ⊢
  generalize y ⟨k', t.source⟩ = o' at h ⊢
  cases h with
  | ok hq => exact .ok ⟨hq.1, hq.2, rfl, rfl⟩
  | error hS => exact .error ⟨hS, rfl, rfl⟩

end PlantGrowth
