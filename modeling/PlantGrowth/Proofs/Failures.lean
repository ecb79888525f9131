import PlantGrowth.Proofs.Outcome

/-!
# Failures of computations

The counterpart of the lemmas on results: for each way of putting computations together and for
each elementary one, when it stops, with which fault and in which state. A sequence stops in its
first part, or in its second part after a result of the first (`Outcome.bind_eq_error`). Of the
elementary steps, those on joints stop where there is no such joint, draws where the sample cannot
be taken, and identities where they run out; each leaves the state in which it stopped.
-/

set_option autoImplicit false

namespace PlantGrowth

/-! ## Sequences of steps -/

namespace Outcome

universe u

variable {ε σ α β : Type u}

/-- Whether there is no result, for a reason that is accepted. -/
def isError {ε σ α : Type} (accepts : ε → Bool) : EStateM.Result ε σ α → Bool
  | .ok _ _ => false
  | .error e _ => accepts e

/-- A run that was evaluated to an accepted fault has one. -/
theorem exists_of_isError {ε σ α : Type} {accepts : ε → Bool} {r : EStateM.Result ε σ α}
    (h : isError accepts r = true) : ∃ e t, r = .error e t ∧ accepts e = true := by
  cases r with
  | ok a t => cases h
  | error e t => exact ⟨e, t, rfl, h⟩

/-- A sequence fails in its first part, or in the second one after the first has succeeded. -/
theorem bind_eq_error {x : EStateM ε σ α} {f : α → EStateM ε σ β} {s t : σ} {e : ε} :
    (x >>= f) s = .error e t ↔
      x s = .error e t ∨ ∃ a r, x s = .ok a r ∧ f a r = .error e t := by
  show EStateM.bind x f s = .error e t ↔ _
  unfold EStateM.bind
  cases hx : x s <;> simp [and_assoc]

theorem pure_eq_error {a : α} {s t : σ} {e : ε} :
    (pure a : EStateM ε σ α) s = .error e t ↔ False := by
  show (EStateM.Result.ok a s : EStateM.Result ε σ α) = .error e t ↔ _
  simp

theorem get_eq_error {s t : σ} {e : ε} : (get : EStateM ε σ σ) s = .error e t ↔ False := by
  show (EStateM.Result.ok s s : EStateM.Result ε σ σ) = .error e t ↔ _
  simp

theorem map_eq_error {f : α → β} {x : EStateM ε σ α} {s t : σ} {e : ε} :
    (f <$> x) s = .error e t ↔ x s = .error e t := by
  show EStateM.map f x s = .error e t ↔ _
  unfold EStateM.map
  cases hx : x s <;> simp

/-- A list fails at its first element, or later on after the first one has succeeded. -/
theorem mapM_cons_eq_error {f : α → EStateM ε σ β} {a : α} {as : List α} {s t : σ} {e : ε} :
    ((a :: as).mapM f) s = .error e t ↔
      f a s = .error e t ∨ ∃ b r, f a s = .ok b r ∧ (as.mapM f) r = .error e t := by
  rw [List.mapM_cons]
  simp only [bind_eq_error, pure_eq_error, and_false, exists_false, or_false]

theorem except_bind_eq_error {x : Except ε α} {f : α → Except ε β} {e : ε} :
    (x >>= f) = .error e ↔ x = .error e ∨ ∃ a, x = .ok a ∧ f a = .error e := by
  show Except.bind x f = .error e ↔ _
  cases x <;> simp [Except.bind]

theorem except_pure_eq_error {a : α} {e : ε} : (pure a : Except ε α) = .error e ↔ False := by
  show (Except.ok a : Except ε α) = .error e ↔ _
  simp

end Outcome

/-! ## Steps on a site -/

namespace OnSite

variable {σ α : Type}

/-- A joint that cannot be read lies beyond the skeleton. -/
theorem size_le_of_joint_eq_error {id : JointId} {s t : Site σ} {e : Fault}
    (h : joint id s = .error e t) : s.skeleton.size ≤ id.index := by
  unfold joint at h
  split at h
  · cases h
  · rename_i hnone
    simpa [Skeleton.get?, Skeleton.size] using hnone

/-- A joint that cannot be written lies beyond the skeleton. -/
theorem size_le_of_setJoint_eq_error {id : JointId} {j : Joint} {s t : Site σ} {e : Fault}
    (h : setJoint id j s = .error e t) : s.skeleton.size ≤ id.index := by
  unfold setJoint at h
  split at h
  · cases h
  · rename_i hlt
    exact Nat.le_of_not_lt hlt

/-- Where there is no joint, the site stays as it is. -/
theorem eq_of_joint_eq_error {id : JointId} {s t : Site σ} {e : Fault}
    (h : joint id s = .error e t) : t = s := by
  unfold joint at h
  split at h <;> cases h
  rfl

/-- A failed write leaves the site as it was. -/
theorem eq_of_setJoint_eq_error {id : JointId} {j : Joint} {s t : Site σ} {e : Fault}
    (h : setJoint id j s = .error e t) : t = s := by
  unfold setJoint at h
  split at h <;> cases h
  rfl

theorem addJoint_eq_error {j : Joint} {s t : Site σ} {e : Fault} :
    addJoint j s = .error e t ↔ False := by
  simp [addJoint]

/-- A draw fails where the sample does. -/
theorem draw_eq_error {sample : σ → Except Fault (α × σ)} {s t : Site σ} {e : Fault} :
    draw sample s = .error e t ↔ sample s.source = .error e ∧ s = t := by
  unfold draw
  cases h : sample s.source <;> simp

end OnSite

/-! ## Steps in a nursery -/

namespace Build

variable {σ α : Type}

theorem onSite_eq_error {x : OnSite σ α} {n m : Nursery σ} {e : Fault} :
    onSite x n = .error e m ↔ ∃ site, x n.site = .error e site ∧ { n with site } = m := by
  cases h : x n.site <;> simp [onSite, h, and_assoc]

theorem check_eq_error {x : Except Fault α} {n m : Nursery σ} {e : Fault} :
    check x n = .error e m ↔ x = .error e ∧ n = m := by
  cases x <;> simp [check]

theorem note_eq_error {event : Event} {n m : Nursery σ} {e : Fault} :
    note event n = .error e m ↔ False := by
  simp [note]

/-- Identities run out where the next one is no word. -/
theorem freshId_eq_error {n m : Nursery σ} {e : Fault} :
    freshId n = .error e m ↔ addWord n.nextId 1 = .error e ∧ n = m := by
  cases h : addWord n.nextId 1 <;> simp [freshId, h]

theorem raiseAge_eq_error {depth : UInt32} {n m : Nursery σ} {e : Fault} :
    raiseAge depth n = .error e m ↔ False := by
  simp [raiseAge]

end Build

/-! ## Steps in a garden -/

namespace Garden

variable {σ α : Type}

/-- A construction that fails leaves its journal and its random source to the garden. -/
theorem build_eq_error {skeleton : Skeleton} {age nextId : UInt32} {x : Build σ α}
    {s t : Surroundings σ} {e : Fault} :
    build skeleton age nextId x s = .error e t ↔
      ∃ m, x ⟨⟨skeleton, s.source⟩, age, nextId, s.journal⟩ = .error e m ∧
        ⟨m.site.source, m.journal⟩ = t := by
  unfold build
  cases h : x ⟨⟨skeleton, s.source⟩, age, nextId, s.journal⟩ <;> simp [and_assoc]

theorem check_eq_error {x : Except Fault α} {s t : Surroundings σ} {e : Fault} :
    check x s = .error e t ↔ x = .error e ∧ s = t := by
  cases x <;> simp [check]

theorem note_eq_error {event : Event} {s t : Surroundings σ} {e : Fault} :
    note event s = .error e t ↔ False := by
  simp [note]

end Garden

/-! ## Words -/

/-- A sum of words fails only where it does not fit. -/
theorem addWord_eq_error {a b : UInt32} {e : Fault} (h : addWord a b = .error e) :
    e = .addOverflow ∧ UInt32.size ≤ a.toNat + b.toNat := by
  unfold addWord at h
  split at h
  · cases h
  · rename_i hlt
    cases h
    exact ⟨rfl, Nat.le_of_not_lt hlt⟩

/-- One more than a word does not fit only if the word is the last one. -/
theorem last_of_addWord_one {a : UInt32} {e : Fault} (h : addWord a 1 = .error e) :
    e = .addOverflow ∧ a.toNat + 1 = UInt32.size := by
  have hone : (1 : UInt32).toNat = 1 := rfl
  obtain ⟨he, hsize⟩ := addWord_eq_error h
  have hlt : a.toNat < UInt32.size := a.toNat_lt
  exact ⟨he, by omega⟩

end PlantGrowth
