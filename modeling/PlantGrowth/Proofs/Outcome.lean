import PlantGrowth.Plant

/-!
# Outcomes of successful computations

Plants are built and grown by computations on a state that may stop with a fault. The
lemmas of this file say, for each way of putting such computations together and for each
elementary one, exactly when it gives a result and what that result is: `bind_eq_ok` for
sequences, `mapM_cons_eq_ok` for rows, and one `_eq_ok` lemma for each elementary step on a
site, in a nursery and in a garden. Everything that is proved of a run is read off these.
-/

set_option autoImplicit false

namespace PlantGrowth

/-! ## Sequences of steps -/

namespace Outcome

universe u

variable {ε σ α β : Type u}

/-- Whether there is a result, and an acceptable one. -/
def isOk (accepts : α → Bool) : EStateM.Result ε σ α → Bool
  | .ok a _ => accepts a
  | .error _ _ => false

/-- A run that was evaluated to an accepted result has one. -/
theorem exists_of_isOk {accepts : α → Bool} {r : EStateM.Result ε σ α}
    (h : isOk accepts r = true) : ∃ a t, r = .ok a t ∧ accepts a = true := by
  cases r with
  | ok a t => exact ⟨a, t, rfl, h⟩
  | error e t => cases h

/-- A sequence succeeds through a state in between. -/
theorem bind_eq_ok {x : EStateM ε σ α} {f : α → EStateM ε σ β} {b : β} {s t : σ} :
    (x >>= f) s = .ok b t ↔ ∃ a r, x s = .ok a r ∧ f a r = .ok b t := by
  show EStateM.bind x f s = .ok b t ↔ _
  unfold EStateM.bind
  cases hx : x s <;> simp [and_assoc]

/-- The second part of a sequence starts where the first one ended. -/
theorem bind_of_ok {x : EStateM ε σ α} {f : α → EStateM ε σ β} {a : α} {s t : σ}
    (h : x s = .ok a t) : (x >>= f) s = f a t := by
  show EStateM.bind x f s = _
  rw [EStateM.bind, h]

theorem pure_eq_ok {a b : α} {s t : σ} :
    (pure a : EStateM ε σ α) s = .ok b t ↔ a = b ∧ s = t := by
  show (EStateM.Result.ok a s : EStateM.Result ε σ α) = .ok b t ↔ _
  simp

/-- A result that is changed afterwards leaves the state alone. -/
theorem map_eq_ok {f : α → β} {x : EStateM ε σ α} {b : β} {s t : σ} :
    (f <$> x) s = .ok b t ↔ ∃ a, x s = .ok a t ∧ f a = b := by
  show EStateM.map f x s = .ok b t ↔ _
  unfold EStateM.map
  cases hx : x s <;> simp [and_assoc, and_comm]

theorem get_eq_ok {a s t : σ} : (get : EStateM ε σ σ) s = .ok a t ↔ s = a ∧ s = t := by
  show (EStateM.Result.ok s s : EStateM.Result ε σ σ) = .ok a t ↔ _
  simp

theorem mapM_nil_eq_ok {f : α → EStateM ε σ β} {bs : List β} {s t : σ} :
    ([].mapM f) s = .ok bs t ↔ [] = bs ∧ s = t := by
  rw [List.mapM_nil, pure_eq_ok]

/-- The first element is worked on before the others, in the state that they start from. -/
theorem mapM_cons_eq_ok {f : α → EStateM ε σ β} {a : α} {as : List α} {bs : List β} {s t : σ} :
    ((a :: as).mapM f) s = .ok bs t ↔
      ∃ b r bs', f a s = .ok b r ∧ (as.mapM f) r = .ok bs' t ∧ b :: bs' = bs := by
  rw [List.mapM_cons]
  simp only [bind_eq_ok, pure_eq_ok]
  constructor
  · rintro ⟨b, r, hb, bs', u, hbs, rfl, rfl⟩
    exact ⟨b, r, bs', hb, hbs, rfl⟩
  · rintro ⟨b, r, bs', hb, hbs, rfl⟩
    exact ⟨b, r, hb, bs', t, hbs, rfl, rfl⟩

/-- A list can be cut anywhere, with a state in between. -/
theorem mapM_append_eq_ok {f : α → EStateM ε σ β} {as as' : List α} {bs : List β} {s t : σ} :
    ((as ++ as').mapM f) s = .ok bs t ↔
      ∃ bs₁ r bs₂, (as.mapM f) s = .ok bs₁ r ∧ (as'.mapM f) r = .ok bs₂ t ∧ bs₁ ++ bs₂ = bs := by
  rw [List.mapM_append]
  simp only [bind_eq_ok, pure_eq_ok]
  constructor
  · rintro ⟨bs₁, r, hbs₁, bs₂, u, hbs₂, rfl, rfl⟩
    exact ⟨bs₁, r, bs₂, hbs₁, hbs₂, rfl⟩
  · rintro ⟨bs₁, r, bs₂, hbs₁, hbs₂, rfl⟩
    exact ⟨bs₁, r, hbs₁, bs₂, t, hbs₂, rfl, rfl⟩

theorem except_bind_eq_ok {x : Except ε α} {f : α → Except ε β} {b : β} :
    (x >>= f) = .ok b ↔ ∃ a, x = .ok a ∧ f a = .ok b := by
  show Except.bind x f = .ok b ↔ _
  cases x <;> simp [Except.bind]

theorem except_pure_eq_ok {a b : α} : (pure a : Except ε α) = .ok b ↔ a = b := by
  show (Except.ok a : Except ε α) = .ok b ↔ _
  simp

end Outcome

/-! ## Steps on a site -/

namespace OnSite

variable {σ α : Type}

/-- Reading a joint succeeds where there is one, and changes nothing. -/
theorem joint_eq_ok {id : JointId} {j : Joint} {s t : Site σ} :
    joint id s = .ok j t ↔ s.skeleton.get? id = some j ∧ s = t := by
  cases h : s.skeleton.get? id <;> simp [joint, h]

/-- Writing a joint succeeds inside of the skeleton only, and does not touch the random source. -/
theorem setJoint_eq_ok {id : JointId} {j : Joint} {u : Unit} {s t : Site σ} :
    setJoint id j s = .ok u t ↔
      id.index < s.skeleton.size ∧ ⟨s.skeleton.put id j, s.source⟩ = t := by
  by_cases h : id.index < s.skeleton.size <;> simp [setJoint, h]

/-- Adding a joint always succeeds, and gives the next handle. -/
theorem addJoint_eq_ok {id : JointId} {j : Joint} {s t : Site σ} :
    addJoint j s = .ok id t ↔ s.skeleton.nextId = id ∧ ⟨s.skeleton.push j, s.source⟩ = t := by
  simp [addJoint]

/-- A draw succeeds where the sample does, and does not touch the skeleton. -/
theorem draw_eq_ok {sample : σ → Except Fault (α × σ)} {a : α} {s t : Site σ} :
    draw sample s = .ok a t ↔
      ∃ source, sample s.source = .ok (a, source) ∧ ⟨s.skeleton, source⟩ = t := by
  unfold draw
  cases h : sample s.source with
  | error e => simp
  | ok r =>
    obtain ⟨a', source⟩ := r
    simp [and_assoc]

end OnSite

/-! ## Steps in a nursery -/

namespace Build

variable {σ α : Type}

/-- A step on the site leaves age, identities and journal as they are. -/
theorem onSite_eq_ok {x : OnSite σ α} {a : α} {n m : Nursery σ} :
    onSite x n = .ok a m ↔ ∃ site, x n.site = .ok a site ∧ { n with site } = m := by
  cases h : x n.site <;> simp [onSite, h, and_assoc]

theorem check_eq_ok {x : Except Fault α} {a : α} {n m : Nursery σ} :
    check x n = .ok a m ↔ x = .ok a ∧ n = m := by
  cases x <;> simp [check]

theorem note_eq_ok {e : Event} {u : Unit} {n m : Nursery σ} :
    note e n = .ok u m ↔ { n with journal := n.journal.push e } = m := by
  simp [note]

/-- The next identity is given out as long as the one behind it is a word. -/
theorem freshId_eq_ok {id : UInt32} {n m : Nursery σ} :
    freshId n = .ok id m ↔
      ∃ next, addWord n.nextId 1 = .ok next ∧ n.nextId = id ∧ { n with nextId := next } = m := by
  cases h : addWord n.nextId 1 <;> simp [freshId, h]

theorem raiseAge_eq_ok {depth : UInt32} {u : Unit} {n m : Nursery σ} :
    raiseAge depth n = .ok u m ↔ { n with age := max n.age depth } = m := by
  simp [raiseAge]

end Build

/-! ## Steps in a garden -/

namespace Garden

variable {σ α : Type}

/-- A construction starts from the skeleton that is given to it and hands its journal to the garden.
-/
theorem build_eq_ok {skeleton : Skeleton} {age nextId : UInt32} {x : Build σ α} {a : α}
    {n : Nursery σ} {s t : Surroundings σ} :
    build skeleton age nextId x s = .ok (a, n) t ↔
      ∃ m, x ⟨⟨skeleton, s.source⟩, age, nextId, s.journal⟩ = .ok a m ∧
        { m with journal := #[] } = n ∧ ⟨m.site.source, m.journal⟩ = t := by
  unfold build
  cases h : x ⟨⟨skeleton, s.source⟩, age, nextId, s.journal⟩ <;> simp [and_assoc]

/-- A computation on a skeleton leaves the journal as it is. -/
theorem onSkeleton_eq_ok {skeleton k : Skeleton} {x : OnSite σ α} {a : α}
    {s t : Surroundings σ} :
    onSkeleton skeleton x s = .ok (a, k) t ↔
      ∃ source, x ⟨skeleton, s.source⟩ = .ok a ⟨k, source⟩ ∧ { s with source } = t := by
  unfold onSkeleton
  cases h : x ⟨skeleton, s.source⟩ with
  | error e r => simp
  | ok b r =>
    obtain ⟨k', source⟩ := r
    simp only [EStateM.Result.ok.injEq, Prod.mk.injEq, Site.mk.injEq]
    constructor
    · rintro ⟨⟨rfl, rfl⟩, rfl⟩
      exact ⟨source, ⟨rfl, rfl, rfl⟩, rfl⟩
    · rintro ⟨source', ⟨rfl, rfl, rfl⟩, rfl⟩
      exact ⟨⟨rfl, rfl⟩, rfl⟩

theorem check_eq_ok {x : Except Fault α} {a : α} {s t : Surroundings σ} :
    check x s = .ok a t ↔ x = .ok a ∧ s = t := by
  cases x <;> simp [check]

theorem note_eq_ok {e : Event} {u : Unit} {s t : Surroundings σ} :
    note e s = .ok u t ↔ { s with journal := s.journal.push e } = t := by
  simp [note]

end Garden

end PlantGrowth
