import PlantGrowth.Proofs.Kinds

/-!
# Depths and ages

The age of a plant is never below the depth of anything in it. The turtle raises the age whenever
it saves a frame, by as much as the copy is deeper, and all else that it stands on or grows takes
its depth from a frame. So no frame is deeper than the plant is old (`Turtle.Shallow`) at any
moment of an expansion; the run lemma is `Turtle.Run.shallow`. Generations and frames keep the
depths of the nodes below an age that never falls (`Plant.Reachable.depth_le_age`).
-/

set_option autoImplicit false

namespace PlantGrowth

/-! ## Frames -/

theorem toNat_max (a b : UInt32) : (max a b).toNat = max a.toNat b.toNat := by
  have hmax : max a b = if a ≤ b then b else a := rfl
  rw [hmax]
  split
  · rename_i hle
    exact (max_eq_right (UInt32.le_iff_toNat_le.mp hle)).symm
  · rename_i hlt
    rw [UInt32.le_iff_toNat_le, not_le] at hlt
    exact (max_eq_left hlt.le).symm

theorem word_le_max_left (a b : UInt32) : a ≤ max a b := by
  rw [UInt32.le_iff_toNat_le, toNat_max]
  exact Nat.le_max_left ..

theorem word_le_max_right (a b : UInt32) : b ≤ max a b := by
  rw [UInt32.le_iff_toNat_le, toNat_max]
  exact Nat.le_max_right ..

namespace Turtle

/-- No frame of the stack is deeper than the age. -/
def Shallow (age : UInt32) (stack : Stack) : Prop := ∀ f ∈ stack.frames, f.depth ≤ age

/-- The turtle is not deeper than the plant is old. -/
theorem Shallow.top {age : UInt32} {stack : Stack} (h : Shallow age stack) :
    stack.top.depth ≤ age := by
  apply h
  rw [stack.frames_eq_cons]
  exact List.mem_cons_self

theorem shallow_ofFrame {age : UInt32} {frame : Frame} (h : frame.depth ≤ age) :
    Shallow age (.ofFrame frame) := by
  intro f hf
  rw [List.mem_singleton.mp hf]
  exact h

/-- A step to a frame that is not too deep. -/
theorem Shallow.setTop {age : UInt32} {stack : Stack} (h : Shallow age stack) {frame : Frame}
    (hframe : frame.depth ≤ age) : Shallow age (stack.setTop frame) := by
  intro f hf
  rw [Stack.frames_setTop] at hf
  rcases List.mem_cons.mp hf with rfl | hf
  · exact hframe
  · apply h
    rw [stack.frames_eq_cons]
    exact List.mem_cons_of_mem _ hf

variable {σ : Type} [RandomSource σ] {params : GrowthParams} {letter : Letter}
  {stack stack' : Stack} {s t : Nursery σ}

/-- A step of the turtle does not lower the age and leaves all frames within it, and the node it
grows as well. -/
theorem Step.shallow {node? : Option Node} (h : Step params letter stack s node? stack' t)
    (hs : Shallow s.age stack) :
    s.age ≤ t.age ∧ Shallow t.age stack' ∧ ∀ n ∈ node?, n.depth ≤ t.age := by
  cases h with
  | turnLeft _ => exact ⟨UInt32.le_refl _, hs.setTop hs.top, by simp⟩
  | turnRight _ => exact ⟨UInt32.le_refl _, hs.setTop hs.top, by simp⟩
  | save _ hsave =>
    -- only here a frame gets deeper, and the age is raised to its depth
    obtain ⟨depth, -, hframes⟩ := Stack.save_eq_ok hsave
    refine ⟨word_le_max_left .., ?_, by simp⟩
    have htop : stack'.top = { stack.top with depth } := by
      rw [stack'.frames_eq_cons] at hframes
      exact (List.cons.inj hframes).1
    intro f hf
    rw [hframes] at hf
    rcases List.mem_cons.mp hf with rfl | hf
    · rw [← htop]
      exact word_le_max_right ..
    · exact UInt32.le_trans (hs f hf) (word_le_max_left ..)
  | restore _ hrestore _ hage _ =>
    rw [hage]
    refine ⟨UInt32.le_refl _, ?_, by simp⟩
    have hframes := Stack.restore_eq_ok hrestore
    intro f hf
    split at hframes
    · apply hs
      rw [hframes]
      exact List.mem_cons_of_mem _ hf
    · rw [hframes.2] at hf
      exact hs f hf
  | @grow node _ _ _ hgrew =>
    have hnode : node.depth ≤ s.age := by
      rw [hgrew.depth_eq]
      exact hs.top
    rw [hgrew.age_eq, hgrew.stack_eq]
    exact ⟨UInt32.le_refl _, hs.setTop hnode, by simpa using hnode⟩

/-- No frame is deeper than the age behind a text, nor is a node that was made on the way. -/
theorem Run.shallow {text : List Letter} {made : List Made}
    (h : Run params text stack s made stack' t) (hs : Shallow s.age stack) :
    s.age ≤ t.age ∧ Shallow t.age stack' ∧ ∀ m ∈ made, m.node.depth ≤ t.age := by
  induction h with
  | nil => exact ⟨UInt32.le_refl _, hs, by simp⟩
  | silent hstep _ ih =>
    obtain ⟨hage, hframes, -⟩ := hstep.shallow hs
    obtain ⟨hage', hframes', hmade⟩ := ih hframes
    exact ⟨UInt32.le_trans hage hage', hframes', hmade⟩
  | grow hstep _ ih =>
    obtain ⟨hage, hframes, hnode⟩ := hstep.shallow hs
    obtain ⟨hage', hframes', hmade⟩ := ih hframes
    refine ⟨UInt32.le_trans hage hage', hframes', ?_⟩
    intro m hm
    rcases List.mem_cons.mp hm with rfl | hm
    · exact UInt32.le_trans (hnode _ rfl) hage'
    · exact hmade m hm

end Turtle

/-! ## Expansions -/

namespace Expansion

variable {σ : Type} [RandomSource σ] {grammar : Grammar} {params : GrowthParams} {old : Node}
  {s t : Nursery σ} {r : Replacement}

/-- The nodes of an expansion are not deeper than the plant is old behind it. -/
theorem Expanded.depth_le {rule : Rule (List Letter)} (x : Expanded grammar params old rule s r t)
    (hold : old.depth ≤ s.age) : s.age ≤ t.age ∧ ∀ n ∈ r.nodes, n.depth ≤ t.age := by
  obtain ⟨hage, hframes, hmade⟩ := x.run.shallow (Turtle.shallow_ofFrame hold)
  have hbridge : x.afterBridge.age = x.afterText.age := x.bridged.age_eq
  obtain ⟨site, hlast, ht⟩ := x.relink_eq
  have hage' : t.age = x.afterText.age := (congrArg Nursery.age ht).trans hbridge
  rw [hage']
  refine ⟨hage, ?_⟩
  have hraw : ∀ n ∈ x.raw, n.depth ≤ x.afterText.age := by
    intro n hn
    rcases List.mem_append.mp hn with hn | hn
    · obtain ⟨m, hm, rfl⟩ := List.mem_map.mp hn
      exact hmade m hm
    · rw [(x.bridged.isBridge hn).depth_eq]
      exact hframes.top
  exact forall_of_relinkLast hlast (fun n target hn => hn) hraw

theorem depth_le_of_replace (h : replace grammar params old s = .ok r t)
    (hold : old.depth ≤ s.age) : s.age ≤ t.age ∧ ∀ n ∈ r.nodes, n.depth ≤ t.age := by
  obtain ⟨e, -, -, hexpand, hcarry⟩ := replace_eq_ok h
  cases hrule : rule? grammar old with
  | some rule =>
    obtain ⟨x⟩ := hexpand rule hrule
    exact x.depth_le hold
  | none =>
    obtain ⟨hnodes, rfl⟩ := hcarry hrule
    rw [hnodes]
    refine ⟨UInt32.le_refl _, ?_⟩
    intro n hn
    rw [List.mem_singleton.mp hn]
    exact hold

/-- Nor are those of a whole pass, for the age never falls. -/
theorem depth_le_of_mapM {row : List Node} {parts : List Replacement}
    (h : (row.mapM (replace grammar params)) s = .ok parts t)
    (hrow : ∀ n ∈ row, n.depth ≤ s.age) :
    s.age ≤ t.age ∧ ∀ n ∈ parts.flatMap (·.nodes), n.depth ≤ t.age := by
  induction row generalizing s parts with
  | nil =>
    obtain ⟨rfl, rfl⟩ := Outcome.mapM_nil_eq_ok.mp h
    exact ⟨UInt32.le_refl _, by simp⟩
  | cons old row ih =>
    obtain ⟨r, u, parts', hr, hrest, rfl⟩ := Outcome.mapM_cons_eq_ok.mp h
    obtain ⟨hage, hnodes⟩ := depth_le_of_replace hr (hrow old List.mem_cons_self)
    obtain ⟨hage', hnodes'⟩ := ih hrest fun n hn =>
      UInt32.le_trans (hrow n (List.mem_cons_of_mem old hn)) hage
    refine ⟨UInt32.le_trans hage hage', ?_⟩
    rw [List.flatMap_cons]
    intro n hn
    rcases List.mem_append.mp hn with hn | hn
    · exact UInt32.le_trans (hnodes n hn) hage'
    · exact hnodes' n hn

end Expansion

/-! ## Plants -/

theorem Node.Grows.depth_eq {σ : Type} [RandomSource σ] {m : Moment} {n : Node} {entry : Joint}
    {source source' : σ} {g : Grown} (h : n.Grows m entry source g source') :
    g.node.depth = n.depth := by
  cases h <;> rfl

namespace Plant

variable {σ : Type} [RandomSource σ] {origin : Vec} {p p' : Plant} {s t : Surroundings σ}

/-- The age after a generation is that at the end of its pass. -/
theorem age_of_generate {tally : Tally} (h : p.generate s = .ok (p', tally) t)
    {parts : List Replacement} {m : Nursery σ}
    (hparts : (p.nodes.mapM (Expansion.replace p.grammar p.params))
      ⟨⟨p.skeleton, s.source⟩, p.age, p.nextId, s.journal⟩ = .ok parts m) : p'.age = m.age := by
  obtain ⟨next, m', c, generation, hnext, -, -, rfl, -, -⟩ := generate_eq_ok h
  obtain ⟨parts', hparts', -, -⟩ := Expansion.replaceAll_eq_ok hnext
  rw [hparts] at hparts'
  cases hparts'
  rfl

theorem depth_le_of_sprout {letter : Char} {rules : Rules String} {params : GrowthParams}
    (h : sprout letter rules params origin s = .ok p t) : ∀ n ∈ p.nodes, n.depth ≤ p.age := by
  obtain ⟨node, m, hseed, rfl, -⟩ := sprout_eq_ok h
  intro n hn
  rw [List.mem_singleton.mp hn]
  cases hseed with
  | grown _ hgrew =>
    rw [hgrew.depth_eq]
    exact UInt32.zero_le
  | inert _ _ _ _ _ hdepth _ _ =>
    rw [hdepth]
    exact UInt32.zero_le

/-- A generation does not lower the age and leaves all nodes within it. -/
theorem depth_le_of_generate {tally : Tally} (hp : Reachable origin p)
    (hdepth : ∀ n ∈ p.nodes, n.depth ≤ p.age) (h : p.generate s = .ok (p', tally) t) :
    p.age ≤ p'.age ∧ ∀ n ∈ p'.nodes, n.depth ≤ p'.age := by
  obtain ⟨root, hroot⟩ := hp.sound.rooted
  obtain ⟨parts, m, ρ, hparts, -, -, hnodes, -⟩ := exists_renamed_of_generate hroot h
  obtain ⟨hage, hbound⟩ := Expansion.depth_le_of_mapM hparts hdepth
  have hage' : p'.age = m.age := age_of_generate h hparts
  rw [hage', hnodes]
  refine ⟨hage, ?_⟩
  intro n hn
  obtain ⟨m, hm, rfl⟩ := List.mem_map.mp hn
  exact hbound m hm

/-- A frame changes neither the age nor a depth. -/
theorem depth_le_of_tick {time : Scalar} {noise : Noise} {marks : List Mark}
    (hp : Reachable origin p) (hdepth : ∀ n ∈ p.nodes, n.depth ≤ p.age)
    (h : p.tick time noise s = .ok (p', marks) t) :
    p'.age = p.age ∧ ∀ n ∈ p'.nodes, n.depth ≤ p'.age := by
  obtain ⟨root, hroot⟩ := hp.sound.rooted
  obtain ⟨nodes, k, source, hgrow, rfl, -⟩ := tick_eq_ok h
  obtain ⟨results, rfl, -, hshown, -⟩ := shown_of_growAll hgrow hroot
  refine ⟨rfl, ?_⟩
  intro n hn
  obtain ⟨result, hr, rfl⟩ := List.mem_map.mp hn
  obtain ⟨old, hold, e, x, source₁, source₂, -, -, hgrows⟩ := exists_shown hshown hr
  rw [hgrows.depth_eq]
  exact hdepth old hold

/-- No node of a plant is deeper than the plant is old. -/
theorem Reachable.depth_le_age (h : Reachable origin p) : ∀ n ∈ p.nodes, n.depth ≤ p.age := by
  induction h with
  | sprout h => exact depth_le_of_sprout h
  | generate hp h ih => exact (depth_le_of_generate hp ih h).2
  | tick hp h ih => exact (depth_le_of_tick hp ih h).2

end Plant

end PlantGrowth
