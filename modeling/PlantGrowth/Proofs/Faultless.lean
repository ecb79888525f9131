import PlantGrowth.Proofs.Counters
import PlantGrowth.Proofs.Draws
import PlantGrowth.Proofs.Recompaction

/-!
# What can make a generation fail

With parameters whose draws can all be made, a generation fails for no reason but an exhausted
counter (`Plant.exhausted_of_generate`), and sprouting does not fail at all
(`Plant.sprout_ne_error`). `Plant.Exhausted` names the counters: identities, depth, brackets.

The ways in which the turtle fails to read a letter are the cases of `Turtle.Fails`. The handles that
are read and written are those of joints: the turtle never stands off the skeleton
(`Turtle.Grounded`, kept by every step), and the nodes of a row have their joints while the row is
rooted. The draws are those of `Turtle.shape_ne_error` and `Rule.select_ne_error`. What remains are
the sums of 32-bit words. Where one of them does not fit, the nursery in which the construction
stopped has a counter at its last word, and the letters read so far say how far it has come
(`Nursery.Exhausted`).
-/

set_option autoImplicit false

namespace PlantGrowth

/-! ## Joints -/

/-- Attaching a node fails only where the joint is missing. -/
theorem OnSite.size_le_of_attach_eq_error {σ : Type} {id depth : UInt32} {letter : Char}
    {entry : JointId} {rotation : Scalar} {hasRule : Bool} {kind : Kind} {s t : Site σ} {e : Fault}
    (h : attach id letter entry rotation depth hasRule kind s = .error e t) :
    s.skeleton.size ≤ entry.index := by
  simp only [attach, Outcome.bind_eq_error, Outcome.pure_eq_error, OnSite.addJoint_eq_error,
    and_false, exists_false, or_false] at h
  exact size_le_of_joint_eq_error h

theorem OnSite.eq_of_attach_eq_error {σ : Type} {id depth : UInt32} {letter : Char}
    {entry : JointId} {rotation : Scalar} {hasRule : Bool} {kind : Kind} {s t : Site σ} {e : Fault}
    (h : attach id letter entry rotation depth hasRule kind s = .error e t) : t = s := by
  simp only [attach, Outcome.bind_eq_error, Outcome.pure_eq_error, OnSite.addJoint_eq_error,
    and_false, exists_false, or_false] at h
  exact eq_of_joint_eq_error h

/-- Between handles inside of the skeleton an exit can always be taken over. -/
theorem OnSite.relink_ne_error {σ : Type} {n : Node} {target : JointId} {s t : Site σ} {e : Fault}
    (htarget : target.index < s.skeleton.size) (hexit : n.exit.index < s.skeleton.size) :
    relink n target s ≠ .error e t := by
  intro h
  unfold relink at h
  split at h
  · exact Outcome.pure_eq_error.mp h
  · simp only [Outcome.bind_eq_error, Outcome.pure_eq_error, OnSite.joint_eq_ok, and_false,
      exists_false, or_false] at h
    rcases h with h | ⟨j, r, ⟨-, rfl⟩, h⟩
    · exact absurd hexit (Nat.not_lt.mpr (size_le_of_joint_eq_error h))
    · exact absurd htarget (Nat.not_lt.mpr (size_le_of_setJoint_eq_error h))

/-- A node with handles inside of the skeleton can always pass its joint on. -/
theorem OnSite.refresh_ne_error {σ : Type} {n : Node} {s t : Site σ} {e : Fault}
    (hentry : n.entry.index < s.skeleton.size) (hexit : n.exit.index < s.skeleton.size) :
    refresh n s ≠ .error e t := by
  intro h
  simp only [refresh, Outcome.bind_eq_error, OnSite.joint_eq_ok] at h
  rcases h with h | ⟨j, r, ⟨-, rfl⟩, h⟩
  · exact absurd hentry (Nat.not_lt.mpr (size_le_of_joint_eq_error h))
  · exact absurd hexit (Nat.not_lt.mpr (size_le_of_setJoint_eq_error h))

/-! ## Exhausted counters -/

/-- A construction fails because a counter is exhausted: in the nursery in which it stopped no
identity or no depth is left, or there are more brackets than a word counts. The number `N` bounds
what has been counted. -/
structure Nursery.Exhausted {σ : Type} (t : Nursery σ) (e : Fault) (brackets N : Nat) : Prop where
  fault : e = .addOverflow
  counter : t.nextId.toNat + 1 = UInt32.size ∨ t.age.toNat + 1 = UInt32.size ∨
    UInt32.size ≤ brackets
  size_le : UInt32.size ≤ N

/-- A counter that ran out within some bounds did so within wider ones. -/
theorem Nursery.Exhausted.mono {σ : Type} {t : Nursery σ} {e : Fault} {B B' N N' : Nat}
    (h : t.Exhausted e B N) (hB : B ≤ B') (hN : N ≤ N') : t.Exhausted e B' N' where
  fault := h.fault
  counter := h.counter.imp_right fun h => h.imp_right fun h => h.trans hB
  size_le := h.size_le.trans hN

/-! ## Texts -/

namespace Stack

/-- Saving fails only because the depth or the count of brackets is the last word. -/
theorem overflow_of_save_eq_error {s : Stack} {e : Fault} (h : s.save = .error e) :
    e = .addOverflow ∧
      (s.top.depth.toNat + 1 = UInt32.size ∨ UInt32.size ≤ s.brackets + 1) := by
  simp only [save, Outcome.except_bind_eq_error, Outcome.except_pure_eq_error, and_false,
    exists_false, or_false] at h
  rcases h with h | ⟨depth, -, h⟩
  · obtain ⟨he, hlast⟩ := last_of_addWord_one h
    exact ⟨he, Or.inl hlast⟩
  · obtain ⟨he, hlast⟩ := last_of_addWord_one h
    exact ⟨he, Or.inr (by simp only [brackets]; omega)⟩

/-- Restoring fails only because the count of brackets is the last word. -/
theorem overflow_of_restore_eq_error {s : Stack} {e : Fault} (h : s.restore = .error e) :
    e = .addOverflow ∧ UInt32.size ≤ s.brackets + 1 := by
  unfold restore at h
  split at h
  · simp only [Outcome.except_bind_eq_error, Outcome.except_pure_eq_error, and_false,
      exists_false, or_false] at h
    obtain ⟨he, hlast⟩ := last_of_addWord_one h
    exact ⟨he, by simp only [brackets]; omega⟩
  · simp only [Outcome.except_bind_eq_error, Outcome.except_pure_eq_error, and_false,
      exists_false, or_false] at h
    obtain ⟨he, hlast⟩ := last_of_addWord_one h
    exact ⟨he, by simp only [brackets]; omega⟩

end Stack

namespace Turtle

/-- Every frame stands on a joint, and no handle has wrapped. -/
structure Grounded {σ : Type} (stack : Stack) (s : Nursery σ) : Prop where
  joints : ∀ f ∈ stack.frames, f.joint.index < s.site.skeleton.size
  size_le : s.site.skeleton.size ≤ s.nextId.toNat + 1

/-- The turtle stands on a joint that exists. -/
theorem Grounded.top {σ : Type} {stack : Stack} {s : Nursery σ} (h : Grounded stack s) :
    stack.top.joint.index < s.site.skeleton.size := by
  apply h.joints
  rw [stack.frames_eq_cons]
  exact List.mem_cons_self

theorem Grounded.setTop {σ : Type} {stack : Stack} {s : Nursery σ} (h : Grounded stack s)
    {frame : Frame} (hframe : frame.joint.index < s.site.skeleton.size) :
    Grounded (stack.setTop frame) s := by
  refine ⟨?_, h.size_le⟩
  have hjoints := h.joints
  rw [stack.frames_eq_cons] at hjoints
  rw [Stack.frames_setTop]
  exact List.forall_mem_cons.mpr ⟨hframe, fun f hf => hjoints f (List.mem_cons_of_mem _ hf)⟩

section

variable {σ : Type} [RandomSource σ] {params : GrowthParams} {letter : Letter}
  {stack stack' : Stack} {s t : Nursery σ}

/-- A step leads from joints that exist to joints that exist. -/
theorem Step.grounded {node? : Option Node} (h : Step params letter stack s node? stack' t)
    (hs : Grounded stack s) : Grounded stack' t := by
  cases h with
  | turnLeft _ => exact hs.setTop hs.top
  | turnRight _ => exact hs.setTop hs.top
  | save _ hsave =>
    -- the copy stands on the same joint
    obtain ⟨depth, -, hframes⟩ := Stack.save_eq_ok hsave
    refine ⟨?_, hs.size_le⟩
    rw [hframes]
    exact List.forall_mem_cons.mpr ⟨hs.top, hs.joints⟩
  | restore _ hrestore hsite _ hid =>
    have hframes := Stack.restore_eq_ok hrestore
    have hsub : ∀ f ∈ stack'.frames, f ∈ stack.frames := by
      intro f hf
      split at hframes
      · rw [hframes]
        exact List.mem_cons_of_mem _ hf
      · rwa [hframes.2] at hf
    refine ⟨?_, ?_⟩
    · rw [hsite]
      exact fun f hf => hs.joints f (hsub f hf)
    · rw [hsite, hid]
      exact hs.size_le
  | @grow node _ _ _ hgrew =>
    -- the top moves on to the exit that was put in for the node
    have hsize := hgrew.attached.size_eq
    have hexit := (hgrew.attached.size_le_exit hs.size_le List.mem_cons_self).2
    have hmore : Grounded stack t :=
      ⟨fun f hf => (hs.joints f hf).trans_le (by omega), hgrew.attached.size_le hs.size_le⟩
    rw [hgrew.stack_eq]
    exact hmore.setTop hexit

theorem Run.grounded {text : List Letter} {made : List Made}
    (h : Run params text stack s made stack' t) (hs : Grounded stack s) : Grounded stack' t := by
  induction h with
  | nil => exact hs
  | silent hstep _ ih => exact ih (hstep.grounded hs)
  | grow hstep _ ih => exact ih (hstep.grounded hs)

/-- The ways in which the turtle fails to read a letter: the fault, and the nursery at that moment.
Brackets fail before they change anything. A node fails to get an identity, or with its identity
taken. -/
inductive Fails (params : GrowthParams) (letter : Letter) (stack : Stack) (s : Nursery σ) :
    Fault → Nursery σ → Prop
  | save {e : Fault} : letter.action = .save → stack.save = .error e →
      Fails params letter stack s e s
  | restore {e : Fault} : letter.action = .restore → stack.restore = .error e →
      Fails params letter stack s e s
  | identity {e : Fault} : letter.action.makesNode = true → addWord s.nextId 1 = .error e →
      Fails params letter stack s e s
  | shape {id : UInt32} {t : Nursery σ} {e : Fault} : letter.action.makesNode = true →
      Build.freshId s = .ok id t →
      shape params s.age stack.top letter.action s.site.source = .error e →
      Fails params letter stack s e t
  | attach {id : UInt32} {r t : Nursery σ} {e : Fault} : letter.action.makesNode = true →
      Build.freshId s = .ok id r → s.site.skeleton.size ≤ stack.top.joint.index →
      t.site.skeleton = r.site.skeleton → t.nextId = r.nextId → Fails params letter stack s e t

/-- How growing a node can fail: an identity, a draw or a joint is missing. -/
theorem fails_of_growNode {e : Fault} (hmakes : letter.action.makesNode = true)
    (h : growNode params letter stack s = .error e t) : Fails params letter stack s e t := by
  simp only [growNode, Outcome.bind_eq_error, Outcome.pure_eq_error, Outcome.get_eq_error,
    Outcome.get_eq_ok, Build.freshId_eq_error, Build.onSite_eq_error, Build.onSite_eq_ok,
    OnSite.draw_eq_error, OnSite.draw_eq_ok, and_false, exists_false, or_false, false_or] at h
  rcases h with ⟨hnext, rfl⟩ | ⟨id, r, hid, s', r', ⟨rfl, rfl⟩, ⟨site, ⟨hshape, rfl⟩, rfl⟩ |
    ⟨shaped, r'', ⟨site, ⟨source, -, rfl⟩, rfl⟩, site', hattach, rfl⟩⟩
  · exact .identity hmakes hnext
  · obtain ⟨next, -, -, rfl⟩ := Build.freshId_eq_ok.mp hid
    exact .shape hmakes hid hshape
  · have hsize := OnSite.size_le_of_attach_eq_error hattach
    rw [OnSite.eq_of_attach_eq_error hattach]
    obtain ⟨next, -, -, rfl⟩ := Build.freshId_eq_ok.mp hid
    exact .attach hmakes hid hsize rfl rfl

/-- How reading a letter can fail, told from the letter. -/
theorem fails_of_read {e : Fault} (h : read params letter stack s = .error e t) :
    Fails params letter stack s e t := by
  -- buds, branches and placeholders are grown alike
  have grows : letter.action.makesNode = true → (growNode params letter stack s = .error e t ∨
      (∃ a r, growNode params letter stack s = .ok a r ∧
        (pure (some a.1, a.2) : Build σ (Option Node × Stack)) r = .error e t)) →
      Fails params letter stack s e t := by
    rintro hmakes (h | ⟨a, r, -, h⟩)
    · exact fails_of_growNode hmakes h
    · exact (Outcome.pure_eq_error.mp h).elim
  unfold read at h
  cases ha : letter.action with
  | turnLeft =>
    simp only [ha] at h
    exact (Outcome.pure_eq_error.mp h).elim
  | turnRight =>
    simp only [ha] at h
    exact (Outcome.pure_eq_error.mp h).elim
  | save =>
    simp only [ha, Outcome.bind_eq_error, Outcome.pure_eq_error, Build.check_eq_error,
      Build.raiseAge_eq_error, and_false, exists_false, or_false] at h
    obtain ⟨h, rfl⟩ := h
    exact .save ha h
  | restore =>
    simp only [ha, Outcome.bind_eq_error, Build.check_eq_error] at h
    rcases h with ⟨h, rfl⟩ | ⟨⟨matched, restored⟩, r, -, h⟩
    · exact .restore ha h
    · cases matched with
      | true => exact (Outcome.pure_eq_error.mp h).elim
      | false =>
        simp only [Bool.not_false, if_true, Outcome.bind_eq_error, Outcome.pure_eq_error,
          Build.note_eq_error, and_false, exists_false, or_self] at h
  | bud =>
    simp only [ha, Outcome.bind_eq_error] at h
    exact grows (by rw [ha]; rfl) h
  | branch =>
    simp only [ha, Outcome.bind_eq_error] at h
    exact grows (by rw [ha]; rfl) h
  | placeholder =>
    simp only [ha, Outcome.bind_eq_error] at h
    exact grows (by rw [ha]; rfl) h

end

variable {σ : Type} [WordSource σ] {params : GrowthParams} {letter : Letter}
  {stack stack' : Stack} {s t : Nursery σ} {e : Fault} {N : Nat}

/-- Reading a letter fails only where a counter is exhausted. -/
theorem exhausted_of_read (hparams : params.Drawable) (hshallow : Shallow s.age stack)
    (hground : Grounded stack s) (hN : s.Within N) (hbrackets : stack.brackets ≤ N)
    (h : read params letter stack s = .error e t) :
    t.Exhausted e (stack.brackets + 1) (N + 1) := by
  have hdepth := UInt32.le_iff_toNat_le.mp hshallow.top
  obtain ⟨hage, hid⟩ := hN
  cases fails_of_read h with
  | save _ hsave =>
    obtain ⟨he, hlast | hfull⟩ := Stack.overflow_of_save_eq_error hsave
    · -- the age is not below the depth of the top, so it is the last word as well
      have hlt : s.age.toNat < UInt32.size := s.age.toNat_lt
      exact ⟨he, Or.inr (Or.inl (by omega)), by omega⟩
    · exact ⟨he, Or.inr (Or.inr hfull), by omega⟩
  | restore _ hrestore =>
    obtain ⟨he, hfull⟩ := Stack.overflow_of_restore_eq_error hrestore
    exact ⟨he, Or.inr (Or.inr hfull), by omega⟩
  | identity _ hnext =>
    obtain ⟨he, hlast⟩ := last_of_addWord_one hnext
    exact ⟨he, Or.inl hlast, by omega⟩
  | shape _ _ hshape => exact absurd hshape (shape_ne_error hparams hshallow.top _ _ _)
  | attach _ _ hsize _ _ => exact absurd hground.top (Nat.not_lt.mpr hsize)

/-- Reading a text fails only because a counter has run out, if all draws can be made and the turtle
stands on ground. -/
theorem exhausted_of_readText {text : List Letter} (hparams : params.Drawable)
    (hshallow : Shallow s.age stack) (hground : Grounded stack s) (hN : s.Within N)
    (hbrackets : stack.brackets ≤ N) (h : readText params text stack s = .error e t) :
    t.Exhausted e (stack.brackets + text.length) (N + text.length) := by
  -- all three invariants of the stack hold again after each letter, with bounds one higher
  induction text generalizing stack s N with
  | nil => exact absurd h Outcome.pure_eq_error.mp
  | cons letter text ih =>
    rw [List.length_cons]
    simp only [readText, Outcome.bind_eq_error] at h
    rcases h with h | ⟨⟨node?, stack₁⟩, r, hread, h | ⟨⟨made, stack₂⟩, r', hrest, h⟩⟩
    · exact (exhausted_of_read hparams hshallow hground hN hbrackets h).mono (by omega) (by omega)
    · have hstep := step_of_read hread
      have hbrackets' := hstep.brackets_le
      have hfailed := ih (hstep.shallow hshallow).2.1 (hstep.grounded hground)
        (hstep.within hshallow hN) (by omega) h
      exact hfailed.mono (by omega) (by omega)
    · cases node? <;> exact absurd h Outcome.pure_eq_error.mp

end Turtle

/-! ## Tallies -/

namespace Tally

theorem overflow_of_add_eq_error {a b : Tally} {e : Fault} (h : a.add b = .error e) :
    e = .addOverflow ∧ UInt32.size ≤ a.brackets + b.brackets := by
  simp only [add, Outcome.except_bind_eq_error, Outcome.except_pure_eq_error, and_false,
    exists_false, or_false] at h
  rcases h with h | ⟨saves, -, h | ⟨restores, -, h⟩⟩ <;>
    obtain ⟨he, hsize⟩ := addWord_eq_error h <;>
    exact ⟨he, by simp only [brackets]; omega⟩

theorem brackets_add {a b c : Tally} (h : a.add b = .ok c) :
    c.brackets = a.brackets + b.brackets := by
  simp only [add, Outcome.except_bind_eq_ok, Outcome.except_pure_eq_ok] at h
  obtain ⟨saves, hsaves, restores, hrestores, strays, hstrays, rfl⟩ := h
  have := addWord_ok hsaves
  have := addWord_ok hrestores
  have := addWord_ok hstrays
  simp only [brackets]
  omega

/-- The counts of a row can be added up unless there are too many brackets. -/
theorem overflow_of_foldlM_eq_error {parts : List Tally} {start : Tally} {e : Fault}
    (h : parts.foldlM add start = .error e) :
    e = .addOverflow ∧ UInt32.size ≤ start.brackets + (parts.map brackets).sum := by
  induction parts generalizing start with
  | nil => cases h
  | cons part parts ih =>
    rw [List.foldlM_cons, Outcome.except_bind_eq_error] at h
    rw [List.map_cons, List.sum_cons, ← Nat.add_assoc]
    rcases h with h | ⟨next, hnext, h⟩
    · obtain ⟨he, hsize⟩ := overflow_of_add_eq_error h
      exact ⟨he, hsize.trans (Nat.le_add_right ..)⟩
    · rw [← brackets_add hnext]
      exact ih h

end Tally

/-! ## Expansions -/

namespace Expansion

variable {σ : Type} [WordSource σ] {grammar : Grammar} {params : GrowthParams} {old : Node}
  {s t : Nursery σ} {e : Fault} {L N : Nat}

omit [WordSource σ] in
/-- The exit of an old node can always be taken over by a row that lies inside of the skeleton. -/
theorem relinkLast_ne_error {target : JointId} {row : List Node} {s t : Site σ}
    (htarget : target.index < s.skeleton.size) (hrow : ∀ n ∈ row, n.exit.index < s.skeleton.size) :
    relinkLast target row s ≠ .error e t := by
  intro h
  induction row with
  | nil => exact Outcome.pure_eq_error.mp h
  | cons n row ih =>
    cases row with
    | nil =>
      simp only [relinkLast, Outcome.bind_eq_error, Outcome.pure_eq_error, and_false, exists_false,
        or_false] at h
      exact OnSite.relink_ne_error htarget (hrow n List.mem_cons_self) h
    | cons m row =>
      simp only [relinkLast, Outcome.bind_eq_error, Outcome.pure_eq_error, and_false, exists_false,
        or_false] at h
      exact ih (fun a ha => hrow a (List.mem_cons_of_mem n ha)) h

omit [WordSource σ] in
/-- A bridge fails only for want of an identity. -/
theorem exhausted_of_bridges {made : List Turtle.Made} {stack : Stack}
    (hjoint : stack.top.joint.index < s.site.skeleton.size)
    (h : bridges grammar made stack s = .error e t) : t.Exhausted e 0 (s.nextId.toNat + 1) := by
  unfold bridges at h
  split at h
  · rw [Outcome.map_eq_error] at h
    simp only [bridge, Outcome.bind_eq_error, Build.freshId_eq_error, Build.freshId_eq_ok,
      Build.onSite_eq_error] at h
    rcases h with ⟨h, rfl⟩ | ⟨id, r, ⟨next, -, rfl, rfl⟩, site, h, -⟩
    · obtain ⟨he, hlast⟩ := last_of_addWord_one h
      exact ⟨he, Or.inl hlast, hlast.ge⟩
    · have hsize := OnSite.size_le_of_attach_eq_error h
      exact absurd hjoint (Nat.not_lt.mpr hsize)
  · exact absurd h Outcome.pure_eq_error.mp

omit [WordSource σ] in
theorem noteUnclosed_ne_error (old : Node) (stack : Stack) :
    noteUnclosed old stack s ≠ .error e t := by
  unfold noteUnclosed
  split
  · exact Build.note_eq_error.mp
  · exact Outcome.pure_eq_error.mp

/-- An expansion fails only where a counter is exhausted. -/
theorem exhausted_of_expand {rule : Rule (List Letter)} (hparams : params.Drawable)
    (hL : ∀ text ∈ rule.texts, text.length ≤ L) (hdepth : old.depth ≤ s.age)
    (hentry : old.entry.index < s.site.skeleton.size)
    (hexit : old.exit.index < s.site.skeleton.size)
    (hsize : s.site.skeleton.size ≤ s.nextId.toNat + 1) (hN : s.Within N)
    (h : expand grammar params old rule s = .error e t) : t.Exhausted e L (N + (L + 1)) := by
  rw [expand_eq] at h
  simp only [Outcome.bind_eq_error, Outcome.pure_eq_error, Build.onSite_eq_error,
    Build.onSite_eq_ok, OnSite.draw_eq_error, OnSite.draw_eq_ok, and_false, exists_false,
    or_false] at h
  rcases h with ⟨site, ⟨h, -⟩, -⟩ | ⟨text, s₁, ⟨site, ⟨source, hselect, rfl⟩, rfl⟩, h⟩
  · exact absurd h (Rule.select_ne_error rule _ _)
  have htext : text.length ≤ L := by
    rcases select_eq_ok hselect with hmem | rfl
    · exact hL text hmem
    · exact Nat.zero_le L
  have hshallow : Turtle.Shallow s.age (.ofFrame ⟨old.entry, old.rotation, old.depth⟩) :=
    Turtle.shallow_ofFrame hdepth
  have hground : Turtle.Grounded (.ofFrame ⟨old.entry, old.rotation, old.depth⟩)
      { s with site := ⟨s.site.skeleton, source⟩ } :=
    ⟨fun f hf => by rwa [List.mem_singleton.mp hf], hsize⟩
  have hnone : (Stack.ofFrame ⟨old.entry, old.rotation, old.depth⟩).brackets = 0 := rfl
  rcases h with h | ⟨⟨made, stack⟩, s₂, hread, h⟩
  · have hfailed := Turtle.exhausted_of_readText
      (s := { s with site := ⟨s.site.skeleton, source⟩ }) hparams hshallow hground
      ⟨hN.age, hN.nextId⟩ (Nat.zero_le N) h
    exact hfailed.mono (by omega) (by omega)
  have hrun := Turtle.run_of_readText hread
  have hground' := hrun.grounded hground
  have hwithin := hrun.within hshallow ⟨hN.age, hN.nextId⟩
  rcases h with h | ⟨u, s₃, hnote, h⟩
  · exact absurd h (noteUnclosed_ne_error old stack)
  obtain ⟨journal, rfl⟩ := journal_of_noteUnclosed hnote
  rcases h with h | ⟨ends, s₄, hends, site, h, -⟩
  · have hid := hwithin.nextId
    have hfailed := exhausted_of_bridges (s := { s₂ with journal }) hground'.top h
    exact hfailed.mono (Nat.zero_le L) ((Nat.succ_le_succ hid).trans (by omega))
  -- all exits of the new nodes are there by the time the last of them moves
  have hattached := hrun.attached.append (bridged_of_bridges hends).attached
  have hmore : s.site.skeleton.size ≤ s₄.site.skeleton.size := by
    rw [hattached.size_eq]
    exact Nat.le_add_right ..
  exact absurd h (relinkLast_ne_error (hexit.trans_le hmore) fun n hn =>
    (hattached.size_le_exit hsize hn).2)

/-- Replacing a node fails only because a counter has run out. -/
theorem exhausted_of_replace (hparams : params.Drawable) (hL : grammar.TextsWithin L)
    (hdepth : old.depth ≤ s.age) (hentry : old.entry.index < s.site.skeleton.size)
    (hexit : old.exit.index < s.site.skeleton.size)
    (hsize : s.site.skeleton.size ≤ s.nextId.toNat + 1) (hN : s.Within N)
    (h : replace grammar params old s = .error e t) : t.Exhausted e L (N + (L + 1)) := by
  simp only [replace, Outcome.bind_eq_error, Build.onSite_eq_error, Build.onSite_eq_ok,
    OnSite.refresh_eq_ok] at h
  rcases h with ⟨site, h, -⟩ | ⟨u, r, ⟨site, ⟨j, hj, -, rfl⟩, rfl⟩, h⟩
  · exact absurd h (OnSite.refresh_ne_error hentry hexit)
  · cases hrule : rule? grammar old with
    | none =>
      simp only [hrule] at h
      exact absurd h Outcome.pure_eq_error.mp
    | some rule =>
      simp only [hrule] at h
      have hsize' : (refreshed old j s).site.skeleton.size = s.site.skeleton.size :=
        Skeleton.size_put ..
      refine exhausted_of_expand (s := refreshed old j s) hparams
        (hL old.letter rule (find?_of_rule? hrule)) hdepth ?_ ?_ ?_ ⟨hN.age, hN.nextId⟩ h
      · rwa [hsize']
      · rwa [hsize']
      · rw [hsize']
        exact hsize

/-- A pass over a row fails only where a counter is exhausted. -/
theorem exhausted_of_mapM {origin : Vec} {root : JointId} {before row : List Node}
    (hparams : params.Drawable) (hL : grammar.TextsWithin L)
    (hroot : Rooted origin root (before ++ row) s.site.skeleton s.nextId)
    (hdepth : ∀ n ∈ row, n.depth ≤ s.age) (hN : s.Within N)
    (h : (row.mapM (replace grammar params)) s = .error e t) :
    t.Exhausted e L (N + row.length * (L + 1)) := by
  induction row generalizing before s N with
  | nil => exact absurd h Outcome.pure_eq_error.mp
  | cons old row ih =>
    -- what has been replaced joins the row before, which stays rooted with the rest
    have hmem : old ∈ before ++ old :: row := by simp
    have hold := hdepth old List.mem_cons_self
    rw [List.length_cons, Nat.succ_mul, Nat.add_comm (row.length * (L + 1)), ← Nat.add_assoc]
    rcases Outcome.mapM_cons_eq_error.mp h with h | ⟨r, u, hr, h⟩
    · have hfailed := exhausted_of_replace hparams hL hold (hroot.entry_inside hmem)
        (hroot.exit_inside hmem) hroot.size_le hN h
      exact hfailed.mono (Nat.le_refl L) (Nat.le_add_right ..)
    · have hage := (depth_le_of_replace hr hold).1
      exact ih (hroot.replaced (replaced_of_replace hr hroot.entry_ne_exit hroot.size_le))
        (fun n hn => UInt32.le_trans (hdepth n (List.mem_cons_of_mem old hn)) hage)
        (counts_of_replace hL hr hold hN).1 h

/-- All replacements fail only if one of them does, or if their brackets are too many together. -/
theorem exhausted_of_replaceAll {origin : Vec} {root : JointId} {row : List Node}
    (hparams : params.Drawable) (hL : grammar.TextsWithin L)
    (hroot : Rooted origin root row s.site.skeleton s.nextId) (hdepth : ∀ n ∈ row, n.depth ≤ s.age)
    (hN : s.Within N) (h : replaceAll grammar params row s = .error e t) :
    (row.mapM (replace grammar params)) s = .error e t ∧
        t.Exhausted e L (N + row.length * (L + 1)) ∨
      ∃ parts, (row.mapM (replace grammar params)) s = .ok parts t ∧
        e = .addOverflow ∧ UInt32.size ≤ (parts.map (·.tally.brackets)).sum ∧
        (parts.map (·.tally.brackets)).sum ≤ row.length * L := by
  simp only [replaceAll, Outcome.bind_eq_error, Outcome.pure_eq_error, Build.check_eq_error,
    and_false, exists_false, or_false] at h
  have hbefore : Rooted origin root ([] ++ row) s.site.skeleton s.nextId := hroot
  rcases h with h | ⟨parts, m, hparts, h, rfl⟩
  · exact Or.inl ⟨h, exhausted_of_mapM hparams hL hbefore hdepth hN h⟩
  · obtain ⟨he, hsize⟩ := Tally.overflow_of_foldlM_eq_error h
    have hzero : ({} : Tally).brackets = 0 := rfl
    rw [List.map_map, hzero, Nat.zero_add] at hsize
    exact Or.inr ⟨parts, hparts, he, hsize, (counts_of_mapM hL hparts hdepth hN).2.2⟩

end Expansion

/-! ## Plants -/

/-- A rooted row has its handles inside of the skeleton. -/
theorem Rooted.handle_inside {origin : Vec} {root : JointId} {row : List Node} {k : Skeleton}
    {id : UInt32} (h : Rooted origin root row k id) : ∀ j ∈ Row.handles row, j.index < k.size := by
  intro j hj
  obtain ⟨n, hn, hj⟩ := List.mem_flatMap.mp hj
  rcases List.mem_pair.mp hj with rfl | rfl
  · exact h.entry_inside hn
  · exact h.exit_inside hn

/-- A rooted row can be compacted: all its handles are those of joints. -/
theorem Rooted.exists_compact_eq_ok {origin : Vec} {root : JointId} {row : List Node}
    {k : Skeleton} {id : UInt32} (h : Rooted origin root row k id) :
    ∃ c, k.compact row = .ok c :=
  Skeleton.exists_compact_eq_ok (h.size_le.trans id.toNat_lt) h.handle_inside

namespace Plant

variable {σ : Type} [WordSource σ] {origin : Vec} {p : Plant} {s t : Surroundings σ} {e : Fault}
  {L N M : Nat}

/-- The pass of a generation over the nodes of a plant. -/
def pass {σ : Type} [RandomSource σ] (p : Plant) (s : Surroundings σ) :
    EStateM.Result Fault (Nursery σ) (List Replacement) :=
  (p.nodes.mapM (Expansion.replace p.grammar p.params))
    ⟨⟨p.skeleton, s.source⟩, p.age, p.nextId, s.journal⟩

/-- A counter of 32 bits runs out in the next generation of a plant. -/
inductive Exhausted (L : Nat) (p : Plant) (s : Surroundings σ) : Prop
  /-- All identities have been given to nodes, and one more node is to be made. -/
  | identities {m : Nursery σ} : p.pass s = .error .addOverflow m →
      m.nextId.toNat + 1 = UInt32.size → Exhausted L p s
  /-- The nodes are as deep as can be counted, and a bracket goes deeper. -/
  | depth {m : Nursery σ} : p.pass s = .error .addOverflow m →
      m.age.toNat + 1 = UInt32.size → Exhausted L p s
  /-- A single text has more brackets than can be counted. -/
  | text {m : Nursery σ} : p.pass s = .error .addOverflow m → UInt32.size ≤ L → Exhausted L p s
  /-- The texts read in the generation have more brackets than can be counted. -/
  | brackets {parts : List Replacement} {m : Nursery σ} : p.pass s = .ok parts m →
      UInt32.size ≤ (parts.map (·.tally.brackets)).sum → Exhausted L p s

/-- The turtle starts on the joint of the root. -/
theorem grounded_soil {σ : Type} (origin : Vec) (source : σ) (age : UInt32) (journal : Journal) :
    Turtle.Grounded (.ofFrame ⟨ground, 0, 0⟩)
      (⟨⟨soil origin, source⟩, age, 0, journal⟩ : Nursery σ) := by
  refine ⟨fun f hf => ?_, Nat.le_refl 1⟩
  rw [List.mem_singleton.mp hf]
  exact Nat.one_pos

/-- Sprouting never fails: it reads one letter, on fresh soil. -/
theorem sprout_ne_error {letter : Char} {rules : Rules String} {params : GrowthParams}
    (hparams : params.Drawable) : sprout letter rules params origin s ≠ .error e t := by
  intro h
  simp only [sprout, Outcome.bind_eq_error, Outcome.pure_eq_error, Garden.build_eq_error,
    Garden.note_eq_error, and_false, exists_false, or_false] at h
  obtain ⟨m, h, -⟩ := h
  have hshallow : Turtle.Shallow 1 (.ofFrame ⟨ground, 0, 0⟩) :=
    Turtle.shallow_ofFrame UInt32.zero_le
  have hground := grounded_soil origin s.source 1 s.journal
  have hone : (⟨⟨soil origin, s.source⟩, 1, 0, s.journal⟩ : Nursery σ).Within 1 :=
    ⟨Nat.le_refl 1, Nat.zero_le 1⟩
  simp only [seed, Outcome.bind_eq_error] at h
  rcases h with h | ⟨⟨node?, stack⟩, r, hread, h⟩
  · have hfailed := Turtle.exhausted_of_read hparams hshallow hground hone (Nat.zero_le 1) h
    exact absurd hfailed.size_le (by decide)
  · cases node? with
    | some node => exact Outcome.pure_eq_error.mp h
    | none =>
      obtain ⟨hsite, hid⟩ := (Turtle.step_of_read hread).site_of_none
      simp only [Outcome.bind_eq_error, Build.note_eq_error, Build.freshId_eq_error,
        Build.onSite_eq_error, Build.note_eq_ok, Build.freshId_eq_ok, false_or] at h
      obtain ⟨u, r', rfl, ⟨h, -⟩ | ⟨id, r'', ⟨next, -, rfl, rfl⟩, site, h, -⟩⟩ := h
      · have hlast := (last_of_addWord_one h).2
        rw [hid] at hlast
        exact absurd hlast (show ¬ 0 + 1 = UInt32.size by decide)
      · have hfew := OnSite.size_le_of_attach_eq_error h
        rw [hsite] at hfew
        exact absurd hfew (Nat.not_le.mpr Nat.one_pos)

/-- A generation fails only where a counter is exhausted, be it that of the generations. -/
theorem exhausted_of_generate (hp : Reachable origin p) (hparams : p.params.Drawable)
    (hL : p.grammar.TextsWithin L) (hN : p.Within N M) (h : p.generate s = .error e t) :
    e = .addOverflow ∧
      (p.Exhausted L s ∧ UInt32.size ≤ N + M * (L + 1) ∨
        p.generation.toNat + 1 = UInt32.size) := by
  obtain ⟨root, hroot⟩ := hp.sound.rooted
  have hmul : p.nodes.length * (L + 1) ≤ M * (L + 1) := Nat.mul_le_mul_right (L + 1) hN.nodes
  simp only [generate, Outcome.bind_eq_error, Outcome.pure_eq_error, Garden.build_eq_error,
    Garden.check_eq_error, Garden.note_eq_error, Garden.check_eq_ok, and_false, exists_false,
    or_false] at h
  rcases h with ⟨m, h, -⟩ | ⟨⟨next, nursery⟩, r, hnext, h⟩
  · rcases Expansion.exhausted_of_replaceAll hparams hL hroot hp.depth_le_age
      ⟨hN.age, hN.nextId⟩ h with ⟨hpass, rfl, hcounter, hsize⟩ | ⟨parts, hpass, rfl, hfull, hsize⟩
    · refine ⟨rfl, Or.inl ⟨?_, by omega⟩⟩
      rcases hcounter with hlast | hlast | htext
      · exact .identities hpass hlast
      · exact .depth hpass hlast
      · exact .text hpass htext
    · rw [Nat.mul_succ] at hmul
      exact ⟨rfl, Or.inl ⟨.brackets hpass hfull, by omega⟩⟩
  · obtain ⟨m, hpass, rfl, -⟩ := Garden.build_eq_ok.mp hnext
    obtain ⟨c, hcompact⟩ := (Expansion.rooted_of_replaceAll hpass hroot).exists_compact_eq_ok
    rcases h with ⟨h, -⟩ | ⟨c', r', -, h, -⟩
    · rw [hcompact] at h
      cases h
    · obtain ⟨he, hlast⟩ := last_of_addWord_one h
      exact ⟨he, Or.inr hlast⟩

end Plant

end PlantGrowth
