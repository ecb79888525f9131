import PlantGrowth.Proofs.Attachment

/-!
# Runs of the turtle

What the turtle does on reading a letter is one of the cases of `Step`, and the steps of a
text are a `Run`; `step_of_read` and `run_of_readText` obtain them from a successful reading.
A step leaves no node and changes the stack alone, or it grows a node on the top frame
(`Grew`). Properties of expansions are inductions on runs with one case for each step.

`Run.attached` says that a text attaches its nodes to the skeleton in order, and
`Run.standing` that these are in preorder and that all frames of the stack stay on the trail.
-/

set_option autoImplicit false

namespace PlantGrowth

/-! ## Frames -/

namespace Stack

/-- All frames, the topmost first. -/
def frames (s : Stack) : List Frame := s.nested ++ [s.base]

/-- The frames below the top one. -/
def below (s : Stack) : List Frame := s.frames.tail

theorem frames_eq_cons (s : Stack) : s.frames = s.top :: s.below := by
  unfold frames top below frames
  cases s.nested <;> rfl

theorem top_mem_frames (s : Stack) : s.top ∈ s.frames := by
  rw [s.frames_eq_cons]
  exact List.mem_cons_self

@[simp] theorem below_setTop (s : Stack) (f : Frame) : (s.setTop f).below = s.below := by
  unfold setTop below frames
  split <;> simp [*]

theorem frames_setTop (s : Stack) (f : Frame) : (s.setTop f).frames = f :: s.below := by
  rw [frames_eq_cons, top_setTop, below_setTop]

theorem map_joint_turn (s : Stack) (a : Scalar) :
    (s.turn a).frames.map (·.joint) = s.frames.map (·.joint) := by
  rw [turn, frames_setTop, s.frames_eq_cons]
  rfl

theorem isOuter_iff {s : Stack} : s.isOuter = true ↔ s.frames = [s.top] := by
  unfold isOuter frames top
  cases s.nested <;> simp

/-- Saving puts a copy of the top frame, one level deeper, on top. -/
theorem save_eq_ok {s t : Stack} (h : s.save = .ok t) :
    ∃ depth, addWord s.top.depth 1 = .ok depth ∧
      t.frames = { s.top with depth } :: s.frames := by
  simp only [save, Outcome.except_bind_eq_ok, Outcome.except_pure_eq_ok] at h
  obtain ⟨depth, hd, saves, -, rfl⟩ := h
  exact ⟨depth, hd, rfl⟩

/-- Restoring removes the top frame, or nothing if it is the lowest. -/
theorem restore_eq_ok {s t : Stack} {matched : Bool} (h : s.restore = .ok (matched, t)) :
    if matched then s.frames = s.top :: t.frames else s.nested = [] ∧ t.frames = s.frames := by
  unfold restore at h
  split at h
  · rename_i frame below hn
    simp only [Outcome.except_bind_eq_ok, Outcome.except_pure_eq_ok, Prod.mk.injEq] at h
    obtain ⟨restores, -, rfl, rfl⟩ := h
    simp [frames, top, hn]
  · rename_i hn
    simp only [Outcome.except_bind_eq_ok, Outcome.except_pure_eq_ok, Prod.mk.injEq] at h
    obtain ⟨strays, -, rfl, rfl⟩ := h
    simp [frames, hn]

end Stack

/-! ## Steps -/

namespace Turtle

variable {σ : Type} [RandomSource σ]

/-- A node grown on the top frame of a stack for a letter. -/
structure Grew (params : GrowthParams) (letter : Letter) (stack : Stack) (s : Nursery σ)
    (node : Node) (stack' : Stack) (t : Nursery σ) : Prop where
  attached : Attached s.site.skeleton s.nextId [node] t.site.skeleton t.nextId
  letter_eq : node.letter = letter.char
  entry_eq : node.entry = stack.top.joint
  depth_eq : node.depth = stack.top.depth
  hasRule_eq : node.hasRule = letter.hasRule
  shape_eq : shape params s.age stack.top letter.action s.site.source =
    .ok ((node.rotation, node.kind), t.site.source)
  stack_eq : stack' = stack.setTop ⟨node.exit, 0, node.depth⟩
  age_eq : t.age = s.age
  journal_eq : t.journal = s.journal

theorem grew_of_growNode {params : GrowthParams} {letter : Letter} {stack stack' : Stack}
    {s t : Nursery σ} {node : Node} (h : growNode params letter stack s = .ok (node, stack') t) :
    Grew params letter stack s node stack' t := by
  simp only [growNode, Outcome.bind_eq_ok, Outcome.pure_eq_ok, Outcome.get_eq_ok,
    Build.freshId_eq_ok, Build.onSite_eq_ok, OnSite.draw_eq_ok, OnSite.attach_eq_ok] at h
  obtain ⟨id, r₁, ⟨next, hnext, rfl, rfl⟩, s₁, r₂, ⟨rfl, rfl⟩, shaped, r₃,
    ⟨site, ⟨source, hshape, rfl⟩, rfl⟩, made, r₄, ⟨site', ⟨e, he, rfl, rfl⟩, rfl⟩, hresult,
    rfl⟩ := h
  obtain ⟨rotation, kind⟩ := shaped
  simp only [Prod.mk.injEq] at hresult
  obtain ⟨rfl, rfl⟩ := hresult
  exact {
    attached := .cons he rfl rfl hnext (.nil _ _)
    letter_eq := rfl
    entry_eq := rfl
    depth_eq := rfl
    hasRule_eq := rfl
    shape_eq := hshape
    stack_eq := rfl
    age_eq := rfl
    journal_eq := rfl }

/-- The ways in which the turtle reads a letter: the node it grows, if any, and stack and
nursery afterwards. -/
inductive Step (params : GrowthParams) (letter : Letter) (stack : Stack) (s : Nursery σ) :
    Option Node → Stack → Nursery σ → Prop
  | turnLeft : letter.action = .turnLeft →
      Step params letter stack s none (stack.turn (Scalar.toRadians params.angle)) s
  | turnRight : letter.action = .turnRight →
      Step params letter stack s none (stack.turn (-Scalar.toRadians params.angle)) s
  | save {stack' : Stack} : letter.action = .save → stack.save = .ok stack' →
      Step params letter stack s none stack' { s with age := max s.age stack'.top.depth }
  | restore {matched : Bool} {stack' : Stack} {t : Nursery σ} : letter.action = .restore →
      stack.restore = .ok (matched, stack') → t.site = s.site → t.age = s.age →
      t.nextId = s.nextId → Step params letter stack s none stack' t
  | grow {node : Node} {stack' : Stack} {t : Nursery σ} : letter.action.makesNode = true →
      Grew params letter stack s node stack' t →
      Step params letter stack s (some node) stack' t

theorem step_of_read {params : GrowthParams} {letter : Letter} {stack stack' : Stack}
    {s t : Nursery σ} {node? : Option Node}
    (h : read params letter stack s = .ok (node?, stack') t) :
    Step params letter stack s node? stack' t := by
  -- buds, branches and placeholders are grown alike
  have grows : letter.action.makesNode = true →
      (∃ a r, growNode params letter stack s = .ok a r ∧ (some a.1, a.2) = (node?, stack') ∧
        r = t) →
      Step params letter stack s node? stack' t := by
    rintro hmakes ⟨⟨node, st⟩, r, hgrow, hresult, rfl⟩
    cases hresult
    exact .grow hmakes (grew_of_growNode hgrow)
  unfold read at h
  cases ha : letter.action with
  | turnLeft =>
    simp only [ha, Outcome.pure_eq_ok, Prod.mk.injEq] at h
    obtain ⟨⟨rfl, rfl⟩, rfl⟩ := h
    exact .turnLeft ha
  | turnRight =>
    simp only [ha, Outcome.pure_eq_ok, Prod.mk.injEq] at h
    obtain ⟨⟨rfl, rfl⟩, rfl⟩ := h
    exact .turnRight ha
  | save =>
    simp only [ha, Outcome.bind_eq_ok, Outcome.pure_eq_ok, Build.check_eq_ok,
      Build.raiseAge_eq_ok, Prod.mk.injEq] at h
    obtain ⟨saved, r, ⟨hsave, rfl⟩, u, r', rfl, ⟨rfl, rfl⟩, rfl⟩ := h
    exact .save ha hsave
  | restore =>
    simp only [ha, Outcome.bind_eq_ok, Build.check_eq_ok] at h
    obtain ⟨⟨matched, restored⟩, r, ⟨hrestore, rfl⟩, h⟩ := h
    cases matched with
    | true =>
      simp only [Bool.not_true, Bool.false_eq_true, if_false, Outcome.pure_eq_ok,
        Prod.mk.injEq] at h
      obtain ⟨⟨rfl, rfl⟩, rfl⟩ := h
      exact .restore ha hrestore rfl rfl rfl
    | false =>
      simp only [Bool.not_false, if_true, Outcome.bind_eq_ok, Outcome.pure_eq_ok,
        Build.note_eq_ok, Prod.mk.injEq] at h
      obtain ⟨u, r', rfl, ⟨rfl, rfl⟩, rfl⟩ := h
      exact .restore ha hrestore rfl rfl rfl
  | bud =>
    simp only [ha, Outcome.bind_eq_ok, Outcome.pure_eq_ok] at h
    exact grows (by rw [ha]; rfl) h
  | branch =>
    simp only [ha, Outcome.bind_eq_ok, Outcome.pure_eq_ok] at h
    exact grows (by rw [ha]; rfl) h
  | placeholder =>
    simp only [ha, Outcome.bind_eq_ok, Outcome.pure_eq_ok] at h
    exact grows (by rw [ha]; rfl) h

/-! ## Runs -/

/-- The steps of a text, from a stack and a nursery to the nodes made and to stack and nursery
at the end. -/
inductive Run (params : GrowthParams) :
    List Letter → Stack → Nursery σ → List Made → Stack → Nursery σ → Prop
  | nil (stack : Stack) (s : Nursery σ) : Run params [] stack s [] stack s
  | silent {letter : Letter} {text : List Letter} {stack stack' stack'' : Stack}
      {s r t : Nursery σ} {made : List Made} : Step params letter stack s none stack' r →
      Run params text stack' r made stack'' t → Run params (letter :: text) stack s made stack'' t
  | grow {letter : Letter} {text : List Letter} {stack stack' stack'' : Stack}
      {s r t : Nursery σ} {node : Node} {made : List Made} :
      Step params letter stack s (some node) stack' r → Run params text stack' r made stack'' t →
      Run params (letter :: text) stack s (⟨node, stack'.isOuter⟩ :: made) stack'' t

/-- Reading a text is a run, step by step. -/
theorem run_of_readText {params : GrowthParams} {text : List Letter} {stack stack' : Stack}
    {s t : Nursery σ} {made : List Made}
    (h : readText params text stack s = .ok (made, stack') t) :
    Run params text stack s made stack' t := by
  induction text generalizing stack s made with
  | nil =>
    simp only [readText, Outcome.pure_eq_ok, Prod.mk.injEq] at h
    obtain ⟨⟨rfl, rfl⟩, rfl⟩ := h
    exact .nil stack s
  | cons letter text ih =>
    simp only [readText, Outcome.bind_eq_ok] at h
    obtain ⟨⟨node?, stack₁⟩, r, hread, ⟨made', stack₂⟩, r', hrest, h⟩ := h
    have hstep := step_of_read hread
    cases node? with
    | none =>
      simp only [Outcome.pure_eq_ok, Prod.mk.injEq] at h
      obtain ⟨⟨rfl, rfl⟩, rfl⟩ := h
      exact .silent hstep (ih hrest)
    | some node =>
      simp only [Outcome.pure_eq_ok, Prod.mk.injEq] at h
      obtain ⟨⟨rfl, rfl⟩, rfl⟩ := h
      exact .grow hstep (ih hrest)

/-- A step grows a node if the action is one that leaves a node behind. -/
theorem Step.makesNode_eq {params : GrowthParams} {letter : Letter} {stack stack' : Stack}
    {s t : Nursery σ} {node? : Option Node} (h : Step params letter stack s node? stack' t) :
    letter.action.makesNode = node?.isSome := by
  cases h with
  | turnLeft ha => rw [ha]; rfl
  | turnRight ha => rw [ha]; rfl
  | save ha _ => rw [ha]; rfl
  | restore ha _ _ _ _ => rw [ha]; rfl
  | grow hmakes _ => exact hmakes

/-- A letter that grows no node changes neither the skeleton nor the next identity. -/
theorem Step.site_of_none {params : GrowthParams} {letter : Letter} {stack stack' : Stack}
    {s t : Nursery σ} (h : Step params letter stack s none stack' t) :
    t.site = s.site ∧ t.nextId = s.nextId := by
  cases h with
  | turnLeft _ => exact ⟨rfl, rfl⟩
  | turnRight _ => exact ⟨rfl, rfl⟩
  | save _ _ => exact ⟨rfl, rfl⟩
  | restore _ _ hsite _ hid => exact ⟨hsite, hid⟩

theorem Step.attached {params : GrowthParams} {letter : Letter} {stack stack' : Stack}
    {s t : Nursery σ} {node? : Option Node} (h : Step params letter stack s node? stack' t) :
    Attached s.site.skeleton s.nextId node?.toList t.site.skeleton t.nextId := by
  cases node? with
  | none =>
    obtain ⟨hsite, hid⟩ := h.site_of_none
    rw [hsite, hid]
    exact .nil _ _
  | some node =>
    cases h with
    | grow _ hgrew => exact hgrew.attached

/-- A text attaches its nodes in order. -/
theorem Run.attached {params : GrowthParams} {text : List Letter} {stack stack' : Stack}
    {s t : Nursery σ} {made : List Made} (h : Run params text stack s made stack' t) :
    Attached s.site.skeleton s.nextId (made.map (·.node)) t.site.skeleton t.nextId := by
  induction h with
  | nil => exact .nil _ _
  | silent hstep _ ih => exact hstep.attached.append ih
  | grow hstep _ ih => exact hstep.attached.append ih

/-! ## The trail of a run -/

/-- The joints lie on the trail one behind the other, and behind all of them those of `tail`. -/
def Standing (tail : List JointId) : List JointId → List JointId → Prop
  | [], trail => tail.Sublist trail
  | j :: joints, trail => j ∈ trail ∧ Standing tail joints (Row.backTo j trail)

theorem Standing.mono {tail joints trail longer : List JointId} (h : Standing tail joints trail)
    (hsub : trail.Sublist longer) : Standing tail joints longer := by
  induction joints generalizing trail longer with
  | nil => exact h.trans hsub
  | cons j joints ih => exact ⟨hsub.subset h.1, ih h.2 (Row.backTo_mono hsub h.1)⟩

theorem Standing.sublist {tail joints trail : List JointId} (h : Standing tail joints trail) :
    tail.Sublist trail := by
  induction joints generalizing trail with
  | nil => exact h
  | cons j joints ih => exact (ih h.2).trans (Row.backTo_sublist j trail)

/-- What the turtle stands on after a node it grew on the top frame. -/
theorem Standing.extend {tail joints trail : List JointId} {n : Node}
    (h : Standing tail (n.entry :: joints) trail) :
    Standing tail (n.exit :: joints) (Row.extend trail n) := by
  refine ⟨List.mem_cons_self, ?_⟩
  show Standing tail joints (Row.backTo n.exit (n.exit :: Row.backTo n.entry trail))
  rw [Row.backTo_cons_self]
  exact h.2.mono (List.sublist_cons_self ..)

theorem Step.standing_of_none {params : GrowthParams} {letter : Letter} {stack stack' : Stack}
    {s t : Nursery σ} (h : Step params letter stack s none stack' t) {tail trail : List JointId}
    (hs : Standing tail (stack.frames.map (·.joint)) trail) :
    Standing tail (stack'.frames.map (·.joint)) trail := by
  cases h with
  | turnLeft _ =>
    rw [stack.map_joint_turn]
    exact hs
  | turnRight _ =>
    rw [stack.map_joint_turn]
    exact hs
  | save _ hsave =>
    obtain ⟨depth, -, hframes⟩ := Stack.save_eq_ok hsave
    rw [hframes]
    rw [stack.frames_eq_cons] at hs ⊢
    refine ⟨hs.1, Row.mem_backTo hs.1, ?_⟩
    -- the copy stands where the top frame stood
    show Standing tail _ (Row.backTo stack.top.joint (Row.backTo stack.top.joint trail))
    rw [Row.backTo_backTo]
    exact hs.2
  | restore _ hrestore _ _ _ =>
    have hframes := Stack.restore_eq_ok hrestore
    split at hframes
    · rw [hframes] at hs
      exact hs.2.mono (Row.backTo_sublist ..)
    · rw [hframes.2]
      exact hs

/-- The nodes of a text are in preorder, and the frames of the stack stay on the trail. -/
theorem Run.standing {params : GrowthParams} {text : List Letter} {stack stack' : Stack}
    {s t : Nursery σ} {made : List Made} (h : Run params text stack s made stack' t)
    {tail trail : List JointId} (hs : Standing tail (stack.frames.map (·.joint)) trail) :
    Row.IsPreorder trail (made.map (·.node)) ∧
      Standing tail (stack'.frames.map (·.joint)) (Row.trail trail (made.map (·.node))) := by
  induction h generalizing trail with
  | nil => exact ⟨trivial, hs⟩
  | silent hstep _ ih => exact ih (hstep.standing_of_none hs)
  | @grow letter text stack stack₁ stack₂ s r t node made hstep _ ih =>
    cases hstep with
    | grow _ hgrew =>
      rw [stack.frames_eq_cons, List.map_cons, ← hgrew.entry_eq] at hs
      -- the top frame moves on to the exit of the node, the frames below stay behind it
      have hnext : Standing tail (stack₁.frames.map (·.joint)) (Row.extend trail node) := by
        rw [hgrew.stack_eq, Stack.frames_setTop]
        exact hs.extend
      obtain ⟨hpre, hstand⟩ := ih hnext
      exact ⟨⟨hs.1, hpre⟩, hstand⟩

end Turtle

end PlantGrowth
