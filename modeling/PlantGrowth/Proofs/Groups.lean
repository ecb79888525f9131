import PlantGrowth.Proofs.BracketCounts

/-!
# Bracketed groups

A group is a well-bracketed text between an opening and a closing bracket. Reading it leaves every
frame of the stack as it was, whatever the frames are, counts as many restored as saved frames and
no stray bracket, and makes nodes that all are deeper than the top frame and hang from its joint
(`Turtle.readText_group`).

While the group is read, the frames of the stack before it stay where they are, below at least one
frame of the group: that one is a copy, so growing on it or turning it does not reach the original
(`Turtle.InGroup`). `Turtle.Step.inGroup` is the step and `Turtle.Run.inGroup` the run.
-/

set_option autoImplicit false

namespace PlantGrowth

/-! ## Nodes that hang from a joint -/

namespace Row

/-- The node is one of the row, and the way from it towards the root leads over nodes of the row to
one that starts at the joint. -/
def HangsFrom (row : List Node) (j : JointId) (n : Node) : Prop :=
  n ∈ row ∧ ∃ a, OnPath row a n ∧ a.entry = j

/-- The joint `i` is the joint `j` or the exit of a node that hangs from it. -/
def Reaches (row : List Node) (j i : JointId) : Prop :=
  i = j ∨ ∃ m, HangsFrom row j m ∧ m.exit = i

/-- What starts at a joint within reach hangs from the joint as well. -/
theorem Reaches.hangsFrom {row : List Node} {j : JointId} {n : Node} (hn : n ∈ row)
    (h : Reaches row j n.entry) : HangsFrom row j n := by
  rcases h with he | ⟨m, ⟨hm, a, ha, hentry⟩, hexit⟩
  · exact ⟨hn, n, .refl, he⟩
  · exact ⟨hn, a, ha.tail ⟨hm, hn, hexit.symm⟩, hentry⟩

end Row

/-! ## Runs in two parts -/

namespace Turtle

variable {σ : Type} [RandomSource σ] {params : GrowthParams} {stack stack' : Stack}
  {s t : Nursery σ} {row : List Node} {root : Frame} {lower : List Frame} {opened : ℕ}

/-- A run of two texts is a run of the one and a run of the other. -/
theorem Run.split {text more : List Letter} {made : List Made}
    (h : Run params (text ++ more) stack s made stack' t) :
    ∃ front back middle r, made = front ++ back ∧ Run params text stack s front middle r ∧
      Run params more middle r back stack' t := by
  induction text generalizing stack s made with
  | nil => exact ⟨[], made, stack, s, rfl, .nil stack s, h⟩
  | cons letter text ih =>
    cases h with
    | silent hstep hrest =>
      obtain ⟨front, back, middle, r, rfl, hfront, hback⟩ := ih hrest
      exact ⟨front, back, middle, r, rfl, .silent hstep hfront, hback⟩
    | grow hstep hrest =>
      obtain ⟨front, back, middle, r, rfl, hfront, hback⟩ := ih hrest
      exact ⟨_ :: front, back, middle, r, rfl, .grow hstep hfront, hback⟩

/-! ## Frames of a group -/

/-- A frame of a group: deeper than the frame at which the group was opened, and within reach of
its joint. -/
structure FrameOf (row : List Node) (root frame : Frame) : Prop where
  deeper : root.depth < frame.depth
  reaches : Row.Reaches row root.joint frame.joint

/-- The stack in a group with `opened` more brackets open in it: its frames are those of the group,
one for each open bracket, above the `lower` frames. -/
def InGroup (row : List Node) (root : Frame) (lower : List Frame) (opened : ℕ)
    (stack : Stack) : Prop :=
  ∃ upper, stack.frames = upper ++ lower ∧ upper.length = opened + 1 ∧
    ∀ f ∈ upper, FrameOf row root f

theorem InGroup.top (h : InGroup row root lower opened stack) : FrameOf row root stack.top := by
  obtain ⟨upper, hframes, hlength, hupper⟩ := h
  obtain ⟨f, rest, rfl⟩ := List.exists_cons_of_length_eq_add_one hlength
  rw [stack.frames_eq_cons, List.cons_append] at hframes
  obtain ⟨rfl, -⟩ := List.cons.inj hframes
  exact hupper _ List.mem_cons_self

/-- A frame of the group may take the place of the top one. -/
theorem InGroup.setTop (h : InGroup row root lower opened stack) {frame : Frame}
    (hframe : FrameOf row root frame) : InGroup row root lower opened (stack.setTop frame) := by
  obtain ⟨upper, hframes, hlength, hupper⟩ := h
  obtain ⟨f, rest, rfl⟩ := List.exists_cons_of_length_eq_add_one hlength
  rw [stack.frames_eq_cons, List.cons_append] at hframes
  obtain ⟨-, hbelow⟩ := List.cons.inj hframes
  refine ⟨frame :: rest, by rw [Stack.frames_setTop, hbelow, List.cons_append], hlength, ?_⟩
  exact List.forall_mem_cons.mpr ⟨hframe, (List.forall_mem_cons.mp hupper).2⟩

/-- Saving adds a frame to the group: the copy is deeper than the frame of the group it copies. -/
theorem InGroup.save (h : InGroup row root lower opened stack) (hsave : stack.save = .ok stack') :
    InGroup row root lower (opened + 1) stack' := by
  obtain ⟨depth, hdepth, hsaved⟩ := Stack.save_eq_ok hsave
  have htop := h.top
  obtain ⟨upper, hframes, hlength, hupper⟩ := h
  refine ⟨{ stack.top with depth } :: upper, by rw [hsaved, hframes, List.cons_append], ?_, ?_⟩
  · rw [List.length_cons, hlength]
  · refine List.forall_mem_cons.mpr ⟨⟨?_, htop.reaches⟩, hupper⟩
    have hword : depth.toNat = stack.top.depth.toNat + 1 := addWord_ok hdepth
    have hdeeper := UInt32.lt_iff_toNat_lt.mp htop.deeper
    exact UInt32.lt_iff_toNat_lt.mpr (by show _ < depth.toNat; omega)

/-- Restoring with a bracket open takes a frame from the top, and there is always one to take. -/
theorem below_of_restore {f : Frame} {rest : List Frame} {matched : Bool} (hrest : rest ≠ [])
    (hframes : stack.frames = f :: rest) (hrestore : stack.restore = .ok (matched, stack')) :
    stack'.frames = rest := by
  have hcases := Stack.restore_eq_ok hrestore
  split at hcases
  · rw [hframes] at hcases
    exact (List.cons.inj hcases).2.symm
  · rw [Stack.frames, hcases.1, List.nil_append] at hframes
    exact absurd (List.cons.inj hframes).2.symm hrest

theorem InGroup.restore (h : InGroup row root lower (opened + 1) stack) {matched : Bool}
    (hrestore : stack.restore = .ok (matched, stack')) : InGroup row root lower opened stack' := by
  obtain ⟨upper, hframes, hlength, hupper⟩ := h
  obtain ⟨f, rest, rfl⟩ := List.exists_cons_of_length_eq_add_one hlength
  have hrest : rest.length = opened + 1 := by simpa using hlength
  refine ⟨rest, below_of_restore ?_ hframes hrestore, hrest, (List.forall_mem_cons.mp hupper).2⟩
  intro hnil
  rw [(List.append_eq_nil_iff.mp hnil).1] at hrest
  cases hrest

/-- What is open at the end of a group is closed by the bracket behind it. -/
theorem InGroup.frames_of_restore (h : InGroup row root lower 0 stack) (hlower : lower ≠ [])
    {matched : Bool} (hrestore : stack.restore = .ok (matched, stack')) :
    stack'.frames = lower := by
  obtain ⟨upper, hframes, hlength, -⟩ := h
  obtain ⟨f, rfl⟩ := List.length_eq_one_iff.mp hlength
  exact below_of_restore hlower hframes hrestore

/-! ## Steps and runs in a group -/

/-- A step within a group changes frames of the group only, and a node that it grows is one of the
group. -/
theorem Step.inGroup {letter : Letter} {node? : Option Node}
    (h : Step params letter stack s node? stack' t) (hact : letter.action = .ofLetter letter.char)
    (hrow : ∀ n ∈ node?, n ∈ row) (hstray : ¬(letter.char = ']' ∧ opened = 0))
    (hs : InGroup row root lower opened stack) :
    InGroup row root lower (Word.openAfter opened letter.char) stack' ∧
      ∀ n ∈ node?, root.depth < n.depth ∧ Row.HangsFrom row root.joint n := by
  have htop := hs.top
  have hnone : ∀ n ∈ (none : Option Node), root.depth < n.depth ∧ Row.HangsFrom row root.joint n :=
    fun n hn => absurd hn (Option.not_mem_none n)
  rw [Word.openAfter, ← hact]
  cases h with
  | turnLeft ha => rw [ha]; exact ⟨hs.setTop ⟨htop.deeper, htop.reaches⟩, hnone⟩
  | turnRight ha => rw [ha]; exact ⟨hs.setTop ⟨htop.deeper, htop.reaches⟩, hnone⟩
  | save ha hsave => rw [ha]; exact ⟨hs.save hsave, hnone⟩
  | restore ha hrestore _ _ _ =>
    have hclosing : letter.char = ']' := Action.ofLetter_eq_restore_iff.mp (hact.symm.trans ha)
    obtain ⟨opened, rfl⟩ := Nat.exists_eq_succ_of_ne_zero fun hzero => hstray ⟨hclosing, hzero⟩
    rw [ha]
    exact ⟨hs.restore hrestore, hnone⟩
  | @grow node _ _ hmakes hgrew =>
    have hnode : node ∈ row := hrow node rfl
    have hangs : Row.HangsFrom row root.joint node :=
      Row.Reaches.hangsFrom hnode (by rw [hgrew.entry_eq]; exact htop.reaches)
    have hdeeper : root.depth < node.depth := by rw [hgrew.depth_eq]; exact htop.deeper
    refine ⟨?_, fun n hn => by cases hn; exact ⟨hdeeper, hangs⟩⟩
    -- the exit of the node takes the place of the top frame, in a group of as many frames
    have hnext : InGroup row root lower opened (stack.setTop ⟨node.exit, 0, node.depth⟩) :=
      hs.setTop ⟨hdeeper, Or.inr ⟨node, hangs, rfl⟩⟩
    rw [hgrew.stack_eq]
    cases ha : letter.action with
    | save => rw [ha] at hmakes; cases hmakes
    | restore => rw [ha] at hmakes; cases hmakes
    | _ => exact hnext

/-- A run within a group stays in it as long as no bracket is stray. -/
theorem Run.inGroup {text : List Letter} {made : List Made}
    (h : Run params text stack s made stack' t)
    (hact : ∀ letter ∈ text, letter.action = .ofLetter letter.char)
    (hrow : ∀ m ∈ made, m.node ∈ row) (hstrays : Word.strays opened (text.map (·.char)) = 0)
    (hs : InGroup row root lower opened stack) :
    InGroup row root lower (Word.nestingAtEnd opened (text.map (·.char))) stack' ∧
      ∀ m ∈ made, root.depth < m.node.depth ∧ Row.HangsFrom row root.joint m.node := by
  induction h generalizing opened with
  | nil => exact ⟨hs, List.forall_mem_nil _⟩
  | silent hstep _ ih =>
    obtain ⟨hletter, htext⟩ := List.forall_mem_cons.mp hact
    rw [List.map_cons, Word.strays] at hstrays
    obtain ⟨hfirst, hrest⟩ := Nat.add_eq_zero_iff.mp hstrays
    have hnext := (hstep.inGroup hletter (by simp) (by simpa using hfirst) hs).1
    exact ih htext hrow hrest hnext
  | grow hstep _ ih =>
    obtain ⟨hletter, htext⟩ := List.forall_mem_cons.mp hact
    obtain ⟨hnode, hmade⟩ := List.forall_mem_cons.mp hrow
    rw [List.map_cons, Word.strays] at hstrays
    obtain ⟨hfirst, hrest⟩ := Nat.add_eq_zero_iff.mp hstrays
    obtain ⟨hnext, hgrown⟩ := hstep.inGroup hletter (fun n hn => by cases hn; exact hnode)
      (by simpa using hfirst) hs
    obtain ⟨hend, hothers⟩ := ih htext hmade hrest hnext
    exact ⟨hend, List.forall_mem_cons.mpr ⟨hgrown _ rfl, hothers⟩⟩

/-! ## Groups -/

/-- The text of a group, whose two brackets may have rules. -/
def group (ruled ruled' : Bool) (w : List Letter) : List Letter :=
  ⟨'[', .save, ruled⟩ :: w ++ [⟨']', .restore, ruled'⟩]

section Group

variable {ruled ruled' : Bool} {w : List Letter} {made : List Made}

theorem group_actsByLetter (hact : ∀ letter ∈ w, letter.action = .ofLetter letter.char) :
    ∀ letter ∈ group ruled ruled' w, letter.action = .ofLetter letter.char := by
  intro letter hletter
  rw [group, List.cons_append, List.mem_cons, List.mem_append, List.mem_singleton] at hletter
  rcases hletter with rfl | hletter | rfl
  · rfl
  · exact hact letter hletter
  · rfl

theorem map_char_group : (group ruled ruled' w).map (·.char) = '[' :: w.map (·.char) ++ [']'] := by
  simp [group]

/-- The opening bracket starts a group with one frame, a copy of the top one. -/
theorem Step.opens {node? : Option Node}
    (h : Step params ⟨'[', .save, ruled⟩ stack s node? stack' t) :
    node? = none ∧ InGroup row stack.top stack.frames 0 stack' := by
  cases h with
  | turnLeft ha => cases ha
  | turnRight ha => cases ha
  | restore ha => cases ha
  | grow hmakes => cases hmakes
  | save _ hsave =>
    obtain ⟨depth, hdepth, hframes⟩ := Stack.save_eq_ok hsave
    have hword : depth.toNat = stack.top.depth.toNat + 1 := addWord_ok hdepth
    refine ⟨rfl, [{ stack.top with depth }], hframes, rfl, List.forall_mem_singleton.mpr ⟨?_, ?_⟩⟩
    · exact UInt32.lt_iff_toNat_lt.mpr (by show _ < depth.toNat; omega)
    · exact Or.inl rfl

/-- The closing bracket leaves the frames below the group. -/
theorem Step.closes {node? : Option Node}
    (h : Step params ⟨']', .restore, ruled⟩ stack s node? stack' t)
    (hs : InGroup row root lower 0 stack) (hlower : lower ≠ []) :
    node? = none ∧ stack'.frames = lower := by
  cases h with
  | turnLeft ha => cases ha
  | turnRight ha => cases ha
  | save ha => cases ha
  | grow hmakes => cases hmakes
  | restore _ hrestore _ _ _ => exact ⟨rfl, hs.frames_of_restore hlower hrestore⟩

/-- A run of a group leaves the frames as they were. -/
theorem Run.frames_of_group (h : Run params (group ruled ruled' w) stack s made stack' t)
    (hact : ∀ letter ∈ w, letter.action = .ofLetter letter.char)
    (hw : Word.WellBracketed (w.map (·.char))) :
    stack'.frames = stack.frames ∧ ∀ m ∈ made, stack.top.depth < m.node.depth ∧
      Row.HangsFrom (made.map (·.node)) stack.top.joint m.node := by
  obtain ⟨hstrays, hend⟩ := Word.closes_iff.mp hw
  have hlower : stack.frames ≠ [] := List.ne_nil_of_mem stack.top_mem_frames
  -- neither bracket makes a node, so the nodes are those of the text between them
  cases h with
  | grow hopening _ => cases (hopening.opens : _ ∧ InGroup [] _ _ _ _).1
  | silent hopening hrun =>
    obtain ⟨front, back, middle, r, rfl, hbetween, hlast⟩ := hrun.split
    have hrow : ∀ m ∈ front, m.node ∈ front.map (·.node) := fun m => List.mem_map_of_mem
    obtain ⟨hmiddle, hmade⟩ := hbetween.inGroup hact hrow hstrays hopening.opens.2
    rw [hend] at hmiddle
    cases hlast with
    | grow hclosing _ => cases (hclosing.closes hmiddle hlower).1
    | silent hclosing hnil =>
      cases hnil
      rw [List.append_nil]
      exact ⟨(hclosing.closes hmiddle hlower).2, hmade⟩

/-- A group is counted with as many closing as opening brackets, none of them stray. -/
theorem Run.counted_of_group (h : Run params (group ruled ruled' w) stack s made stack' t)
    (hact : ∀ letter ∈ w, letter.action = .ofLetter letter.char)
    (hw : Word.WellBracketed (w.map (·.char))) :
    stack.Counted stack' ((w.map (·.char)).count '[' + 1) ((w.map (·.char)).count '[' + 1) 0 := by
  obtain ⟨hstrays, hend⟩ := Word.counts_of_closes hw (stack.unclosed + 1)
  have hbalance := Word.balance (stack.unclosed + 1) (w.map (·.char))
  have hcloses : (w.map (·.char)).count ']' = (w.map (·.char)).count '[' := by omega
  have hopened : Word.openAfter stack.unclosed '[' = stack.unclosed + 1 := rfl
  have hcounted := h.counted (group_actsByLetter hact)
  rw [map_char_group, Word.strays_append, Word.nestingAtEnd_cons, Word.strays, hopened, hstrays,
    hend] at hcounted
  simpa [Word.strays, hcloses] using hcounted

/-- **Groups leave the frames alone.** Whatever the stack, reading a group leaves all its frames as
they were and all joints that were there, adds equal numbers to the counters of saved and restored
frames and nothing to that of stray brackets, and makes nodes that are deeper than the top frame
and hang from its joint. -/
theorem readText_group (hact : ∀ letter ∈ w, letter.action = .ofLetter letter.char)
    (hw : Word.WellBracketed (w.map (·.char)))
    (h : readText params (group ruled ruled' w) stack s = .ok (made, stack') t) :
    (stack'.base = stack.base ∧ stack'.nested = stack.nested) ∧
    (∀ j, j.index < s.site.skeleton.size → t.site.skeleton.get? j = s.site.skeleton.get? j) ∧
    (∃ k, stack'.saves.toNat = stack.saves.toNat + k ∧
      stack'.restores.toNat = stack.restores.toNat + k ∧ stack'.strays = stack.strays) ∧
    ∀ m ∈ made, stack.top.depth < m.node.depth ∧
      Row.HangsFrom (made.map (·.node)) stack.top.joint m.node := by
  have hrun := run_of_readText h
  obtain ⟨hframes, hmade⟩ := hrun.frames_of_group hact hw
  obtain ⟨hsaves, hcloses, hstrays⟩ := hrun.counted_of_group hact hw
  obtain ⟨hnested, hbase⟩ := List.append_inj' hframes rfl
  refine ⟨⟨List.singleton_inj.mp hbase, hnested⟩, fun j => hrun.attached.get?_of_lt,
    ⟨_, hsaves, by omega, UInt32.toNat_inj.mp hstrays⟩, hmade⟩

end Group

/-- A group in a group, read on a turned frame above another: all frames of the stack are as before,
and the three nodes hang from the joint of the upper one. -/
theorem readText_group_nested :
    let w := ['+', 'F', '[', '-', 'X', ']', 'G'].map fun c => (⟨c, .ofLetter c, false⟩ : Letter)
    let stack : Stack := { base := ⟨⟨0⟩, 1, 0⟩, nested := [⟨⟨0⟩, 1 / 2, 1⟩] }
    let start : Nursery Reel := ⟨⟨⟨#[.root .zero]⟩, ⟨#[0], 0⟩⟩, 1, 0, #[]⟩
    (∀ letter ∈ w, letter.action = .ofLetter letter.char) ∧
    Word.WellBracketed (w.map (·.char)) ∧
    ∃ made stack' t, readText {} (group false true w) stack start = .ok (made, stack') t ∧
      made.length = 3 ∧ stack'.base = stack.base ∧ stack'.nested = stack.nested ∧
      ∀ m ∈ made, 1 < m.node.depth ∧ Row.HangsFrom (made.map (·.node)) ⟨0⟩ m.node := by
  intro w stack start
  have hact : ∀ letter ∈ w, letter.action = .ofLetter letter.char := by decide
  have hw : Word.WellBracketed (w.map (·.char)) := by decide
  have hok : Outcome.isOk (fun r => r.1.length == 3)
      (readText {} (group false true w) stack start) = true := by decide +kernel
  obtain ⟨⟨made, stack'⟩, t, hread, hlength⟩ := Outcome.exists_of_isOk hok
  obtain ⟨⟨hbase, hnested⟩, -, -, hmade⟩ := readText_group hact hw hread
  exact ⟨hact, hw, made, stack', t, hread, eq_of_beq hlength, hbase, hnested, hmade⟩

end Turtle

end PlantGrowth
