import PlantGrowth.Proofs.Nesting
import PlantGrowth.Proofs.Succession

/-!
# The turtle's last frame

What followed a node before it was expanded hangs on its exit joint, and finds there what the turtle
ends with: the joint of its last frame, turned by the turn of that frame if a bridge takes it up.
This holds of every text, with stray brackets and brackets left open (`Expanded.get?_exit`), because
the turtle ends on the last node wherever no bridge is needed (`Turtle.Run.joint_eq`). Whether one
is needed can be told from the nestings of the text and the last turn (`Expanded.needsBridge_iff`).

`Plant.Reachable.exit_takes_frame` says so of every expansion in a generation of a reachable plant,
and that of the joints that were there it changes no other. The expansions of a generation are the
steps of its pass over the nodes (`Plant.Replaces`); each of them starts from what the steps before
it left behind, which is rooted still.
-/

set_option autoImplicit false

namespace PlantGrowth

/-! ## Nodes and nestings -/

theorem Word.nestings_eq_nil_iff {opened : ℕ} {w : List Char} :
    nestings opened w = [] ↔ ∀ c ∈ w, activates c = false := by
  induction w generalizing opened with
  | nil => simp [nestings]
  | cons c w ih =>
    rw [nestings, List.forall_mem_cons]
    cases hc : activates c with
    | true => simp
    | false => simpa using ih

theorem Stack.isOuter_eq (s : Stack) : s.isOuter = (s.unclosed == 0) := by
  unfold isOuter unclosed
  cases s.nested <;> rfl

/-- The nodes made outside brackets are those of nesting zero. -/
theorem Turtle.Run.map_outer {σ : Type} [RandomSource σ] {params : GrowthParams}
    {text : List Letter} {stack stack' : Stack} {s t : Nursery σ} {made : List Made} {outer : ℕ}
    (h : Run params text stack s made stack' t)
    (hact : ∀ letter ∈ text, letter.action = .ofLetter letter.char)
    (hs : Terraced outer stack.frames) :
    made.map (·.outer) = (Word.nestings stack.unclosed (text.map (·.char))).map (· == 0) := by
  -- along the run the open brackets are the frames above the lowest one
  induction h with
  | nil => rfl
  | @silent letter text stack stack₁ stack₂ s r t made hstep _ ih =>
    obtain ⟨hletter, htext⟩ := List.forall_mem_cons.mp hact
    rw [ih htext (hstep.terraced hletter hs).1, List.map_cons, hstep.nestings_cons hletter hs]
    rfl
  | @grow letter text stack stack₁ stack₂ s r t node made hstep _ ih =>
    obtain ⟨hletter, htext⟩ := List.forall_mem_cons.mp hact
    -- a letter that leaves a node behind opens and closes nothing
    have hsame : stack₁.unclosed = stack.unclosed := by
      cases hstep with
      | grow _ hgrew => rw [hgrew.stack_eq, Stack.unclosed_setTop]
    rw [List.map_cons, ih htext (hstep.terraced hletter hs).1, stack₁.isOuter_eq, List.map_cons,
      hstep.nestings_cons hletter hs, hsame]
    rfl

namespace Expansion

variable {σ : Type} [RandomSource σ] {grammar : Grammar} {params : GrowthParams} {old : Node}
  {rule : Rule (List Letter)} {s t : Nursery σ} {r : Replacement}

/-- A bridge is needed if the text makes no node, if it makes the last one in a bracket, or if it
ends with a turn. -/
theorem Expanded.needsBridge_iff (x : Expanded grammar params old rule s r t)
    (hact : ∀ letter ∈ x.text, letter.action = .ofLetter letter.char) :
    needsBridge x.made x.stack = true ↔
      (∀ letter ∈ x.text, letter.action.makesNode = false) ∨
      (∃ k, (Word.nestings 0 (x.text.map (·.char))).getLast? = some k ∧ k ≠ 0) ∨
      (x.stack.top.rotation != 0) = true := by
  have houter : x.made.map (·.outer) = (Word.nestings 0 (x.text.map (·.char))).map (· == 0) :=
    x.run.map_outer hact (Turtle.terraced_ofFrame _)
  have hquiet : (∀ letter ∈ x.text, letter.action.makesNode = false) ↔
      Word.nestings 0 (x.text.map (·.char)) = [] := by
    rw [Word.nestings_eq_nil_iff, List.forall_mem_map]
    refine forall₂_congr fun letter hletter => ?_
    rw [hact letter hletter, Word.activates]
  rw [needsBridge_eq_getD, ← List.getLast?_map, houter, hquiet, Bool.or_eq_true, ← or_assoc]
  refine or_congr_left ?_
  rcases List.eq_nil_or_concat (Word.nestings 0 (x.text.map (·.char))) with hnil | ⟨front, k, hlast⟩
  · simp [hnil]
  · simp [hlast]

/-! ## The joint of the last frame -/

omit [RandomSource σ] in
theorem Bridged.map_letter {made : List Turtle.Made} {stack : Stack} {bridges : List Node}
    (h : Bridged grammar made stack s bridges t) :
    bridges.map (·.letter) =
      List.replicate (Tally.ofStack stack (needsBridge made stack)).bridged bridgeLetter := by
  cases h with
  | unneeded hneeds => rw [hneeds]; rfl
  | needed hneeds hb =>
    rw [hneeds, List.map_singleton, hb.letter_eq]
    rfl

omit [RandomSource σ] in
/-- A bridge ends where its frame is, turned by the turn of the frame. -/
theorem IsBridge.get?_exit {frame : Frame} {b : Node} (h : IsBridge grammar frame s b t)
    (hsize : s.site.skeleton.size ≤ s.nextId.toNat + 1) :
    ∃ j, s.site.skeleton.get? frame.joint = some j ∧
      t.site.skeleton.get? b.exit =
        some { j with heading := j.heading.turnBy frame.rotation } := by
  obtain ⟨j, hj, hexit⟩ := h.attached.inSync hsize (List.mem_singleton_self b)
  have hbefore : b.entry.index < s.site.skeleton.size := by
    cases h.attached with
    | cons he _ _ _ _ => exact Skeleton.index_lt_of_get? he
  rw [h.attached.get?_of_lt hbefore, h.entry_eq] at hj
  refine ⟨j, hj, ?_⟩
  rw [hexit, Node.carry, h.kind_eq, h.rotation_eq]
  rfl

omit [RandomSource σ] in
/-- The last node of an expansion, a bridge or not, ends where the turtle's last frame is, turned by
the turn of the frame if it is a bridge. -/
theorem Bridged.get?_exit {made : List Turtle.Made} {stack : Stack} {bridges : List Node}
    (h : Bridged grammar made stack s bridges t)
    (hsize : s.site.skeleton.size ≤ s.nextId.toNat + 1) {last : Node}
    (hlast : (made.map (·.node) ++ bridges).getLast? = some last)
    (houter : ∀ m, made.getLast? = some m → m.outer = true → stack.top.joint = m.node.exit)
    {x : Joint} (hx : t.site.skeleton.get? last.exit = some x) :
    ∃ j, s.site.skeleton.get? stack.top.joint = some j ∧
      x = if needsBridge made stack then { j with heading := j.heading.turnBy stack.top.rotation }
        else j := by
  cases h with
  | unneeded hneeds =>
    -- the last node is one of the text, and the turtle stands on it
    obtain ⟨⟨front, m, rfl, hm⟩, -⟩ := needsBridge_eq_false_iff.mp hneeds
    obtain rfl : m.node = last := by simpa using hlast
    rw [houter m (by simp) hm, hneeds]
    exact ⟨x, hx, rfl⟩
  | @needed b _ hneeds hb =>
    obtain rfl : b = last := by simpa using hlast
    obtain ⟨j, hj, hexit⟩ := hb.get?_exit hsize
    rw [hexit] at hx
    rw [hneeds]
    exact ⟨j, hj, (Option.some.inj hx).symm⟩

/-- The exit joint of the expanded node takes over the joint of the last frame. -/
theorem Expanded.get?_exit (x : Expanded grammar params old rule s r t)
    (hexit : old.exit.index < s.site.skeleton.size)
    (hsize : s.site.skeleton.size ≤ s.nextId.toNat + 1) :
    ∃ j, x.afterText.site.skeleton.get? x.stack.top.joint = some j ∧
      t.site.skeleton.get? old.exit = some (if needsBridge x.made x.stack then
        { j with heading := j.heading.turnBy x.stack.top.rotation } else j) := by
  obtain ⟨front, last, taken, hraw, -, htaken, hk, -⟩ := x.nodes_eq hexit hsize
  have hlast : (x.made.map (·.node) ++ x.bridges).getLast? = some last := by
    rw [show x.made.map (·.node) ++ x.bridges = front ++ [last] from hraw, List.getLast?_concat]
  have houter : ∀ m, x.made.getLast? = some m → m.outer = true →
      x.stack.top.joint = m.node.exit :=
    fun m hm hm' => x.run.joint_eq hm hm' _ x.stack.top_mem_frames
  obtain ⟨j, hj, rfl⟩ := x.bridged.get?_exit (x.run.attached.size_le hsize) hlast houter htaken
  have hinside : old.exit.index < x.afterBridge.site.skeleton.size := by
    rw [x.attached.size_eq]
    omega
  refine ⟨j, hj, ?_⟩
  rw [hk, Skeleton.get?_put_self hinside]

/-- The letters of the nodes of an expansion. -/
theorem Expanded.map_letter (x : Expanded grammar params old rule s r t)
    (hexit : old.exit.index < s.site.skeleton.size)
    (hsize : s.site.skeleton.size ≤ s.nextId.toNat + 1) :
    r.nodes.map (·.letter) =
      x.made.map (·.node.letter) ++ List.replicate r.tally.bridged bridgeLetter := by
  obtain ⟨front, last, -, hraw, hnodes, -⟩ := x.nodes_eq hexit hsize
  have hletters : r.nodes.map (·.letter) = x.raw.map (·.letter) := by
    rw [hnodes, hraw, List.map_append, List.map_append]
    rfl
  have hbridges : x.bridges.map (·.letter) = List.replicate r.tally.bridged bridgeLetter := by
    rw [x.tally_eq]
    exact x.bridged.map_letter
  rw [hletters, Expanded.raw, List.map_append, List.map_map, hbridges]
  rfl

/-- The exit joint of an expanded node takes over the turtle's last frame. The turtle has read
`text` and made `made` when it comes to `stack`, and `j` is the joint of its last frame then; the
skeleton is `k` before the expansion and `k'` after it. -/
structure TakesFrame (old : Node) (text : List Letter) (made : List Turtle.Made) (stack : Stack)
    (j : Joint) (k : Skeleton) (r : Replacement) (k' : Skeleton) : Prop where
  get?_exit : k'.get? old.exit = some (if r.tally.bridged = 1 then
    { j with heading := j.heading.turnBy stack.top.rotation } else j)
  map_letter : r.nodes.map (·.letter) =
    made.map (·.node.letter) ++ List.replicate r.tally.bridged bridgeLetter
  bridged_le : r.tally.bridged ≤ 1
  /-- There is a bridge if the text leaves no node behind, if it leaves the last one behind within
  brackets, or if it ends with a turn. -/
  bridged_iff : r.tally.bridged = 1 ↔
    (∀ letter ∈ text, letter.action.makesNode = false) ∨
    (∃ n, (Word.nestings 0 (text.map (·.char))).getLast? = some n ∧ n ≠ 0) ∨
    (stack.top.rotation != 0) = true
  get?_of_ne : ∀ i : JointId, i.index < k.size → i ≠ old.exit → k'.get? i = k.get? i

theorem Expanded.bridged_eq (x : Expanded grammar params old rule s r t) :
    r.tally.bridged = if needsBridge x.made x.stack then 1 else 0 := by
  rw [x.tally_eq]
  rfl

theorem Expanded.takesFrame (x : Expanded grammar params old rule s r t)
    (hact : ∀ letter ∈ x.text, letter.action = .ofLetter letter.char)
    (hne : old.entry ≠ old.exit) (hexit : old.exit.index < s.site.skeleton.size)
    (hsize : s.site.skeleton.size ≤ s.nextId.toNat + 1) :
    ∃ j, x.afterText.site.skeleton.get? x.stack.top.joint = some j ∧
      TakesFrame old x.text x.made x.stack j s.site.skeleton r t.site.skeleton := by
  have hone : r.tally.bridged = 1 ↔ needsBridge x.made x.stack = true := by
    rw [x.bridged_eq]
    split <;> simp_all
  obtain ⟨j, hj, hexit'⟩ := x.get?_exit hexit hsize
  refine ⟨j, hj, ?_⟩
  exact {
    get?_exit := by simpa only [hone] using hexit'
    map_letter := x.map_letter hexit hsize
    bridged_le := by
      rw [x.bridged_eq]
      split <;> omega
    bridged_iff := hone.trans (x.needsBridge_iff hact)
    get?_of_ne := (x.replaced hne hexit hsize).get?_of_ne }

end Expansion

/-! ## The expansions of a generation -/

namespace Plant

variable {σ : Type} [RandomSource σ] {origin : Vec} {p p' : Plant} {s t : Surroundings σ}
  {tally : Tally} {old : Node} {m m' : Nursery σ} {r : Replacement}

/-- The step of a generation that replaces a node: the nodes before it are replaced when the nursery
is `m`, and the node is replaced with `r`. -/
def Replaces (p : Plant) (s : Surroundings σ) (old : Node) (m : Nursery σ) (r : Replacement)
    (m' : Nursery σ) : Prop :=
  ∃ before after parts, p.nodes = before ++ old :: after ∧
    (before.mapM (Expansion.replace p.grammar p.params))
      ⟨⟨p.skeleton, s.source⟩, p.age, p.nextId, s.journal⟩ = .ok parts m ∧
    Expansion.replace p.grammar p.params old m = .ok r m'

/-- A generation has a step for each node. -/
theorem exists_replaces (h : p.generate s = .ok (p', tally) t) :
    ∀ old ∈ p.nodes, ∃ m r m', p.Replaces s old m r m' := by
  intro old hold
  obtain ⟨next, m, c, generation, hnext, -, -, -, -, -⟩ := generate_eq_ok h
  obtain ⟨parts, hparts, -, -⟩ := Expansion.replaceAll_eq_ok hnext
  obtain ⟨before, after, hnodes⟩ := List.append_of_mem hold
  rw [hnodes] at hparts
  obtain ⟨parts₁, m₁, parts₂, hbefore, hafter, -⟩ := Outcome.mapM_append_eq_ok.mp hparts
  obtain ⟨r, m₂, parts₃, hr, -, -⟩ := Outcome.mapM_cons_eq_ok.mp hafter
  exact ⟨m₁, r, m₂, before, after, parts₁, hnodes, hbefore, hr⟩

/-- The row is rooted when a node of it is replaced. -/
theorem Replaces.rooted (h : p.Replaces s old m r m') (hp : Sound origin p) :
    old ∈ p.nodes ∧ ∃ root before after,
      Rooted origin root (before ++ old :: after) m.site.skeleton m.nextId := by
  obtain ⟨before, after, parts, hnodes, hbefore, -⟩ := h
  obtain ⟨root, hroot⟩ := hp.rooted
  rw [hnodes] at hroot
  have hstart : Rooted origin root ([] ++ before ++ old :: after) p.skeleton p.nextId := hroot
  obtain ⟨hrow, -⟩ := Expansion.rooted_of_mapM_append hbefore hstart (by simp)
  exact ⟨by simp [hnodes], root, _, after, hrow⟩

/-- Where a generation of a reachable plant expands a node, it chooses a text of its rule and reads
it from the node on, and the exit joint of the node takes over the turtle's last frame. -/
theorem Reachable.exit_takes_frame (hp : Reachable origin p) {rule : Rule (List Letter)}
    (hrule : p.grammar.find? old.letter = some rule) (h : p.Replaces s old m r m') :
    ∃ e text source made stack m₁ j,
      m.site.skeleton.get? old.entry = some e ∧
      rule.select m.site.source = .ok (text, source) ∧
      Turtle.readText p.params text (.ofFrame ⟨old.entry, old.rotation, old.depth⟩)
        { m with site := ⟨m.site.skeleton.put old.exit (old.carry e), source⟩ } =
          .ok (made, stack) m₁ ∧
      m₁.site.skeleton.get? stack.top.joint = some j ∧
      Expansion.TakesFrame old text made stack j m.site.skeleton r m'.site.skeleton := by
  obtain ⟨hold, root, before, after, hroot⟩ := h.rooted hp.sound
  obtain ⟨-, -, -, -, -, hreplace⟩ := h
  obtain ⟨e, he, hexit, hexpand, -⟩ := Expansion.replace_cases hreplace
  have hfound : Expansion.rule? p.grammar old = some rule := by
    rw [Expansion.rule?_eq_find? (hp.registered.nodes old hold).hasRule_eq, hrule]
  obtain ⟨x, htext⟩ := Expansion.exists_expanded_of_expand (hexpand rule hfound)
  obtain ⟨ns, d, hnested⟩ := hp.exists_nested
  have hact := Expansion.forall_letter_of_select x.select_eq (hnested.leveled.acts hrule)
  have hsize : (Expansion.refreshed old e m).site.skeleton.size = m.site.skeleton.size :=
    Skeleton.size_put ..
  obtain ⟨j, hj, htakes⟩ := x.takesFrame hact hroot.entry_ne_exit (by rwa [hsize])
    (by rw [hsize]; exact hroot.size_le)
  refine ⟨e, x.text, x.source, x.made, x.stack, x.afterText, j, he, x.select_eq, htext, hj, ?_⟩
  -- bringing the exit of the node in line changes no other joint either
  exact { htakes with
    get?_of_ne := (Expansion.replaced_of_replace hreplace hroot.entry_ne_exit
      hroot.size_le).get?_of_ne }

/-- All nodes of the tangle are expanded, some with texts that open or close brackets without a
partner. -/
theorem Reachable.exit_takes_frame_tangle : ∃ p p' tally t t',
    tangle ⟨⟨#[0], 0⟩, #[]⟩ = .ok p t ∧ p.generate t = .ok (p', tally) t' ∧ p.nodes ≠ [] ∧
    ∀ old ∈ p.nodes, ∃ rule m r m' text made stack j, p.grammar.find? old.letter = some rule ∧
      p.Replaces t old m r m' ∧
      Expansion.TakesFrame old text made stack j m.site.skeleton r m'.site.skeleton := by
  obtain ⟨p, p', tally, t, t', hp, hgenerate, hcontains⟩ := exists_generate_tangle
  have hreach := reachable_of_tangle hp
  refine ⟨p, p', tally, t, t', hp, hgenerate, hreach.sound.ne_nil, ?_⟩
  intro old hold
  obtain ⟨rule, hrule⟩ := Option.isSome_iff_exists.mp (hcontains old hold)
  obtain ⟨m, r, m', hreplaces⟩ := exists_replaces hgenerate old hold
  obtain ⟨e, text, source, made, stack, m₁, j, -, -, -, -, htakes⟩ :=
    hreach.exit_takes_frame hrule hreplaces
  exact ⟨rule, m, r, m', text, made, stack, j, hrule, hreplaces, htakes⟩

end Plant

end PlantGrowth
