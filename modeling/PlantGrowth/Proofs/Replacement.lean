import PlantGrowth.Proofs.TurtleRun

/-!
# What takes the place of a node

`Expanded` is the record of one expansion: the text that was chosen, the run of the turtle
on it, the bridge if one was needed, and the exit joint taken over at the end. `Replaced`
says what a generation may rely on when it puts nodes in the place of one node, whether that
node is expanded or carried over (`replaced_of_replace`):

- the last of the nodes, and no other, ends where the old node ended;
- of the joints that were there only that one changes;
- the exits of all the nodes are in line with their entries;
- the nodes are in preorder on any trail that reaches the entry of the old node, and leave at
  least the trail that the old node left.
-/

set_option autoImplicit false

namespace PlantGrowth

/-! ## Exit joints brought in line and taken over -/

namespace OnSite

variable {σ : Type}

/-- When passing a joint on succeeds, and what it writes where. -/
theorem refresh_eq_ok {n : Node} {u : Unit} {s t : Site σ} :
    refresh n s = .ok u t ↔ ∃ e, s.skeleton.get? n.entry = some e ∧
      n.exit.index < s.skeleton.size ∧
      ⟨s.skeleton.put n.exit (n.carry e), s.source⟩ = t := by
  simp only [refresh, Outcome.bind_eq_ok, joint_eq_ok, setJoint_eq_ok]
  constructor
  · rintro ⟨e, r, ⟨he, rfl⟩, hlt, rfl⟩
    exact ⟨e, he, hlt, rfl⟩
  · rintro ⟨e, he, hlt, rfl⟩
    exact ⟨e, s, ⟨he, rfl⟩, hlt, rfl⟩

/-- A node that is given the exit of another passes its own exit joint on to it. -/
theorem relink_eq_ok {n n' : Node} {target : JointId} {s t : Site σ} (hne : target ≠ n.exit)
    (h : relink n target s = .ok n' t) : ∃ j, s.skeleton.get? n.exit = some j ∧
      n' = { n with exit := target } ∧ t = ⟨s.skeleton.put target j, s.source⟩ := by
  simp only [relink, if_neg hne, Outcome.bind_eq_ok, Outcome.pure_eq_ok, joint_eq_ok,
    setJoint_eq_ok] at h
  obtain ⟨j, r, ⟨hj, rfl⟩, u, r', ⟨-, rfl⟩, rfl, rfl⟩ := h
  exact ⟨j, hj, rfl, rfl⟩

end OnSite

namespace Expansion

variable {σ : Type}

/-- In a row that is not empty, only the last node is given another exit. -/
theorem relinkLast_concat_eq_ok {target : JointId} {front nodes : List Node} {last : Node}
    {s t : Site σ} (h : relinkLast target (front ++ [last]) s = .ok nodes t) :
    ∃ last', OnSite.relink last target s = .ok last' t ∧ nodes = front ++ [last'] := by
  induction front generalizing nodes with
  | nil =>
    simp only [List.nil_append, relinkLast, Outcome.bind_eq_ok, Outcome.pure_eq_ok] at h
    obtain ⟨last', r, hlast, rfl, rfl⟩ := h
    exact ⟨last', hlast, rfl⟩
  | cons n front ih =>
    -- the list has a last element further down, so its head is passed through
    have hcons : (relinkLast target (n :: front ++ [last]) : OnSite σ (List Node)) =
        (do return n :: (← relinkLast target (front ++ [last]))) := by
      cases front <;> rfl
    rw [hcons] at h
    simp only [Outcome.bind_eq_ok, Outcome.pure_eq_ok] at h
    obtain ⟨nodes', r, hrest, rfl, rfl⟩ := h
    obtain ⟨last', hlast, rfl⟩ := ih hrest
    exact ⟨last', hlast, rfl⟩

/-! ## Bridges -/

/-- A bridge for the frame on which the turtle stands. -/
structure IsBridge (grammar : Grammar) (frame : Frame) (s : Nursery σ) (b : Node)
    (t : Nursery σ) : Prop where
  attached : Attached s.site.skeleton s.nextId [b] t.site.skeleton t.nextId
  letter_eq : b.letter = bridgeLetter
  entry_eq : b.entry = frame.joint
  rotation_eq : b.rotation = frame.rotation
  depth_eq : b.depth = frame.depth
  hasRule_eq : b.hasRule = grammar.contains bridgeLetter
  kind_eq : b.kind = .placeholder
  source_eq : t.site.source = s.site.source
  age_eq : t.age = s.age

/-- What is built as a bridge is one. -/
theorem isBridge_of_bridge {grammar : Grammar} {frame : Frame} {s t : Nursery σ} {b : Node}
    (h : bridge grammar frame s = .ok b t) : IsBridge grammar frame s b t := by
  simp only [bridge, Outcome.bind_eq_ok, Build.freshId_eq_ok, Build.onSite_eq_ok,
    OnSite.attach_eq_ok] at h
  obtain ⟨id, r, ⟨next, hnext, rfl, rfl⟩, site, ⟨e, he, rfl, rfl⟩, rfl⟩ := h
  exact {
    attached := .cons he rfl rfl hnext (.nil _ _)
    letter_eq := rfl
    entry_eq := rfl
    rotation_eq := rfl
    depth_eq := rfl
    hasRule_eq := rfl
    kind_eq := rfl
    source_eq := rfl
    age_eq := rfl }

/-- The bridge that ends an expansion, if the turtle needs one. -/
inductive Bridged (grammar : Grammar) (made : List Turtle.Made) (stack : Stack)
    (s : Nursery σ) : List Node → Nursery σ → Prop
  | unneeded : needsBridge made stack = false → Bridged grammar made stack s [] s
  | needed {b : Node} {t : Nursery σ} : needsBridge made stack = true →
      IsBridge grammar stack.top s b t → Bridged grammar made stack s [b] t

namespace Bridged

variable {grammar : Grammar} {made : List Turtle.Made} {stack : Stack} {s t : Nursery σ}
  {bridges : List Node}

/-- Bridges are attached like the nodes of a text. -/
theorem attached (h : Bridged grammar made stack s bridges t) :
    Attached s.site.skeleton s.nextId bridges t.site.skeleton t.nextId := by
  cases h with
  | unneeded _ => exact .nil _ _
  | needed _ hb => exact hb.attached

/-- A bridge starts on the trail and leaves all that lies behind the frames. -/
theorem preorder (h : Bridged grammar made stack s bridges t) {tail trail : List JointId}
    (hs : Turtle.Standing tail (stack.frames.map (·.joint)) trail) :
    Row.IsPreorder trail bridges ∧ tail.Sublist (Row.trail trail bridges) := by
  cases h with
  | unneeded _ => exact ⟨trivial, hs.sublist⟩
  | needed _ hb =>
    rw [stack.frames_eq_cons, List.map_cons, ← hb.entry_eq] at hs
    exact ⟨⟨hs.1, trivial⟩, hs.extend.sublist⟩

end Bridged

/-- No bridge is needed where the last node of all was made outside the brackets of the text and
the turtle ends without a turn. -/
theorem needsBridge_eq_false_iff {made : List Turtle.Made} {stack : Stack} :
    needsBridge made stack = false ↔
      (∃ front last, made = front ++ [last] ∧ last.outer = true) ∧
        (stack.top.rotation == 0) = true := by
  rcases List.eq_nil_or_concat made with rfl | ⟨front, last, rfl⟩
  · simp [needsBridge]
  · simp only [List.concat_eq_append, needsBridge, List.getLast?_append, List.getLast?_singleton,
      Option.some_or, Bool.or_eq_false_iff, Bool.not_eq_false', bne]
    constructor
    · rintro ⟨houter, hzero⟩
      exact ⟨⟨front, last, rfl, houter⟩, hzero⟩
    · rintro ⟨⟨front', last', heq, houter⟩, hzero⟩
      obtain ⟨-, hlast⟩ := List.append_inj' heq rfl
      cases hlast
      exact ⟨houter, hzero⟩

/-- A bridge is needed unless the last node stands outside of all brackets and the turtle has not
turned since. -/
theorem needsBridge_eq_getD (made : List Turtle.Made) (stack : Stack) :
    needsBridge made stack =
      (!(made.getLast?.map (·.outer)).getD false || stack.top.rotation != 0) := by
  unfold needsBridge
  cases made.getLast? <;> rfl

/-- Whether a bridge is needed depends on where the nodes were made and on the turtle's turn. -/
theorem needsBridge_congr {made made' : List Turtle.Made} {stack stack' : Stack}
    (houter : made'.map (·.outer) = made.map (·.outer))
    (hturn : stack'.top.rotation = stack.top.rotation) :
    needsBridge made' stack' = needsBridge made stack := by
  rw [needsBridge_eq_getD, needsBridge_eq_getD, ← List.getLast?_map, ← List.getLast?_map, houter,
    hturn]

/-- An expansion makes at least one node. -/
theorem Bridged.append_ne_nil {grammar : Grammar} {made : List Turtle.Made} {stack : Stack}
    {s t : Nursery σ} {bridges : List Node} (h : Bridged grammar made stack s bridges t) :
    made.map (·.node) ++ bridges ≠ [] := by
  cases h with
  | unneeded hneeds =>
    obtain ⟨⟨front, last, hmade, -⟩, -⟩ := needsBridge_eq_false_iff.mp hneeds
    simp [hmade]
  | needed _ _ => simp

/-! ## Expansions -/

/-- The journal entry for the brackets that a text leaves open. -/
def noteUnclosed (old : Node) (stack : Stack) : Build σ Unit :=
  if stack.unclosed ≠ 0 then Build.note (.unclosedBrackets old.letter stack.unclosed) else pure ()

/-- The bridge that an expansion ends with, if it needs one. -/
def bridges (grammar : Grammar) (made : List Turtle.Made) (stack : Stack) : Build σ (List Node) :=
  if needsBridge made stack then List.singleton <$> bridge grammar stack.top else pure []

/-- The note about open brackets changes nothing but the journal. -/
theorem journal_of_noteUnclosed {old : Node} {stack : Stack} {u : Unit} {s t : Nursery σ}
    (h : noteUnclosed old stack s = .ok u t) : ∃ journal, { s with journal } = t := by
  unfold noteUnclosed at h
  split at h
  · exact ⟨_, Build.note_eq_ok.mp h⟩
  · exact ⟨s.journal, (Outcome.pure_eq_ok.mp h).2⟩

/-- The bridges built behind a text are the ones it needs. -/
theorem bridged_of_bridges {grammar : Grammar} {made : List Turtle.Made} {stack : Stack}
    {s t : Nursery σ} {ends : List Node} (h : bridges grammar made stack s = .ok ends t) :
    Bridged grammar made stack s ends t := by
  unfold bridges at h
  split at h
  · rename_i hneeds
    obtain ⟨b, hb, rfl⟩ := Outcome.map_eq_ok.mp h
    exact .needed hneeds (isBridge_of_bridge hb)
  · rename_i hneeds
    obtain ⟨rfl, rfl⟩ := Outcome.pure_eq_ok.mp h
    exact .unneeded (by simpa using hneeds)

variable [RandomSource σ]

/-- An expansion step by step. -/
theorem expand_eq (grammar : Grammar) (params : GrowthParams) (old : Node)
    (rule : Rule (List Letter)) :
    (expand grammar params old rule : Build σ Replacement) = (do
      let text ← Build.onSite (.draw rule.select)
      let (made, stack) ← Turtle.readText params text
        (.ofFrame ⟨old.entry, old.rotation, old.depth⟩)
      noteUnclosed old stack
      let ends ← bridges grammar made stack
      let nodes ← Build.onSite (relinkLast old.exit (made.map (·.node) ++ ends))
      return ⟨nodes, .ofStack stack (needsBridge made stack)⟩) := by
  unfold expand
  refine bind_congr fun text => bind_congr fun r => ?_
  obtain ⟨made, stack⟩ := r
  unfold noteUnclosed bridges
  dsimp only
  by_cases hunclosed : stack.unclosed ≠ 0 <;> by_cases hneeds : needsBridge made stack = true <;>
    simp [hunclosed, hneeds]

/-- The record of the expansion of a node. -/
structure Expanded (grammar : Grammar) (params : GrowthParams) (old : Node)
    (rule : Rule (List Letter)) (s : Nursery σ) (r : Replacement) (t : Nursery σ) where
  text : List Letter
  source : σ
  made : List Turtle.Made
  stack : Stack
  /-- The nursery once the text is read. -/
  afterText : Nursery σ
  journal : Journal
  bridges : List Node
  /-- The nursery once the bridge is made. -/
  afterBridge : Nursery σ
  select_eq : rule.select s.site.source = .ok (text, source)
  run : Turtle.Run params text (.ofFrame ⟨old.entry, old.rotation, old.depth⟩)
    { s with site := ⟨s.site.skeleton, source⟩ } made stack afterText
  bridged : Bridged grammar made stack { afterText with journal } bridges afterBridge
  relink_eq : ∃ site, relinkLast old.exit (made.map (·.node) ++ bridges) afterBridge.site =
    .ok r.nodes site ∧ t = { afterBridge with site }
  tally_eq : r.tally = .ofStack stack (needsBridge made stack)

/-- The record of an expansion is of the text as the turtle read it. -/
theorem exists_expanded_of_expand {grammar : Grammar} {params : GrowthParams} {old : Node}
    {rule : Rule (List Letter)} {s t : Nursery σ} {r : Replacement}
    (h : expand grammar params old rule s = .ok r t) :
    ∃ x : Expanded grammar params old rule s r t,
      Turtle.readText params x.text (.ofFrame ⟨old.entry, old.rotation, old.depth⟩)
        { s with site := ⟨s.site.skeleton, x.source⟩ } = .ok (x.made, x.stack) x.afterText := by
  rw [expand_eq] at h
  simp only [Outcome.bind_eq_ok, Outcome.pure_eq_ok, Build.onSite_eq_ok, OnSite.draw_eq_ok] at h
  obtain ⟨text, n₁, ⟨site, ⟨source, hselect, rfl⟩, rfl⟩, ⟨made, stack⟩, n₂, htext, u, n₃, hnote,
    ends, n₄, hends, nodes, n₅, ⟨site, hlast, rfl⟩, rfl, rfl⟩ := h
  -- an entry of the journal about open brackets changes nothing else
  obtain ⟨journal, rfl⟩ := journal_of_noteUnclosed hnote
  exact ⟨{
    text, source, made, stack, journal
    bridges := ends
    afterText := n₂
    afterBridge := n₄
    select_eq := hselect
    run := Turtle.run_of_readText htext
    bridged := bridged_of_bridges hends
    relink_eq := ⟨site, hlast, rfl⟩
    tally_eq := rfl }, htext⟩

/-- An expansion that succeeds went through all its stages. -/
theorem expanded_of_expand {grammar : Grammar} {params : GrowthParams} {old : Node}
    {rule : Rule (List Letter)} {s t : Nursery σ} {r : Replacement}
    (h : expand grammar params old rule s = .ok r t) :
    Nonempty (Expanded grammar params old rule s r t) := by
  obtain ⟨x, -⟩ := exists_expanded_of_expand h
  exact ⟨x⟩

namespace Expanded

variable {grammar : Grammar} {params : GrowthParams} {old : Node} {rule : Rule (List Letter)}
  {s t : Nursery σ} {r : Replacement}

/-- The nodes of the expansion as they are made, before the last one takes over the exit. -/
def raw (x : Expanded grammar params old rule s r t) : List Node :=
  x.made.map (·.node) ++ x.bridges

/-- All nodes of an expansion, bridges included, are attached one after the other. -/
theorem attached (x : Expanded grammar params old rule s r t) :
    Attached s.site.skeleton s.nextId x.raw x.afterBridge.site.skeleton x.afterBridge.nextId :=
  x.run.attached.append x.bridged.attached

/-- The nodes are in preorder from the entry of the expanded node, and leave all of its trail. -/
theorem raw_preorder (x : Expanded grammar params old rule s r t) {trail : List JointId}
    (hentry : old.entry ∈ trail) :
    Row.IsPreorder trail x.raw ∧
      (Row.backTo old.entry trail).Sublist (Row.trail trail x.raw) := by
  have hstart : Turtle.Standing (Row.backTo old.entry trail)
      ((Stack.ofFrame ⟨old.entry, old.rotation, old.depth⟩).frames.map (·.joint)) trail :=
    ⟨hentry, List.Sublist.refl _⟩
  obtain ⟨hpre, hstand⟩ := x.run.standing hstart
  obtain ⟨hbridges, hsub⟩ := x.bridged.preorder hstand
  rw [raw, Row.IsPreorder.append_iff, Row.trail_append]
  exact ⟨⟨hpre, hbridges⟩, hsub⟩

/-- A joint that was there before the expansion is no exit of a new node. -/
theorem exit_ne (x : Expanded grammar params old rule s r t)
    (hsize : s.site.skeleton.size ≤ s.nextId.toNat + 1) {j : JointId}
    (hj : j.index < s.site.skeleton.size) {n : Node} (hn : n ∈ x.raw) : j ≠ n.exit := by
  intro he
  have hfresh := (x.attached.size_le_exit hsize hn).1
  rw [← he] at hfresh
  omega

/-- The only joint that was there before and at which a new node starts is the entry of the
expanded node. -/
theorem entry_ne (x : Expanded grammar params old rule s r t)
    (hsize : s.site.skeleton.size ≤ s.nextId.toNat + 1) {j : JointId}
    (hj : j.index < s.site.skeleton.size) (hne : j ≠ old.entry) {n : Node} (hn : n ∈ x.raw) :
    j ≠ n.entry := by
  intro he
  rcases (x.raw_preorder (List.mem_singleton_self old.entry)).1.entry_mem hn with h | ⟨m, hm, h⟩
  · exact hne (he.trans (List.mem_singleton.mp h))
  · exact x.exit_ne hsize hj hm (he.trans h.symm)

/-- An expansion is never empty: a text without nodes needs a bridge. -/
theorem raw_ne_nil (x : Expanded grammar params old rule s r t) : x.raw ≠ [] :=
  x.bridged.append_ne_nil

end Expanded

/-! ## Replacements -/

/-- What a generation relies on where nodes take the place of one node. -/
structure Replaced (old : Node) (k : Skeleton) (id : UInt32) (nodes : List Node)
    (k' : Skeleton) (id' : UInt32) : Prop where
  size_le : k.size ≤ k'.size ∧ k'.size ≤ id'.toNat + 1
  get?_of_ne : ∀ j : JointId, j.index < k.size → j ≠ old.exit → k'.get? j = k.get? j
  last_exit : ∃ front last, nodes = front ++ [last] ∧ last.exit = old.exit ∧
    (∀ n ∈ front, k.size ≤ n.exit.index ∧ n.exit.index < k'.size) ∧ (front.map (·.exit)).Nodup
  inSync : ∀ n ∈ nodes, InSync k' n
  preorder : ∀ trail : List JointId, (∀ j ∈ trail, j.index < k.size) → old.entry ∈ trail →
    Row.IsPreorder trail nodes ∧ (Row.extend trail old).Sublist (Row.trail trail nodes)

namespace Expanded

variable {grammar : Grammar} {params : GrowthParams} {old : Node} {rule : Rule (List Letter)}
  {s t : Nursery σ} {r : Replacement}

/-- The nodes of an expansion with the exit of the expanded node taken over by the last. -/
theorem nodes_eq (x : Expanded grammar params old rule s r t)
    (hexit : old.exit.index < s.site.skeleton.size)
    (hsize : s.site.skeleton.size ≤ s.nextId.toNat + 1) :
    ∃ front last j, x.raw = front ++ [last] ∧ r.nodes = front ++ [{ last with exit := old.exit }] ∧
      x.afterBridge.site.skeleton.get? last.exit = some j ∧
      t.site.skeleton = x.afterBridge.site.skeleton.put old.exit j ∧
      t.nextId = x.afterBridge.nextId := by
  obtain ⟨front, last, hraw⟩ := (List.eq_nil_or_concat x.raw).resolve_left x.raw_ne_nil
  rw [List.concat_eq_append] at hraw
  obtain ⟨site, hlast, ht⟩ := x.relink_eq
  have hconcat : x.made.map (·.node) ++ x.bridges = front ++ [last] := hraw
  rw [hconcat] at hlast
  obtain ⟨last', hlink, hnodes⟩ := relinkLast_concat_eq_ok hlast
  have hne : old.exit ≠ last.exit := x.exit_ne hsize hexit (by simp [hraw])
  obtain ⟨j, hj, rfl, rfl⟩ := OnSite.relink_eq_ok hne hlink
  exact ⟨front, last, j, hraw, hnodes, hj, congrArg (·.site.skeleton) ht, congrArg (·.nextId) ht⟩

/-- The last node of an expansion takes over the exit of the old node, and nothing else of the old
skeleton is touched. -/
theorem replaced (x : Expanded grammar params old rule s r t) (hne : old.entry ≠ old.exit)
    (hexit : old.exit.index < s.site.skeleton.size)
    (hsize : s.site.skeleton.size ≤ s.nextId.toNat + 1) :
    Replaced old s.site.skeleton s.nextId r.nodes t.site.skeleton t.nextId := by
  obtain ⟨front, last, j, hraw, hnodes, hj, hk, hid⟩ := x.nodes_eq hexit hsize
  rw [hk, hid]
  have hatt := x.attached
  have hlast : last ∈ x.raw := by simp [hraw]
  have hsize_le : s.site.skeleton.size ≤ x.afterBridge.site.skeleton.size := by
    rw [hatt.size_eq]
    omega
  -- only the joint of the old exit is written once the nodes are made
  have hput : ∀ i, old.exit ≠ i →
      (x.afterBridge.site.skeleton.put old.exit j).get? i = x.afterBridge.site.skeleton.get? i :=
    fun i hi => Skeleton.get?_put_of_ne hi j
  have hentries : ∀ n ∈ x.raw, old.exit ≠ n.entry := fun n hn => x.entry_ne hsize hexit hne.symm hn
  have hexits : ∀ n ∈ x.raw, old.exit ≠ n.exit := fun n hn => x.exit_ne hsize hexit hn
  refine {
    size_le := ?_, get?_of_ne := ?_, last_exit := ⟨front, _, hnodes, rfl, ?_, ?_⟩,
    inSync := ?_, preorder := ?_ }
  · rw [Skeleton.size_put]
    exact ⟨hsize_le, hatt.size_le hsize⟩
  · intro i hi hi'
    rw [hput i hi'.symm, hatt.get?_of_lt hi]
  · intro n hn
    rw [Skeleton.size_put]
    exact hatt.size_le_exit hsize (by simp [hraw, hn])
  · have hnodup := hatt.nodup_exits hsize
    rw [hraw, List.map_append] at hnodup
    exact hnodup.of_append_left
  · intro n hn
    rw [hnodes, List.mem_append, List.mem_singleton] at hn
    rcases hn with hn | rfl
    · have hmem : n ∈ x.raw := by simp [hraw, hn]
      exact (hatt.inSync hsize hmem).congr (hput _ (hentries n hmem)) (hput _ (hexits n hmem))
    · obtain ⟨e, he, hx⟩ := hatt.inSync hsize hlast
      refine ⟨e, (hput _ (hentries last hlast)).trans he, ?_⟩
      show _ = some (last.carry e)
      rw [← hx, hj]
      exact Skeleton.get?_put_self (Nat.lt_of_lt_of_le hexit hsize_le) j
  · intro trail htrail hmem
    obtain ⟨hpre, hsub⟩ := x.raw_preorder hmem
    -- the exit that goes out of use is new, and the old trail does not have it
    have hnot : last.exit ∉ Row.backTo old.entry trail := by
      intro h
      have hinside := htrail _ ((Row.backTo_sublist _ _).subset h)
      exact x.exit_ne hsize hinside hlast rfl
    rw [hraw] at hpre hsub
    rw [hnodes]
    exact hpre.relink_last hsub hnot old.exit

end Expanded

/-- The nursery with the exit joint of a node brought in line with its entry joint. -/
def refreshed (old : Node) (e : Joint) (s : Nursery σ) : Nursery σ :=
  { s with site := ⟨s.site.skeleton.put old.exit (old.carry e), s.site.source⟩ }

/-- A node is brought in line and then expanded, if a rule applies to it, or left as it is. -/
theorem replace_cases {grammar : Grammar} {params : GrowthParams} {old : Node}
    {s t : Nursery σ} {r : Replacement} (h : replace grammar params old s = .ok r t) :
    ∃ e, s.site.skeleton.get? old.entry = some e ∧ old.exit.index < s.site.skeleton.size ∧
      (∀ rule, rule? grammar old = some rule →
        expand grammar params old rule (refreshed old e s) = .ok r t) ∧
      (rule? grammar old = none → r.nodes = [old] ∧ t = refreshed old e s) := by
  simp only [replace, Outcome.bind_eq_ok, Build.onSite_eq_ok, OnSite.refresh_eq_ok] at h
  obtain ⟨u, n, ⟨site, ⟨e, he, hexit, rfl⟩, rfl⟩, h⟩ := h
  refine ⟨e, he, hexit, ?_, ?_⟩
  · intro rule hrule
    simp only [hrule] at h
    exact h
  · intro hrule
    simp only [hrule, Outcome.pure_eq_ok] at h
    obtain ⟨rfl, rfl⟩ := h
    exact ⟨rfl, rfl⟩

/-- A replacement refreshes the exit of the old node first. Then the node is expanded if a rule
applies to it, and otherwise carried on. -/
theorem replace_eq_ok {grammar : Grammar} {params : GrowthParams} {old : Node}
    {s t : Nursery σ} {r : Replacement} (h : replace grammar params old s = .ok r t) :
    ∃ e, s.site.skeleton.get? old.entry = some e ∧ old.exit.index < s.site.skeleton.size ∧
      (∀ rule, rule? grammar old = some rule →
        Nonempty (Expanded grammar params old rule (refreshed old e s) r t)) ∧
      (rule? grammar old = none → r.nodes = [old] ∧ t = refreshed old e s) := by
  obtain ⟨e, he, hexit, hexpand, hcarry⟩ := replace_cases h
  exact ⟨e, he, hexit, fun rule hrule => expanded_of_expand (hexpand rule hrule), hcarry⟩

/-- Whether it is expanded or carried on, a node is replaced by a row from its entry to its exit. -/
theorem replaced_of_replace {grammar : Grammar} {params : GrowthParams} {old : Node}
    {s t : Nursery σ} {r : Replacement} (h : replace grammar params old s = .ok r t)
    (hne : old.entry ≠ old.exit)
    (hsize : s.site.skeleton.size ≤ s.nextId.toNat + 1) :
    Replaced old s.site.skeleton s.nextId r.nodes t.site.skeleton t.nextId := by
  obtain ⟨e, he, hexit, hexpand, hcarry⟩ := replace_eq_ok h
  have hput : ∀ i, i ≠ old.exit →
      (s.site.skeleton.put old.exit (old.carry e)).get? i = s.site.skeleton.get? i :=
    fun i hi => Skeleton.get?_put_of_ne hi.symm _
  have hsize' : (refreshed old e s).site.skeleton.size = s.site.skeleton.size :=
    Skeleton.size_put ..
  cases hrule : rule? grammar old with
  | some rule =>
    obtain ⟨x⟩ := hexpand rule hrule
    have hrep := x.replaced hne (by rwa [hsize']) (by rwa [hsize'])
    exact {
      size_le := by simpa [hsize'] using hrep.size_le
      get?_of_ne := fun i hi hi' => by
        rw [hrep.get?_of_ne i (by rwa [hsize']) hi']
        exact hput i hi'
      last_exit := by simpa [hsize'] using hrep.last_exit
      inSync := hrep.inSync
      preorder := fun trail ht hm => hrep.preorder trail (by simpa [hsize'] using ht) hm }
  | none =>
    obtain ⟨hnodes, rfl⟩ := hcarry hrule
    rw [hnodes]
    exact {
      size_le := ⟨hsize'.ge, hsize'.trans_le hsize⟩
      get?_of_ne := fun i _ hi' => hput i hi'
      last_exit := ⟨[], old, rfl, rfl, by simp, by simp⟩
      inSync := fun n hn => by
        rw [List.mem_singleton.mp hn]
        exact ⟨e, (hput _ hne).trans he, Skeleton.get?_put_self hexit _⟩
      preorder := fun trail _ hm => ⟨⟨hm, trivial⟩, List.Sublist.refl _⟩ }

end Expansion

end PlantGrowth
