import PlantGrowth.Proofs.Counters
import PlantGrowth.Proofs.Lockstep
import PlantGrowth.Proofs.Register

/-!
# Nesting

The nesting of a node is the number of brackets around the letter for which it was made: those
around the node that it replaced, and those that were open in the text when it was made. It can be
told from the texts alone. `Word.nestings`, `Word.nestingAtEnd` and `Word.deepest` read one text,
`Expansion.levels` the texts that a generation chooses, and `Plant.Nested` follows a plant from its
seed with the nestings of its nodes and with the deepest nesting that an opening bracket has
reached.

The turtle knows neither texts nor nestings, only the depths of its frames. These are terraced
(`Turtle.Terraced`): each frame is one deeper than the one below it, and the lowest as deep as the
replaced node. So the depth of the top frame is the nesting (`Turtle.Run.levels`), and the age of a
plant is the deepest nesting reached, or one where that is zero (`Plant.Nested.age_eq_max`).
Outside brackets that is one more than the deepest nesting, inside brackets it is the deepest
nesting itself (`Plant.nested_age_ne_succ`).
-/

set_option autoImplicit false

namespace PlantGrowth

/-! ## Texts -/

namespace Word

/-- Number of brackets open behind a letter, if `opened` are open in front of it. A closing
bracket without an opening one closes nothing. -/
def openAfter (opened : ℕ) (c : Char) : ℕ :=
  match Action.ofLetter c with
  | .save => opened + 1
  | .restore => opened - 1
  | _ => opened

/-- Number of brackets open behind a word. -/
def nestingAtEnd (opened : ℕ) (w : List Char) : ℕ := w.foldl openAfter opened

/-- Numbers of brackets open at the letters of a word that leave nodes behind, in order. -/
def nestings : ℕ → List Char → List ℕ
  | _, [] => []
  | opened, c :: w =>
    if activates c then opened :: nestings (openAfter opened c) w
    else nestings (openAfter opened c) w

/-- The deepest nesting that an opening bracket of the word reaches, itself included, within
`outer` brackets around the word; zero if the word has none. -/
def deepest (outer : ℕ) : ℕ → List Char → ℕ
  | _, [] => 0
  | opened, c :: w =>
    max (if Action.ofLetter c = .save then outer + opened + 1 else 0)
      (deepest outer (openAfter opened c) w)

end Word

/-! ## Frames -/

namespace Turtle

/-- Each frame is one deeper than the one below it, and the lowest has depth `outer`. -/
def Terraced (outer : ℕ) : List Frame → Prop
  | [] => True
  | f :: below => f.depth.toNat = outer + below.length ∧ Terraced outer below

/-- There is a frame for each open bracket, and one below them. -/
theorem length_frames (stack : Stack) : stack.frames.length = stack.unclosed + 1 := by
  simp [Stack.frames, Stack.unclosed]

theorem length_below (stack : Stack) : stack.below.length = stack.unclosed := by
  have h := length_frames stack
  rw [stack.frames_eq_cons, List.length_cons] at h
  omega

/-- The terraces of a single frame start at its depth. -/
theorem terraced_ofFrame (frame : Frame) :
    Terraced frame.depth.toNat (Stack.ofFrame frame).frames :=
  ⟨rfl, trivial⟩

/-- The top frame is as deep as there are brackets around it. -/
theorem Terraced.top {outer : ℕ} {stack : Stack} (h : Terraced outer stack.frames) :
    stack.top.depth.toNat = outer + stack.unclosed := by
  rw [stack.frames_eq_cons] at h
  rw [h.1, length_below]

/-- The top frame may be moved as long as it keeps its depth. -/
theorem Terraced.setTop {outer : ℕ} {stack : Stack} (h : Terraced outer stack.frames)
    {frame : Frame} (hframe : frame.depth = stack.top.depth) :
    Terraced outer (stack.setTop frame).frames := by
  rw [stack.frames_eq_cons] at h
  rw [Stack.frames_setTop]
  exact ⟨by rw [hframe]; exact h.1, h.2⟩

variable {σ : Type} [RandomSource σ] {params : GrowthParams} {letter : Letter}
  {stack stack' : Stack} {s t : Nursery σ} {outer : ℕ}

/-- As many brackets are open after a step as its letter leaves open. -/
theorem Step.unclosed_eq {node? : Option Node} (h : Step params letter stack s node? stack' t)
    (hact : letter.action = .ofLetter letter.char) :
    stack'.unclosed = Word.openAfter stack.unclosed letter.char := by
  unfold Word.openAfter
  rw [← hact]
  cases h with
  | turnLeft ha => rw [ha]; exact Stack.unclosed_setTop ..
  | turnRight ha => rw [ha]; exact Stack.unclosed_setTop ..
  | save ha hsave =>
    obtain ⟨depth, -, hframes⟩ := Stack.save_eq_ok hsave
    have hlength := congrArg List.length hframes
    rw [length_frames, List.length_cons, length_frames] at hlength
    rw [ha]
    simpa using hlength
  | restore ha hrestore _ _ _ =>
    have hframes := Stack.restore_eq_ok hrestore
    rw [ha]
    split at hframes
    · -- the top frame goes, and one bracket is open less
      have hlength := congrArg List.length hframes
      rw [length_frames, List.length_cons, length_frames] at hlength
      simp only
      omega
    · -- there is none to go
      obtain ⟨hnested, hsame⟩ := hframes
      have hlength := congrArg List.length hsame
      rw [length_frames, length_frames] at hlength
      have hnone : stack.unclosed = 0 := by simp [Stack.unclosed, hnested]
      simp only
      omega
  | grow hmakes hgrew =>
    rw [hgrew.stack_eq, Stack.unclosed_setTop]
    cases ha : letter.action with
    | bud => rfl
    | branch => rfl
    | placeholder => rfl
    | turnLeft => rfl
    | turnRight => rfl
    | save => rw [ha] at hmakes; cases hmakes
    | restore => rw [ha] at hmakes; cases hmakes

/-- A step keeps the frames terraced, and as many brackets are open as the letter leaves open. -/
theorem Step.terraced {node? : Option Node} (h : Step params letter stack s node? stack' t)
    (hact : letter.action = .ofLetter letter.char) (hs : Terraced outer stack.frames) :
    Terraced outer stack'.frames ∧
      stack'.unclosed = Word.openAfter stack.unclosed letter.char := by
  refine ⟨?_, h.unclosed_eq hact⟩
  cases h with
  | turnLeft _ => exact hs.setTop rfl
  | turnRight _ => exact hs.setTop rfl
  | save _ hsave =>
    obtain ⟨depth, hdepth, hframes⟩ := Stack.save_eq_ok hsave
    have hword : depth.toNat = stack.top.depth.toNat + 1 := addWord_ok hdepth
    rw [hframes]
    refine ⟨?_, hs⟩
    show depth.toNat = _
    rw [hword, hs.top, length_frames]
    omega
  | restore _ hrestore _ _ _ =>
    have hframes := Stack.restore_eq_ok hrestore
    split at hframes
    · rw [hframes] at hs
      exact hs.2
    · rw [hframes.2]
      exact hs
  | grow _ hgrew =>
    rw [hgrew.stack_eq]
    exact hs.setTop hgrew.depth_eq

/-- Only an opening bracket raises the age, to the nesting that it reaches. -/
theorem Step.age_eq {node? : Option Node} (h : Step params letter stack s node? stack' t)
    (hact : letter.action = .ofLetter letter.char) (hs : Terraced outer stack.frames) :
    t.age.toNat = max s.age.toNat
      (if Action.ofLetter letter.char = .save then outer + stack.unclosed + 1 else 0) := by
  obtain ⟨hterraced, hunclosed⟩ := h.terraced hact hs
  rw [← hact]
  cases h with
  | turnLeft ha => simp [ha]
  | turnRight ha => simp [ha]
  | save ha hsave =>
    rw [Word.openAfter, ← hact, ha] at hunclosed
    rw [if_pos ha]
    show (max s.age stack'.top.depth).toNat = _
    rw [toNat_max, hterraced.top, hunclosed, Nat.add_assoc]
  | restore ha _ _ hage _ => simp [ha, hage]
  | grow hmakes hgrew =>
    have hne : letter.action ≠ .save := by
      intro ha
      rw [ha] at hmakes
      cases hmakes
    rw [if_neg hne, hgrew.age_eq, Nat.max_zero]

/-- The nestings of a text are those of its first step, if it leaves a node behind, and of the
rest. -/
theorem Step.nestings_cons {node? : Option Node} (h : Step params letter stack s node? stack' t)
    (hact : letter.action = .ofLetter letter.char) (hs : Terraced outer stack.frames)
    (w : List Char) : Word.nestings stack.unclosed (letter.char :: w) =
      (node?.map fun _ => stack.unclosed).toList ++ Word.nestings stack'.unclosed w := by
  have hactivates : Word.activates letter.char = node?.isSome := by
    rw [Word.activates, ← hact]
    exact h.makesNode_eq
  rw [Word.nestings, hactivates, (h.terraced hact hs).2]
  cases node? <;> rfl

/-- A run makes its nodes at the nestings of its text and raises the age to the deepest of them
that an opening bracket reaches. -/
theorem Run.levels {text : List Letter} {made : List Made}
    (h : Run params text stack s made stack' t)
    (hact : ∀ letter ∈ text, letter.action = .ofLetter letter.char)
    (hs : Terraced outer stack.frames) :
    Terraced outer stack'.frames ∧
      stack'.unclosed = Word.nestingAtEnd stack.unclosed (text.map (·.char)) ∧
      t.age.toNat =
        max s.age.toNat (Word.deepest outer stack.unclosed (text.map (·.char))) ∧
      made.map (·.node.depth.toNat) =
        (Word.nestings stack.unclosed (text.map (·.char))).map (outer + ·) := by
  -- over the letters, with the stack that the first of them leaves
  induction h with
  | nil => exact ⟨hs, rfl, (Nat.max_zero _).symm, rfl⟩
  | @silent letter text stack stack₁ stack₂ s r t made hstep _ ih =>
    obtain ⟨hletter, htext⟩ := List.forall_mem_cons.mp hact
    obtain ⟨hterraced, hunclosed⟩ := hstep.terraced hletter hs
    obtain ⟨hframes, hend, hage, hmade⟩ := ih htext hterraced
    rw [hunclosed] at hend hage
    refine ⟨hframes, hend, ?_, ?_⟩
    · rw [hage, hstep.age_eq hletter hs, Nat.max_assoc]
      rfl
    · rw [hmade, List.map_cons, hstep.nestings_cons hletter hs]
      rfl
  | @grow letter text stack stack₁ stack₂ s r t node made hstep _ ih =>
    obtain ⟨hletter, htext⟩ := List.forall_mem_cons.mp hact
    obtain ⟨hterraced, hunclosed⟩ := hstep.terraced hletter hs
    obtain ⟨hframes, hend, hage, hmade⟩ := ih htext hterraced
    rw [hunclosed] at hend hage
    refine ⟨hframes, hend, ?_, ?_⟩
    · rw [hage, hstep.age_eq hletter hs, Nat.max_assoc]
      rfl
    · have hnode : node.depth.toNat = outer + stack.unclosed := by
        cases hstep with
        | grow _ hgrew =>
          rw [hgrew.depth_eq]
          exact hs.top
      rw [List.map_cons, List.map_cons, hstep.nestings_cons hletter hs, hmade, hnode]
      rfl

end Turtle

/-! ## Generations -/

/-- The letters of the texts act as letters do. -/
def Grammar.ActsByLetter (grammar : Grammar) : Prop :=
  ∀ {c : Char} {rule : Rule (List Letter)}, grammar.find? c = some rule →
    ∀ text ∈ rule.texts, ∀ letter ∈ text, letter.action = .ofLetter letter.char

/-- Texts are made into letters by what their characters mean. -/
theorem Grammar.actsByLetter_ofRules (rules : Rules String) : (ofRules rules).ActsByLetter := by
  intro c rule hrule text htext letter hletter
  obtain ⟨rule', hrule', text', htext', rfl⟩ := texts_of_find? hrule htext
  obtain ⟨d, hd, rfl⟩ := List.mem_map.mp hletter
  rfl

namespace Expansion

variable {σ : Type} [RandomSource σ] {grammar : Grammar} {params : GrowthParams} {old : Node}
  {s t : Nursery σ} {r : Replacement} {outer : ℕ}

/-- Nestings of what takes the place of a node of nesting `outer`, in order: of the node itself,
or of the nodes that a text leaves behind, with a bridge at the end of the text if there is one. -/
def levelsOf (outer : ℕ) (text : Option (List Char)) (bridged : Bool) : List ℕ :=
  match text with
  | none => [outer]
  | some w =>
    (Word.nestings 0 w ++ if bridged then [Word.nestingAtEnd 0 w] else []).map (outer + ·)

/-- Deepest nesting that an opening bracket reaches in place of a node of nesting `outer`. -/
def deepestOf (outer : ℕ) : Option (List Char) → ℕ
  | none => 0
  | some w => Word.deepest outer 0 w

/-- Characters of the text with which a node is replaced, if a rule applies to it. -/
def chars? (grammar : Grammar) (old : Node) (source : σ) : Option (List Char) :=
  (text? grammar old source).map (·.map (·.char))

/-- Nestings behind a pass over a row of nodes whose nestings are given, and the deepest nesting
that an opening bracket reaches in the pass. -/
def levels (grammar : Grammar) (params : GrowthParams) :
    List Node → List ℕ → Nursery σ → List ℕ × ℕ
  | old :: row, outer :: behind, s =>
    match replace grammar params old s with
    | .ok r t =>
      let text := chars? grammar old s.site.source
      let rest := levels grammar params row behind t
      (levelsOf outer text (r.tally.bridged != 0) ++ rest.1, max (deepestOf outer text) rest.2)
    | .error _ _ => ([], 0)
  | _, _, _ => ([], 0)

theorem levels_cons {row : List Node} {behind : List ℕ}
    (h : replace grammar params old s = .ok r t) :
    levels grammar params (old :: row) (outer :: behind) s =
      (levelsOf outer (chars? grammar old s.site.source) (r.tally.bridged != 0) ++
          (levels grammar params row behind t).1,
        max (deepestOf outer (chars? grammar old s.site.source))
          (levels grammar params row behind t).2) := by
  rw [levels, h]

omit [RandomSource σ] in
/-- A bridge is as deep as the top frame at the end of the text. -/
theorem Bridged.map_depth {made : List Turtle.Made} {stack : Stack} {bridges : List Node}
    (h : Bridged grammar made stack s bridges t) :
    bridges.map (·.depth.toNat) =
      if needsBridge made stack then [stack.top.depth.toNat] else [] := by
  cases h with
  | unneeded hneeds => simp [hneeds]
  | needed hneeds hb => simp [hneeds, hb.depth_eq]

/-- An expansion has the nestings of its text, and its age the deepest one reached. -/
theorem Expanded.levels {rule : Rule (List Letter)} (x : Expanded grammar params old rule s r t)
    (hact : ∀ letter ∈ x.text, letter.action = .ofLetter letter.char) :
    r.nodes.map (·.depth.toNat) =
        levelsOf old.depth.toNat (some (x.text.map (·.char))) (r.tally.bridged != 0) ∧
      t.age.toNat =
        max s.age.toNat (deepestOf old.depth.toNat (some (x.text.map (·.char)))) := by
  obtain ⟨hframes, hend, hage, hmade⟩ := x.run.levels hact (Turtle.terraced_ofFrame _)
  obtain ⟨site, hlast, ht⟩ := x.relink_eq
  have hbase : (Stack.ofFrame ⟨old.entry, old.rotation, old.depth⟩).unclosed = 0 := rfl
  rw [hbase] at hend hage hmade
  constructor
  · -- an exit taken over leaves the depths as they are
    have hsame : r.nodes.map (·.depth.toNat) = x.raw.map (·.depth.toNat) := by
      rcases relinkLast_eq_ok hlast with ⟨hraw, hnodes⟩ | ⟨front, last, hraw, hnodes⟩
      · rw [hnodes]
        exact (congrArg (List.map (·.depth.toNat)) hraw).symm
      · rw [hnodes, show x.raw = front ++ [last] from hraw]
        simp
    -- a bridge is as deep as the text left the turtle
    have hbridges : x.bridges.map (·.depth.toNat) =
        if r.tally.bridged ≠ 0 then
          [old.depth.toNat + Word.nestingAtEnd 0 (x.text.map (·.char))] else [] := by
      rw [x.bridged.map_depth, hframes.top, hend, x.tally_eq]
      cases needsBridge x.made x.stack <;> rfl
    rw [hsame, Expanded.raw, List.map_append, hbridges, List.map_map]
    simp only [levelsOf, List.map_append]
    refine congrArg₂ _ hmade ?_
    by_cases hb : r.tally.bridged = 0 <;> simp [hb]
  · have hbridged : x.afterBridge.age = x.afterText.age := x.bridged.age_eq
    have htext : t.age = x.afterText.age := (congrArg Nursery.age ht :).trans hbridged
    exact (congrArg UInt32.toNat htext).trans hage

/-- What takes the place of a node has the nestings that the texts give it. -/
theorem levels_of_replace (hact : grammar.ActsByLetter)
    (h : replace grammar params old s = .ok r t) :
    r.nodes.map (·.depth.toNat) =
        levelsOf old.depth.toNat (chars? grammar old s.site.source) (r.tally.bridged != 0) ∧
      t.age.toNat =
        max s.age.toNat (deepestOf old.depth.toNat (chars? grammar old s.site.source)) := by
  obtain ⟨e, -, -, hexpand, -⟩ := replace_eq_ok h
  cases hrule : rule? grammar old with
  | some rule =>
    obtain ⟨x⟩ := hexpand rule hrule
    have hselect : rule.select s.site.source = .ok (x.text, x.source) := x.select_eq
    have hchars : chars? grammar old s.site.source = some (x.text.map (·.char)) := by
      simp only [chars?, text?, hrule, hselect, Option.map_some]
    rw [hchars]
    apply x.levels
    exact forall_letter_of_select hselect (hact (find?_of_rule? hrule))
  | none =>
    obtain ⟨rfl, hage, -⟩ := carried_of_replace h hrule
    have hchars : chars? grammar old s.site.source = none := by
      simp only [chars?, text?, hrule, Option.map_none]
    rw [hchars, hage]
    exact ⟨rfl, (Nat.max_zero _).symm⟩

/-- A pass has the nestings of the texts that it chooses, node by node. -/
theorem levels_of_mapM {row : List Node} {parts : List Replacement}
    (hact : grammar.ActsByLetter)
    (h : (row.mapM (replace grammar params)) s = .ok parts t) :
    (parts.flatMap (·.nodes)).map (·.depth.toNat) =
        (levels grammar params row (row.map (·.depth.toNat)) s).1 ∧
      t.age.toNat =
        max s.age.toNat (levels grammar params row (row.map (·.depth.toNat)) s).2 := by
  induction row generalizing s parts with
  | nil =>
    obtain ⟨rfl, rfl⟩ := Outcome.mapM_nil_eq_ok.mp h
    exact ⟨rfl, (Nat.max_zero _).symm⟩
  | cons old row ih =>
    obtain ⟨r, u, parts', hr, hrest, rfl⟩ := Outcome.mapM_cons_eq_ok.mp h
    obtain ⟨hnodes, hage⟩ := levels_of_replace hact hr
    obtain ⟨hnodes', hage'⟩ := ih hrest
    rw [List.map_cons, levels_cons hr]
    constructor
    · rw [List.flatMap_cons, List.map_append, hnodes, hnodes']
    · rw [hage', hage, Nat.max_assoc]

end Expansion

/-! ## Plants -/

/-- A frame leaves the depths of a row as they are. -/
theorem OnSite.map_depth_of_mapM {σ : Type} [RandomSource σ] {m : Moment} {row : List Node}
    {results : List (Node × Option Mark)} {s t : Site σ}
    (h : (row.mapM (growNode m)) s = .ok results t) :
    (results.map (·.1)).map (·.depth) = row.map (·.depth) := by
  rw [List.map_map]
  refine Outcome.map_eq_of_forall₂ ((grows_of_mapM h).imp ?_)
  rintro n result ⟨e, x, source, source', hgrows⟩
  exact hgrows.depth_eq

namespace Plant

variable {σ : Type} [RandomSource σ] {origin : Vec} {p p' : Plant} {s t : Surroundings σ}

/-- Nestings of the nodes behind a generation, and the deepest nesting reached in it, if the
nodes have these nestings before it. -/
def levels (p : Plant) (s : Surroundings σ) (ns : List ℕ) : List ℕ × ℕ :=
  Expansion.levels p.grammar p.params p.nodes ns
    ⟨⟨p.skeleton, s.source⟩, p.age, p.nextId, s.journal⟩

/-- A plant that was sown and went through any generations and frames, with the nestings of its
nodes in order and the deepest nesting that an opening bracket has reached, zero if there was
none. The seed has nesting zero. -/
inductive Nested (origin : Vec) : Plant → List ℕ → ℕ → Prop
  | sprout {σ : Type} [RandomSource σ] {letter : Char} {rules : Rules String}
      {params : GrowthParams} {s t : Surroundings σ} {p : Plant} :
      Plant.sprout letter rules params origin s = .ok p t →
      Nested origin p [0] (Word.deepest 0 0 [letter])
  | generate {σ : Type} [RandomSource σ] {p p' : Plant} {tally : Tally} {s t : Surroundings σ}
      {ns : List ℕ} {d : ℕ} :
      Nested origin p ns d → p.generate s = .ok (p', tally) t →
      Nested origin p' (p.levels s ns).1 (max d (p.levels s ns).2)
  | tick {σ : Type} [RandomSource σ] {p p' : Plant} {time : Scalar} {noise : Noise}
      {marks : List Mark} {s t : Surroundings σ} {ns : List ℕ} {d : ℕ} :
      Nested origin p ns d → p.tick time noise s = .ok (p', marks) t → Nested origin p' ns d

theorem Nested.reachable {ns : List ℕ} {d : ℕ} (h : Nested origin p ns d) :
    Reachable origin p := by
  induction h with
  | sprout h => exact .sprout h
  | generate _ h ih => exact .generate ih h
  | tick _ h ih => exact .tick ih h

/-- Every run of a plant has its nestings. -/
theorem Reachable.exists_nested (h : Reachable origin p) : ∃ ns d, Nested origin p ns d := by
  induction h with
  | sprout h => exact ⟨_, _, .sprout h⟩
  | generate _ h ih =>
    obtain ⟨ns, d, hp⟩ := ih
    exact ⟨_, _, .generate hp h⟩
  | tick _ h ih =>
    obtain ⟨ns, d, hp⟩ := ih
    exact ⟨ns, d, .tick hp h⟩

/-- The nodes are as deep as their nestings, and the age is the deepest nesting or one. -/
structure Leveled (p : Plant) (ns : List ℕ) (d : ℕ) : Prop where
  acts : p.grammar.ActsByLetter
  depths : p.nodes.map (·.depth.toNat) = ns
  age : p.age.toNat = max 1 d

/-- The seed has nesting zero, and the age is one. -/
theorem leveled_of_sprout {letter : Char} {rules : Rules String} {params : GrowthParams}
    (h : sprout letter rules params origin s = .ok p t) :
    Leveled p [0] (Word.deepest 0 0 [letter]) := by
  have hage := age_of_sprout h
  obtain ⟨node, m, hseed, rfl, -⟩ := sprout_eq_ok h
  refine ⟨Grammar.actsByLetter_ofRules rules, ?_, ?_⟩
  · rw [List.map_singleton]
    cases hseed with
    | grown _ hgrew => rw [hgrew.depth_eq]; rfl
    | inert _ _ _ _ _ hdepth _ _ => rw [hdepth]; rfl
  · -- one opening bracket reaches nesting one, which is the age from the start
    rw [hage, Word.deepest, Word.deepest]
    split <;> rfl

/-- A generation keeps depths and age in accord with the nestings. -/
theorem Leveled.generate {tally : Tally} {ns : List ℕ} {d : ℕ} (hp : Leveled p ns d)
    (hreach : Reachable origin p) (h : p.generate s = .ok (p', tally) t) :
    Leveled p' (p.levels s ns).1 (max d (p.levels s ns).2) := by
  obtain ⟨root, hroot⟩ := hreach.sound.rooted
  obtain ⟨parts, m, ρ, hparts, -, -, hnodes, -, -, -, hgrammar⟩ :=
    exists_renamed_of_generate hroot h
  obtain ⟨hdepths, hage⟩ := Expansion.levels_of_mapM hp.acts hparts
  rw [hp.depths] at hdepths hage
  refine ⟨by rw [hgrammar]; exact hp.acts, ?_, ?_⟩
  · -- new names for the handles leave the depths as they are
    rw [hnodes, List.map_map]
    exact hdepths
  · rw [age_of_generate h hparts, hage, hp.age, Nat.max_assoc]
    rfl

/-- A frame changes neither depths nor age. -/
theorem Leveled.tick {time : Scalar} {noise : Noise} {marks : List Mark} {ns : List ℕ} {d : ℕ}
    (hp : Leveled p ns d) (h : p.tick time noise s = .ok (p', marks) t) : Leveled p' ns d := by
  obtain ⟨nodes, k, source, hgrow, rfl, -⟩ := tick_eq_ok h
  obtain ⟨results, hresults, rfl, -⟩ := OnSite.growAll_eq_ok hgrow
  refine ⟨hp.acts, ?_, hp.age⟩
  have hdepths := congrArg (List.map UInt32.toNat) (OnSite.map_depth_of_mapM hresults)
  rw [← hp.depths]
  simpa [Function.comp_def] using hdepths

/-- By induction, depths and age are in accord with the nestings all along. -/
theorem Nested.leveled {ns : List ℕ} {d : ℕ} (h : Nested origin p ns d) : Leveled p ns d := by
  induction h with
  | sprout h => exact leveled_of_sprout h
  | generate hp h ih => exact ih.generate hp.reachable h
  | tick _ h ih => exact ih.tick h

/-- The age of a plant is the deepest nesting that an opening bracket has ever reached, or one
where none has been read, and its nodes are as deep as they are nested. So the age is one more than
the deepest nesting just where no opening bracket has been read. -/
theorem Nested.age_eq_max {ns : List ℕ} {d : ℕ} (h : Nested origin p ns d) :
    p.nodes.map (·.depth.toNat) = ns ∧ p.age.toNat = max 1 d ∧
      (p.age.toNat = 1 + d ↔ d = 0) := by
  have hp := h.leveled
  refine ⟨hp.depths, hp.age, ?_⟩
  rw [hp.age]
  omega

/-- The next generation of the sapling opens brackets within brackets. -/
theorem Nested.age_eq_max_sapling : ∃ p p' tally t t' ns,
    sapling ⟨⟨#[0], 0⟩, #[]⟩ = .ok p t ∧ p.generate t = .ok (p', tally) t' ∧
    Nested ⟨0, 0⟩ p' ns 2 ∧ p'.nodes.map (·.depth.toNat) = ns ∧ p'.age.toNat = 2 := by
  have hok : Outcome.isOk (fun r => r.1.age == 2) ((do let p ← sapling; p.generate :
      Garden Reel (Plant × Tally)) ⟨⟨#[0], 0⟩, #[]⟩) = true := by decide +kernel
  obtain ⟨⟨p', tally⟩, t', h, hage⟩ := Outcome.exists_of_isOk hok
  obtain ⟨p, t, hsapling, hgenerate⟩ := Outcome.bind_eq_ok.mp h
  obtain ⟨ns, d, hp⟩ := ((reachable_of_sapling hsapling).generate hgenerate).exists_nested
  obtain ⟨hdepths, hmax, -⟩ := hp.age_eq_max
  have htwo : p'.age.toNat = 2 := congrArg UInt32.toNat (eq_of_beq hage)
  have hd : d = 2 := by omega
  exact ⟨p, p', tally, t, t', ns, hsapling, hgenerate, hd ▸ hp, hdepths, htwo⟩

/-- A plant of one generation whose text is one letter in brackets. -/
def bracketed : Garden Reel (Plant × Surroundings Reel × Plant) := do
  let p ← sprout 'X' (Rules.empty.insert 'X' (.fixed "[F]")) {} ⟨0, 0⟩
  let s ← get
  let (p', _) ← p.generate
  return (p, s, p')

/-- The bracket of its text has nesting one, and the age of the plant is one, not two. -/
theorem nested_age_ne_succ : ∃ p ns d, Nested ⟨0, 0⟩ p ns d ∧ d = 1 ∧ p.age.toNat ≠ 1 + d := by
  have hok : Outcome.isOk (fun r => (r.1.levels r.2.1 [0]).2 == 1 && r.2.2.age == 1)
      (bracketed ⟨⟨#[0], 0⟩, #[]⟩) = true := by decide +kernel
  obtain ⟨⟨p, s, p'⟩, t, h, hrun⟩ := Outcome.exists_of_isOk hok
  simp only [bracketed, Outcome.bind_eq_ok, Outcome.pure_eq_ok, Outcome.get_eq_ok] at h
  obtain ⟨q, r, hsprout, s', r', ⟨rfl, rfl⟩, ⟨q', tally⟩, u, hgenerate, hq, rfl⟩ := h
  obtain ⟨rfl, rfl, rfl⟩ : q = p ∧ r = s ∧ q' = p' := by simpa using hq
  obtain ⟨hlevel, hage⟩ : (q.levels r [0]).2 = 1 ∧ q'.age = 1 := by simpa using hrun
  refine ⟨q', _, _, (Nested.sprout hsprout).generate hgenerate, ?_, ?_⟩
  · rw [hlevel]
    decide
  · rw [hlevel, hage]
    decide

end Plant

end PlantGrowth
