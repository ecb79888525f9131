import PlantGrowth.Proofs.Word
import PlantGrowth.Proofs.Compaction

/-!
# Rows that trace a word

A row of nodes traces a word if a turtle that reads the word walks over the nodes in order: each
letter that leaves a node behind has its node in the row, starting where the turtle stands and as
deep as the brackets are. `Row.Traces` is this walk, step by step. Besides the letters it has two
steps without a letter: over a bridge, which takes up the turns made so far, and away from turns
that cancel.

Walks are put together (`Traces.trans`) and stay walks when joints are renamed
(`Traces.rename`). `Turtle.Run.traces` is where they come from: the nodes that the turtle of an
expansion grows trace the text that it reads.
-/

set_option autoImplicit false

namespace PlantGrowth

open Scalar

namespace Row

/-- Where a turtle that reads a word stands: at a joint, with the turns made since. -/
structure Post where
  joint : JointId
  turns : List Turn

/-- The post with its joint renamed. -/
def Post.rename (ρ : JointId → JointId) (post : Post) : Post := { post with joint := ρ post.joint }

section Traces

variable (steady : Prop) (angle : Scalar) (ruled : Char → Bool)

/-- The node stands for a letter read at a post with so many brackets open. -/
structure IsSymbol (here : Post) (opened : Nat) (n : Node) : Prop where
  activates : Word.activates n.letter = true
  ne_bridge : n.letter ≠ bridgeLetter
  entry_eq : n.entry = here.joint
  depth_eq : n.depth.toNat = opened
  hasRule_eq : n.hasRule = ruled n.letter
  rotation_same : steady → Same n.rotation (Turn.total angle here.turns)

/-- The node is a bridge that takes up the turns made at a post. -/
structure IsBridge (here : Post) (n : Node) : Prop where
  letter_eq : n.letter = bridgeLetter
  entry_eq : n.entry = here.joint
  rotation_same : steady → Same n.rotation (Turn.total angle here.turns)

/-- A walk over a row along a word, with the post and the posts remembered before and after. -/
inductive Traces :
    Post → List Post → List Char → List Node → Post → List Post → Prop
  | nil (here : Post) (saved : List Post) : Traces here saved [] [] here saved
  | turn {here there : Post} {saved out : List Post} {c : Char} {w : List Char} {row : List Node}
      (t : Turn) : Action.ofLetter c = t.action →
      Traces { here with turns := here.turns ++ [t] } saved w row there out →
      Traces here saved (c :: w) row there out
  | save {here there : Post} {saved out : List Post} {c : Char} {w : List Char} {row : List Node} :
      Action.ofLetter c = .save → Traces here (here :: saved) w row there out →
      Traces here saved (c :: w) row there out
  | restore {here back there : Post} {saved out : List Post} {c : Char} {w : List Char}
      {row : List Node} : Action.ofLetter c = .restore → Traces back saved w row there out →
      Traces here (back :: saved) (c :: w) row there out
  | symbol {here there : Post} {saved out : List Post} {n : Node} {w : List Char}
      {row : List Node} : IsSymbol steady angle ruled here saved.length n →
      Traces ⟨n.exit, []⟩ saved w row there out →
      Traces here saved (n.letter :: w) (n :: row) there out
  | bridge {here there : Post} {saved out : List Post} {b : Node} {w : List Char}
      {row : List Node} : IsBridge steady angle here b →
      Traces ⟨b.exit, []⟩ saved w row there out → Traces here saved w (b :: row) there out
  | cancel {here there : Post} {saved out : List Post} {w : List Char} {row : List Node} :
      (steady → IsZero (Turn.total angle here.turns)) →
      Traces { here with turns := [] } saved w row there out → Traces here saved w row there out

end Traces

variable {steady : Prop} {angle : Scalar} {ruled : Char → Bool}

/-- Two walks one after the other. -/
theorem Traces.trans {a b c : Post} {saved mid out : List Post} {w w' : List Char}
    {row row' : List Node} (h : Traces steady angle ruled a saved w row b mid)
    (h' : Traces steady angle ruled b mid w' row' c out) :
    Traces steady angle ruled a saved (w ++ w') (row ++ row') c out := by
  induction h with
  | nil => exact h'
  | turn t ha _ ih => exact .turn t ha (ih h')
  | save ha _ ih => exact .save ha (ih h')
  | restore ha _ ih => exact .restore ha (ih h')
  | symbol hn _ ih => exact .symbol hn (ih h')
  | bridge hb _ ih => exact .bridge hb (ih h')
  | cancel hzero _ ih => exact .cancel hzero (ih h')

theorem IsSymbol.rename {here : Post} {opened : Nat} {n : Node} (ρ : JointId → JointId)
    (h : IsSymbol steady angle ruled here opened n) :
    IsSymbol steady angle ruled (here.rename ρ) opened (n.rename ρ) :=
  { h with entry_eq := congrArg ρ h.entry_eq }

theorem IsBridge.rename {here : Post} {b : Node} (ρ : JointId → JointId)
    (h : IsBridge steady angle here b) : IsBridge steady angle (here.rename ρ) (b.rename ρ) :=
  { h with entry_eq := congrArg ρ h.entry_eq }

/-- A walk stays one when joints get other names, even if two get the same. -/
theorem Traces.rename {here there : Post} {saved out : List Post} {w : List Char} {row : List Node}
    (ρ : JointId → JointId) (h : Traces steady angle ruled here saved w row there out) :
    Traces steady angle ruled (here.rename ρ) (saved.map (Post.rename ρ)) w
      (row.map (Node.rename ρ)) (there.rename ρ) (out.map (Post.rename ρ)) := by
  induction h with
  | nil here saved => exact .nil _ _
  | turn t ha _ ih => exact .turn t ha ih
  | save ha _ ih => exact .save ha ih
  | restore ha _ ih => exact .restore ha ih
  | symbol hn _ ih =>
    have hn' := hn.rename ρ
    rw [← List.length_map (Post.rename ρ)] at hn'
    have hcons := Traces.symbol hn' ih
    exact hcons
  | bridge hb _ ih => exact .bridge (hb.rename ρ) ih
  | cancel hzero _ ih => exact .cancel hzero ih

end Row

/-! ## Frames and posts -/

namespace Turtle

open Row (Post Traces)

section Fits

variable (steady : Prop) (angle : Scalar) (ρ : JointId → JointId)

/-- A frame of the turtle is the post, under new names of the joints, and so many brackets are
open there. -/
structure Fits (opened : Nat) (f : Frame) (post : Post) : Prop where
  joint_eq : ρ f.joint = post.joint
  depth_eq : f.depth.toNat = opened
  rotation_same : steady → Same f.rotation (Turn.total angle post.turns)

/-- The frames of a stack are the posts, the topmost first; so many brackets are open at the
lowest one. -/
inductive Aligned (opened : Nat) : List Frame → List Post → Prop
  | nil : Aligned opened [] []
  | cons {f : Frame} {post : Post} {fs : List Frame} {posts : List Post} :
      Fits steady angle ρ (opened + posts.length) f post → Aligned opened fs posts →
      Aligned opened (f :: fs) (post :: posts)

end Fits

variable {steady : Prop} {angle : Scalar} {ρ : JointId → JointId} {opened : Nat}

theorem Aligned.length_eq {fs : List Frame} {posts : List Post}
    (h : Aligned steady angle ρ opened fs posts) : fs.length = posts.length := by
  induction h with
  | nil => rfl
  | cons _ _ ih => rw [List.length_cons, List.length_cons, ih]

theorem Fits.turn {d : Nat} {f : Frame} {post : Post} (h : Fits steady angle ρ d f post)
    (t : Turn) :
    Fits steady angle ρ d { f with rotation := f.rotation + t.rotation angle }
      { post with turns := post.turns ++ [t] } where
  joint_eq := h.joint_eq
  depth_eq := h.depth_eq
  rotation_same hs := by
    rw [Turn.total_concat]
    exact (h.rotation_same hs).add _

/-- A frame without a turn fits the exit of a node. -/
theorem fits_exit {d : Nat} {n : Node} (hdepth : n.depth.toNat = d) :
    Fits steady angle ρ d ⟨n.exit, 0, n.depth⟩ ⟨ρ n.exit, []⟩ where
  joint_eq := rfl
  depth_eq := hdepth
  rotation_same _ := Same.refl 0

/-- Where the stack is turned, the top post is. -/
theorem Aligned.turn {stack : Stack} {here : Post} {saved : List Post}
    (h : Aligned steady angle ρ opened stack.frames (here :: saved)) (t : Turn) :
    Aligned steady angle ρ opened (stack.turn (t.rotation angle)).frames
      ({ here with turns := here.turns ++ [t] } :: saved) := by
  rw [stack.frames_eq_cons] at h
  rw [Stack.turn, Stack.frames_setTop]
  cases h with
  | cons hfit hbelow => exact .cons (hfit.turn t) hbelow

/-- Where a frame is saved, its post is remembered. -/
theorem Aligned.save {stack stack' : Stack} {here : Post} {saved : List Post}
    (h : Aligned steady angle ρ opened stack.frames (here :: saved))
    (hsave : stack.save = .ok stack') :
    Aligned steady angle ρ opened stack'.frames (here :: here :: saved) := by
  obtain ⟨depth, hdepth, hframes⟩ := Stack.save_eq_ok hsave
  rw [hframes]
  refine .cons ?_ h
  rw [stack.frames_eq_cons] at h
  cases h with
  | cons hfit _ =>
    refine ⟨hfit.joint_eq, ?_, hfit.rotation_same⟩
    rw [addWord_ok hdepth, hfit.depth_eq, List.length_cons]
    exact Nat.add_assoc ..

theorem Aligned.restore {stack stack' : Stack} {matched : Bool} {here back : Post}
    {saved : List Post} (h : Aligned steady angle ρ opened stack.frames (here :: back :: saved))
    (hrestore : stack.restore = .ok (matched, stack')) :
    Aligned steady angle ρ opened stack'.frames (back :: saved) := by
  have hframes := Stack.restore_eq_ok hrestore
  split at hframes
  · rw [hframes] at h
    cases h with
    | cons _ hbelow => exact hbelow
  · -- with no frame above the lowest there is one post, not two
    have hlength := h.length_eq
    simp [Stack.frames, hframes.1] at hlength

/-! ## The walk of a text -/

variable {σ : Type} [RandomSource σ] {params : GrowthParams} {ruled : Char → Bool}

/-- The letter is described as the grammar says, and is not that of the bridges. -/
structure Legible (ruled : Char → Bool) (letter : Letter) : Prop where
  action_eq : letter.action = .ofLetter letter.char
  hasRule_eq : letter.hasRule = ruled letter.char
  ne_bridge : letter.char ≠ bridgeLetter

/-- A node grown on the top frame stands for its letter, and the stack stays aligned. -/
theorem Grew.isSymbol {letter : Letter} {stack stack' : Stack} {s t : Nursery σ} {node : Node}
    (h : Grew params letter stack s node stack' t) (hlegible : Legible ruled letter)
    (hmakes : letter.action.makesNode = true) (hsteady : steady → Steady σ params) {here : Post}
    {saved : List Post} (haligned : Aligned steady angle ρ opened stack.frames (here :: saved)) :
    Row.IsSymbol steady angle ruled here (opened + saved.length) (node.rename ρ) ∧
      Aligned steady angle ρ opened stack'.frames (⟨ρ node.exit, []⟩ :: saved) := by
  rw [stack.frames_eq_cons] at haligned
  cases haligned with
  | cons hfit hbelow =>
    have hletter : (node.rename ρ).letter = letter.char := h.letter_eq
    have hdepth : node.depth.toNat = opened + saved.length := by
      rw [h.depth_eq]
      exact hfit.depth_eq
    refine ⟨{
      activates := ?_, ne_bridge := ?_, entry_eq := ?_, depth_eq := hdepth
      hasRule_eq := ?_, rotation_same := ?_ }, ?_⟩
    · rw [hletter, Word.activates, ← hlegible.action_eq]
      exact hmakes
    · rw [hletter]
      exact hlegible.ne_bridge
    · rw [← hfit.joint_eq, ← h.entry_eq]
      rfl
    · rw [hletter, ← hlegible.hasRule_eq]
      exact h.hasRule_eq
    · intro hs
      exact ((hsteady hs).rotation_same h.shape_eq).trans (hfit.rotation_same hs)
    · rw [h.stack_eq, Stack.frames_setTop]
      exact .cons (fits_exit hdepth) hbelow

/-- A letter that grows no node is a step of the walk, wherever the walk leads on. -/
theorem Step.traces_of_none {letter : Letter} {stack stack' : Stack} {s t : Nursery σ}
    (h : Step params letter stack s none stack' t) (hlegible : Legible ruled letter)
    {out saved : List Post} {here : Post} {w : List Char}
    (hcloses : Word.closes saved.length (letter.char :: w) = true)
    (haligned : Aligned steady (toRadians params.angle) ρ opened stack.frames (here :: saved)) :
    ∃ here' saved', Word.closes saved'.length w = true ∧
      Aligned steady (toRadians params.angle) ρ opened stack'.frames (here' :: saved') ∧
      ∀ {row : List Node} {there : Post},
        Traces steady (toRadians params.angle) ruled here' (saved' ++ out) w row there out →
        Traces steady (toRadians params.angle) ruled here (saved ++ out) (letter.char :: w) row
          there out := by
  have haction := hlegible.action_eq
  cases h with
  | turnLeft ha =>
    rw [haction] at ha
    simp only [Word.closes, ha] at hcloses
    exact ⟨_, saved, hcloses, haligned.turn .left, .turn .left ha⟩
  | turnRight ha =>
    rw [haction] at ha
    simp only [Word.closes, ha] at hcloses
    exact ⟨_, saved, hcloses, haligned.turn .right, .turn .right ha⟩
  | save ha hsave =>
    rw [haction] at ha
    simp only [Word.closes, ha] at hcloses
    exact ⟨here, here :: saved, hcloses, haligned.save hsave, .save ha⟩
  | restore ha hrestore _ _ _ =>
    rw [haction] at ha
    cases saved with
    | nil =>
      -- the brackets match, so there is a post to return to
      simp [Word.closes, ha] at hcloses
    | cons back saved =>
      simp only [List.length_cons, Word.closes, ha] at hcloses
      exact ⟨back, saved, hcloses, haligned.restore hrestore, .restore ha⟩

/-- The nodes of a text whose brackets match trace the text, whatever posts are remembered behind
those of the stack. -/
theorem Run.traces {text : List Letter} {stack stack' : Stack} {s t : Nursery σ}
    {made : List Made} (h : Run params text stack s made stack' t)
    (hlegible : ∀ letter ∈ text, Legible ruled letter) (hsteady : steady → Steady σ params)
    {out saved : List Post} {here : Post}
    (hcloses : Word.closes saved.length (text.map (·.char)) = true)
    (haligned : Aligned steady (toRadians params.angle) ρ out.length stack.frames
      (here :: saved)) :
    ∃ there, Aligned steady (toRadians params.angle) ρ out.length stack'.frames [there] ∧
      Traces steady (toRadians params.angle) ruled here (saved ++ out) (text.map (·.char))
        (made.map fun m => m.node.rename ρ) there out := by
  induction h generalizing here saved with
  | nil stack s =>
    -- the text is closed, so nothing is saved on the stack any more
    have hsaved : saved = [] := by simpa [Word.closes] using hcloses
    subst hsaved
    exact ⟨here, haligned, .nil here out⟩
  | @silent letter text stack stack₁ stack₂ s r t made hstep _ ih =>
    have hrest : ∀ l ∈ text, Legible ruled l := fun l hl => hlegible l (List.mem_cons_of_mem _ hl)
    obtain ⟨here', saved', hcloses', hnext, hcons⟩ :=
      hstep.traces_of_none (hlegible letter List.mem_cons_self) hcloses haligned
    obtain ⟨there, hend, hwalk⟩ := ih hrest hcloses' hnext
    exact ⟨there, hend, hcons hwalk⟩
  | @grow letter text stack stack₁ stack₂ s r t node made hstep _ ih =>
    have hrest : ∀ l ∈ text, Legible ruled l := fun l hl => hlegible l (List.mem_cons_of_mem _ hl)
    cases hstep with
    | grow hmakes hgrew =>
      obtain ⟨hsymbol, hnext⟩ :=
        hgrew.isSymbol (hlegible letter List.mem_cons_self) hmakes hsteady haligned
      rw [Nat.add_comm, ← List.length_append] at hsymbol
      have hletter : (node.rename ρ).letter = letter.char := hgrew.letter_eq
      have hactivates := hsymbol.activates
      rw [hletter] at hactivates
      rw [List.map_cons, Word.closes_cons_of_activates hactivates] at hcloses
      obtain ⟨there, hend, hwalk⟩ := ih hrest hcloses hnext
      refine ⟨there, hend, ?_⟩
      rw [List.map_cons, List.map_cons, ← hletter]
      exact Traces.symbol hsymbol hwalk

end Turtle

end PlantGrowth
