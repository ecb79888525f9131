import PlantGrowth.Proofs.Turning

/-!
# Words and their outlines

A plant stands for a word that is never written down: every generation replaces the letters of
the word before. This file has the plain meaning of such words. `Word.rewrite` is one generation,
with the chosen texts handed in, and `Word.outline` is what a turtle with a stack of places sees
when it reads a word from its first letter to its last: for every letter that leaves a node
behind, the number of brackets around it, the letter on which the turtle stood, and the turns
made since.
-/

set_option autoImplicit false

namespace PlantGrowth.Word

/-- Whether a letter leaves a node behind. -/
def activates (c : Char) : Bool := (Action.ofLetter c).makesNode

theorem activates_of_turn {c : Char} {t : Turn} (h : Action.ofLetter c = t.action) :
    activates c = false := by
  rw [activates, h]
  cases t <;> rfl

/-- A letter that leaves no node behind turns, saves or restores. -/
theorem action_of_not_activates {c : Char} (h : activates c = false) :
    (∃ t : Turn, Action.ofLetter c = t.action) ∨ Action.ofLetter c = .save ∨
      Action.ofLetter c = .restore := by
  rw [activates] at h
  cases ha : Action.ofLetter c with
  | turnLeft => exact Or.inl ⟨.left, rfl⟩
  | turnRight => exact Or.inl ⟨.right, rfl⟩
  | save => exact Or.inr (Or.inl rfl)
  | restore => exact Or.inr (Or.inr rfl)
  | bud => rw [ha] at h; cases h
  | branch => rw [ha] at h; cases h
  | placeholder => rw [ha] at h; cases h

/-- Whether the brackets of a word match, if so many brackets are open before it. -/
def closes : Nat → List Char → Bool
  | opened, [] => opened == 0
  | opened, c :: w =>
    match Action.ofLetter c with
    | .save => closes (opened + 1) w
    | .restore =>
      match opened with
      | 0 => false
      | opened + 1 => closes opened w
    | _ => closes opened w

/-- Whether every bracket of the word has its partner. -/
abbrev WellBracketed (w : List Char) : Prop := closes 0 w = true

theorem closes_cons_of_activates {c : Char} (h : activates c = true) (opened : Nat)
    (w : List Char) : closes opened (c :: w) = closes opened w := by
  rw [activates] at h
  cases ha : Action.ofLetter c <;> simp_all [Action.makesNode, closes]

/-- The word in which each letter that leaves a node and has a rule is replaced by the next of
the texts. -/
def rewrite (ruled : Char → Bool) : List Char → List (List Char) → List Char
  | [], _ => []
  | c :: w, texts =>
    if activates c && ruled c then
      match texts with
      | text :: texts => text ++ rewrite ruled w texts
      | [] => rewrite ruled w []
    else c :: rewrite ruled w texts

theorem rewrite_cons_of_ruled {ruled : Char → Bool} {c : Char}
    (h : (activates c && ruled c) = true) (w text : List Char) (texts : List (List Char)) :
    rewrite ruled (c :: w) (text :: texts) = text ++ rewrite ruled w texts := by
  simp only [rewrite, h, if_true]

theorem rewrite_cons_of_not {ruled : Char → Bool} {c : Char}
    (h : (activates c && ruled c) = false) (w : List Char) (texts : List (List Char)) :
    rewrite ruled (c :: w) texts = c :: rewrite ruled w texts := by
  simp only [rewrite, h, Bool.false_eq_true, if_false]

/-! ## Outlines -/

/-- Where a turtle stands: on a letter, given by its number among those that leave a node
behind, or at the root; and the turns made since. -/
structure Place where
  letter : Option Nat
  turns : List Turn

/-- What a turtle sees of a letter that leaves a node behind. -/
structure Entry where
  letter : Char
  /-- Number of brackets around the letter. -/
  depth : Nat
  /-- The letter on which the turtle stands; none at the root. -/
  parent : Option Nat
  /-- Turns since that letter, in order. -/
  turns : List Turn

/-- Reading of a word from a place, with places remembered and letters counted so far. -/
def outlineFrom : Place → List Place → Nat → List Char → List Entry
  | _, _, _, [] => []
  | here, saved, count, c :: w =>
    match Action.ofLetter c with
    | .turnLeft => outlineFrom { here with turns := here.turns ++ [.left] } saved count w
    | .turnRight => outlineFrom { here with turns := here.turns ++ [.right] } saved count w
    | .save => outlineFrom here (here :: saved) count w
    | .restore =>
      match saved with
      | back :: saved => outlineFrom back saved count w
      | [] => outlineFrom here [] count w
    | .bud | .branch | .placeholder =>
      ⟨c, saved.length, here.letter, here.turns⟩ ::
        outlineFrom ⟨some count, []⟩ saved (count + 1) w

/-- What a turtle sees that reads the word from the root. -/
def outline (w : List Char) : List Entry := outlineFrom ⟨none, []⟩ [] 0 w

/-- Number of turns in a word. -/
def turnCount (w : List Char) : Nat :=
  w.countP fun c => Action.ofLetter c = .turnLeft || Action.ofLetter c = .turnRight

theorem outlineFrom_of_activates {c : Char} (h : activates c = true) (here : Place)
    (saved : List Place) (count : Nat) (w : List Char) :
    outlineFrom here saved count (c :: w) = ⟨c, saved.length, here.letter, here.turns⟩ ::
      outlineFrom ⟨some count, []⟩ saved (count + 1) w := by
  rw [activates] at h
  cases ha : Action.ofLetter c <;> simp_all [Action.makesNode, outlineFrom]

section Outline

variable {c : Char} (here : Place) (saved : List Place) (count : Nat) (w : List Char)

theorem outlineFrom_of_turn {t : Turn} (h : Action.ofLetter c = t.action) :
    outlineFrom here saved count (c :: w) =
      outlineFrom { here with turns := here.turns ++ [t] } saved count w := by
  cases t with
  | left =>
    rw [Turn.action] at h
    simp only [outlineFrom, h]
  | right =>
    rw [Turn.action] at h
    simp only [outlineFrom, h]

theorem outlineFrom_of_save (h : Action.ofLetter c = .save) :
    outlineFrom here saved count (c :: w) = outlineFrom here (here :: saved) count w := by
  simp only [outlineFrom, h]

theorem outlineFrom_of_restore (h : Action.ofLetter c = .restore) (back : Place) :
    outlineFrom here (back :: saved) count (c :: w) = outlineFrom back saved count w := by
  simp only [outlineFrom, h]

/-- A closing bracket without its partner is passed over. -/
theorem outlineFrom_of_stray (h : Action.ofLetter c = .restore) :
    outlineFrom here [] count (c :: w) = outlineFrom here [] count w := by
  simp only [outlineFrom, h]

end Outline

theorem turnCount_le_cons (c : Char) (w : List Char) : turnCount w ≤ turnCount (c :: w) := by
  rw [turnCount, turnCount, List.countP_cons]
  omega

theorem turnCount_cons_of_turn {c : Char} {t : Turn} (h : Action.ofLetter c = t.action)
    (w : List Char) : turnCount (c :: w) = turnCount w + 1 := by
  rw [turnCount, turnCount, List.countP_cons, if_pos]
  rw [h]
  cases t <;> rfl

/-- The letters of an outline are the letters that leave a node behind. -/
theorem map_letter_outlineFrom (here : Place) (saved : List Place) (count : Nat)
    (w : List Char) : (outlineFrom here saved count w).map (·.letter) = w.filter activates := by
  induction w generalizing here saved count with
  | nil => rfl
  | cons c w ih =>
    cases hc : activates c with
    | true =>
      rw [outlineFrom_of_activates hc, List.filter_cons_of_pos hc, List.map_cons, ih]
    | false =>
      rw [List.filter_cons_of_neg (by simp [hc])]
      rcases action_of_not_activates hc with ⟨t, ha⟩ | ha | ha
      · rw [outlineFrom_of_turn _ _ _ _ ha, ih]
      · rw [outlineFrom_of_save _ _ _ _ ha, ih]
      · cases saved with
        | nil => rw [outlineFrom_of_stray _ _ _ ha, ih]
        | cons back saved => rw [outlineFrom_of_restore _ _ _ _ ha, ih]

/-- No letter is seen with more turns than the word has. -/
theorem length_turns_le {here : Place} {saved : List Place} {count : Nat} {w : List Char}
    {bound : Nat} (hhere : here.turns.length + turnCount w ≤ bound)
    (hsaved : ∀ place ∈ saved, place.turns.length + turnCount w ≤ bound) :
    ∀ e ∈ outlineFrom here saved count w, e.turns.length ≤ bound := by
  induction w generalizing here saved count with
  | nil => simp [outlineFrom]
  | cons c w ih =>
    -- what is left of the word has no more turns, so the bounds of all places go on to hold
    have hle := turnCount_le_cons c w
    have hsaved' : ∀ place ∈ saved, place.turns.length + turnCount w ≤ bound :=
      fun place hplace => (Nat.add_le_add_left hle _).trans (hsaved place hplace)
    have hhere' : here.turns.length + turnCount w ≤ bound := (Nat.add_le_add_left hle _).trans hhere
    cases hc : activates c with
    | true =>
      rw [outlineFrom_of_activates hc]
      intro e he
      rcases List.mem_cons.mp he with rfl | he
      · show here.turns.length ≤ bound
        omega
      · refine ih ?_ hsaved' e he
        show 0 + turnCount w ≤ bound
        omega
    | false =>
      rcases action_of_not_activates hc with ⟨t, ha⟩ | ha | ha
      · rw [outlineFrom_of_turn _ _ _ _ ha]
        refine ih ?_ hsaved'
        rw [turnCount_cons_of_turn ha] at hhere
        rw [List.length_append, List.length_singleton]
        omega
      · rw [outlineFrom_of_save _ _ _ _ ha]
        refine ih hhere' ?_
        intro place hplace
        rcases List.mem_cons.mp hplace with rfl | hplace
        · exact hhere'
        · exact hsaved' place hplace
      · cases saved with
        | nil =>
          rw [outlineFrom_of_stray _ _ _ ha]
          exact ih hhere' (by simp)
        | cons back saved =>
          rw [outlineFrom_of_restore _ _ _ _ ha]
          apply ih (hsaved' back List.mem_cons_self)
          intro place hplace
          exact hsaved' place (List.mem_cons_of_mem back hplace)

end PlantGrowth.Word
