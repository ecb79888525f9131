import PlantGrowth.Grammar.Letter
import PlantGrowth.Chance.Source

/-!
# Grammars

A grammar gives letters their replacements: one text, or several that are equally
likely. `Rules τ` is a table of replacements ordered by letter, with one entry per
letter; `Rules String` is a grammar as written, and `Grammar.ofRules` describes every
letter of its texts once, so that expanding a word needs no further look-up.

`Rules.find?_insert` says what an insertion changes, `Rules.find?_map` that describing
the texts leaves the letters alone.
-/

namespace PlantGrowth

/-- Replacement of a letter, with texts of type `τ`. -/
inductive Rule (τ : Type) where
  /-- Always the same text. -/
  | fixed (text : τ)
  /-- Equally likely texts. -/
  | choice (texts : List τ)
  deriving DecidableEq

namespace Rule

variable {τ υ : Type}

/-- The replacement with a function applied to every text. -/
def map (f : τ → υ) : Rule τ → Rule υ
  | fixed t => fixed (f t)
  | choice ts => choice (ts.map f)

/-- Texts that the replacement may give. -/
def texts : Rule τ → List τ
  | fixed t => [t]
  | choice ts => ts

/-- One text of the replacement; the empty text if there is none. An index is drawn
only if there are several. -/
def select {σ : Type} [RandomSource σ] (rule : Rule (List υ)) (source : σ) :
    Except Fault (List υ × σ) :=
  match rule.texts with
  | [] => .ok ([], source)
  | [t] => .ok (t, source)
  | ts =>
    let (i, source) := RandomSource.index ts.length source
    match ts[i]? with
    | some t => .ok (t, source)
    | none => .error (.outOfBounds ts.length i)

end Rule

/-- Replacements by letter. The letters ascend, so each has at most one entry. -/
structure Rules (τ : Type) where
  entries : List (Char × Rule τ)
  ascending : entries.Pairwise fun a b => a.1 < b.1

namespace Rules

variable {τ υ : Type}

/-- The grammar without rules. -/
def empty : Rules τ := ⟨[], .nil⟩

/-- Entries with one more; it takes the place of an entry for the same letter. -/
def insertEntry (c : Char) (rule : Rule τ) : List (Char × Rule τ) → List (Char × Rule τ)
  | [] => [(c, rule)]
  | e :: es =>
    if c < e.1 then (c, rule) :: e :: es
    else if e.1 < c then e :: insertEntry c rule es
    else (c, rule) :: es

theorem eq_of_not_lt {a b : Char} (h₁ : ¬ a < b) (h₂ : ¬ b < a) : a = b :=
  Char.le_antisymm (Char.not_lt.mp h₂) (Char.not_lt.mp h₁)

theorem lt_of_mem_insertEntry {c d : Char} {rule : Rule τ} {es : List (Char × Rule τ)}
    (hc : d < c) (h : ∀ e ∈ es, d < e.1) : ∀ e ∈ insertEntry c rule es, d < e.1 := by
  induction es with
  | nil => simpa [insertEntry] using hc
  | cons e es ih =>
    simp only [List.mem_cons, forall_eq_or_imp] at h
    unfold insertEntry
    split
    · simp only [List.mem_cons, forall_eq_or_imp]
      exact ⟨hc, h.1, h.2⟩
    · split
      · simp only [List.mem_cons, forall_eq_or_imp]
        exact ⟨h.1, ih h.2⟩
      · simp only [List.mem_cons, forall_eq_or_imp]
        exact ⟨hc, h.2⟩

theorem pairwise_insertEntry (c : Char) (rule : Rule τ) {es : List (Char × Rule τ)}
    (h : es.Pairwise fun a b => a.1 < b.1) :
    (insertEntry c rule es).Pairwise fun a b => a.1 < b.1 := by
  induction es with
  | nil => simp [insertEntry]
  | cons e es ih =>
    obtain ⟨he, hes⟩ := List.pairwise_cons.mp h
    unfold insertEntry
    split
    · -- the new entry comes first
      rename_i hlt
      refine List.pairwise_cons.mpr ⟨?_, h⟩
      simp only [List.mem_cons, forall_eq_or_imp]
      exact ⟨hlt, fun a ha => Char.lt_trans hlt (he a ha)⟩
    · split
      · -- the new entry goes further down
        rename_i hlt
        exact List.pairwise_cons.mpr ⟨lt_of_mem_insertEntry hlt he, ih hes⟩
      · -- the new entry takes the place of the first
        rename_i h₁ h₂
        cases eq_of_not_lt h₁ h₂
        exact List.pairwise_cons.mpr ⟨he, hes⟩

/-- The grammar with a rule for a letter, in place of the one it had. -/
def insert (g : Rules τ) (c : Char) (rule : Rule τ) : Rules τ :=
  ⟨insertEntry c rule g.entries, pairwise_insertEntry c rule g.ascending⟩

/-- The grammar of a list of rules; of two for one letter the later stands. -/
def ofList (rules : List (Char × Rule τ)) : Rules τ :=
  rules.foldl (fun g r => g.insert r.1 r.2) empty

/-- Rule of a letter. -/
def find? (g : Rules τ) (c : Char) : Option (Rule τ) := g.entries.lookup c

/-- Whether a letter has a rule. -/
def contains (g : Rules τ) (c : Char) : Bool := (g.find? c).isSome

/-- Number of letters with a rule. -/
def size (g : Rules τ) : Nat := g.entries.length

/-- The grammar with a function applied to every text. -/
def map (f : τ → υ) (g : Rules τ) : Rules υ where
  entries := g.entries.map fun e => (e.1, e.2.map f)
  ascending := by
    rw [List.pairwise_map]
    exact g.ascending

theorem lookup_insertEntry (c d : Char) (rule : Rule τ) (es : List (Char × Rule τ)) :
    (insertEntry c rule es).lookup d = if d = c then some rule else es.lookup d := by
  induction es with
  | nil => by_cases h : d = c <;> simp [insertEntry, List.lookup_cons, h, beq_false_of_ne]
  | cons e es ih =>
    obtain ⟨x, r⟩ := e
    unfold insertEntry
    split
    · by_cases h : d = c <;> simp [List.lookup_cons, h, beq_false_of_ne]
    · split
      · rename_i hlt
        by_cases h : d = c
        · subst h
          have hx : d ≠ x := fun hx => absurd (hx ▸ hlt) (Char.lt_irrefl _)
          simp [List.lookup_cons, beq_false_of_ne hx, ih]
        · simp [List.lookup_cons, h, ih]
      · rename_i h₁ h₂
        have hx : c = x := eq_of_not_lt h₁ h₂
        subst hx
        by_cases h : d = c <;> simp [List.lookup_cons, h, beq_false_of_ne]

/-- An inserted rule stands for its letter and leaves the other letters alone. -/
theorem find?_insert (g : Rules τ) (c d : Char) (rule : Rule τ) :
    (g.insert c rule).find? d = if d = c then some rule else g.find? d :=
  lookup_insertEntry c d rule g.entries

theorem lookup_map (f : τ → υ) (es : List (Char × Rule τ)) (c : Char) :
    (es.map fun e => (e.1, e.2.map f)).lookup c = (es.lookup c).map (Rule.map f) := by
  induction es with
  | nil => rfl
  | cons e es ih =>
    obtain ⟨x, r⟩ := e
    by_cases h : c = x <;> simp [List.lookup_cons, h, ih, beq_false_of_ne]

theorem find?_map (f : τ → υ) (g : Rules τ) (c : Char) :
    (g.map f).find? c = (g.find? c).map (Rule.map f) :=
  lookup_map f g.entries c

end Rules

/-- Grammar whose texts are described letter by letter. -/
abbrev Grammar := Rules (List Letter)

namespace Grammar

/-- Description of a letter in a grammar. -/
def letter {τ : Type} (g : Rules τ) (c : Char) : Letter := ⟨c, .ofLetter c, g.contains c⟩

/-- The written grammar with the letters of its texts described. -/
def ofRules (g : Rules String) : Grammar := g.map fun text => text.toList.map (letter g)

end Grammar

end PlantGrowth
