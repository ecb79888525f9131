import PlantGrowth.Proofs.Draws
import PlantGrowth.Proofs.Spelling

/-!
# Grammars as they were written

A grammar is written rule by rule, and of several rules for one letter the last one stands
(`Rules.find?_ofList`). The letters of its texts are described once, by what the written rules say
of them. A letter described later, on its own, is described by what the grammar says of it, and this
is the same (`Grammar.letter_ofRules`): a description changes neither the letters that have rules
nor the number and order of their texts.

What a rule selects is therefore one of the texts as they were written, or nothing if there are
none (`Rule.exists_select`), and an index is drawn only among several. `Grammar.agrees_ofRules` puts
this together.
-/

set_option autoImplicit false

namespace PlantGrowth

/-! ## The last rule of a letter -/

namespace Rules

variable {τ : Type}

theorem find?_foldl_insert (rules : List (Char × Rule τ)) (g : Rules τ) (c : Char) :
    (rules.foldl (fun g r => g.insert r.1 r.2) g).find? c =
      (rules.reverse.lookup c).or (g.find? c) := by
  -- rules to come hide those inserted so far
  induction rules generalizing g with
  | nil => rfl
  | cons r rules ih =>
    obtain ⟨d, rule⟩ := r
    rw [List.foldl_cons, ih, find?_insert, List.reverse_cons, List.lookup_append, Option.or_assoc]
    by_cases h : c = d
    · simp [h]
    · simp [h, List.lookup_cons, beq_false_of_ne h]

/-- Of several rules for a letter the last stands. -/
theorem find?_ofList (rules : List (Char × Rule τ)) (c : Char) :
    (ofList rules).find? c = rules.reverse.lookup c := by
  rw [ofList, find?_foldl_insert]
  exact Option.or_none

theorem contains_ofList (rules : List (Char × Rule τ)) (c : Char) :
    (ofList rules).contains c = true ↔ c ∈ rules.map (·.1) := by
  rw [contains, find?_ofList, List.lookup_isSome_iff, List.mem_map]
  refine exists_congr fun r => ?_
  rw [List.mem_reverse, beq_iff_eq, eq_comm]

end Rules

/-! ## Choices -/

namespace Rule

variable {σ τ υ : Type} [RandomSource σ]

theorem texts_map (f : τ → υ) (rule : Rule τ) : (rule.map f).texts = rule.texts.map f := by
  cases rule <;> rfl

/-- A choice among texts, with the source before and after it. -/
inductive Chooses (texts : List (List υ)) (s : σ) : List υ → σ → Prop
  | none : texts = [] → Chooses texts s [] s
  | only {text : List υ} : texts = [text] → Chooses texts s text s
  /-- One of several, by an index that is drawn. -/
  | drawn {i : Nat} {text : List υ} {t : σ} : 2 ≤ texts.length →
      RandomSource.index texts.length s = (i, t) → texts[i]? = some text → Chooses texts s text t

theorem Chooses.mem_or_eq_nil {texts : List (List υ)} {text : List υ} {s t : σ}
    (h : Chooses texts s text t) : text ∈ texts ∨ texts = [] ∧ text = [] := by
  cases h with
  | none hnil => exact Or.inr ⟨hnil, rfl⟩
  | only hone => exact Or.inl (by rw [hone]; exact List.mem_singleton_self text)
  | drawn _ _ htext => exact Or.inl (List.mem_of_getElem? htext)

/-- A rule selects one of its texts if its source draws indices below the given lengths. -/
theorem exists_select (hindex : ∀ n (s : σ), 0 < n → (RandomSource.index n s).1 < n)
    (rule : Rule (List υ)) (s : σ) :
    ∃ text t, rule.select s = .ok (text, t) ∧ Chooses rule.texts s text t := by
  unfold select
  match htexts : rule.texts with
  | [] => exact ⟨[], s, rfl, .none rfl⟩
  | [text] => exact ⟨text, s, rfl, .only rfl⟩
  | first :: second :: rest =>
    have hlt := hindex (first :: second :: rest).length s (Nat.succ_pos _)
    have htext : (first :: second :: rest)[(RandomSource.index (first :: second :: rest).length
        s).1]? = some _ := List.getElem?_eq_getElem hlt
    refine ⟨_, _, ?_, .drawn (Nat.le_add_left 2 _) rfl htext⟩
    dsimp only
    rw [htext]
    rfl

end Rule

/-! ## Descriptions -/

namespace Grammar

/-- The letters of a text as they are described in a grammar. -/
def describe {τ : Type} (g : Rules τ) (text : String) : List Letter := text.toList.map (letter g)

/-- The described grammar says the same of a letter as the written one. -/
theorem letter_ofRules (rules : Rules String) (c : Char) :
    letter (ofRules rules) c = letter rules c := by
  rw [letter, letter, contains_ofRules]

theorem describe_ofRules (rules : Rules String) (text : String) :
    describe (ofRules rules) text = describe rules text :=
  List.map_congr_left fun c _ => letter_ofRules rules c

theorem ofList_map_char_describe {τ : Type} (g : Rules τ) (text : String) :
    String.ofList ((describe g text).map (·.char)) = text := by
  rw [describe, List.map_map]
  show String.ofList (text.toList.map id) = text
  rw [List.map_id, String.ofList_toList]

theorem describe_eq_nil_iff {τ : Type} {g : Rules τ} {text : String} :
    describe g text = [] ↔ text = "" := by
  rw [describe, List.map_eq_nil_iff, String.toList_eq_nil_iff]

/-- A grammar agrees with the rules it was written with, of which there may be several for a letter.
It has a rule for just the letters that were given one, and that is the last one given, text by text
and letter by letter. -/
structure Agrees (rules : List (Char × Rule String)) (g : Grammar) : Prop where
  isSome_iff : ∀ c, (g.find? c).isSome = true ↔ (Rules.ofList rules).contains c = true
  contains_iff : ∀ c, (Rules.ofList rules).contains c = true ↔ c ∈ rules.map (·.1)
  fixed : ∀ c text, rules.reverse.lookup c = some (.fixed text) →
    g.find? c = some (.fixed (text.toList.map (letter g)))
  choice : ∀ c texts, rules.reverse.lookup c = some (.choice texts) →
    g.find? c = some (.choice (texts.map fun text => text.toList.map (letter g)))
  map_char : ∀ c written rule, rules.reverse.lookup c = some written → g.find? c = some rule →
    rule.texts.map (fun text => String.ofList (text.map (·.char))) = written.texts
  /-- One of the texts is selected, with a draw if there are several. -/
  select : ∀ c written rule, rules.reverse.lookup c = some written → g.find? c = some rule →
    ∀ (σ : Type) [RandomSource σ], (∀ n (s : σ), 0 < n → (RandomSource.index n s).1 < n) →
      ∀ s : σ, ∃ text t, rule.select s = .ok (text, t) ∧
        Rule.Chooses (written.texts.map fun raw => raw.toList.map (letter g)) s text t ∧
        (text ∈ rule.texts ∨ written.texts = [] ∧ text = []) ∧
        (text = [] → written.texts = [] ∨ "" ∈ written.texts)

/-- The table agrees with the rules that it was made from: of two rules for one letter the later one
stands, and a choice is among the texts that were written. -/
theorem agrees_ofRules (rules : List (Char × Rule String)) :
    Agrees rules (ofRules (.ofList rules)) := by
  -- the rule of a letter is the last one written for it, with its texts described
  have hfind : ∀ c, (ofRules (.ofList rules)).find? c =
      (rules.reverse.lookup c).map (Rule.map (describe (ofRules (.ofList rules)))) := by
    intro c
    rw [funext (describe_ofRules (.ofList rules)), ← Rules.find?_ofList, ← Rules.find?_map]
    rfl
  -- and so has the texts written for it
  have htexts : ∀ c written rule, rules.reverse.lookup c = some written →
      (ofRules (.ofList rules)).find? c = some rule →
      rule.texts = written.texts.map (describe (ofRules (.ofList rules))) := by
    intro c written rule hwritten hrule
    rw [hfind, hwritten] at hrule
    rw [← Option.some.inj hrule, Rule.texts_map]
  refine {
    isSome_iff := ?_, contains_iff := Rules.contains_ofList rules, fixed := ?_, choice := ?_
    map_char := ?_, select := ?_ }
  · intro c
    exact Bool.eq_iff_iff.mp (contains_ofRules (.ofList rules) c)
  · intro c text hwritten
    rw [hfind, hwritten]
    rfl
  · intro c texts hwritten
    rw [hfind, hwritten]
    rfl
  · intro c written rule hwritten hrule
    rw [htexts c written rule hwritten hrule, List.map_map]
    exact (List.map_congr_left fun text _ => ofList_map_char_describe _ text).trans (List.map_id _)
  · intro c written rule hwritten hrule σ _ hindex s
    obtain ⟨text, t, hselect, hchooses⟩ := rule.exists_select hindex s
    have hmem := hchooses.mem_or_eq_nil
    rw [htexts c written rule hwritten hrule] at hchooses hmem ⊢
    rw [List.map_eq_nil_iff] at hmem
    refine ⟨text, t, hselect, hchooses, hmem, ?_⟩
    rintro rfl
    rcases hmem with hmem | ⟨hnil, -⟩
    · obtain ⟨raw, hraw, hempty⟩ := List.mem_map.mp hmem
      rw [describe_eq_nil_iff] at hempty
      exact Or.inr (hempty ▸ hraw)
    · exact Or.inl hnil

/-- Rules of which the first is replaced by the last, and one that has no texts. -/
def revised : List (Char × Rule String) :=
  [('X', .fixed "F"), ('Y', .choice []), ('X', .choice ["", "F[X]"])]

/-- In the revised rules two texts are left for a letter, and a reel draws among them. -/
theorem agrees_ofRules_revised :
    (∀ n (s : Reel), 0 < n → (RandomSource.index n s).1 < n) ∧
    ∃ rule text t, (ofRules (.ofList revised)).find? 'X' = some rule ∧
      rule.texts.map (fun text => String.ofList (text.map (·.char))) = ["", "F[X]"] ∧
      rule.select (⟨#[0xffffffff], 0⟩ : Reel) = .ok (text, t) ∧
      Rule.Chooses (["", "F[X]"].map fun raw => raw.toList.map
        (letter (ofRules (.ofList revised)))) (⟨#[0xffffffff], 0⟩ : Reel) text t ∧
      (text ∈ rule.texts ∨ (["", "F[X]"] : List String) = [] ∧ text = []) := by
  have hagrees := agrees_ofRules revised
  have hwritten : revised.reverse.lookup 'X' = some (.choice ["", "F[X]"]) := rfl
  have hindex : ∀ n (s : Reel), 0 < n → (RandomSource.index n s).1 < n :=
    fun n s hn => WordSource.index_lt hn s
  have hrule := hagrees.choice 'X' _ hwritten
  obtain ⟨text, t, hselect, hchooses, hmem, -⟩ :=
    hagrees.select 'X' _ _ hwritten hrule Reel hindex ⟨#[0xffffffff], 0⟩
  exact ⟨hindex, _, text, t, hrule, hagrees.map_char 'X' _ _ hwritten hrule, hselect, hchooses,
    hmem⟩

end Grammar

end PlantGrowth
