import PlantGrowth.Proofs.JointCount
import PlantGrowth.Proofs.Matching

/-!
# Counts of brackets

The stack counts what happens to it: every saving, every restoring and every closing bracket that
finds nothing to restore. A generation adds these counts up over all texts that it chooses, and they
come out as the numbers of brackets of the texts with and without partners, matched within each text
(`Tally.Counts`). So a generation is balanced if and only if each of its texts is well-bracketed: a
closing bracket too many in one text is not made up for by an opening one in another
(`Plant.generate_bracketCounts`).

`Turtle.Step.counted` is the step, `Turtle.Run.counted` the run over a text, and
`Expansion.bracketCounts_of_mapM` the pass over a row.
-/

set_option autoImplicit false

namespace PlantGrowth

/-! ## Counters of the stack -/

namespace Stack

/-- From one stack to another so many opening and closing brackets are counted, and so many of the
closing ones as stray. -/
structure Counted (s t : Stack) (opens closes strays : ℕ) : Prop where
  saves_eq : t.saves.toNat = s.saves.toNat + opens
  closes_eq : t.restores.toNat + t.strays.toNat = s.restores.toNat + s.strays.toNat + closes
  strays_eq : t.strays.toNat = s.strays.toNat + strays

variable {s t u : Stack} {opens closes strays opens' closes' strays' : ℕ}

theorem Counted.trans (h : s.Counted t opens closes strays)
    (h' : t.Counted u opens' closes' strays') :
    s.Counted u (opens + opens') (closes + closes') (strays + strays') where
  saves_eq := by rw [h'.saves_eq, h.saves_eq, Nat.add_assoc]
  closes_eq := by rw [h'.closes_eq, h.closes_eq, Nat.add_assoc]
  strays_eq := by rw [h'.strays_eq, h.strays_eq, Nat.add_assoc]

/-- What replaces the top frame leaves the counters alone. -/
theorem counted_setTop (s : Stack) (f : Frame) : s.Counted (s.setTop f) 0 0 0 := by
  unfold setTop
  split <;> exact ⟨rfl, rfl, rfl⟩

theorem counted_turn (s : Stack) (a : Scalar) : s.Counted (s.turn a) 0 0 0 := counted_setTop s _

theorem counted_of_save (h : s.save = .ok t) : s.Counted t 1 0 0 := by
  simp only [save, Outcome.except_bind_eq_ok, Outcome.except_pure_eq_ok] at h
  obtain ⟨depth, -, saves, hsaves, rfl⟩ := h
  exact ⟨addWord_ok hsaves, rfl, rfl⟩

/-- A closing bracket restores a frame if one is saved, and is stray if none is. -/
theorem counted_of_restore {matched : Bool} (h : s.restore = .ok (matched, t)) :
    s.Counted t 0 1 (if s.unclosed = 0 then 1 else 0) := by
  unfold restore at h
  split at h
  · rename_i frame below hnested
    simp only [Outcome.except_bind_eq_ok, Outcome.except_pure_eq_ok, Prod.mk.injEq] at h
    obtain ⟨restores, hrestores, -, rfl⟩ := h
    have hword : restores.toNat = s.restores.toNat + 1 := addWord_ok hrestores
    have hopen : s.unclosed ≠ 0 := by simp [unclosed, hnested]
    rw [if_neg hopen]
    refine ⟨rfl, ?_, rfl⟩
    show restores.toNat + s.strays.toNat = _
    omega
  · rename_i hnested
    simp only [Outcome.except_bind_eq_ok, Outcome.except_pure_eq_ok, Prod.mk.injEq] at h
    obtain ⟨strays, hstrays, -, rfl⟩ := h
    have hword : strays.toNat = s.strays.toNat + 1 := addWord_ok hstrays
    have hnone : s.unclosed = 0 := by simp [unclosed, hnested]
    rw [if_pos hnone]
    refine ⟨rfl, ?_, hword⟩
    show s.restores.toNat + strays.toNat = _
    omega

end Stack

/-! ## Counters along a text -/

namespace Turtle

variable {σ : Type} [RandomSource σ] {params : GrowthParams} {stack stack' : Stack}
  {s t : Nursery σ}

/-- A step counts a bracket where it reads one. -/
theorem Step.counted {letter : Letter} {node? : Option Node}
    (h : Step params letter stack s node? stack' t) (hact : letter.action = .ofLetter letter.char) :
    stack.Counted stack' (if letter.char = '[' then 1 else 0) (if letter.char = ']' then 1 else 0)
      (if letter.char = ']' ∧ stack.unclosed = 0 then 1 else 0) := by
  have hopening : letter.char = '[' ↔ letter.action = .save := by
    rw [hact, Action.ofLetter_eq_save_iff]
  have hclosing : letter.char = ']' ↔ letter.action = .restore := by
    rw [hact, Action.ofLetter_eq_restore_iff]
  simp only [hopening, hclosing]
  cases h with
  | turnLeft ha => simpa [ha] using Stack.counted_turn stack _
  | turnRight ha => simpa [ha] using Stack.counted_turn stack _
  | save ha hsave => simpa [ha] using Stack.counted_of_save hsave
  | restore ha hrestore _ _ _ => simpa [ha] using Stack.counted_of_restore hrestore
  | grow hmakes hgrew =>
    have hbracket : letter.action ≠ .save ∧ letter.action ≠ .restore := by
      constructor <;>
      · intro ha
        rw [ha] at hmakes
        cases hmakes
    rw [hgrew.stack_eq]
    simpa [hbracket] using Stack.counted_setTop stack _

/-- A run counts the brackets of its text, as stray those that close nothing. -/
theorem Run.counted {text : List Letter} {made : List Made}
    (h : Run params text stack s made stack' t)
    (hact : ∀ letter ∈ text, letter.action = .ofLetter letter.char) :
    stack.Counted stack' ((text.map (·.char)).count '[') ((text.map (·.char)).count ']')
      (Word.strays stack.unclosed (text.map (·.char))) := by
  -- with or without a node, a step puts its letter in front of what the rest counts
  have extend : ∀ {letter : Letter} {text : List Letter} {node? : Option Node}
      {stack stack₁ stack₂ : Stack} {s r : Nursery σ}, Step params letter stack s node? stack₁ r →
      letter.action = .ofLetter letter.char →
      stack₁.Counted stack₂ ((text.map (·.char)).count '[') ((text.map (·.char)).count ']')
        (Word.strays stack₁.unclosed (text.map (·.char))) →
      stack.Counted stack₂ (((letter :: text).map (·.char)).count '[')
        (((letter :: text).map (·.char)).count ']')
        (Word.strays stack.unclosed ((letter :: text).map (·.char))) := by
    intro letter text node? stack stack₁ stack₂ s r hstep hletter hrest
    rw [hstep.unclosed_eq hletter] at hrest
    have hcounted := (hstep.counted hletter).trans hrest
    simpa [List.count_cons, Word.strays, Nat.add_comm] using hcounted
  induction h with
  | nil => exact ⟨rfl, rfl, rfl⟩
  | silent hstep _ ih =>
    obtain ⟨hletter, htext⟩ := List.forall_mem_cons.mp hact
    exact extend hstep hletter (ih htext)
  | grow hstep _ ih =>
    obtain ⟨hletter, htext⟩ := List.forall_mem_cons.mp hact
    exact extend hstep hletter (ih htext)

end Turtle

/-! ## Counts of a generation -/

namespace Tally

/-- The counts of brackets are those of the texts: of all opening brackets, and of the closing and
the opening ones with or without a partner in the same text. -/
structure Counts (t : Tally) (texts : List (List Char)) : Prop where
  saves_eq : t.saves.toNat = (texts.map (·.count '[')).sum
  restores_eq : t.restores.toNat = (texts.map Word.matchedCloses).sum
  strays_eq : t.strays.toNat = (texts.map Word.strayCloses).sum
  unclosed_eq : t.unclosed = (texts.map Word.unmatchedOpens).sum

variable {a b c t : Tally} {texts texts' : List (List Char)}

theorem Counts.add (ha : a.Counts texts) (hb : b.Counts texts') (h : a.add b = .ok c) :
    c.Counts (texts ++ texts') := by
  simp only [Tally.add, Outcome.except_bind_eq_ok, Outcome.except_pure_eq_ok] at h
  obtain ⟨saves, hsaves, restores, hrestores, strays, hstrays, rfl⟩ := h
  constructor <;> rw [List.map_append, List.sum_append]
  · rw [addWord_ok hsaves, ha.saves_eq, hb.saves_eq]
  · rw [addWord_ok hrestores, ha.restores_eq, hb.restores_eq]
  · rw [addWord_ok hstrays, ha.strays_eq, hb.strays_eq]
  · rw [ha.unclosed_eq, hb.unclosed_eq]

/-- As many brackets are opened as are closed or left open. -/
theorem Counts.saves_eq_add (h : t.Counts texts) :
    t.saves.toNat = t.restores.toNat + t.unclosed := by
  have htexts : texts.map (·.count '[') =
      texts.map fun w => Word.matchedCloses w + Word.unmatchedOpens w :=
    List.map_congr_left fun w _ => (Word.matchedCloses_add_unmatchedOpens w).symm
  rw [h.saves_eq, h.restores_eq, h.unclosed_eq, htexts, List.sum_map_add]

/-- No text makes up for the brackets of another. -/
theorem Counts.balanced_iff (h : t.Counts texts) :
    t.balanced = true ↔ ∀ w ∈ texts, Word.WellBracketed w := by
  have hzero : t.strays.toNat = 0 ∧ t.unclosed = 0 ↔ ∀ w ∈ texts, Word.WellBracketed w := by
    rw [h.strays_eq, h.unclosed_eq, List.sum_eq_zero_iff, List.sum_eq_zero_iff, List.forall_mem_map,
      List.forall_mem_map, ← forall₂_and]
    exact forall₂_congr fun w _ => (Word.wellBracketed_iff w).symm
  rw [← hzero, balanced]
  simp only [Bool.and_eq_true, decide_eq_true_eq, ← UInt32.toNat_inj]
  have hadd := h.saves_eq_add
  constructor
  · rintro ⟨⟨-, hstrays⟩, hunclosed⟩
    exact ⟨hstrays, hunclosed⟩
  · rintro ⟨hstrays, hunclosed⟩
    exact ⟨⟨by omega, hstrays⟩, hunclosed⟩

end Tally

namespace Expansion

variable {σ : Type} [RandomSource σ] {grammar : Grammar} {params : GrowthParams} {old : Node}
  {s t : Nursery σ} {r : Replacement}

/-- An expansion has the counts of its text. -/
theorem Expanded.bracketCounts {rule : Rule (List Letter)}
    (x : Expanded grammar params old rule s r t)
    (hact : ∀ letter ∈ x.text, letter.action = .ofLetter letter.char) :
    r.tally.Counts [x.text.map (·.char)] := by
  have hstart := Turtle.terraced_ofFrame ⟨old.entry, old.rotation, old.depth⟩
  have hcounted := x.run.counted hact
  obtain ⟨-, hend, -, -⟩ := x.run.levels hact hstart
  have hbase : (Stack.ofFrame ⟨old.entry, old.rotation, old.depth⟩).unclosed = 0 := rfl
  rw [hbase] at hcounted hend
  obtain ⟨hsaves, hcloses, hstrays⟩ := hcounted
  have hmatched := Word.matchedCloses_add (x.text.map (·.char))
  -- the counters of the turtle start from zero
  have hzero : (0 : UInt32).toNat = 0 := rfl
  simp only [Stack.ofFrame, hzero, Nat.zero_add] at hsaves hcloses hstrays
  rw [x.tally_eq]
  constructor <;> rw [List.map_singleton, List.sum_singleton]
  · exact hsaves
  · show x.stack.restores.toNat = _
    omega
  · rw [Word.strayCloses_eq]
    exact hstrays
  · rw [Word.unmatchedOpens_eq]
    exact hend

/-- What takes the place of a node has the counts of the text chosen for it, if there is one. -/
theorem bracketCounts_of_replace (hact : grammar.ActsByLetter)
    (h : replace grammar params old s = .ok r t) :
    r.tally.Counts (chars? grammar old s.site.source).toList := by
  obtain ⟨e, -, -, hexpand, -⟩ := replace_eq_ok h
  cases hrule : rule? grammar old with
  | some rule =>
    obtain ⟨x⟩ := hexpand rule hrule
    have hselect : rule.select s.site.source = .ok (x.text, x.source) := x.select_eq
    have hchars : chars? grammar old s.site.source = some (x.text.map (·.char)) := by
      simp only [chars?, text?, hrule, hselect, Option.map_some]
    rw [hchars]
    exact x.bracketCounts (forall_letter_of_select hselect (hact (find?_of_rule? hrule)))
  | none =>
    obtain ⟨rfl, -, -⟩ := carried_of_replace h hrule
    have hchars : chars? grammar old s.site.source = none := by
      simp only [chars?, text?, hrule, Option.map_none]
    rw [hchars]
    exact ⟨rfl, rfl, rfl, rfl⟩

/-- The counts of a pass over a row, after those made before it. -/
theorem bracketCounts_of_mapM {row : List Node} {parts : List Replacement} {start tally : Tally}
    {texts : List (List Char)} (hact : grammar.ActsByLetter)
    (h : (row.mapM (replace grammar params)) s = .ok parts t) (hstart : start.Counts texts)
    (htotal : (parts.map (·.tally)).foldlM Tally.add start = .ok tally) :
    tally.Counts (texts ++ (chosen grammar params row s).map (·.map (·.char))) := by
  induction row generalizing s parts start texts with
  | nil =>
    obtain ⟨rfl, rfl⟩ := Outcome.mapM_nil_eq_ok.mp h
    cases htotal
    simpa [chosen] using hstart
  | cons old row ih =>
    obtain ⟨r, u, parts', hr, hrest, rfl⟩ := Outcome.mapM_cons_eq_ok.mp h
    rw [List.map_cons, List.foldlM_cons] at htotal
    obtain ⟨next, hnext, htotal⟩ := Outcome.except_bind_eq_ok.mp htotal
    have hcounts := ih hrest (hstart.add (bracketCounts_of_replace hact hr) hnext) htotal
    have htext : (chars? grammar old s.site.source).toList =
        (text? grammar old s.site.source).toList.map (·.map (·.char)) := by
      unfold chars?
      cases text? grammar old s.site.source <;> rfl
    rwa [htext, List.append_assoc, ← List.map_append, ← chosen_cons hr] at hcounts

end Expansion

namespace Plant

variable {σ : Type} [RandomSource σ] {p p' : Plant} {s t : Surroundings σ} {tally : Tally}
  {rules : Rules String}

/-- A generation counts the brackets of the texts that it chooses, each text for itself, and it is
balanced if and only if all of them are well-bracketed. -/
theorem generate_bracketCounts (hrules : p.grammar = .ofRules rules)
    (h : p.generate s = .ok (p', tally) t) :
    tally.saves.toNat = ((p.selected s).map (·.count '[')).sum ∧
      tally.restores.toNat = ((p.selected s).map Word.matchedCloses).sum ∧
      tally.strays.toNat = ((p.selected s).map Word.strayCloses).sum ∧
      tally.unclosed = ((p.selected s).map Word.unmatchedOpens).sum ∧
      (tally.balanced = true ↔ ∀ w ∈ p.selected s, Word.WellBracketed w) := by
  obtain ⟨next, m, c, generation, hnext, -, -, -, rfl, -⟩ := generate_eq_ok h
  obtain ⟨parts, hparts, -, htotal⟩ := Expansion.replaceAll_eq_ok hnext
  have hact : p.grammar.ActsByLetter := by
    rw [hrules]
    exact Grammar.actsByLetter_ofRules rules
  have hnone : Tally.Counts {} [] := ⟨rfl, rfl, rfl, rfl⟩
  have hcounts : next.tally.Counts (p.selected s) :=
    Expansion.bracketCounts_of_mapM hact hparts hnone htotal
  exact ⟨hcounts.saves_eq, hcounts.restores_eq, hcounts.strays_eq, hcounts.unclosed_eq,
    hcounts.balanced_iff⟩

theorem grammar_of_tangle {s t : Surroundings Reel} {p : Plant} (h : tangle s = .ok p t) :
    ∃ rules, p.grammar = .ofRules rules := by
  simp only [tangle, Outcome.bind_eq_ok, Outcome.pure_eq_ok] at h
  obtain ⟨p₀, r₀, hsprout, ⟨p₁, tally⟩, r₁, hgenerate, rfl, rfl⟩ := h
  obtain ⟨node, m, -, rfl, -⟩ := sprout_eq_ok hsprout
  obtain ⟨next, m', c, generation, -, -, -, rfl, -, -⟩ := generate_eq_ok hgenerate
  exact ⟨_, rfl⟩

/-- A text of the tangle has as many opening as closing brackets, but in the wrong order: one of
each has no partner. -/
theorem generate_bracketCounts_tangle : ∃ p p' tally t t' rules,
    tangle ⟨⟨#[0], 0⟩, #[]⟩ = .ok p t ∧ p.grammar = .ofRules rules ∧
    p.generate t = .ok (p', tally) t' ∧
    p.selected t = [[']', 'F', '[', 'X', '+'], [], ['+', 'F', ':', '-']] ∧
    tally.saves.toNat = 1 ∧ tally.restores.toNat = 0 ∧ tally.strays.toNat = 1 ∧
    tally.unclosed = 1 ∧ tally.balanced ≠ true := by
  have hok : Outcome.isOk
      (fun r => r == [[']', 'F', '[', 'X', '+'], [], ['+', 'F', ':', '-']])
      ((do
        let p ← tangle
        let s ← get
        let _ ← p.generate
        return p.selected s : Garden Reel (List (List Char))) ⟨⟨#[0], 0⟩, #[]⟩) = true := by
    decide +kernel
  obtain ⟨texts, t', h, htexts⟩ := Outcome.exists_of_isOk hok
  simp only [Outcome.bind_eq_ok, Outcome.pure_eq_ok, Outcome.get_eq_ok] at h
  obtain ⟨p, t, hp, s, r, ⟨rfl, rfl⟩, ⟨p', tally⟩, r', hgenerate, rfl, rfl⟩ := h
  obtain ⟨rules, hrules⟩ := grammar_of_tangle hp
  have hselected := eq_of_beq htexts
  obtain ⟨hsaves, hrestores, hstrays, hunclosed, hbalanced⟩ :=
    generate_bracketCounts hrules hgenerate
  rw [hselected] at hsaves hrestores hstrays hunclosed hbalanced
  refine ⟨p, p', tally, t, r', rules, hp, hrules, hgenerate, hselected, hsaves, hrestores, hstrays,
    hunclosed, ?_⟩
  rw [ne_eq, hbalanced]
  decide

end Plant

end PlantGrowth
