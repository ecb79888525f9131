import PlantGrowth.Proofs.Nesting

/-!
# Matching of brackets

Two brackets of a word are partners if the word between them is well-bracketed (`Word.Partners`).
This says nothing about how partners are found; the turtle finds them by counting the brackets that
are open. The count is right: a closing bracket has a partner just where a bracket is open in front
of it (`Word.exists_opening_iff`), and an opening one just where a closing bracket would be stray
behind it (`Word.exists_closing_iff`). So a word has as many closing brackets without a partner as
are stray in the count (`Word.strayCloses_eq`), and as many opening ones without a partner as are
open at its end (`Word.unmatchedOpens_eq`).
-/

set_option autoImplicit false

namespace PlantGrowth

/-! ## Brackets among the letters -/

/-- Brackets have no case. -/
theorem toUpper_eq_iff {c d : Char} (h : d = '[' ∨ d = ']') : c.toUpper = d ↔ c = d := by
  unfold Char.toUpper
  split
  · rename_i hlower
    constructor
    · intro he
      have hval : c.val = d.val - ('A'.val - 'a'.val) := by
        rw [← he]
        exact (UInt32.add_sub_cancel _ _).symm
      rw [hval] at hlower
      exfalso
      rcases h with rfl | rfl <;> revert hlower <;> decide
    · rintro rfl
      rcases h with rfl | rfl <;> revert hlower <;> decide
  · rfl

/-- No other letter opens a bracket. -/
theorem Action.ofLetter_eq_save_iff {c : Char} : ofLetter c = .save ↔ c = '[' := by
  rw [← toUpper_eq_iff (Or.inl rfl), ofLetter]
  split <;> simp_all

/-- No other letter closes one. -/
theorem Action.ofLetter_eq_restore_iff {c : Char} : ofLetter c = .restore ↔ c = ']' := by
  rw [← toUpper_eq_iff (Or.inr rfl), ofLetter]
  split <;> simp_all

namespace Word

variable {c : Char} {v w : List Char} {opened : ℕ}

theorem openAfter_eq (opened : ℕ) (c : Char) : openAfter opened c =
    if c = '[' then opened + 1 else if c = ']' then opened - 1 else opened := by
  rw [openAfter]
  split
  · rename_i ha
    rw [if_pos (Action.ofLetter_eq_save_iff.mp ha)]
  · rename_i ha
    obtain rfl := Action.ofLetter_eq_restore_iff.mp ha
    rfl
  · rename_i hsave hrestore
    rw [if_neg fun hc => hsave (Action.ofLetter_eq_save_iff.mpr hc),
      if_neg fun hc => hrestore (Action.ofLetter_eq_restore_iff.mpr hc)]

theorem closes_cons (opened : ℕ) (c : Char) (w : List Char) : closes opened (c :: w) =
    if c = '[' then closes (opened + 1) w
    else if c = ']' then opened ≠ 0 && closes (opened - 1) w
    else closes opened w := by
  by_cases hopening : c = '['
  · rw [if_pos hopening]
    simp only [closes, Action.ofLetter_eq_save_iff.mpr hopening]
  · rw [if_neg hopening]
    by_cases hclosing : c = ']'
    · rw [if_pos hclosing]
      cases opened <;> simp [closes, Action.ofLetter_eq_restore_iff.mpr hclosing]
    · rw [if_neg hclosing]
      have hsave := mt Action.ofLetter_eq_save_iff.mp hopening
      have hrestore := mt Action.ofLetter_eq_restore_iff.mp hclosing
      cases ha : Action.ofLetter c <;> simp_all [closes]

/-! ## Counting open brackets -/

/-- Number of closing brackets that close nothing, if `opened` are open in front of the word. -/
def strays : ℕ → List Char → ℕ
  | _, [] => 0
  | opened, c :: w => (if c = ']' ∧ opened = 0 then 1 else 0) + strays (openAfter opened c) w

theorem nestingAtEnd_cons (opened : ℕ) (c : Char) (w : List Char) :
    nestingAtEnd opened (c :: w) = nestingAtEnd (openAfter opened c) w := rfl

/-- What is open behind two words is open behind the second, told from what the first leaves open.
-/
theorem nestingAtEnd_append (opened : ℕ) (v w : List Char) :
    nestingAtEnd opened (v ++ w) = nestingAtEnd (nestingAtEnd opened v) w := List.foldl_append

/-- The stray brackets of two words are those of the first and those of the second behind it. -/
theorem strays_append (opened : ℕ) (v w : List Char) :
    strays opened (v ++ w) = strays opened v + strays (nestingAtEnd opened v) w := by
  induction v generalizing opened with
  | nil => exact (Nat.zero_add _).symm
  | cons c v ih =>
    rw [List.cons_append, strays, strays, ih, nestingAtEnd_cons, Nat.add_assoc]

theorem nestingAtEnd_concat (opened : ℕ) (w : List Char) (c : Char) :
    nestingAtEnd opened (w ++ [c]) = openAfter (nestingAtEnd opened w) c :=
  nestingAtEnd_append opened w [c]

theorem strays_concat (opened : ℕ) (w : List Char) (c : Char) : strays opened (w ++ [c]) =
    strays opened w + if c = ']' ∧ nestingAtEnd opened w = 0 then 1 else 0 :=
  strays_append opened w [c]

/-- The brackets of a word match if none of them is stray and none is open at the end. -/
theorem closes_iff : closes opened w = true ↔ strays opened w = 0 ∧ nestingAtEnd opened w = 0 := by
  induction w generalizing opened with
  | nil => simp [closes, strays, nestingAtEnd]
  | cons c w ih =>
    rw [closes_cons, strays, nestingAtEnd_cons, openAfter_eq]
    by_cases hopening : c = '['
    · simpa [hopening] using ih
    · by_cases hclosing : c = ']'
      · cases opened with
        | zero => simp [hclosing]
        | succ opened => simpa [hclosing] using ih
      · simpa [hopening, hclosing] using ih

/-- One more open bracket in front of a word is closed by its first stray bracket, or stays open. -/
theorem counts_succ (opened : ℕ) (w : List Char) :
    strays (opened + 1) w = strays opened w - 1 ∧
      nestingAtEnd (opened + 1) w =
        nestingAtEnd opened w + if strays opened w = 0 then 1 else 0 := by
  induction w generalizing opened with
  | nil => exact ⟨rfl, rfl⟩
  | cons c w ih =>
    rw [strays, strays, nestingAtEnd_cons, nestingAtEnd_cons, openAfter_eq, openAfter_eq]
    obtain ⟨hstrays, hnesting⟩ := ih opened
    by_cases hopening : c = '['
    · subst hopening
      simpa using ih (opened + 1)
    · by_cases hclosing : c = ']'
      · subst hclosing
        cases opened with
        | zero => simp
        | succ opened => simpa using ih opened
      · simpa [hopening, hclosing] using ih opened

/-- The brackets open in front of a well-bracketed word are open behind it. -/
theorem counts_of_closes (h : WellBracketed w) (opened : ℕ) :
    strays opened w = 0 ∧ nestingAtEnd opened w = opened := by
  induction opened with
  | zero => exact closes_iff.mp h
  | succ opened ih =>
    obtain ⟨hstrays, hnesting⟩ := counts_succ opened w
    rw [hstrays, hnesting, ih.1, ih.2]
    exact ⟨rfl, rfl⟩

/-- What is open at the end was open in front or is opened, and is not closed. -/
theorem balance (opened : ℕ) (w : List Char) :
    opened + w.count '[' + strays opened w = w.count ']' + nestingAtEnd opened w := by
  induction w generalizing opened with
  | nil => simp [strays, nestingAtEnd]
  | cons c w ih =>
    have hrest := ih (openAfter opened c)
    rw [strays, nestingAtEnd_cons, List.count_cons, List.count_cons]
    by_cases hopening : c = '['
    · subst hopening
      have hopen : openAfter opened '[' = opened + 1 := rfl
      have hne : ¬ '[' = ']' := by decide
      simp only [hne, hopen, beq_self_eq_true, beq_iff_eq, false_and, if_true, if_false] at hrest ⊢
      omega
    · by_cases hclosing : c = ']'
      · subst hclosing
        have hclose : openAfter opened ']' = opened - 1 := rfl
        simp only [hopening, hclose, beq_self_eq_true, beq_iff_eq, true_and, if_true,
          if_false] at hrest ⊢
        split <;> omega
      · have hother : openAfter opened c = opened := by
          rw [openAfter_eq, if_neg hopening, if_neg hclosing]
        simp only [hopening, hclosing, hother, beq_iff_eq, false_and, if_false] at hrest ⊢
        omega

/-- Each bracket open at the end of a word stands in front of a part of it that leaves only those
opened later. -/
theorem exists_open (h : opened < nestingAtEnd 0 w) : ∃ u v, w = u ++ '[' :: v ∧
    strays 0 v = 0 ∧ nestingAtEnd 0 v + opened + 1 = nestingAtEnd 0 w := by
  -- from the end, as long as the bracket stays open: the part behind it gets longer
  induction w using List.reverseRecOn with
  | nil => exact absurd h (Nat.not_lt_zero _)
  | append_singleton w c ih =>
    rw [nestingAtEnd_concat, openAfter_eq] at h ⊢
    by_cases hopening : c = '['
    · subst hopening
      rw [if_pos rfl] at h ⊢
      rcases Nat.lt_or_ge opened (nestingAtEnd 0 w) with hlt | hge
      · obtain ⟨u, v, rfl, hstrays, hnesting⟩ := ih hlt
        refine ⟨u, v ++ ['['], by simp, ?_, ?_⟩
        · simpa [strays_concat] using hstrays
        · rw [nestingAtEnd_concat, openAfter_eq, if_pos rfl]
          omega
      · have hend : nestingAtEnd 0 [] = 0 := rfl
        exact ⟨w, [], rfl, rfl, by omega⟩
    · rw [if_neg hopening] at h ⊢
      have hlt : opened < nestingAtEnd 0 w := by
        split at h <;> omega
      obtain ⟨u, v, rfl, hstrays, hnesting⟩ := ih hlt
      -- a closing bracket leaves the bracket open, so it closes one that was opened later
      refine ⟨u, v ++ [c], by simp, ?_, ?_⟩
      · rw [strays_concat, hstrays, if_neg]
        rintro ⟨rfl, hzero⟩
        rw [if_pos rfl] at h
        omega
      · rw [nestingAtEnd_concat, openAfter_eq, if_neg hopening]
        split at h <;> split <;> first | omega | contradiction

/-- The first stray closing bracket stands behind a part without any, at whose end none is open. -/
theorem exists_stray (h : strays opened w ≠ 0) : ∃ v u, w = v ++ ']' :: u ∧
    strays opened v = 0 ∧ nestingAtEnd opened v = 0 := by
  induction w generalizing opened with
  | nil => exact absurd rfl h
  | cons c w ih =>
    by_cases hstray : c = ']' ∧ opened = 0
    · obtain ⟨rfl, rfl⟩ := hstray
      exact ⟨[], w, rfl, rfl, rfl⟩
    · rw [strays, if_neg hstray, Nat.zero_add] at h
      obtain ⟨v, u, rfl, hv, hend⟩ := ih h
      refine ⟨c :: v, u, rfl, ?_, hend⟩
      rw [strays, if_neg hstray, hv]

/-! ## Partners -/

/-- The brackets at two places of a word are partners: what is between them is well-bracketed. -/
def Partners (w : List Char) (i j : ℕ) : Prop :=
  i < j ∧ w[i]? = some '[' ∧ w[j]? = some ']' ∧ WellBracketed ((w.take j).drop (i + 1))

instance (w : List Char) (i j : ℕ) : Decidable (Partners w i j) :=
  inferInstanceAs (Decidable (_ ∧ _ ∧ _ ∧ _))

theorem eq_take_cons_drop {i : ℕ} (h : w[i]? = some c) : w = w.take i ++ c :: w.drop (i + 1) := by
  obtain ⟨hlt, rfl⟩ := List.getElem?_eq_some_iff.mp h
  rw [← List.drop_eq_getElem_cons hlt, List.take_append_drop]

/-- A closing bracket has a partner just where a bracket is open in front of it. -/
theorem exists_opening_iff {j : ℕ} (hclosing : w[j]? = some ']') :
    (∃ i < j, Partners w i j) ↔ nestingAtEnd 0 (w.take j) ≠ 0 := by
  constructor
  · rintro ⟨i, hlt, -, hopening, -, hbetween⟩
    rw [← List.getElem?_take_of_lt hlt] at hopening
    rw [eq_take_cons_drop hopening, nestingAtEnd_append, nestingAtEnd_cons, openAfter_eq,
      if_pos rfl, (counts_of_closes hbetween _).2]
    exact Nat.succ_ne_zero _
  · intro hopen
    obtain ⟨u, v, hw, hstrays, hnesting⟩ :=
      exists_open (Nat.sub_lt (Nat.pos_of_ne_zero hopen) one_pos)
    have hlength := congrArg List.length hw
    simp only [List.length_take, List.length_append, List.length_cons] at hlength
    have hlt : u.length < j := by omega
    refine ⟨u.length, hlt, hlt, ?_, hclosing, closes_iff.mpr ?_⟩
    · rw [← List.getElem?_take_of_lt hlt, hw]
      simp
    · have hbetween : (w.take j).drop (u.length + 1) = v := by
        rw [hw]
        simp
      rw [hbetween]
      exact ⟨hstrays, by omega⟩

/-- An opening bracket has a partner just where a closing bracket is stray behind it. -/
theorem exists_closing_iff {i : ℕ} (hopening : w[i]? = some '[') :
    (∃ j < w.length, Partners w i j) ↔ strays 0 (w.drop (i + 1)) ≠ 0 := by
  constructor
  · rintro ⟨j, -, hlt, -, hclosing, hbetween⟩
    obtain ⟨k, rfl⟩ := Nat.exists_eq_add_of_lt hlt
    have hdrop : (w.drop (i + 1))[k]? = some ']' := by
      rw [List.getElem?_drop, ← hclosing]
      congr 1
      omega
    rw [List.drop_take, show i + k + 1 - (i + 1) = k by omega] at hbetween
    rw [eq_take_cons_drop hdrop, strays_append, (counts_of_closes hbetween 0).1,
      (counts_of_closes hbetween 0).2, strays, if_pos ⟨rfl, rfl⟩]
    omega
  · intro hstray
    obtain ⟨v, u, hw, hstrays, hnesting⟩ := exists_stray hstray
    have hclosing : w[i + 1 + v.length]? = some ']' := by
      rw [← List.getElem?_drop, hw]
      simp
    refine ⟨i + 1 + v.length, (List.getElem?_eq_some_iff.mp hclosing).1, by omega, hopening,
      hclosing, closes_iff.mpr ?_⟩
    have hbetween : (w.take (i + 1 + v.length)).drop (i + 1) = v := by
      rw [List.drop_take, hw, Nat.add_sub_cancel_left]
      simp
    rw [hbetween]
    exact ⟨hstrays, hnesting⟩

/-! ## Numbers of brackets with and without partners -/

/-- Number of places of a word that hold the letter and have a property. -/
def countAt (c : Char) (w : List Char) (P : ℕ → Prop) [DecidablePred P] : ℕ :=
  (List.range w.length).countP fun i => w[i]? = some c ∧ P i

/-- Number of closing brackets that have a partner. -/
def matchedCloses (w : List Char) : ℕ := countAt ']' w fun j => ∃ i < j, Partners w i j

/-- Number of closing brackets that have no partner. -/
def strayCloses (w : List Char) : ℕ := countAt ']' w fun j => ¬ ∃ i < j, Partners w i j

/-- Number of opening brackets that have no partner. -/
def unmatchedOpens (w : List Char) : ℕ := countAt '[' w fun i => ¬ ∃ j < w.length, Partners w i j

section CountAt

variable {P Q : ℕ → Prop} [DecidablePred P] [DecidablePred Q]

theorem countAt_congr (h : ∀ i, w[i]? = some c → (P i ↔ Q i)) : countAt c w P = countAt c w Q := by
  refine List.countP_congr fun i _ => ?_
  simp only [decide_eq_true_eq]
  exact and_congr_right (h i)

/-- One more letter is counted if it is of the kind and stands at a place that counts. -/
theorem countAt_concat (c d : Char) (w : List Char) : countAt c (w ++ [d]) P =
    countAt c w P + if d = c ∧ P w.length then 1 else 0 := by
  rw [countAt, List.length_append, List.length_singleton, List.range_succ, List.countP_append,
    List.countP_singleton]
  congr 1
  · refine List.countP_congr fun i hi => ?_
    rw [List.getElem?_append_left (List.mem_range.mp hi)]
  · simp

/-- A letter in front moves all places by one. -/
theorem countAt_cons (c d : Char) (w : List Char) : countAt c (d :: w) P =
    (if d = c ∧ P 0 then 1 else 0) + countAt c w fun i => P (i + 1) := by
  rw [countAt, List.length_cons, List.range_succ_eq_map, List.countP_cons, List.countP_map,
    Nat.add_comm]
  congr 1
  simp

/-- The places with a letter are divided by any property. -/
theorem countAt_add_not (c : Char) (w : List Char) :
    (countAt c w P + countAt c w fun i => ¬ P i) = w.count c := by
  induction w generalizing P with
  | nil => rfl
  | cons d w ih =>
    have hrest := ih (P := fun i => P (i + 1))
    rw [countAt_cons, countAt_cons, List.count_cons, ← hrest]
    by_cases hd : d = c <;> by_cases hP : P 0 <;> simp [hd, hP] <;> omega

end CountAt

/-- As many closing brackets have no partner as are stray. -/
theorem strayCloses_eq (w : List Char) : strayCloses w = strays 0 w := by
  -- partners of closing brackets are in front of them, so the induction is from the end
  induction w using List.reverseRecOn with
  | nil => rfl
  | append_singleton w c ih =>
    -- what is behind a closing bracket does not matter for it
    have hfront : countAt ']' w (fun j => ¬ ∃ i < j, Partners (w ++ [c]) i j) = strayCloses w := by
      refine countAt_congr fun j hj => not_congr ?_
      have hlt := (List.getElem?_eq_some_iff.mp hj).1
      rw [exists_opening_iff hj, exists_opening_iff (by rwa [List.getElem?_append_left hlt]),
        List.take_append_of_le_length hlt.le]
    have hlast : (c = ']' ∧ ¬ ∃ i < w.length, Partners (w ++ [c]) i w.length) ↔
        c = ']' ∧ nestingAtEnd 0 w = 0 := by
      refine and_congr_right fun hc => ?_
      rw [exists_opening_iff (by simp [hc]), List.take_left', not_not]
      rfl
    rw [strayCloses, countAt_concat, hfront, ih, strays_concat]
    simp only [hlast]

/-- A closing bracket is matched or stray. -/
theorem matchedCloses_add (w : List Char) : matchedCloses w + strays 0 w = w.count ']' := by
  rw [← strayCloses_eq]
  exact countAt_add_not ']' w

/-- As many opening brackets have no partner as are open at the end. -/
theorem unmatchedOpens_eq (w : List Char) : unmatchedOpens w = nestingAtEnd 0 w := by
  -- and those of opening brackets are behind them, so this one is from the front
  induction w with
  | nil => rfl
  | cons c w ih =>
    -- what is in front of an opening bracket does not matter for it
    have hrest : countAt '[' w (fun i => ¬ ∃ j < (c :: w).length, Partners (c :: w) (i + 1) j) =
        unmatchedOpens w := by
      refine countAt_congr fun i hi => not_congr ?_
      rw [exists_closing_iff hi, exists_closing_iff (by simpa using hi), List.drop_succ_cons]
    have hfirst : (c = '[' ∧ ¬ ∃ j < (c :: w).length, Partners (c :: w) 0 j) ↔
        c = '[' ∧ strays 0 w = 0 := by
      refine and_congr_right fun hc => ?_
      rw [exists_closing_iff (by simp [hc]), not_not]
      rfl
    rw [unmatchedOpens, countAt_cons, hrest, ih, nestingAtEnd_cons, openAfter_eq]
    simp only [hfirst]
    by_cases hopening : c = '['
    · rw [if_pos hopening, (counts_succ 0 w).2, Nat.add_comm]
      simp [hopening]
    · simp [hopening]

/-- Every opening bracket has a partner of its own, or none. -/
theorem matchedCloses_add_unmatchedOpens (w : List Char) :
    matchedCloses w + unmatchedOpens w = w.count '[' := by
  have hbalance := balance 0 w
  have hcloses := matchedCloses_add w
  rw [unmatchedOpens_eq]
  omega

/-- A word is well-bracketed if all its brackets have partners. -/
theorem wellBracketed_iff (w : List Char) :
    WellBracketed w ↔ strayCloses w = 0 ∧ unmatchedOpens w = 0 := by
  rw [strayCloses_eq, unmatchedOpens_eq]
  exact closes_iff

end Word

end PlantGrowth
