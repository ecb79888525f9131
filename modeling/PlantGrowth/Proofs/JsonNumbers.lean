import PlantGrowth.Proofs.ReadBack
import PlantGrowth.Json.Record

/-!
# Numbers of JSON text are read as they are written

A written number is a row of digits with a point or an exponent part in it, and what follows it is
no digit (`NoDigit`). `number_point`, `number_exponent` and `number_integer` say what such text is
read as; the ways of writing a decimal are cases of them (`number_zeros`, `number_split`,
`number_below_one`, `number_scientific_write`), and all give the word and the power of ten of
`NumberStyle.read` (`number_write`).
-/

set_option autoImplicit false

namespace PlantGrowth.Json.Reader

variable {α β : Type} {s t : List Char}

/-! ## Running readers -/

theorem bind_eq (x : Reader α) (f : α → Reader β) (s : List Char) :
    (x >>= f) s = match x s with
      | .ok (a, t) => f a t
      | .error e => .error e := by
  change (x s).bind _ = _
  cases x s <;> rfl

theorem bind_of_ok {x : Reader α} {a : α} (f : α → Reader β) (h : x s = .ok (a, t)) :
    (x >>= f) s = f a t := by
  rw [bind_eq, h]

theorem bind_of_error {x : Reader α} {e : Error} (f : α → Reader β) (h : x s = .error e) :
    (x >>= f) s = .error e := by
  rw [bind_eq, h]

@[simp]
theorem pure_eq (a : α) (s : List Char) : (pure a : Reader α) s = .ok (a, s) := rfl

@[simp]
theorem look_eq (s : List Char) : look s = .ok (s.head?, s) := rfl

@[simp]
theorem skip_cons (c : Char) (s : List Char) : skip (c :: s) = .ok ((), s) := rfl

/-! ## Digits -/

/-- The text does not go on with a digit. -/
def NoDigit (s : List Char) : Prop := ∀ c ∈ s.head?, c.isDigit = false

theorem noDigit_cons {c : Char} (h : c.isDigit = false) (s : List Char) : NoDigit (c :: s) := by
  intro d hd
  obtain rfl : c = d := by simpa using hd
  exact h

/-- Digits are read up to the first character that is none. -/
theorem digits_append {ds rest : List Char} (hds : ∀ c ∈ ds, c.isDigit = true)
    (hrest : NoDigit rest) : digits (ds ++ rest) = .ok (ds.map (·.toNat - 48), rest) := by
  have htake : rest.takeWhile Char.isDigit = [] := by
    cases rest with
    | nil => rfl
    | cons c cs => simp [hrest c rfl]
  have hdrop : rest.dropWhile Char.isDigit = rest := by
    cases rest with
    | nil => rfl
    | cons c cs => simp [hrest c rfl]
  unfold digits
  rw [List.takeWhile_append_of_pos hds, List.dropWhile_append_of_pos hds, htake, hdrop,
    List.append_nil]

theorem le_ofDigitChars (ds : List Char) (w : ℕ) : w ≤ Nat.ofDigitChars 10 ds w := by
  rw [Nat.ofDigitChars_eq_ofDigitChars_zero]
  have : 1 * w ≤ 10 ^ ds.length * w := Nat.mul_le_mul_right w (Nat.one_le_pow _ 10 (by norm_num))
  omega

/-- Digits that fit the word are all taken into it. -/
theorem absorb_digits {ds : List Char} {w : ℕ} (h : Nat.ofDigitChars 10 ds w < UInt64.size) :
    absorb w (ds.map (·.toNat - 48)) = (Nat.ofDigitChars 10 ds w, []) := by
  induction ds generalizing w with
  | nil => rfl
  | cons c cs ih =>
    rw [Nat.ofDigitChars_cons] at h ⊢
    have hle := le_ofDigitChars cs (10 * w + (c.toNat - '0'.toNat))
    rw [List.map_cons, absorb, if_pos (show 10 * w + (c.toNat - 48) < UInt64.size from by
      exact hle.trans_lt h)]
    exact ih h

/-- A number above zero is not written with a zero in front. -/
theorem head_digits {n : ℕ} (h : 0 < n) : (Decimal.digits n).head? ≠ some '0' := by
  unfold Decimal.digits
  induction n using Nat.strongRecOn with
  | ind n ih =>
    rcases Nat.lt_or_ge n 10 with hlt | hge
    · rw [Nat.toDigits_of_lt_base hlt]
      interval_cases n <;> decide
    · rw [Nat.toDigits_of_base_le (by norm_num) hge,
        List.head?_append_of_ne_nil _ Nat.toDigits_ne_nil]
      exact ih (n / 10) (by omega) (by omega)

theorem isDigit_digits {n : ℕ} {c : Char} (h : c ∈ Decimal.digits n) : c.isDigit = true :=
  Nat.isDigit_of_mem_toDigits (by norm_num) (by norm_num) h

/-- Digits that can be the whole part of a number: a zero stands alone. -/
structure IsWhole (ds : List Char) : Prop where
  digit : ∀ c ∈ ds, c.isDigit = true
  ne_nil : ds ≠ []
  zero : ds.head? = some '0' → ds.length = 1

theorem isWhole_zero : IsWhole ['0'] := ⟨by simp, by simp, by simp⟩

theorem isWhole_digits (n : ℕ) : IsWhole (Decimal.digits n) := by
  refine ⟨fun c => isDigit_digits, Nat.toDigits_ne_nil, fun hzero => ?_⟩
  rcases Nat.eq_zero_or_pos n with rfl | hpos
  · rfl
  · exact absurd hzero (head_digits hpos)

/-- A whole number is read up to the first character that is no digit. -/
theorem wholeDigits_append {ds rest : List Char} (hds : IsWhole ds) (hrest : NoDigit rest) :
    wholeDigits (ds ++ rest) = .ok (ds.map (·.toNat - 48), rest) := by
  obtain ⟨hdigit, hne, hzero⟩ := hds
  obtain ⟨c, cs, rfl⟩ := List.exists_cons_of_ne_nil hne
  have hread := digits_append hdigit hrest
  rw [List.cons_append] at hread
  have hc := hdigit c List.mem_cons_self
  have hlength : ¬ (c = '0' ∧ 1 < ((c :: cs).map (·.toNat - 48)).length) := by
    rintro ⟨rfl, hlong⟩
    have := hzero rfl
    simp only [List.length_map] at hlong
    omega
  unfold wholeDigits
  rw [bind_of_ok _ (look_eq _)]
  simp only [List.cons_append, List.head?_cons, hc, Bool.not_true, Bool.false_eq_true, if_false]
  rw [bind_of_ok _ hread, if_neg hlength]
  rfl

/-! ## Numbers -/

section Number

variable {negative : Bool} {ws fs xs rest : List Char}

/-- The text does not go on with more of a number. -/
def Ends (s : List Char) : Prop := ∀ c ∈ s.head?, c = ',' ∨ c = '\n'

theorem Ends.noDigit (h : Ends s) : NoDigit s := by
  intro c hc
  rcases h c hc with rfl | rfl <;> rfl

/-- No exponent begins where a number ends. -/
theorem Ends.atExponent_eq (h : Ends s) : atExponent s = .ok (false, s) := by
  cases s with
  | nil => rfl
  | cons c cs => rcases h c rfl with rfl | rfl <;> rfl

/-- A sign and digits behind an `e` are added to the power of ten. -/
theorem exponentPart_eq (negative : Bool) (w : ℕ) (start : ℤ) (falling : Bool)
    (hxs : ∀ c ∈ xs, c.isDigit = true) (hne : xs ≠ []) (hlt : Nat.ofDigitChars 10 xs 0 < 2 ^ 31)
    (hrest : NoDigit rest) :
    exponentPart negative w start ('e' :: (if falling then '-' else '+') :: (xs ++ rest)) =
      scaled negative w (if falling then start - Nat.ofDigitChars 10 xs 0
        else start + Nat.ofDigitChars 10 xs 0) rest := by
  obtain ⟨x, xs', rfl⟩ := List.exists_cons_of_ne_nil hne
  have hread := digits_append hxs hrest
  have hx := hxs x List.mem_cons_self
  have hfold : ((x :: xs').map (·.toNat - 48)).foldl (10 * · + ·) 0 =
      Nat.ofDigitChars 10 (x :: xs') 0 := by
    rw [List.foldl_map]
    rfl
  have hsize : ¬ UInt32.size / 2 ≤ Nat.ofDigitChars 10 (x :: xs') 0 := not_le.mpr hlt
  rw [List.cons_append] at hread
  unfold exponentPart
  cases falling with
  | false =>
    simp only [Bool.false_eq_true, if_false, bind_eq, skip_cons, look_eq, List.head?_cons, pure_eq,
      List.cons_append, hx, Bool.not_true, hread, hfold, hsize]
  | true =>
    simp only [if_true, Bool.false_eq_true, if_false, bind_eq, skip_cons, look_eq, List.head?_cons,
      pure_eq, List.cons_append, hx, Bool.not_true, hread, hfold, hsize]

/-- A number without an exponent is scaled by the places behind its point. -/
theorem finish_of_ends {w : ℕ} {k : ℤ} (h : Ends rest) :
    finish negative w k rest = scaled negative w k rest := by
  unfold finish
  rw [bind_of_ok _ h.atExponent_eq, if_neg Bool.false_ne_true]

/-- A number with an exponent is scaled by both. -/
theorem finish_of_e {w : ℕ} {k : ℤ} :
    finish negative w k ('e' :: rest) = exponentPart negative w k ('e' :: rest) := rfl

/-- Digits with a point between them are one word, and those behind the point its power of ten. -/
theorem number_point (hws : IsWhole ws) (hfs : ∀ c ∈ fs, c.isDigit = true) (hne : fs ≠ [])
    (hlt : Nat.ofDigitChars 10 (ws ++ fs) 0 < UInt64.size) (hrest : NoDigit rest) :
    number negative (ws ++ '.' :: (fs ++ rest)) =
      ((Number.float <$> finish negative (Nat.ofDigitChars 10 (ws ++ fs) 0) (-fs.length)) :
        Reader Number) rest := by
  rw [Nat.ofDigitChars_append] at hlt ⊢
  have hwhole : wholeDigits (ws ++ '.' :: (fs ++ rest)) = .ok (ws.map (·.toNat - 48), _) :=
    wholeDigits_append hws (noDigit_cons rfl _)
  have hread := digits_append hfs hrest
  -- no digit is too many for the word, neither in front of the point nor behind it
  have hword := absorb_digits ((le_ofDigitChars fs _).trans_lt hlt)
  have hword' := absorb_digits hlt
  have hempty : (fs.map (·.toNat - 48)).isEmpty = false := by
    cases fs with
    | nil => exact absurd rfl hne
    | cons c cs => rfl
  have hlength : (([] : List ℕ).length : ℤ) -
      ((fs.map (·.toNat - 48)).length - ([] : List ℕ).length) = -fs.length := by
    simp
  unfold number
  rw [bind_of_ok _ hwhole, hword]
  dsimp only
  rw [bind_of_ok _ (look_eq _)]
  simp only [List.head?_cons]
  unfold fraction
  simp only [bind_eq, skip_cons, hread, hempty, Bool.false_eq_true, if_false, hword', hlength,
    pure_eq, map_eq_pure_bind]

/-- Digits with an exponent part behind them are a word and its power of ten. -/
theorem number_exponent (hws : IsWhole ws) (hlt : Nat.ofDigitChars 10 ws 0 < UInt64.size) :
    number negative (ws ++ 'e' :: rest) =
      ((Number.float <$> exponentPart negative (Nat.ofDigitChars 10 ws 0) 0) : Reader Number)
        ('e' :: rest) := by
  have hwhole : wholeDigits (ws ++ 'e' :: rest) = .ok (ws.map (·.toNat - 48), 'e' :: rest) :=
    wholeDigits_append hws (noDigit_cons rfl _)
  have hword := absorb_digits hlt
  unfold number
  rw [bind_of_ok _ hwhole, hword]
  dsimp only
  rw [bind_of_ok _ (look_eq _)]
  rfl

/-- Digits alone are a whole number. -/
theorem number_integer (hws : IsWhole ws) (hlt : Nat.ofDigitChars 10 ws 0 < UInt64.size)
    (hrest : Ends rest) :
    number negative (ws ++ rest) = .ok (integer negative (Nat.ofDigitChars 10 ws 0), rest) := by
  have hwhole := wholeDigits_append hws hrest.noDigit
  have hword := absorb_digits hlt
  unfold number
  rw [bind_of_ok _ hwhole, hword]
  dsimp only
  rw [bind_of_ok _ (look_eq _)]
  cases rest with
  | nil => rfl
  | cons c cs => rcases hrest c rfl with rfl | rfl <;> rfl

end Number

/-! ## Written decimals -/

section Write

open PlantGrowth.Decimal (NumberStyle Numeral)

variable {negative : Bool} {ws fs xs rest : List Char} {x : Float}

/-- What is left to do once word and power of ten are known. -/
theorem float_scaled (negative : Bool) {w : ℕ} {k : ℤ} (hx : scaleBy (wordFloat w) k 4 = .ok x)
    (rest : List Char) :
    ((Number.float <$> scaled negative w k) : Reader Number) rest =
      .ok (.float (withSign negative x), rest) := by
  have hscaled : scaled negative w k rest = .ok (withSign negative x, rest) := by
    unfold scaled
    rw [hx]
    rfl
  rw [map_eq_pure_bind, bind_of_ok _ hscaled]
  rfl

theorem map_congr_at {γ δ : Type} {a b : Reader γ} (g : γ → δ) (h : a s = b t) :
    (g <$> a) s = (g <$> b) t := by
  rw [map_eq_pure_bind, map_eq_pure_bind, bind_eq, bind_eq, h]

/-- A number with a point and no exponent part. -/
theorem number_positional (ws fs : List Char) {w : ℕ} {k : ℤ} (hws : IsWhole ws)
    (hfs : ∀ c ∈ fs, c.isDigit = true) (hne : fs ≠ [])
    (hw : Nat.ofDigitChars 10 (ws ++ fs) 0 = w) (hlt : w < UInt64.size)
    (hk : k = -fs.length) (hx : scaleBy (wordFloat w) k 4 = .ok x) (hrest : Ends rest) :
    number negative (ws ++ '.' :: (fs ++ rest)) = .ok (.float (withSign negative x), rest) := by
  subst hw hk
  rw [number_point hws hfs hne hlt hrest.noDigit, map_congr_at _ (finish_of_ends hrest),
    float_scaled negative hx]

/-- The digits written for a number are read as that number. -/
theorem ofDigitChars_digits (n : ℕ) : Nat.ofDigitChars 10 (Decimal.digits n) 0 = n :=
  Nat.ofDigitChars_ten_toDigits

theorem isDigit_of_replicate {k : ℕ} {c : Char} (h : c ∈ List.replicate k '0') :
    c.isDigit = true := by
  rw [List.eq_of_mem_replicate h]
  rfl

/-- Digits of a number above zero, without zeros in front. -/
structure Spells (ds : List Char) (n : ℕ) : Prop where
  digit : ∀ c ∈ ds, c.isDigit = true
  ne_nil : ds ≠ []
  first : ds.head? ≠ some '0'
  value : Nat.ofDigitChars 10 ds 0 = n

theorem spells_digits {n : ℕ} (h : 0 < n) : Spells (Decimal.digits n) n :=
  ⟨fun _ => isDigit_digits, Nat.toDigits_ne_nil, head_digits h, ofDigitChars_digits n⟩

section Positional

variable {ds : List Char} {n : ℕ}

/-- Zeros and a point behind the digits. -/
theorem number_zeros (h : Spells ds n) {k : ℕ} (hlt : 10 * (n * 10 ^ k) < UInt64.size)
    (hx : scaleBy (wordFloat (10 * (n * 10 ^ k))) (-1) 4 = .ok x) (hrest : Ends rest) :
    number negative (ds ++ List.replicate k '0' ++ '.' :: (['0'] ++ rest)) =
      .ok (.float (withSign negative x), rest) := by
  have hws : IsWhole (ds ++ List.replicate k '0') := by
    refine ⟨?_, List.append_ne_nil_of_left_ne_nil h.ne_nil _, fun hzero => ?_⟩
    · intro c hc
      rcases List.mem_append.mp hc with hc | hc
      · exact h.digit c hc
      · exact isDigit_of_replicate hc
    · rw [List.head?_append_of_ne_nil _ h.ne_nil] at hzero
      exact absurd hzero h.first
  refine number_positional _ ['0'] hws (by simp) (by simp) ?_ hlt (by simp) hx hrest
  rw [Nat.ofDigitChars_append, Nat.ofDigitChars_append, h.value, Nat.ofDigitChars_replicate_zero,
    Nat.ofDigitChars_cons, Nat.ofDigitChars_nil]
  change 10 * (10 ^ k * n) + 0 = _
  ring

/-- A point between the digits. -/
theorem number_split (h : Spells ds n) {whole : ℕ} (hwhole : 0 < whole)
    (hlength : whole < ds.length) (hlt : n < UInt64.size) {k : ℤ} (hk : k = whole - ds.length)
    (hx : scaleBy (wordFloat n) k 4 = .ok x) (hrest : Ends rest) :
    number negative (ds.take whole ++ '.' :: (ds.drop whole ++ rest)) =
      .ok (.float (withSign negative x), rest) := by
  have hws : IsWhole (ds.take whole) := by
    refine ⟨fun c hc => h.digit c (List.mem_of_mem_take hc), ?_, fun hzero => ?_⟩
    · rw [← List.length_pos_iff, List.length_take]
      omega
    · rw [List.head?_take, if_neg (by omega)] at hzero
      exact absurd hzero h.first
  refine number_positional _ _ hws (fun c hc => h.digit c (List.mem_of_mem_drop hc)) ?_ ?_ hlt ?_ hx
    hrest
  · rw [← List.length_pos_iff, List.length_drop]
    omega
  · rw [List.take_append_drop, h.value]
  · rw [List.length_drop]
    omega

/-- A point and zeros in front of the digits. -/
theorem number_below_one (h : Spells ds n) {zeros : ℕ} (hlt : n < UInt64.size) {k : ℤ}
    (hk : k = -(zeros + ds.length)) (hx : scaleBy (wordFloat n) k 4 = .ok x) (hrest : Ends rest) :
    number negative (['0'] ++ '.' :: (List.replicate zeros '0' ++ ds ++ rest)) =
      .ok (.float (withSign negative x), rest) := by
  have hdigit : ∀ c ∈ List.replicate zeros '0' ++ ds, c.isDigit = true := by
    intro c hc
    rcases List.mem_append.mp hc with hc | hc
    · exact isDigit_of_replicate hc
    · exact h.digit c hc
  refine number_positional _ _ isWhole_zero hdigit (List.append_ne_nil_of_right_ne_nil _ h.ne_nil)
    ?_ hlt ?_ hx hrest
  · rw [Nat.ofDigitChars_append, Nat.ofDigitChars_append, Nat.ofDigitChars_cons,
      Nat.ofDigitChars_nil, Nat.ofDigitChars_replicate_zero]
    change Nat.ofDigitChars 10 _ (10 ^ _ * 0) = _
    rw [Nat.mul_zero, h.value]
  · rw [List.length_append, List.length_replicate, hk]
    push_cast
    ring

end Positional

variable {style : NumberStyle} {d : Numeral}

/-- A decimal in positional notation: its point stands behind, among or in front of the digits. -/
theorem number_positional_write (hpos : 0 < d.coefficient)
    (hstyle : style.least ≤ d.magnitude ∧ d.magnitude ≤ style.greatest)
    (hlt : (style.read d).1 < UInt64.size)
    (hx : scaleBy (wordFloat (style.read d).1) (style.read d).2 4 = .ok x) (hrest : Ends rest) :
    number negative (d.positional true ++ rest) = .ok (.float (withSign negative x), rest) := by
  have hds := spells_digits hpos
  unfold Numeral.positional
  dsimp only
  by_cases hsign : 0 ≤ d.exponent
  · rw [NumberStyle.read, if_pos ⟨hstyle.1, hstyle.2, hsign⟩] at hlt hx
    dsimp only at hlt hx
    rw [if_pos hsign, if_pos rfl, List.append_assoc _ ['.', '0']]
    exact number_zeros hds hlt hx hrest
  · rw [NumberStyle.read, if_neg (fun h => hsign h.2.2)] at hlt hx
    dsimp only at hlt hx
    rw [if_neg hsign]
    split
    · rw [List.append_assoc, List.append_assoc]
      exact number_split hds (by omega) (by omega) hlt (by omega) hx hrest
    · rw [List.append_assoc ['0', '.'], List.append_assoc ['0', '.']]
      exact number_below_one hds hlt (by omega) hx hrest

/-- The exponent part gives a decimal its magnitude. -/
theorem exponentPart_magnitude {w : ℕ} {start : ℤ} (hsmall : d.magnitude.natAbs < 2 ^ 31)
    (hrest : NoDigit rest) :
    exponentPart negative w start ('e' :: (if d.magnitude < 0 then '-' else '+') ::
      (Decimal.digits d.magnitude.natAbs ++ rest)) =
      scaled negative w (start + d.magnitude) rest := by
  have h := exponentPart_eq negative w start (decide (d.magnitude < 0)) (fun c => isDigit_digits)
    Nat.toDigits_ne_nil (by rwa [ofDigitChars_digits]) hrest
  rw [ofDigitChars_digits] at h
  simp only [decide_eq_true_eq] at h
  rw [h]
  congr 1
  split <;> omega

/-- A decimal with an exponent part. -/
theorem number_scientific_write (hlt : d.coefficient < UInt64.size)
    (hsmall : d.exponent.natAbs < 2 ^ 30)
    (hx : scaleBy (wordFloat d.coefficient) d.exponent 4 = .ok x) (hrest : Ends rest) :
    number negative (d.scientific ++ rest) = .ok (.float (withSign negative x), rest) := by
  have hlength : (Decimal.digits d.coefficient).length ≤ 20 :=
    (Nat.length_toDigits_le_iff (by norm_num) (by norm_num)).mpr
      (hlt.trans (by norm_num [UInt64.size]))
  have hmagnitude : d.magnitude = d.exponent + (Decimal.digits d.coefficient).length - 1 := rfl
  have hvalue := ofDigitChars_digits d.coefficient
  have hdigit : ∀ c ∈ Decimal.digits d.coefficient, c.isDigit = true := fun c => isDigit_digits
  unfold Numeral.scientific
  dsimp only
  obtain ⟨c, cs, hdigits⟩ := List.exists_cons_of_ne_nil
    (show Decimal.digits d.coefficient ≠ [] from Nat.toDigits_ne_nil)
  rw [hdigits] at hmagnitude hvalue hdigit hlength ⊢
  have hws : IsWhole [c] := by
    refine ⟨fun e he => hdigit e ?_, List.cons_ne_nil c [], fun _ => rfl⟩
    rw [List.mem_singleton.mp he]
    exact List.mem_cons_self
  rw [List.length_cons] at hmagnitude hlength
  push_cast at hmagnitude
  have hbound : d.magnitude.natAbs < 2 ^ 31 := by omega
  cases cs with
  | nil =>
    -- a single digit has no point, so the exponent part holds the whole exponent
    have hexponent : d.exponent = 0 + d.magnitude := by
      simp only [List.length_nil] at hmagnitude
      omega
    rw [List.append_assoc, List.append_assoc]
    refine (number_exponent hws (by rwa [hvalue])).trans ?_
    rw [hvalue, ← float_scaled negative hx rest, hexponent]
    exact map_congr_at _ (exponentPart_magnitude hbound hrest.noDigit)
  | cons c' cs =>
    have hexponent : d.exponent = -(c' :: cs).length + d.magnitude := by omega
    have htext : c :: '.' :: c' :: cs ++ ['e', if d.magnitude < 0 then '-' else '+'] ++
        Decimal.digits d.magnitude.natAbs ++ rest =
        [c] ++ '.' :: ((c' :: cs) ++ ('e' :: (if d.magnitude < 0 then '-' else '+') ::
          (Decimal.digits d.magnitude.natAbs ++ rest))) := by
      simp
    rw [htext, number_point hws (fun e he => hdigit e (List.mem_cons_of_mem c he)) (by simp)
      (by rwa [List.singleton_append, hvalue]) (noDigit_cons rfl _),
      List.singleton_append, hvalue, ← float_scaled negative hx rest,
      hexponent]
    exact map_congr_at _ (finish_of_e.trans (exponentPart_magnitude hbound hrest.noDigit))

/-- A decimal is read as it is written, in either notation. -/
theorem number_write (hpos : 0 < d.coefficient) (hlt : (style.read d).1 < UInt64.size)
    (hsmall : (style.read d).2.natAbs < 2 ^ 30)
    (hx : scaleBy (wordFloat (style.read d).1) (style.read d).2 4 = .ok x) (hrest : Ends rest) :
    number negative (style.write d ++ rest) = .ok (.float (withSign negative x), rest) := by
  unfold NumberStyle.write
  split
  · rename_i hstyle
    exact number_positional_write hpos hstyle hlt hx hrest
  · rename_i hstyle
    rw [NumberStyle.read, if_neg (fun h => hstyle ⟨h.1, h.2.1⟩)] at hlt hsmall hx
    exact number_scientific_write hlt hsmall hx hrest

end Write

end PlantGrowth.Json.Reader
