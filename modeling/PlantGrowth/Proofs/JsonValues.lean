import PlantGrowth.Proofs.JsonNumbers
import PlantGrowth.Proofs.ScalarBounds
import PlantGrowth.Json.Document

/-!
# Values of JSON text are read as they are written

`Reads` says that a reader takes a written value back, behind blanks and before a comma or the end
of a line, and that it refuses the text where the value holds a scalar that is not finite: such a
scalar is written as `null` (`reads_scalar`). Whole numbers, pairs and values that may be missing
follow.
-/

set_option autoImplicit false

namespace PlantGrowth.Json

open Reader

/-- The error of a scalar that was written as `null`. -/
def nullScalar : Error := .wrongType .null "f32"

/-- The reader takes the text for the value, if that has only finite scalars. -/
def Reads {α : Type} (value : Reader α) (text : List Char) (finite : Bool) (a : α) : Prop :=
  ∀ blank rest, (∀ c ∈ blank, isBlank c = true) → Ends rest →
    value (blank ++ (text ++ rest)) = if finite then .ok (a, rest) else .error nullScalar

/-- The text starts with a character that belongs to a value. -/
def Starts (text : List Char) : Prop := ∃ c cs, text = c :: cs ∧ isBlank c = false ∧ c ≠ ']'

section Reader

variable {α β : Type} {text rest blank s t : List Char}

theorem bind_of_ite {x : Reader α} {f : α → Reader β} {a : α} {e : Error} {finite : Bool}
    (h : x s = if finite then .ok (a, t) else .error e) :
    (x >>= f) s = if finite then f a t else .error e := by
  cases finite with
  | true => exact bind_of_ok f h
  | false => exact bind_of_error f h

/-- Blanks in front of a value are passed over. -/
theorem lookPast_append {c : Char} {cs : List Char} (hblank : ∀ b ∈ blank, isBlank b = true)
    (hc : isBlank c = false) : lookPast (blank ++ c :: cs) = .ok (some c, c :: cs) := by
  unfold lookPast
  rw [List.dropWhile_append_of_pos hblank, List.dropWhile_cons_of_neg (by rw [hc]; simp)]
  rfl

/-- What starts a value ends no array. -/
theorem Starts.lookPast_eq (h : Starts text) (hblank : ∀ b ∈ blank, isBlank b = true) :
    ∃ c, c ≠ ']' ∧ lookPast (blank ++ (text ++ rest)) = .ok (some c, text ++ rest) := by
  obtain ⟨c, cs, rfl, hc, hne⟩ := h
  exact ⟨c, hne, lookPast_append hblank hc⟩

/-- A value that can be read can be read and changed. -/
theorem Reads.map {value : Reader α} {finite : Bool} {a : α} (h : Reads value text finite a)
    (g : α → β) : Reads (g <$> value) text finite (g a) := by
  intro blank rest hblank hrest
  rw [map_eq_pure_bind, bind_of_ite (h blank rest hblank hrest)]
  rfl

/-! ## Numbers -/

/-- A digit is neither blank nor a character that a reader looks for. -/
theorem ne_of_isDigit {c : Char} (h : c.isDigit = true) {d : Char} (hd : d.isDigit = false) :
    c ≠ d := by
  rintro rfl
  rw [h] at hd
  cases hd

theorem isBlank_of_isDigit {c : Char} (h : c.isDigit = true) : isBlank c = false := by
  simp [isBlank, ne_of_isDigit h (d := ' ') rfl, ne_of_isDigit h (d := '\n') rfl,
    ne_of_isDigit h (d := '\t') rfl, ne_of_isDigit h (d := '\r') rfl]

theorem numberOr_of_digit {expected : String} {c : Char} {cs : List Char} (hc : c.isDigit = true)
    (hblank : ∀ b ∈ blank, isBlank b = true) :
    numberOr expected (blank ++ c :: cs) = number false (c :: cs) := by
  have hminus : c ≠ '-' := ne_of_isDigit hc rfl
  unfold numberOr
  rw [bind_of_ok _ (lookPast_append hblank (isBlank_of_isDigit hc))]
  simp [hc]

theorem numberOr_of_minus {expected : String} {cs : List Char}
    (hblank : ∀ b ∈ blank, isBlank b = true) :
    numberOr expected (blank ++ '-' :: cs) = number true cs := by
  unfold numberOr
  rw [bind_of_ok _ (lookPast_append hblank rfl)]
  exact bind_of_ok _ rfl

/-- The text of a number that is not finite is refused. -/
theorem numberOr_of_null {expected : String} {cs : List Char}
    (hblank : ∀ b ∈ blank, isBlank b = true) :
    numberOr expected (blank ++ 'n' :: 'u' :: 'l' :: 'l' :: cs) =
      .error (.wrongType .null expected) := by
  unfold numberOr
  rw [bind_of_ok _ (lookPast_append hblank rfl)]
  rfl

/-- Text of a decimal starts with a digit. -/
theorem exists_digit_write (style : Decimal.NumberStyle) (d : Decimal.Numeral) :
    ∃ c cs, style.write d = c :: cs ∧ c.isDigit = true := by
  obtain ⟨c, cs, hdigits⟩ := List.exists_cons_of_ne_nil
    (show Decimal.digits d.coefficient ≠ [] from Nat.toDigits_ne_nil)
  have hc : c.isDigit = true := isDigit_digits (n := d.coefficient) (by rw [hdigits]; simp)
  unfold Decimal.NumberStyle.write
  split
  · unfold Decimal.Numeral.positional
    dsimp only
    split
    · exact ⟨c, _, by rw [hdigits]; rfl, hc⟩
    · split
      · rename_i hplaces
        obtain ⟨n, hn⟩ : ∃ n, (Decimal.digits d.coefficient).length - (-d.exponent).toNat = n + 1 :=
          ⟨(Decimal.digits d.coefficient).length - (-d.exponent).toNat - 1, by omega⟩
        rw [hn, hdigits, List.take_succ_cons]
        exact ⟨c, _, rfl, hc⟩
      · exact ⟨'0', _, rfl, rfl⟩
  · unfold Decimal.Numeral.scientific
    rw [hdigits]
    cases cs with
    | nil => exact ⟨c, _, rfl, hc⟩
    | cons c' cs => exact ⟨c, _, rfl, hc⟩

/-- The sign is written. -/
def isMinus : Float.Model.UnpackedFloat.Sign → Bool
  | .negative => true
  | .positive => false

/-- A number with or without a minus sign is read behind blanks. -/
theorem numberOr_signed (expected : String) (s : Float.Model.UnpackedFloat.Sign) {cs : List Char}
    (hcs : ∃ c cs', cs = c :: cs' ∧ c.isDigit = true) (hblank : ∀ b ∈ blank, isBlank b = true)
    (rest : List Char) :
    numberOr expected (blank ++ (Decimal.signed s cs ++ rest)) =
      number (isMinus s) (cs ++ rest) := by
  cases s with
  | negative => exact numberOr_of_minus hblank
  | positive =>
    obtain ⟨c, cs', rfl, hc⟩ := hcs
    exact numberOr_of_digit hc hblank

end Reader

/-- Scalars other than zero are told apart by their rank. -/
theorem eq_of_rank_eq {x y : Scalar} (h : x.rank = y.rank) (hne : x.rank ≠ 0) : x = y := by
  have hbits : x.toBits.toNat = y.toBits.toNat := by
    unfold Scalar.rank at h hne
    split_ifs at h hne <;> omega
  rw [← Float32.ofBits_toBits x, ← Float32.ofBits_toBits y, UInt32.toNat_inj.mp hbits]

/-! ## Scalars -/

open Float.Model.UnpackedFloat (Sign)

/-- The scalar that the text of a finite number is read as. -/
theorem ofFloat_eq {x : Scalar} {s : Sign} {m : ℕ} {e : ℤ} {hm : 0 < m}
    (hx : x.toModel.unpack = .finite s m e hm) {y : Float} {q : ℚ} (hy : Binary64.Holds y q)
    (hq : Rounding.nearest q = Rounding.rankAt m e) :
    Scalar.ofFloat (withSign (isMinus s) y) = x := by
  have hread : Scalar.Reads x.toModel.unpack x.rank := by
    rcases Scalar.unpack_cases x with ⟨hnan, -⟩ | h
    · rw [hx] at hnan
      cases hnan
    · exact h
  have hfinite := hread
  rw [hx] at hfinite
  obtain ⟨hmantissa, hrank⟩ : Rounding.IsMantissa m e ∧ x.rank = s.apply (Rounding.rankAt m e) := by
    generalize x.rank = r at hfinite
    cases hfinite with
    | finite s hm h hlt => exact ⟨h, rfl⟩
  have hpos := Scalar.rankAt_pos hm hmantissa
  have hback := hy.rank_ofFloat (isMinus s)
  have hsame : (Scalar.ofFloat
      (withSign (isMinus s) y)).rank = x.rank := by
    rw [hback, hrank]
    cases s with
    | negative =>
      rw [if_pos (show isMinus .negative = true from rfl), Rounding.nearest_neg, hq]
      rfl
    | positive =>
      rw [if_neg (show ¬ isMinus .positive = true from Bool.false_ne_true), hq]
      rfl
  refine eq_of_rank_eq hsame ?_
  rw [hsame, hrank]
  cases s with
  | negative => exact neg_ne_zero.mpr hpos.ne'
  | positive => exact hpos.ne'

/-- The exponent of a finite scalar is below that of infinity. -/
theorem exponent_le_of_rankAt {m e : ℤ} (h : Rounding.IsMantissa m e)
    (hlt : Rounding.rankAt m e < Rounding.top) : e ≤ 104 := by
  have hnonneg := h.nonneg
  have hge := h.ge
  simp only [Rounding.rankAt, Rounding.top] at hlt
  omega

/-- Word and power of ten of a scalar's text. -/
theorem readsBack_of_unpack {x : Scalar} {s : Sign} {m : ℕ} {e : ℤ} {hm : 0 < m}
    (hx : x.toModel.unpack = .finite s m e hm) :
    Decimal.ReadsBack m e (Decimal.NumberStyle.single.read (Decimal.shortest .binary32 .even m e)).1
      (Decimal.NumberStyle.single.read (Decimal.shortest .binary32 .even m e)).2 := by
  rcases Scalar.unpack_cases x with ⟨hnan, -⟩ | hread
  · rw [hx] at hnan
    cases hnan
  · rw [hx] at hread
    generalize x.rank = r at hread
    cases hread with
    | finite s hm h hlt => exact Decimal.readsBack h hm (exponent_le_of_rankAt h hlt)

theorem coefficient_pos_of_read {style : Decimal.NumberStyle} {d : Decimal.Numeral}
    (h : 0 < (style.read d).1) : 0 < d.coefficient := by
  unfold Decimal.NumberStyle.read at h
  split at h
  · dsimp only at h
    exact Nat.pos_of_mul_pos_right (Nat.pos_of_mul_pos_left h)
  · exact h

/-- The text of a zero. -/
theorem number_zero {negative : Bool} {rest : List Char} (hrest : Ends rest) :
    number negative ('0' :: '.' :: '0' :: rest) =
      .ok (.float (withSign negative (wordFloat 0 / power 1)), rest) := by
  have hx : scaleBy (wordFloat 0) (-1) 4 = .ok (wordFloat 0 / power 1) := rfl
  have hone : (-1 : ℤ) = -(['0'] : List Char).length := by simp
  exact number_positional ['0'] ['0'] isWhole_zero (by simp) (by simp) rfl (by decide) hone hx
    hrest

/-- Both zeros are read back with their signs. -/
theorem ofFloat_zero (s : Sign) :
    Scalar.ofFloat (withSign (isMinus s) (wordFloat 0 / power 1)) = .ofModel (.pack (.zero s)) := by
  cases s <;> decide

/-- A scalar is read as it is written, unless it is not finite. -/
theorem reads_scalar (x : Scalar) : Reads scalar (Document.scalar x).leaf x.isFinite x := by
  intro blank rest hblank hrest
  have hfinite : x.isFinite = x.toModel.unpack.isFinite := rfl
  unfold scalar Document.leaf Decimal.jsonScalar? Decimal.NumberStyle.text?
  dsimp only
  rw [hfinite]
  cases hx : x.toModel.unpack with
  -- what is not finite has no number and is written as a word
  | notANumber => exact bind_of_error _ (numberOr_of_null hblank)
  | infinity s => exact bind_of_error _ (numberOr_of_null hblank)
  | zero s =>
    have hpack := Scalar.pack_unpack x
    rw [hx] at hpack
    have hnumber := numberOr_signed "f32" s ⟨'0', ['.', '0'], rfl, rfl⟩ hblank rest
    refine (bind_of_ok _ (hnumber.trans (number_zero hrest))).trans ?_
    change Except.ok (Scalar.ofFloat _, rest) = .ok (x, rest)
    rw [ofFloat_zero, hpack]
  | finite s m e hm =>
    have hback := readsBack_of_unpack hx
    obtain ⟨y, q, hy, hholds, hnearest⟩ := hback.scaled
    have hsize : (Decimal.NumberStyle.single.read (Decimal.shortest .binary32 .even m e)).1 <
        UInt64.size := hback.lt.trans (by decide)
    have hsmall := hback.small
    have hnumber := numberOr_signed "f32" s
      (exists_digit_write .single (Decimal.shortest .binary32 .even m e)) hblank rest
    have hpos := coefficient_pos_of_read hback.pos
    rw [number_write hpos hsize (by omega) hy hrest] at hnumber
    refine (bind_of_ok _ hnumber).trans ?_
    change Except.ok (Scalar.ofFloat _, rest) = .ok (x, rest)
    rw [ofFloat_eq hx hholds hnearest]

theorem starts_of_isDigit {c : Char} (h : c.isDigit = true) (cs : List Char) : Starts (c :: cs) :=
  ⟨c, cs, rfl, isBlank_of_isDigit h, ne_of_isDigit h rfl⟩

theorem starts_signed {s : Sign} {cs : List Char} (h : ∃ c cs', cs = c :: cs' ∧ c.isDigit = true) :
    Starts (Decimal.signed s cs) := by
  obtain ⟨c, cs', rfl, hc⟩ := h
  cases s with
  | negative => exact ⟨'-', _, rfl, rfl, by decide⟩
  | positive => exact starts_of_isDigit hc cs'

/-- The text of a scalar starts a value, be it finite or not. -/
theorem starts_scalar (x : Scalar) : Starts (Document.scalar x).leaf := by
  unfold Document.leaf Decimal.jsonScalar? Decimal.NumberStyle.text?
  dsimp only
  cases x.toModel.unpack with
  | notANumber => exact ⟨'n', _, rfl, rfl, by decide⟩
  | infinity s => exact ⟨'n', _, rfl, rfl, by decide⟩
  | zero s => exact starts_signed ⟨'0', _, rfl, rfl⟩
  | finite s m e hm => exact starts_signed (exists_digit_write _ _)

/-! ## Whole numbers -/

theorem exists_digit_digits (n : ℕ) : ∃ c cs, Decimal.digits n = c :: cs ∧ c.isDigit = true := by
  obtain ⟨c, cs, hdigits⟩ := List.exists_cons_of_ne_nil
    (show Decimal.digits n ≠ [] from Nat.toDigits_ne_nil)
  exact ⟨c, cs, hdigits, isDigit_digits (n := n) (by rw [hdigits]; simp)⟩

/-- Whole numbers below the bound are read as they are written. -/
theorem reads_natural (expected : String) {bound n : ℕ} (hlt : n < bound)
    (hbound : bound ≤ UInt64.size) :
    Reads (natural expected bound) (Decimal.digits n) true n := by
  intro blank rest hblank hrest
  obtain ⟨c, cs, hdigits, hc⟩ := exists_digit_digits n
  have hvalue := ofDigitChars_digits n
  have hsize : Nat.ofDigitChars 10 (Decimal.digits n) 0 < UInt64.size := by
    rw [hvalue]
    exact hlt.trans_le hbound
  have hnumber : number false (Decimal.digits n ++ rest) = .ok (.natural n, rest) := by
    rw [number_integer (isWhole_digits n) hsize hrest, hvalue]
    rfl
  have hlook : numberOr expected (blank ++ (Decimal.digits n ++ rest)) =
      .ok (.natural n, rest) := by
    rw [← hnumber, hdigits]
    exact numberOr_of_digit hc hblank
  unfold natural
  rw [bind_of_ok _ hlook]
  dsimp only
  rw [if_pos hlt]
  rfl

theorem reads_word32 (n : UInt32) : Reads word32 (Decimal.digits n.toNat) true n := by
  have h := (reads_natural "u32" n.toNat_lt (by decide)).map UInt32.ofNat
  rwa [UInt32.ofNat_toNat] at h

theorem reads_word64 (n : UInt64) : Reads word64 (Decimal.digits n.toNat) true n := by
  have h := (reads_natural "u64" n.toNat_lt le_rfl).map UInt64.ofNat
  rwa [UInt64.ofNat_toNat] at h

/-! ## Values that may be missing -/

section Optional

variable {α : Type} {value : Reader α} {text : List Char} {finite : Bool} {a : α}

theorem reads_none : Reads (Reader.optional value) ['n', 'u', 'l', 'l'] true none := by
  intro blank rest hblank hrest
  unfold Reader.optional
  refine (bind_of_ok _ (lookPast_append (c := 'n') hblank rfl)).trans ?_
  rfl

/-- A value whose text does not start like `null`. -/
theorem reads_some {c : Char} {cs : List Char} (h : Reads value (c :: cs) finite a)
    (hc : isBlank c = false) (hnull : c ≠ 'n') :
    Reads (Reader.optional value) (c :: cs) finite (some a) := by
  intro blank rest hblank hrest
  have hvalue := h.map some [] rest (by simp) hrest
  unfold Reader.optional
  refine (bind_of_ok _ (lookPast_append hblank hc)).trans ?_
  rw [← hvalue, map_eq_pure_bind]
  -- the reader looks at one character only to tell a value from `null`
  have hhead : some c ≠ some 'n' := fun h => hnull (Option.some.inj h)
  generalize some c = o at hhead
  split
  · exact absurd rfl hhead
  · rfl

end Optional

/-! ## Pairs -/

section Pair

variable {α : Type} {value : Reader α} {text rest : List Char} {finite : Bool} {a : α}

theorem isBlank_newline {level : ℕ} : ∀ c ∈ Document.newline level, isBlank c = true := by
  intro c hc
  rcases List.mem_cons.mp hc with rfl | hc
  · rfl
  · rw [List.eq_of_mem_replicate hc]
    rfl

theorem ends_comma (s : List Char) : Ends (',' :: s) := by
  intro c hc
  obtain rfl : ',' = c := by simpa using hc
  exact Or.inl rfl

theorem ends_newline (level : ℕ) (s : List Char) : Ends (Document.newline level ++ s) := by
  intro c hc
  obtain rfl : '\n' = c := by simpa [Document.newline] using hc
  exact Or.inr rfl

theorem element?_zero {s t : List Char} {c : Char} (h : lookPast s = .ok (some c, t))
    (hne : c ≠ ']') : element? 0 value s = (some <$> value) t := by
  unfold element?
  rw [bind_of_ok _ h, map_eq_pure_bind]
  simp

/-- Behind a comma an array goes on with an element. -/
theorem element?_succ {s t t' : List Char} {c : Char} {i : ℕ}
    (h : lookPast s = .ok (some ',', ',' :: t)) (h' : lookPast t = .ok (some c, t'))
    (hne : c ≠ ']') : element? (i + 1) value s = (some <$> value) t' := by
  unfold element?
  rw [bind_of_ok _ h, map_eq_pure_bind]
  simp only [ne_eq, Nat.add_one_ne_zero, not_false_eq_true, if_true]
  refine (bind_of_ok _ (skip_cons _ _)).trans ((bind_of_ok _ h').trans ?_)
  simp

/-- An element that is there is read as one of those that have to be. -/
theorem element_of_element? {expected : String} {i : ℕ} {s : List Char}
    (h : element? i value s = if finite then .ok (some a, rest) else .error nullScalar) :
    element expected i value s = if finite then .ok (a, rest) else .error nullScalar := by
  unfold element
  rw [bind_of_ite h]
  rfl

/-- The bracket on the line behind the last element closes an array. -/
theorem closeArray_newline (level : ℕ) :
    closeArray (Document.newline level ++ ']' :: rest) = .ok ((), rest) := by
  unfold closeArray
  rw [bind_of_ok _ (lookPast_append isBlank_newline rfl)]
  rfl

/-- The first of two elements, which starts behind the end of a line. -/
theorem element_first {expected : String} {level : ℕ} (h : Reads value text finite a)
    (hstarts : Starts text) :
    element expected 0 value (Document.newline level ++ (text ++ ',' :: rest)) =
      if finite then .ok (a, ',' :: rest) else .error nullScalar := by
  obtain ⟨c, hne, hlook⟩ := hstarts.lookPast_eq isBlank_newline
  refine element_of_element? ((element?_zero hlook hne).trans ?_)
  exact h.map some [] _ (by simp) (ends_comma rest)

/-- The last element, behind a comma. -/
theorem element_last {expected : String} {level level' i : ℕ} (h : Reads value text finite a)
    (hstarts : Starts text) :
    element expected (i + 1) value
        (',' :: (Document.newline level ++ (text ++ (Document.newline level' ++ rest)))) =
      if finite then .ok (a, Document.newline level' ++ rest) else .error nullScalar := by
  have hblank : ∀ b ∈ ([] : List Char), isBlank b = true := by simp
  obtain ⟨c, hne, hlook⟩ := hstarts.lookPast_eq isBlank_newline
  refine element_of_element? ((element?_succ (lookPast_append hblank rfl) hlook hne).trans ?_)
  exact h.map some [] _ hblank (ends_newline level' rest)

/-- An array of two elements is read as it is written. -/
theorem reads_two {expected : String} {text' : List Char} {finite' : Bool} {b : α} {level : ℕ}
    (h : Reads value text finite a) (h' : Reads value text' finite' b) (hstarts : Starts text)
    (hstarts' : Starts text') :
    Reads (Reader.array expected do
        let a ← element expected 0 value
        let b ← element expected 1 value
        return (a, b))
      ('[' :: (Document.newline (level + 1) ++ text ++ [','] ++
        (Document.newline (level + 1) ++ text') ++ Document.newline level ++ [']']))
      (finite && finite') (a, b) := by
  intro blank rest hblank hrest
  have htext : '[' :: (Document.newline (level + 1) ++ text ++ [','] ++
      (Document.newline (level + 1) ++ text') ++ Document.newline level ++ [']']) ++ rest =
      '[' :: (Document.newline (level + 1) ++ (text ++ ',' :: (Document.newline (level + 1) ++
        (text' ++ (Document.newline level ++ ']' :: rest))))) := by
    simp
  rw [htext]
  have helements : (do
        let a ← element expected 0 value
        let b ← element expected 1 value
        return (a, b) : Reader (α × α))
      (Document.newline (level + 1) ++ (text ++ ',' :: (Document.newline (level + 1) ++
        (text' ++ (Document.newline level ++ ']' :: rest))))) =
      if finite && finite' then .ok ((a, b), Document.newline level ++ ']' :: rest)
      else .error nullScalar := by
    rw [bind_of_ite (element_first h hstarts), bind_of_ite (element_last h' hstarts')]
    cases finite <;> cases finite' <;> rfl
  unfold Reader.array
  refine (bind_of_ok _ (lookPast_append (c := '[') hblank rfl)).trans ?_
  refine (bind_of_ok _ (skip_cons _ _)).trans ?_
  rw [bind_of_ite helements, bind_of_ok _ (closeArray_newline level)]
  rfl

/-- A pair of scalars is read as it is written. -/
theorem reads_pair (p : Scalar × Scalar) (level : ℕ) :
    Reads pair ((Document.ofPair p).prettyChars level) (p.1.isFinite && p.2.isFinite) p :=
  reads_two (reads_scalar p.1) (reads_scalar p.2) (starts_scalar p.1) (starts_scalar p.2)

end Pair

end PlantGrowth.Json
