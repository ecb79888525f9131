import PlantGrowth.Proofs.JsonValues

/-!
# Records of JSON text are read as they are written

An `Entry` is a member of an object together with what reading it does to a record. One member is
read by `members_member`; by induction over the entries the object is read as all of them put into
the blank record, if every entry has only finite scalars (`members_entries`, `reads_record`).
-/

set_option autoImplicit false

namespace PlantGrowth.Json

open Reader Document

/-! ## Names -/

/-- The string needs no escapes. -/
def Plain (cs : List Char) : Prop := ∀ c ∈ cs, c ≠ '"' ∧ c ≠ '\\' ∧ 32 ≤ c.toNat

/-- Plain characters are read as they are, up to the quote. -/
theorem stringChars_append {escape : Reader Char} {cs rest : List Char} (hplain : Plain cs)
    {n : ℕ} (hn : cs.length < n) :
    stringChars id escape n (cs ++ '"' :: rest) = .ok (cs, rest) := by
  induction cs generalizing n with
  | nil =>
    obtain ⟨n, rfl⟩ : ∃ k, n = k + 1 := ⟨n - 1, by simp at hn; omega⟩
    rfl
  | cons c cs ih =>
    obtain ⟨n, rfl⟩ : ∃ k, n = k + 1 := ⟨n - 1, by omega⟩
    obtain ⟨hquote, hescape, hcontrol⟩ := hplain c List.mem_cons_self
    have hcontrol' : ¬ c.toNat < 32 := not_lt.mpr hcontrol
    have hrest : stringChars id escape n (cs ++ '"' :: rest) = .ok (cs, rest) :=
      ih (fun d hd => hplain d (List.mem_cons_of_mem c hd)) (Nat.lt_of_succ_lt_succ hn)
    unfold stringChars
    rw [List.cons_append, bind_of_ok _ (look_eq _)]
    refine (bind_of_ok _ (skip_cons _ _)).trans ?_
    rw [if_neg hquote, if_neg hescape, if_neg hcontrol']
    refine (bind_of_ok _ (pure_eq _ _)).trans ?_
    refine (bind_of_ok _ hrest).trans ?_
    rfl

theorem string_append {cs rest : List Char} (hplain : Plain cs) :
    string (cs ++ '"' :: rest) = .ok (.ofList cs, rest) := by
  have hlength : cs.length < (cs ++ '"' :: rest).length + 1 := by
    rw [List.length_append]
    omega
  unfold string
  refine (bind_of_ok _ (show (get : Reader (List Char)) _ = .ok (_, _) from rfl)).trans ?_
  rw [bind_of_ok _ (stringChars_append hplain hlength)]
  rfl

/-! ## Members -/

/-- Member of an object: its name and document, whether that has only finite scalars, and what
reading it does to a record. -/
structure Entry (ρ : Type) where
  name : String
  document : Document
  finite : Bool
  put : ρ → ρ

namespace Entry

variable {ρ : Type}

/-- Name and document, as they are written. -/
def member (e : Entry ρ) : String × Document := (e.name, e.document)

/-- Entry of a field whose value replaces the one in the record. -/
def of {α : Type} (name : String) (document : Document) (finite : Bool) (put : α → ρ → ρ)
    (a : α) : Entry ρ :=
  ⟨name, document, finite, put a⟩

/-- Entry of a field that holds a scalar. -/
def scalar (name : String) (x : Scalar) (put : Scalar → ρ → ρ) : Entry ρ :=
  of name (.scalar x) x.isFinite put x

/-- Entry of a field that holds a pair of scalars. -/
def pair (name : String) (p : Scalar × Scalar) (put : Scalar × Scalar → ρ → ρ) : Entry ρ :=
  of name (.ofPair p) (p.1.isFinite && p.2.isFinite) put p

/-- The format has the field of the entry, and reads its document into the record. -/
def Fits (f : RecordFormat ρ) (e : Entry ρ) : Prop :=
  ∃ field, f.fields.find? (·.name = e.name) = some field ∧
    ∀ level, Reads field.read (e.document.prettyChars level) e.finite e.put

section Fits

variable {α : Type} {f : RecordFormat ρ} {name : String} {required : Bool}

/-- An entry fits the field that has its name, if the text of its value can be read. -/
theorem fits_of {value : Reader α} {put : α → ρ → ρ} {a : α} {d : Document} {finite : Bool}
    (hfield : f.fields.find? (·.name = name) = some ⟨name, put <$> value, required⟩)
    (hreads : ∀ level, Reads value (d.prettyChars level) finite a) :
    (of name d finite put a).Fits f :=
  ⟨_, hfield, fun level => (hreads level).map put⟩

theorem fits_scalar {x : Scalar} {put : Scalar → ρ → ρ}
    (hfield : f.fields.find? (·.name = name) = some ⟨name, put <$> Reader.scalar, required⟩) :
    (scalar name x put).Fits f :=
  fits_of hfield fun _ => reads_scalar x

theorem fits_pair {p : Scalar × Scalar} {put : Scalar × Scalar → ρ → ρ}
    (hfield : f.fields.find? (·.name = name) = some ⟨name, put <$> Reader.pair, required⟩) :
    (pair name p put).Fits f :=
  fits_of hfield (reads_pair p)

end Fits

end Entry

/-- The members as they are written, in front of the object's end or behind another member. -/
def membersText (level : ℕ) (first : Bool) : List (String × Document) → List Char
  | [] => []
  | m :: ms => (if first then [] else [',']) ++ prettyMembers level (m :: ms)

theorem membersText_true (level : ℕ) (ms : List (String × Document)) :
    membersText level true ms = prettyMembers level ms := by
  cases ms with
  | nil => simp [membersText, prettyMembers]
  | cons m ms => rfl

/-- How the members of an object begin: on a line of its own, the name, a colon and the value. -/
theorem prettyMembers_append {ρ : Type} (e : Entry ρ) (level : ℕ) (ms : List (String × Document))
    (s : List Char) :
    prettyMembers level (e.member :: ms) ++ s =
      newline level ++ '"' :: (e.name.toList ++ '"' :: ':' :: ' ' ::
        (e.document.prettyChars level ++ (membersText level false ms ++ s))) := by
  cases ms <;> simp [Entry.member, prettyMembers, membersText, key]

/-- A number before further members or the end of the object is at its end. -/
theorem ends_members {level level' : ℕ} {ms : List (String × Document)} {rest : List Char} :
    Ends (membersText level false ms ++ (newline level' ++ rest)) := by
  cases ms with
  | nil => exact ends_newline level' rest
  | cons m ms => exact ends_comma _

namespace RecordFormat

/-- The format has fields, and their names are distinct and need no escapes. -/
structure Regular {ρ : Type} (f : RecordFormat ρ) : Prop where
  nonempty : f.fields ≠ []
  distinct : (f.fields.map Field.name).Nodup
  plain : ∀ field ∈ f.fields, Plain field.name.toList

/-- The entries are the fields of the format, one after another. -/
structure Filled {ρ : Type} (f : RecordFormat ρ) (es : List (Entry ρ)) : Prop where
  names : es.map Entry.name = f.fields.map Field.name
  fits : ∀ e ∈ es, e.Fits f

section Member

variable {ρ : Type} {f : RecordFormat ρ} {level : ℕ} {s t : List Char}

theorem member?_quote : member? true (newline level ++ '"' :: s) = .ok (true, s) := by
  unfold member?
  rw [bind_of_ok _ (lookPast_append isBlank_newline rfl)]
  rfl

theorem member?_comma : member? false (',' :: (newline level ++ '"' :: s)) = .ok (true, s) := by
  have hblank : ∀ b ∈ ([] : List Char), isBlank b = true := by simp
  unfold member?
  refine (bind_of_ok _ (lookPast_append hblank rfl)).trans ?_
  refine (bind_of_ok _ (skip_cons _ _)).trans ?_
  refine (bind_of_ok _ (lookPast_append isBlank_newline rfl)).trans ?_
  rfl

/-- The reader stands at the name of the next member, be it the first one or not. -/
theorem member?_cons (first : Bool) (e : Entry ρ) (ms : List (String × Document)) :
    member? first (membersText level first (e.member :: ms) ++ s) =
      .ok (true, e.name.toList ++ '"' :: ':' :: ' ' ::
        (e.document.prettyChars level ++ (membersText level false ms ++ s))) := by
  rw [membersText, List.append_assoc, prettyMembers_append]
  cases first with
  | true => exact member?_quote
  | false => exact member?_comma

/-- The reader sees the end of the object behind the last member. -/
theorem member?_last (first : Bool) :
    member? first (newline level ++ '\x7d' :: s) = .ok (false, '\x7d' :: s) := by
  unfold member?
  rw [bind_of_ok _ (lookPast_append isBlank_newline rfl)]
  rfl

theorem colon_cons : colon (':' :: s) = .ok ((), s) := rfl

/-- One member is read into the record. -/
theorem members_member (h : f.Regular) {e : Entry ρ} (hfits : e.Fits f) {n : ℕ} {seen : List String}
    {first : Bool} {record : ρ} (hseen : e.name ∉ seen)
    (hmember : member? first s = .ok (true, e.name.toList ++
      '"' :: ':' :: ' ' :: (e.document.prettyChars level ++ t))) (ht : Ends t) :
    members f (n + 1) seen first record s =
      if e.finite then members f n (e.name :: seen) false (e.put record) t
      else .error nullScalar := by
  obtain ⟨field, hfield, hreads⟩ := hfits
  have hname : field.name = e.name := by simpa using List.find?_some hfield
  have hplain : Plain e.name.toList := hname ▸ h.plain field (List.mem_of_find?_eq_some hfield)
  have hvalue := hreads level [' '] t (by simp [isBlank]) ht
  rw [List.singleton_append] at hvalue
  have hnot : seen.contains e.name = false := by simpa using hseen
  rw [members]
  refine (bind_of_ok _ hmember).trans ?_
  refine (bind_of_ok _ (string_append hplain)).trans ?_
  rw [String.ofList_toList, hfield]
  dsimp only
  rw [hnot]
  refine (bind_of_ok _ colon_cons).trans ?_
  rw [bind_of_ite hvalue]

end Member

/-! ## Objects -/

section Object

variable {ρ : Type} {f : RecordFormat ρ} {level level' : ℕ} {rest : List Char}

/-- The entries put into a record, from the first on. -/
def putAll (es : List (Entry ρ)) (record : ρ) : ρ := es.foldl (fun r e => e.put r) record

/-- The members are read into the record. Induction over the entries: the names that are left
are new to those seen so far. -/
theorem members_entries (h : f.Regular) {es : List (Entry ρ)} (hfits : ∀ e ∈ es, e.Fits f)
    (hnodup : (es.map Entry.name).Nodup) {n : ℕ} (hn : es.length < n) {seen : List String}
    (hseen : ∀ e ∈ es, e.name ∉ seen) (first : Bool) {record : ρ} :
    members f n seen first record
        (membersText level first (es.map Entry.member) ++ (newline level' ++ '\x7d' :: rest)) =
      if es.all Entry.finite then
        .ok ((putAll es record, (es.map Entry.name).reverse ++ seen), '\x7d' :: rest)
      else .error nullScalar := by
  induction es generalizing n seen first record with
  | nil =>
    obtain ⟨n, rfl⟩ : ∃ k, n = k + 1 := ⟨n - 1, by simp at hn; omega⟩
    rw [members]
    exact bind_of_ok _ (member?_last first)
  | cons e es ih =>
    obtain ⟨n, rfl⟩ : ∃ k, n = k + 1 := ⟨n - 1, by omega⟩
    obtain ⟨hnew, hnodup⟩ := List.nodup_cons.mp hnodup
    -- a name that was read before would be refused
    have hseen' : ∀ d ∈ es, d.name ∉ e.name :: seen := by
      intro d hd hmem
      rcases List.mem_cons.mp hmem with hsame | hmem
      · exact hnew (hsame ▸ List.mem_map_of_mem hd)
      · exact hseen d (List.mem_cons_of_mem e hd) hmem
    rw [List.map_cons, members_member h (hfits e List.mem_cons_self) (hseen e List.mem_cons_self)
      (member?_cons first e _) ends_members, ih (fun d hd => hfits d (List.mem_cons_of_mem e hd))
      hnodup (Nat.lt_of_succ_lt_succ hn) hseen' false, List.all_cons]
    cases e.finite with
    | false => rfl
    | true => simp [putAll]

theorem length_prettyMembers (level : ℕ) (ms : List (String × Document)) :
    ms.length ≤ (prettyMembers level ms).length := by
  induction ms with
  | nil => rfl
  | cons m ms ih =>
    cases ms with
    | nil => simp [prettyMembers, newline]
    | cons m' ms =>
      rw [prettyMembers]
      · simp only [List.length_append, List.length_cons, newline] at ih ⊢
        omega
      · exact List.cons_ne_nil m' ms

/-- Members of the entries are read as they are written, with the end of the object. -/
theorem object_entries (hregular : f.Regular) {es : List (Entry ρ)} (h : Filled f es) :
    f.object (prettyMembers level (es.map Entry.member) ++ (newline level' ++ '\x7d' :: rest)) =
      if es.all Entry.finite then .ok (putAll es f.blank, rest) else .error nullScalar := by
  have hlength := length_prettyMembers level (es.map Entry.member)
  rw [List.length_map] at hlength
  generalize htext :
    prettyMembers level (es.map Entry.member) ++ (newline level' ++ '\x7d' :: rest) = text
  -- every member takes a step and a character at least
  have hsteps : es.length < text.length + 1 := by
    rw [← htext, List.length_append]
    omega
  have hmembers : members f (text.length + 1) [] true f.blank text =
      if es.all Entry.finite then
        .ok ((putAll es f.blank, (es.map Entry.name).reverse ++ []), '\x7d' :: rest)
      else .error nullScalar := by
    have hseen : ∀ e ∈ es, e.name ∉ ([] : List String) := by simp
    rw [← htext, ← membersText_true] at hsteps ⊢
    exact members_entries hregular h.fits (h.names ▸ hregular.distinct) hsteps hseen true
  have hfound : f.fields.find? (fun field => field.required &&
      !((es.map Entry.name).reverse ++ []).contains field.name) = none := by
    rw [List.find?_eq_none]
    intro field hfield hmissing
    obtain ⟨-, hunseen⟩ := Bool.and_eq_true_iff.mp hmissing
    have hmem : field.name ∈ es.map Entry.name := h.names ▸ List.mem_map_of_mem hfield
    rw [List.append_nil, List.contains_iff_mem.mpr (List.mem_reverse.mpr hmem)] at hunseen
    cases hunseen
  unfold object
  refine (bind_of_ok _ (show (get : Reader (List Char)) text = .ok (text, text) from rfl)).trans ?_
  rw [bind_of_ite hmembers]
  cases es.all Entry.finite with
  | false => rfl
  | true => 
    dsimp only
    rw [hfound]
    rfl

/-- A record is read as it is written, member by member. -/
theorem reads_record (hregular : f.Regular) {es : List (Entry ρ)} (h : Filled f es) (level : ℕ) :
    Reads f.reader ((Document.object (es.map Entry.member)).prettyChars level)
      (es.all Entry.finite) (putAll es f.blank) := by
  intro blank rest hblank hrest
  -- an object without members would be written without a line for its end
  have hes : es ≠ [] := by
    rintro rfl
    exact hregular.nonempty (List.map_eq_nil_iff.mp h.names.symm)
  obtain ⟨e, es', rfl⟩ := List.exists_cons_of_ne_nil hes
  have htext : (Document.object ((e :: es').map Entry.member)).prettyChars level ++ rest =
      '\x7b' :: (prettyMembers (level + 1) ((e :: es').map Entry.member) ++
        (newline level ++ '\x7d' :: rest)) := by
    simp [prettyChars]
  rw [htext, ← object_entries hregular h]
  unfold reader
  refine (bind_of_ok _ (lookPast_append (c := '\x7b') hblank rfl)).trans ?_
  exact bind_of_ok _ (skip_cons _ _)

end Object

end RecordFormat

/-- A whole text is read as it is written. -/
theorem read_pretty {α : Type} {value : Reader α} {d : Document} {finite : Bool} {a : α}
    (h : Reads value (d.prettyChars 0) finite a) :
    read value d.pretty = if finite then .ok a else .error nullScalar := by
  have hblank : ∀ b ∈ ([] : List Char), isBlank b = true := by simp
  have hvalue := h [] [] hblank (by simp [Ends])
  rw [List.nil_append, List.append_nil] at hvalue
  unfold read Document.pretty
  rw [String.toList_ofList, hvalue]
  cases finite with
  | true => rfl
  | false => rfl

end PlantGrowth.Json
