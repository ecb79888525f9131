import PlantGrowth.Proofs.Traces

/-!
# The nearest symbol below a node

The nodes of a row that are not bridges are its symbols. From the entry of a node the way back to
the root leads over bridges to a symbol or to the root itself (`Row.Leads`), and where exits are
distinct there is only one such way (`Leads.unique`).

If a row traces a word, its symbols are what a turtle sees in the word (`Traces.shows`): letter,
depth and parent agree, and the rotations on the way from the parent take up the turns that the
turtle made since.
-/

set_option autoImplicit false

namespace PlantGrowth.Row

open Scalar

/-- The nodes of a row that are not bridges. -/
def symbols (row : List Node) : List Node := row.filter (·.letter ≠ bridgeLetter)

/-- Owner of a joint, followed upward through bridges, and the rotations of these bridges from
the first to the last; no owner where the way ends at the root. -/
inductive Leads (row : List Node) : JointId → Option Node → List Scalar → Prop
  | root {j : JointId} : (∀ n ∈ row, n.exit ≠ j) → Leads row j none []
  | symbol {n : Node} : n ∈ row → n.letter ≠ bridgeLetter → Leads row n.exit (some n) []
  | bridge {b : Node} {m : Option Node} {rs : List Scalar} : b ∈ row → b.letter = bridgeLetter →
      Leads row b.entry m rs → Leads row b.exit m (rs ++ [b.rotation])

/-- Bridges can be left out part by part. -/
theorem symbols_append (row more : List Node) :
    symbols (row ++ more) = symbols row ++ symbols more :=
  List.filter_append ..

theorem symbols_cons_of_symbol {n : Node} (hn : n.letter ≠ bridgeLetter) (row : List Node) :
    symbols (n :: row) = n :: symbols row :=
  List.filter_cons_of_pos (by simpa using hn)

theorem symbols_cons_of_bridge {b : Node} (hb : b.letter = bridgeLetter) (row : List Node) :
    symbols (b :: row) = symbols row :=
  List.filter_cons_of_neg (by simpa using hb)

/-- What a way of a certain kind starts with: the node that owns the joint, if there is one. -/
theorem Leads.cases_exit {root : JointId} {row : List Node} (hd : DistinctExits root row)
    {n : Node} (hn : n ∈ row) {m : Option Node} {rs : List Scalar} (h : Leads row n.exit m rs) :
    (n.letter ≠ bridgeLetter ∧ m = some n ∧ rs = []) ∨
      (n.letter = bridgeLetter ∧ ∃ rs', Leads row n.entry m rs' ∧ rs = rs' ++ [n.rotation]) := by
  generalize hj : n.exit = j at h
  cases h with
  | root hroot => exact absurd hj (hroot n hn)
  | @symbol n' hn' hletter =>
    obtain rfl := hd.eq_of_exit_eq hn hn' hj
    exact Or.inl ⟨hletter, rfl, rfl⟩
  | @bridge b m rs' hb hletter hrest =>
    obtain rfl := hd.eq_of_exit_eq hn hb hj
    exact Or.inr ⟨hletter, rs', hrest, rfl⟩

/-- There is only one way up from a joint. -/
theorem Leads.unique {root : JointId} {row : List Node} (hd : DistinctExits root row)
    {j : JointId} {m m' : Option Node} {rs rs' : List Scalar} (h : Leads row j m rs)
    (h' : Leads row j m' rs') : m = m' ∧ rs = rs' := by
  induction h generalizing rs' with
  | root hroot =>
    cases h' with
    | root _ => exact ⟨rfl, rfl⟩
    | symbol hn _ => exact absurd rfl (hroot _ hn)
    | bridge hb _ _ => exact absurd rfl (hroot _ hb)
  | symbol hn hletter =>
    rcases h'.cases_exit hd hn with ⟨-, rfl, rfl⟩ | ⟨hbridge, -⟩
    · exact ⟨rfl, rfl⟩
    · exact absurd hbridge hletter
  | bridge hb hletter _ ih =>
    rcases h'.cases_exit hd hb with ⟨hsymbol, -⟩ | ⟨-, rs'', hrest, rfl⟩
    · exact absurd hletter hsymbol
    · obtain ⟨rfl, rfl⟩ := ih hrest
      exact ⟨rfl, rfl⟩

/-! ## Rows and outlines -/

section Shows

variable (steady : Prop) (angle : Scalar) (row : List Node)

/-- A node of a row is what the turtle sees: the letter as deep as the brackets, on the way up to
the letter on which the turtle stands, with rotations that take up the turns since. -/
structure Shows (n : Node) (e : Word.Entry) : Prop where
  letter_eq : n.letter = e.letter
  depth_eq : n.depth.toNat = e.depth
  exists_leads : ∃ m rs, Leads row n.entry m rs
  parent_eq : ∀ {m rs}, Leads row n.entry m rs →
    e.parent.map (fun i => (symbols row)[i]?) = m.map some
  segments : steady → ∀ {m rs}, Leads row n.entry m rs →
    Segments angle (rs ++ [n.rotation]) e.turns

/-- A post on the plant is the place of the word: the same letter, and the same turns if those
are added that bridges have taken up. -/
structure Stands (post : Post) (place : Word.Place) : Prop where
  exists_leads : ∃ m rs turns, Leads row post.joint m rs ∧
    place.letter.map (fun i => (symbols row)[i]?) = m.map some ∧
    place.turns = turns ++ post.turns ∧ (steady → Segments angle rs turns)

end Shows

variable {steady : Prop} {angle : Scalar} {ruled : Char → Bool} {root : JointId}
  {row : List Node}

namespace Stands

/-- A turn of the turtle is a turn of the reader of the word. -/
theorem turn {post : Post} {place : Word.Place} (h : Stands steady angle row post place)
    (t : Turn) : Stands steady angle row { post with turns := post.turns ++ [t] }
      { place with turns := place.turns ++ [t] } := by
  obtain ⟨m, rs, turns, hleads, hletter, hturns, hsegments⟩ := h
  exact ⟨m, rs, turns, hleads, hletter, by simp [hturns], hsegments⟩

/-- Turns that cancel are nowhere taken up. -/
theorem cancel {post : Post} {place : Word.Place} (h : Stands steady angle row post place)
    (hzero : steady → IsZero (Turn.total angle post.turns)) :
    Stands steady angle row { post with turns := [] } place := by
  obtain ⟨m, rs, turns, hleads, hletter, hturns, hsegments⟩ := h
  refine ⟨m, rs, turns ++ post.turns, hleads, hletter, ?_, ?_⟩
  · rw [hturns]
    exact (List.append_nil _).symm
  · exact fun hs => .cancelled (hsegments hs) (hzero hs)

/-- A bridge takes up the turns, and the letter on which the turtle stands stays the same. -/
theorem bridge {post : Post} {place : Word.Place} (h : Stands steady angle row post place)
    {b : Node} (hb : IsBridge steady angle post b) (hmem : b ∈ row) :
    Stands steady angle row ⟨b.exit, []⟩ place := by
  obtain ⟨m, rs, turns, hleads, hletter, hturns, hsegments⟩ := h
  rw [← hb.entry_eq] at hleads
  refine ⟨m, rs ++ [b.rotation], turns ++ post.turns, .bridge hmem hb.letter_eq hleads, hletter,
    ?_, ?_⟩
  · rw [hturns]
    exact (List.append_nil _).symm
  · exact fun hs => .taken (hsegments hs) (hb.rotation_same hs)

/-- The node grown at a post shows the letter at that place of the word. -/
theorem shows_symbol {post : Post} {place : Word.Place} (h : Stands steady angle row post place)
    (hd : DistinctExits root row) {n : Node} {opened : Nat}
    (hn : IsSymbol steady angle ruled post opened n) :
    Shows steady angle row n ⟨n.letter, opened, place.letter, place.turns⟩ := by
  obtain ⟨m, rs, turns, hleads, hletter, hturns, hsegments⟩ := h
  rw [← hn.entry_eq] at hleads
  refine {
    letter_eq := rfl, depth_eq := hn.depth_eq, exists_leads := ⟨m, rs, hleads⟩
    parent_eq := ?_, segments := ?_ }
  · intro m' rs' hleads'
    obtain ⟨rfl, rfl⟩ := hleads.unique hd hleads'
    exact hletter
  · intro hs m' rs' hleads'
    obtain ⟨rfl, rfl⟩ := hleads.unique hd hleads'
    show Segments angle _ place.turns
    rw [hturns]
    exact .taken (hsegments hs) (hn.rotation_same hs)

end Stands

/-- The symbols of a row that traces a word are what a turtle sees in the word. -/
theorem Traces.shows {here there : Post} {saved out : List Post} {w : List Char}
    {before rest : List Node} (h : Traces steady angle ruled here saved w rest there out)
    (hd : DistinctExits root row) (hrow : row = before ++ rest) {place : Word.Place}
    {places : List Word.Place} (hhere : Stands steady angle row here place)
    (hsaved : List.Forall₂ (Stands steady angle row) saved places) :
    List.Forall₂ (Shows steady angle row) (symbols rest)
      (Word.outlineFrom place places (symbols before).length w) := by
  induction h generalizing before place places with
  | nil => exact .nil
  | turn t ha _ ih =>
    rw [Word.outlineFrom_of_turn _ _ _ _ ha]
    exact ih hrow (hhere.turn t) hsaved
  | save ha _ ih =>
    rw [Word.outlineFrom_of_save _ _ _ _ ha]
    exact ih hrow hhere (.cons hhere hsaved)
  | restore ha _ ih =>
    cases hsaved with
    | cons hback hsaved =>
      rw [Word.outlineFrom_of_restore _ _ _ _ ha]
      exact ih hrow hback hsaved
  | @symbol here there saved out n w rest hn _ ih =>
    have hmem : n ∈ row := by simp [hrow]
    have hrow' : row = (before ++ [n]) ++ rest := by simp [hrow]
    rw [Word.outlineFrom_of_activates hn.activates, symbols_cons_of_symbol hn.ne_bridge,
      ← hsaved.length_eq]
    refine .cons (hhere.shows_symbol hd hn) ?_
    -- letters are counted as the symbols of the row are
    have hcount : (symbols (before ++ [n])).length = (symbols before).length + 1 := by
      rw [symbols_append, symbols_cons_of_symbol hn.ne_bridge, List.length_append]
      rfl
    rw [← hcount]
    refine ih hrow' ⟨some n, [], [], .symbol hmem hn.ne_bridge, ?_, rfl, fun _ => .nil⟩ hsaved
    -- the letter just read has the next number among the symbols
    rw [hrow, symbols_append, symbols_cons_of_symbol hn.ne_bridge]
    simp
  | @bridge here there saved out b w rest hb _ ih =>
    have hmem : b ∈ row := by simp [hrow]
    have hrow' : row = (before ++ [b]) ++ rest := by simp [hrow]
    -- a bridge is no symbol, so the count stays
    have hcount : symbols (before ++ [b]) = symbols before := by
      rw [symbols_append, symbols_cons_of_bridge hb.letter_eq]
      exact List.append_nil _
    rw [symbols_cons_of_bridge hb.letter_eq, ← hcount]
    exact ih hrow' (hhere.bridge hb hmem) hsaved
  | cancel hzero _ ih => exact ih hrow (hhere.cancel hzero) hsaved

theorem map_letter_of_shows {ns : List Node} {es : List Word.Entry}
    (h : List.Forall₂ (Shows steady angle row) ns es) : ns.map (·.letter) = es.map (·.letter) := by
  induction h with
  | nil => rfl
  | cons hn _ ih => rw [List.map_cons, List.map_cons, hn.letter_eq, ih]

end PlantGrowth.Row
