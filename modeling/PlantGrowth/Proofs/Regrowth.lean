import PlantGrowth.Proofs.Traces
import PlantGrowth.Proofs.Rooted

/-!
# A generation rewrites the word

If the row before a generation traces a word, the row after it traces the word rewritten with the
texts that the generation chose. `Expansion.chosen` collects these texts from the pass as it ran.

`Expanded.traces` is the case of one node: the nodes in its place trace the chosen text, from
where the node started to where it ended. At the end of the text the turtle either stands on the
last node without a turn, or the bridge takes it there. `traces_of_mapM` is the pass over the
row, by induction on the walk.
-/

set_option autoImplicit false

namespace PlantGrowth

open Scalar
open Row (Post Traces IsSymbol)

/-! ## Where a run ends -/

namespace Turtle

variable {σ : Type} [RandomSource σ] {params : GrowthParams}

/-- A letter that grows no node leaves frames only where frames were. -/
theorem Step.joints_subset_of_none {letter : Letter} {stack stack' : Stack} {s t : Nursery σ}
    (h : Step params letter stack s none stack' t) :
    stack'.frames.map (·.joint) ⊆ stack.frames.map (·.joint) := by
  cases h with
  | turnLeft _ => rw [stack.map_joint_turn]; exact List.Subset.refl _
  | turnRight _ => rw [stack.map_joint_turn]; exact List.Subset.refl _
  | save _ hsave =>
    obtain ⟨depth, -, hframes⟩ := Stack.save_eq_ok hsave
    rw [hframes, stack.frames_eq_cons]
    exact List.cons_subset.mpr ⟨List.mem_cons_self, List.Subset.refl _⟩
  | restore _ hrestore _ _ _ =>
    have hframes := Stack.restore_eq_ok hrestore
    split at hframes
    · rw [hframes]
      exact List.subset_cons_self _ _
    · rw [hframes.2]
      exact List.Subset.refl _

theorem Run.joints_subset_of_nil {text : List Letter} {stack stack' : Stack} {s t : Nursery σ}
    {made : List Made} (h : Run params text stack s made stack' t) (hmade : made = []) :
    stack'.frames.map (·.joint) ⊆ stack.frames.map (·.joint) := by
  induction h with
  | nil => exact List.Subset.refl _
  | silent hstep _ ih => exact List.Subset.trans (ih hmade) hstep.joints_subset_of_none
  | grow _ _ _ => cases hmade

/-- If the last node was made outside the brackets of the text, all frames end on it. -/
theorem Run.joint_eq {text : List Letter} {stack stack' : Stack} {s t : Nursery σ}
    {made : List Made} (h : Run params text stack s made stack' t) {m : Made}
    (hlast : made.getLast? = some m) (houter : m.outer = true) :
    ∀ f ∈ stack'.frames, f.joint = m.node.exit := by
  induction h with
  | nil => cases hlast
  | silent _ _ ih => exact ih hlast
  | @grow letter text stack stack₁ stack₂ s r t node made hstep hrest ih =>
    cases made with
    | cons m' made => exact ih hlast
    | nil =>
      cases hlast
      cases hstep with
      | grow _ hgrew =>
        intro f hf
        have hjoint := hrest.joints_subset_of_nil rfl (List.mem_map_of_mem hf)
        rw [Stack.isOuter_iff.mp houter, hgrew.stack_eq, Stack.top_setTop] at hjoint
        exact List.mem_singleton.mp hjoint

end Turtle

/-! ## The walk of an expansion -/

namespace Expansion

variable {σ : Type} {steady : Prop} {grammar : Grammar} {params : GrowthParams}

/-- Handles with one of them renamed. -/
def relabel (old new : JointId) (j : JointId) : JointId := if j = old then new else j

theorem relabel_self (old new : JointId) : relabel old new old = new := if_pos rfl

theorem relabel_of_ne {old j : JointId} (h : j ≠ old) (new : JointId) : relabel old new j = j :=
  if_neg h

theorem rename_relabel_of_ne {n : Node} {old : JointId} (hentry : n.entry ≠ old) (new : JointId) :
    n.rename (relabel old new) = { n with exit := relabel old new n.exit } := by
  rw [Node.rename, relabel_of_ne hentry]

/-- Whether or not a bridge is needed, it leads the turtle, under the new names, to the exit that
is taken over, and without a turn. -/
theorem Bridged.traces {made : List Turtle.Made} {stack : Stack} {s t : Nursery σ}
    {bridges : List Node} (h : Bridged grammar made stack s bridges t) {last : Node}
    (hlast : (made.map (·.node) ++ bridges).getLast? = some last)
    (houter : ∀ m, made.getLast? = some m → m.outer = true → stack.top.joint = m.node.exit)
    {angle : Scalar} {new : JointId} {opened : Nat} {there : Post}
    (hfit : Turtle.Fits steady angle (relabel last.exit new) opened stack.top there)
    (ruled : Char → Bool) (saved : List Post) :
    Traces steady angle ruled there saved [] (bridges.map (Node.rename (relabel last.exit new)))
      ⟨new, []⟩ saved := by
  have hjoint := hfit.joint_eq
  cases h with
  | unneeded hneeds =>
    -- the turtle stands on the last node, and its turns since have cancelled
    obtain ⟨⟨front, m, rfl, hm⟩, hzero⟩ := needsBridge_eq_false_iff.mp hneeds
    obtain rfl : m.node = last := by simpa using hlast
    rw [houter m (by simp) hm, relabel_self] at hjoint
    have hturns : steady → IsZero (Turn.total angle there.turns) :=
      fun hs => (hfit.rotation_same hs).isZero (isZero_of_beq hzero)
    rw [hjoint]
    exact .cancel hturns (.nil _ _)
  | @needed b t _ hb =>
    obtain rfl : b = last := by simpa using hlast
    -- the bridge starts where the turtle stands and takes up its turns
    have hbridge : Row.IsBridge steady angle there (b.rename (relabel b.exit new)) := {
      letter_eq := hb.letter_eq
      entry_eq := by
        rw [← hjoint, ← hb.entry_eq]
        rfl
      rotation_same := fun hs => by
        rw [show (b.rename _).rotation = stack.top.rotation from hb.rotation_eq]
        exact hfit.rotation_same hs }
    have hexit : (b.rename (relabel b.exit new)).exit = new := relabel_self b.exit new
    refine .bridge hbridge ?_
    rw [hexit]
    exact .nil _ saved

variable [RandomSource σ]

/-- The taking over of the exit joint as a renaming: no node but the last of an expansion uses
the exit joint that the last one was made with. -/
theorem Expanded.nodes_eq_map {old : Node} {rule : Rule (List Letter)} {s t : Nursery σ}
    {r : Replacement} (x : Expanded grammar params old rule s r t)
    (hentry : old.entry.index < s.site.skeleton.size)
    (hexit : old.exit.index < s.site.skeleton.size)
    (hsize : s.site.skeleton.size ≤ s.nextId.toNat + 1) :
    ∃ last, x.raw.getLast? = some last ∧ old.entry ≠ last.exit ∧
      r.nodes = x.raw.map (Node.rename (relabel last.exit old.exit)) := by
  obtain ⟨front, last, -, hraw, hnodes, -⟩ := x.nodes_eq hexit hsize
  have hne : old.entry ≠ last.exit := x.exit_ne hsize hentry (by simp [hraw])
  have hnodup := x.attached.nodup_exits hsize
  rw [hraw, List.map_append, List.map_singleton] at hnodup
  have hexits : ∀ m ∈ front, m.exit ≠ last.exit := by
    intro m hm he
    apply List.disjoint_of_nodup_append hnodup (List.mem_map_of_mem hm)
    rw [he]
    exact List.mem_singleton_self _
  have hpre := (x.raw_preorder (List.mem_singleton_self old.entry)).1
  rw [hraw, Row.IsPreorder.append_iff] at hpre
  -- where a node may start: at the start of all, or at the exit of an earlier one
  have hstart : ∀ j, j ∈ [old.entry] ∨ (∃ m ∈ front, m.exit = j) → j ≠ last.exit := by
    rintro j (hj | ⟨m, hm, rfl⟩)
    · rw [List.mem_singleton.mp hj]
      exact hne
    · exact hexits m hm
  refine ⟨last, by simp [hraw], hne, ?_⟩
  have hfront : front.map (Node.rename (relabel last.exit old.exit)) = front := by
    rw [List.map_congr_left (g := id), List.map_id]
    intro n hn
    rw [rename_relabel_of_ne (hstart _ (hpre.1.entry_mem hn)), relabel_of_ne (hexits n hn)]
    rfl
  rw [hnodes, hraw, List.map_append, List.map_singleton, hfront,
    rename_relabel_of_ne (hstart _ (Row.mem_trail hpre.2.1)), relabel_self]

/-- The nodes in the place of a node trace the text, from where the node started to where it
ended. -/
theorem Expanded.traces {old : Node} {rule : Rule (List Letter)} {s t : Nursery σ}
    {r : Replacement} (x : Expanded grammar params old rule s r t)
    (hentry : old.entry.index < s.site.skeleton.size)
    (hexit : old.exit.index < s.site.skeleton.size)
    (hsize : s.site.skeleton.size ≤ s.nextId.toNat + 1) {ruled : Char → Bool}
    (hlegible : ∀ letter ∈ x.text, Turtle.Legible ruled letter)
    (hcloses : Word.WellBracketed (x.text.map (·.char))) (hsteady : steady → Steady σ params)
    {here : Post} {saved : List Post}
    (hold : IsSymbol steady (toRadians params.angle) ruled here saved.length old) :
    Traces steady (toRadians params.angle) ruled here saved (x.text.map (·.char)) r.nodes
      ⟨old.exit, []⟩ saved := by
  obtain ⟨last, hlast, hne, hnodes⟩ := x.nodes_eq_map hentry hexit hsize
  have hstart : Turtle.Aligned steady (toRadians params.angle) (relabel last.exit old.exit)
      saved.length (Stack.ofFrame ⟨old.entry, old.rotation, old.depth⟩).frames [here] :=
    .cons ⟨(relabel_of_ne hne _).trans hold.entry_eq, hold.depth_eq, hold.rotation_same⟩ .nil
  have hcloses' : Word.closes ([] : List Post).length (x.text.map (·.char)) = true := hcloses
  obtain ⟨there, hend, hwalk⟩ := x.run.traces hlegible hsteady hcloses' hstart
  -- the brackets of the text match, so at its end only the lowest frame is left
  have htop : x.stack.frames = [x.stack.top] := by
    have hlength := hend.length_eq
    rw [x.stack.frames_eq_cons] at hlength ⊢
    rw [List.length_eq_zero_iff.mp (Nat.succ.inj hlength)]
  rw [htop] at hend
  have houter : ∀ m, x.made.getLast? = some m → m.outer = true →
      x.stack.top.joint = m.node.exit :=
    fun m hm hm' => x.run.joint_eq hm hm' _ x.stack.top_mem_frames
  cases hend with
  | cons hfit _ =>
    have hbridges := x.bridged.traces hlast houter hfit ruled saved
    rw [hnodes, Expanded.raw, List.map_append, List.map_map, ← List.append_nil (x.text.map _)]
    exact hwalk.trans hbridges

/-! ## The walk of a generation -/

/-- Text that a node is replaced with, if a rule applies to it. -/
def text? (grammar : Grammar) (old : Node) (source : σ) : Option (List Letter) :=
  match rule? grammar old with
  | none => none
  | some rule =>
    match rule.select source with
    | .ok (text, _) => some text
    | .error _ => none

/-- Texts that a pass over a row chooses, in order. -/
def chosen (grammar : Grammar) (params : GrowthParams) : List Node → Nursery σ → List (List Letter)
  | [], _ => []
  | old :: row, s =>
    match replace grammar params old s with
    | .ok _ t => (text? grammar old s.site.source).toList ++ chosen grammar params row t
    | .error _ _ => []

theorem chosen_cons {old : Node} {row : List Node} {s t : Nursery σ} {r : Replacement}
    (h : replace grammar params old s = .ok r t) :
    chosen grammar params (old :: row) s =
      (text? grammar old s.site.source).toList ++ chosen grammar params row t := by
  rw [chosen, h]

/-- The brackets of all texts match, and neither texts nor rules know the letter of the bridges. -/
structure IsBracketed (grammar : Grammar) : Prop where
  find?_bridge : grammar.find? bridgeLetter = none
  legible : ∀ {c : Char} {rule : Rule (List Letter)}, grammar.find? c = some rule →
    ∀ text ∈ rule.texts, ∀ letter ∈ text, Turtle.Legible grammar.contains letter
  closes : ∀ {c : Char} {rule : Rule (List Letter)}, grammar.find? c = some rule →
    ∀ text ∈ rule.texts, Word.WellBracketed (text.map (·.char))

/-- A rule selects one of its texts, or the empty text. -/
theorem select_eq_ok {rule : Rule (List Letter)} {text : List Letter} {source source' : σ}
    (h : rule.select source = .ok (text, source')) : text ∈ rule.texts ∨ text = [] := by
  unfold Rule.select at h
  split at h
  · cases h
    exact Or.inr rfl
  · rename_i text' htexts
    cases h
    exact Or.inl (by simp [htexts])
  · obtain ⟨i, source₁⟩ := RandomSource.index rule.texts.length source
    dsimp only at h
    split at h
    · rename_i text' htext
      cases h
      exact Or.inl (List.mem_of_getElem? htext)
    · cases h

/-- What holds of the letters of all texts of a rule holds of the letters of the one selected. -/
theorem forall_letter_of_select {P : Letter → Prop} {rule : Rule (List Letter)}
    {text : List Letter} {source source' : σ} (h : rule.select source = .ok (text, source'))
    (hrule : ∀ text ∈ rule.texts, ∀ letter ∈ text, P letter) : ∀ letter ∈ text, P letter := by
  rcases select_eq_ok h with hmem | rfl
  · exact hrule text hmem
  · simp

namespace IsBracketed

variable (hgrammar : IsBracketed grammar)
include hgrammar

theorem rule?_bridge {b : Node} (hb : b.letter = bridgeLetter) : rule? grammar b = none := by
  rw [rule?, hb, hgrammar.find?_bridge]
  exact ite_self none

/-- A node that stands for a letter is left as it is, if the letter has no rule, or else replaced
with nodes that trace the text. -/
theorem replace_symbol {old : Node} {s t : Nursery σ} {r : Replacement}
    (h : replace grammar params old s = .ok r t)
    (hentry : old.entry.index < s.site.skeleton.size)
    (hsize : s.site.skeleton.size ≤ s.nextId.toNat + 1) (hsteady : steady → Steady σ params)
    {here : Post} {saved : List Post}
    (hold : IsSymbol steady (toRadians params.angle) grammar.contains here saved.length old) :
    (grammar.contains old.letter = false ∧ text? grammar old s.site.source = none ∧
        r.nodes = [old]) ∨
      (grammar.contains old.letter = true ∧ ∃ text, text? grammar old s.site.source = some text ∧
        Traces steady (toRadians params.angle) grammar.contains here saved (text.map (·.char))
          r.nodes ⟨old.exit, []⟩ saved) := by
  obtain ⟨e, -, hexit, hexpand, hcarry⟩ := replace_eq_ok h
  have hcontains : grammar.contains old.letter = (grammar.find? old.letter).isSome := rfl
  have hrule : rule? grammar old = grammar.find? old.letter := by
    rw [rule?, hold.hasRule_eq, hcontains]
    cases grammar.find? old.letter <;> rfl
  have hsize' : (refreshed old e s).site.skeleton.size = s.site.skeleton.size :=
    Skeleton.size_put ..
  rw [text?, hcontains, hrule]
  rw [hrule] at hexpand hcarry
  cases hfind : grammar.find? old.letter with
  | none => exact Or.inl ⟨rfl, rfl, (hcarry hfind).1⟩
  | some rule =>
    obtain ⟨x⟩ := hexpand rule hfind
    have hselect : rule.select s.site.source = .ok (x.text, x.source) := x.select_eq
    refine Or.inr ⟨rfl, x.text, by simp only [hselect], ?_⟩
    apply x.traces (by rwa [hsize']) (by rwa [hsize']) (by rwa [hsize']) _ _ hsteady hold
    · exact forall_letter_of_select hselect (hgrammar.legible hfind)
    · -- a rule without texts selects the empty one
      rcases select_eq_ok hselect with hmem | hnil
      · exact hgrammar.closes hfind x.text hmem
      · rw [hnil]
        rfl

/-- The row after a pass traces the word rewritten with the chosen texts. -/
theorem traces_of_mapM {origin : Vec} {root : JointId} {here there : Post} {saved out : List Post}
    {w : List Char} {before row : List Node} {parts : List Replacement} {s t : Nursery σ}
    (hwalk : Traces steady (toRadians params.angle) grammar.contains here saved w row there out)
    (h : (row.mapM (replace grammar params)) s = .ok parts t)
    (hroot : Rooted origin root (before ++ row) s.site.skeleton s.nextId)
    (hsteady : steady → Steady σ params) :
    Traces steady (toRadians params.angle) grammar.contains here saved
      (Word.rewrite grammar.contains w
        ((chosen grammar params row s).map fun text => text.map (·.char)))
      (parts.flatMap (·.nodes)) there out := by
  -- one more node of the row: the rest of it is rooted behind what takes the place of the node
  have rest : ∀ {n : Node} {before row : List Node} {part : Replacement} {s r : Nursery σ},
      replace grammar params n s = .ok part r →
      Rooted origin root (before ++ n :: row) s.site.skeleton s.nextId →
      Rooted origin root ((before ++ part.nodes) ++ row) r.site.skeleton r.nextId :=
    fun hpart hroot =>
      hroot.replaced (replaced_of_replace hpart hroot.entry_ne_exit hroot.size_le)
  induction hwalk generalizing before parts s with
  | nil here saved =>
    obtain ⟨rfl, rfl⟩ := Outcome.mapM_nil_eq_ok.mp h
    exact .nil here saved
  | turn t ha _ ih =>
    rw [Word.rewrite_cons_of_not (by rw [Word.activates_of_turn ha]; rfl)]
    exact .turn t ha (ih h hroot)
  | save ha _ ih =>
    rw [Word.rewrite_cons_of_not (by rw [Word.activates, ha]; rfl)]
    exact .save ha (ih h hroot)
  | restore ha _ ih =>
    rw [Word.rewrite_cons_of_not (by rw [Word.activates, ha]; rfl)]
    exact .restore ha (ih h hroot)
  | @symbol here there saved out n w row hn _ ih =>
    obtain ⟨part, r, parts', hpart, hrest, rfl⟩ := Outcome.mapM_cons_eq_ok.mp h
    have htail := ih hrest (rest hpart hroot)
    have hentry := hroot.entry_inside (n := n) (by simp)
    rw [chosen_cons hpart, List.flatMap_cons]
    rcases hgrammar.replace_symbol hpart hentry hroot.size_le hsteady hn with
      ⟨hruled, htext, hnodes⟩ | ⟨hruled, text, htext, hnew⟩
    · rw [htext, hnodes, Option.toList_none, List.nil_append,
        Word.rewrite_cons_of_not (by rw [hruled, Bool.and_false])]
      exact .symbol hn htail
    · rw [htext, Option.toList_some, List.singleton_append, List.map_cons,
        Word.rewrite_cons_of_ruled (by rw [hn.activates, hruled]; rfl)]
      exact hnew.trans htail
  | @bridge here there saved out b w row hb _ ih =>
    obtain ⟨part, r, parts', hpart, hrest, rfl⟩ := Outcome.mapM_cons_eq_ok.mp h
    have hrule := hgrammar.rule?_bridge hb.letter_eq
    obtain ⟨e, -, -, -, hcarry⟩ := replace_eq_ok hpart
    rw [chosen_cons hpart, text?, hrule, List.flatMap_cons, (hcarry hrule).1]
    exact .bridge hb (ih hrest (rest hpart hroot))
  | cancel hzero _ ih => exact .cancel hzero (ih h hroot)

end IsBracketed

end Expansion

end PlantGrowth
