import PlantGrowth.Proofs.Depths
import PlantGrowth.Proofs.Regrowth

/-!
# Counters

How far the counters of a plant may come in one generation. Each letter of a text raises the age,
the next identity and the number of brackets by at most one, and grows at most one node
(`Turtle.Step.within`, `Turtle.Step.brackets_le`). So what takes the place of a node is at most one
node more than its text has letters, and the counters are raised by no more than that
(`Expansion.counts_of_replace`). For a generation this gives `Plant.within_of_generate`, where `L`
bounds the length of the texts, `N` the counters before and `M` the number of nodes.
-/

set_option autoImplicit false

namespace PlantGrowth

/-! ## Brackets -/

namespace Stack

/-- Number of brackets read. -/
def brackets (s : Stack) : Nat := s.saves.toNat + s.restores.toNat + s.strays.toNat

/-- Stepping and turning count no bracket. -/
@[simp] theorem brackets_setTop (s : Stack) (frame : Frame) :
    (s.setTop frame).brackets = s.brackets := by
  unfold setTop brackets
  split <;> rfl

theorem brackets_save {s t : Stack} (h : s.save = .ok t) : t.brackets = s.brackets + 1 := by
  simp only [save, Outcome.except_bind_eq_ok, Outcome.except_pure_eq_ok] at h
  obtain ⟨depth, -, saves, hsaves, rfl⟩ := h
  have hone : (1 : UInt32).toNat = 1 := rfl
  have := addWord_ok hsaves
  simp only [brackets]
  omega

theorem brackets_restore {s t : Stack} {matched : Bool} (h : s.restore = .ok (matched, t)) :
    t.brackets = s.brackets + 1 := by
  have hone : (1 : UInt32).toNat = 1 := rfl
  unfold restore at h
  split at h
  · simp only [Outcome.except_bind_eq_ok, Outcome.except_pure_eq_ok, Prod.mk.injEq] at h
    obtain ⟨restores, hrestores, -, rfl⟩ := h
    have := addWord_ok hrestores
    simp only [brackets]
    omega
  · simp only [Outcome.except_bind_eq_ok, Outcome.except_pure_eq_ok, Prod.mk.injEq] at h
    obtain ⟨strays, hstrays, -, rfl⟩ := h
    have := addWord_ok hstrays
    simp only [brackets]
    omega

end Stack

/-! ## Texts -/

/-- The age and the next identity are at most `N`. -/
structure Nursery.Within {σ : Type} (s : Nursery σ) (N : Nat) : Prop where
  age : s.age.toNat ≤ N
  nextId : s.nextId.toNat ≤ N

namespace Turtle

variable {σ : Type} [RandomSource σ] {params : GrowthParams} {letter : Letter}
  {stack stack' : Stack} {s t : Nursery σ} {N : Nat}

/-- A step raises the age at most to one more than the depth of the top frame. -/
theorem Step.age_le {node? : Option Node} (h : Step params letter stack s node? stack' t) :
    t.age.toNat ≤ max s.age.toNat (stack.top.depth.toNat + 1) := by
  cases h with
  | turnLeft _ => exact Nat.le_max_left ..
  | turnRight _ => exact Nat.le_max_left ..
  | save _ hsave =>
    obtain ⟨depth, hdepth, hframes⟩ := Stack.save_eq_ok hsave
    rw [stack'.frames_eq_cons] at hframes
    have htop : stack'.top.depth = depth := by rw [(List.cons.inj hframes).1]
    show (max s.age stack'.top.depth).toNat ≤ _
    rw [toNat_max, htop, addWord_ok hdepth]
    exact Nat.le_refl _
  | restore _ _ _ hage _ =>
    rw [hage]
    exact Nat.le_max_left ..
  | grow _ hgrew =>
    rw [hgrew.age_eq]
    exact Nat.le_max_left ..

/-- A step counts at most one bracket. -/
theorem Step.brackets_le {node? : Option Node} (h : Step params letter stack s node? stack' t) :
    stack'.brackets ≤ stack.brackets + 1 := by
  cases h with
  | turnLeft _ => simp [Stack.turn]
  | turnRight _ => simp [Stack.turn]
  | save _ hsave => exact (Stack.brackets_save hsave).le
  | restore _ hrestore _ _ _ => exact (Stack.brackets_restore hrestore).le
  | grow _ hgrew => simp [hgrew.stack_eq]

/-- A step raises the age and the next identity by at most one. -/
theorem Step.within {node? : Option Node} (h : Step params letter stack s node? stack' t)
    (hs : Shallow s.age stack) (hN : s.Within N) : t.Within (N + 1) := by
  have hage := h.age_le
  have htop := UInt32.le_iff_toNat_le.mp hs.top
  have hbefore := hN.age
  refine ⟨by omega, ?_⟩
  cases node? with
  | none =>
    rw [h.site_of_none.2]
    exact Nat.le_succ_of_le hN.nextId
  | some node =>
    cases h with
    | grow _ hgrew =>
      rw [hgrew.attached.nextId_eq]
      exact Nat.succ_le_succ hN.nextId

/-- Each letter of a text takes at most one identity and adds at most one to the age. -/
theorem Run.within {text : List Letter} {made : List Made}
    (h : Run params text stack s made stack' t) (hs : Shallow s.age stack) (hN : s.Within N) :
    t.Within (N + text.length) := by
  -- letter by letter; the frames stay shallow, else a saved frame could raise the age by more
  induction h generalizing N with
  | nil => exact hN
  | @silent letter text _ _ _ _ _ _ _ hstep _ ih =>
    rw [List.length_cons, Nat.add_comm text.length, ← Nat.add_assoc]
    exact ih (hstep.shallow hs).2.1 (hstep.within hs hN)
  | @grow letter text _ _ _ _ _ _ _ _ hstep _ ih =>
    rw [List.length_cons, Nat.add_comm text.length, ← Nat.add_assoc]
    exact ih (hstep.shallow hs).2.1 (hstep.within hs hN)

/-- Neither brackets nor nodes are more than the letters of the text. -/
theorem Run.counts_le {text : List Letter} {made : List Made}
    (h : Run params text stack s made stack' t) :
    stack'.brackets ≤ stack.brackets + text.length ∧ made.length ≤ text.length := by
  induction h with
  | nil => exact ⟨Nat.le_refl _, Nat.le_refl _⟩
  | silent hstep _ ih =>
    have := hstep.brackets_le
    rw [List.length_cons]
    omega
  | grow hstep _ ih =>
    have := hstep.brackets_le
    rw [List.length_cons, List.length_cons]
    omega

end Turtle

/-! ## Expansions -/

/-- No text of the grammar is longer than `L`. -/
def Grammar.TextsWithin (g : Grammar) (L : Nat) : Prop :=
  ∀ letter rule, g.find? letter = some rule → ∀ text ∈ rule.texts, text.length ≤ L

/-- Number of brackets counted. -/
def Tally.brackets (t : Tally) : Nat := t.saves.toNat + t.restores.toNat + t.strays.toNat

namespace Expansion

variable {σ : Type} [RandomSource σ] {grammar : Grammar} {params : GrowthParams} {old : Node}
  {s t : Nursery σ} {r : Replacement} {L N : Nat}

omit [RandomSource σ] in
theorem Bridged.length_le {made : List Turtle.Made} {stack : Stack} {bridges : List Node}
    (h : Bridged grammar made stack s bridges t) : bridges.length ≤ 1 := by
  cases h with
  | unneeded _ => exact Nat.zero_le 1
  | needed _ _ => exact Nat.le_refl 1

omit [RandomSource σ] in
theorem length_relinkLast {target : JointId} {row row' : List Node} {s t : Site σ}
    (h : relinkLast target row s = .ok row' t) : row'.length = row.length := by
  rcases relinkLast_eq_ok h with ⟨rfl, rfl⟩ | ⟨front, last, rfl, rfl⟩
  · rfl
  · simp

omit [RandomSource σ] in
/-- The rule for a node is the one for its letter. -/
theorem find?_of_rule? {rule : Rule (List Letter)} (h : rule? grammar old = some rule) :
    grammar.find? old.letter = some rule := by
  unfold rule? at h
  split at h
  · exact h
  · cases h

namespace Expanded

variable {rule : Rule (List Letter)}

/-- An expansion takes at most as many identities as its text has letters, and one for the bridge.
-/
theorem within (x : Expanded grammar params old rule s r t) (hold : old.depth ≤ s.age)
    (hN : s.Within N) : t.Within (N + x.text.length + 1) := by
  have hrun := x.run.within (Turtle.shallow_ofFrame hold) ⟨hN.age, hN.nextId⟩
  have hage := x.bridged.age_eq
  have hid := x.bridged.attached.nextId_eq
  have hlength := x.bridged.length_le
  obtain ⟨site, -, ht⟩ := x.relink_eq
  have hage' : t.age = x.afterBridge.age := (congrArg Nursery.age ht).trans rfl
  have hid' : t.nextId = x.afterBridge.nextId := (congrArg Nursery.nextId ht).trans rfl
  constructor
  · rw [hage', hage]
    exact Nat.le_succ_of_le hrun.age
  · rw [hid', hid]
    exact Nat.add_le_add hrun.nextId hlength

/-- The nodes and the brackets of an expansion are bounded by its text. -/
theorem counts_le (x : Expanded grammar params old rule s r t) :
    r.nodes.length ≤ x.text.length + 1 ∧ r.tally.brackets ≤ x.text.length := by
  obtain ⟨hbrackets, hmade⟩ := x.run.counts_le
  obtain ⟨site, hlast, -⟩ := x.relink_eq
  have hlength := x.bridged.length_le
  constructor
  · rw [length_relinkLast hlast, List.length_append, List.length_map]
    omega
  · rw [x.tally_eq]
    exact hbrackets.trans (by simp [Stack.ofFrame, Stack.brackets])

theorem text_length_le (x : Expanded grammar params old rule s r t) (hL : grammar.TextsWithin L)
    (hrule : rule? grammar old = some rule) : x.text.length ≤ L := by
  rcases select_eq_ok x.select_eq with hmem | hnil
  · exact hL _ _ (find?_of_rule? hrule) _ hmem
  · rw [hnil]
    exact Nat.zero_le L

end Expanded

/-- A node without a rule is carried over, and counted as such. -/
theorem carried_of_replace (h : replace grammar params old s = .ok r t)
    (hrule : rule? grammar old = none) :
    r = ⟨[old], { carried := 1 }⟩ ∧ t.age = s.age ∧ t.nextId = s.nextId := by
  simp only [replace, hrule, Outcome.bind_eq_ok, Outcome.pure_eq_ok, Build.onSite_eq_ok] at h
  obtain ⟨u, n, ⟨site, -, rfl⟩, rfl, rfl⟩ := h
  exact ⟨rfl, rfl, rfl⟩

/-- What takes the place of a node raises the counters by at most one more than the longest text,
and is at most as many nodes. -/
theorem counts_of_replace (hL : grammar.TextsWithin L) (h : replace grammar params old s = .ok r t)
    (hold : old.depth ≤ s.age) (hN : s.Within N) :
    t.Within (N + (L + 1)) ∧ r.nodes.length ≤ L + 1 ∧ r.tally.brackets ≤ L := by
  obtain ⟨e, -, -, hexpand, hcarry⟩ := replace_eq_ok h
  cases hrule : rule? grammar old with
  | some rule =>
    obtain ⟨x⟩ := hexpand rule hrule
    have htext := x.text_length_le hL hrule
    have hwithin := x.within hold ⟨hN.age, hN.nextId⟩
    obtain ⟨hnodes, hbrackets⟩ := x.counts_le
    exact ⟨⟨hwithin.age.trans (by omega), hwithin.nextId.trans (by omega)⟩, by omega, by omega⟩
  | none =>
    obtain ⟨rfl, hage, hid⟩ := carried_of_replace h hrule
    rw [List.length_singleton]
    exact ⟨⟨by rw [hage]; exact hN.age.trans (Nat.le_add_right ..),
      by rw [hid]; exact hN.nextId.trans (Nat.le_add_right ..)⟩, Nat.le_add_left .., Nat.zero_le L⟩

/-- A pass makes of each node at most one more than the longest text has letters, and takes as many
identities. -/
theorem counts_of_mapM {row : List Node} {parts : List Replacement} (hL : grammar.TextsWithin L)
    (h : (row.mapM (replace grammar params)) s = .ok parts t) (hrow : ∀ n ∈ row, n.depth ≤ s.age)
    (hN : s.Within N) :
    t.Within (N + row.length * (L + 1)) ∧
      (parts.flatMap (·.nodes)).length ≤ row.length * (L + 1) ∧
      (parts.map (·.tally.brackets)).sum ≤ row.length * L := by
  -- the nodes behind the first start with counters that its replacement has already raised
  induction row generalizing s parts N with
  | nil =>
    obtain ⟨rfl, rfl⟩ := Outcome.mapM_nil_eq_ok.mp h
    exact ⟨by simpa using hN, by simp, by simp⟩
  | cons old row ih =>
    obtain ⟨r, u, parts', hr, hrest, rfl⟩ := Outcome.mapM_cons_eq_ok.mp h
    have hold := hrow old List.mem_cons_self
    obtain ⟨hwithin, hnodes, hbrackets⟩ := counts_of_replace hL hr hold hN
    have hage := (depth_le_of_replace hr hold).1
    obtain ⟨hwithin', hnodes', hbrackets'⟩ := ih hrest
      (fun n hn => UInt32.le_trans (hrow n (List.mem_cons_of_mem old hn)) hage) hwithin
    rw [List.flatMap_cons, List.length_append, List.map_cons, List.sum_cons, List.length_cons,
      Nat.succ_mul, Nat.succ_mul, Nat.add_comm (row.length * (L + 1)), ← Nat.add_assoc]
    exact ⟨hwithin', by omega, by omega⟩

end Expansion

/-! ## Plants -/

namespace Plant

/-- The age and the next identity are at most `N`, the nodes at most `M`. -/
structure Within (p : Plant) (N M : Nat) : Prop where
  age : p.age.toNat ≤ N
  nextId : p.nextId.toNat ≤ N
  nodes : p.nodes.length ≤ M

variable {σ : Type} [RandomSource σ] {origin : Vec} {p p' : Plant} {s t : Surroundings σ}
  {L N M : Nat}

/-- A plant within bounds is within larger ones after a generation, told from the lengths of the
texts. -/
theorem within_of_generate {tally : Tally} (hp : Reachable origin p)
    (hL : p.grammar.TextsWithin L) (hpN : p.Within N M) (h : p.generate s = .ok (p', tally) t) :
    p'.Within (N + M * (L + 1)) (M * (L + 1)) := by
  obtain ⟨root, hroot⟩ := hp.sound.rooted
  obtain ⟨parts, m, ρ, hparts, -, -, hnodes, -, hid, -, -⟩ := exists_renamed_of_generate hroot h
  obtain ⟨hwithin, hlength, -⟩ := Expansion.counts_of_mapM hL hparts hp.depth_le_age
    ⟨hpN.age, hpN.nextId⟩
  have hmul : p.nodes.length * (L + 1) ≤ M * (L + 1) := Nat.mul_le_mul_right (L + 1) hpN.nodes
  constructor
  · rw [age_of_generate h hparts]
    exact hwithin.age.trans (by omega)
  · rw [hid]
    exact hwithin.nextId.trans (by omega)
  · rw [hnodes, List.length_map]
    omega

/-- Every plant starts at age one. -/
theorem age_of_sprout {letter : Char} {rules : Rules String} {params : GrowthParams}
    (h : sprout letter rules params origin s = .ok p t) : p.age.toNat = 1 := by
  simp only [sprout, Outcome.bind_eq_ok, Outcome.pure_eq_ok, Garden.note_eq_ok] at h
  obtain ⟨⟨node, nursery⟩, r, hbuild, u, r', -, rfl, -⟩ := h
  obtain ⟨m, hseed, rfl, -⟩ := Garden.build_eq_ok.mp hbuild
  simp only [seed, Outcome.bind_eq_ok] at hseed
  obtain ⟨⟨node?, stack⟩, m', hread, hseed⟩ := hseed
  -- even an opening bracket gets only to depth one
  have hstep := Turtle.step_of_read hread
  have hlow := (hstep.shallow (Turtle.shallow_ofFrame UInt32.zero_le)).1
  have hage : m'.age.toNat = 1 :=
    Nat.le_antisymm hstep.age_le (UInt32.le_iff_toNat_le.mp hlow)
  cases node? with
  | some n =>
    obtain ⟨-, rfl⟩ := Outcome.pure_eq_ok.mp hseed
    exact hage
  | none =>
    simp only [Outcome.bind_eq_ok, Build.note_eq_ok, Build.freshId_eq_ok,
      Build.onSite_eq_ok] at hseed
    obtain ⟨v, m₁, rfl, id, m₂, ⟨next, -, -, rfl⟩, site, -, rfl⟩ := hseed
    exact hage

/-- A plant is sprouted at age one and has one node. -/
theorem within_of_sprout {letter : Char} {rules : Rules String} {params : GrowthParams}
    (h : sprout letter rules params origin s = .ok p t) : p.Within 1 1 := by
  have hage := age_of_sprout h
  obtain ⟨node, m, hseed, rfl, -⟩ := sprout_eq_ok h
  refine ⟨hage.le, ?_, Nat.le_refl 1⟩
  rw [hseed.attached.1.nextId_eq]
  exact Nat.le_refl 1

end Plant

end PlantGrowth
