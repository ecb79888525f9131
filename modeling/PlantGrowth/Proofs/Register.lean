import PlantGrowth.Proofs.Reachable
import PlantGrowth.Proofs.Spelling

/-!
# The register of nodes

Identities are given out in order, and a node is told when it is made whether the grammar has a
rule for its letter. Neither is ever changed: `Node.Registered` says of a node that its identity
was given out between two moments and that it knows of its rule. `Plant.Reachable.registered`
says it of all nodes of a reachable plant. So what a generation makes can be told from what was
there before, and the nodes that it replaces are those whose letters have rules
(`Plant.Registered.rule?_eq_find?`).
-/

set_option autoImplicit false

namespace PlantGrowth

/-! ## Letters -/

/-- The letters of the texts say truly whether they have rules. -/
def Grammar.IsDescribed (grammar : Grammar) : Prop :=
  ∀ {c : Char} {rule : Rule (List Letter)}, grammar.find? c = some rule →
    ∀ text ∈ rule.texts, ∀ letter ∈ text, letter.hasRule = grammar.contains letter.char

/-- Letters made from rules know whether the rules replace them. -/
theorem Grammar.isDescribed_ofRules (rules : Rules String) : (ofRules rules).IsDescribed := by
  intro c rule hrule text htext letter hletter
  obtain ⟨rule', hrule', text', htext', rfl⟩ := texts_of_find? hrule htext
  obtain ⟨d, hd, rfl⟩ := List.mem_map.mp hletter
  exact (contains_ofRules rules d).symm

/-! ## Nodes -/

/-- The identity of the node is at least `lo` and below `hi`, and the node says truly whether its
letter has a rule. -/
structure Node.Registered (grammar : Grammar) (lo hi : UInt32) (n : Node) : Prop where
  lo_le : lo.toNat ≤ n.id.toNat
  lt_hi : n.id.toNat < hi.toNat
  hasRule_eq : n.hasRule = grammar.contains n.letter

theorem Node.Registered.mono {grammar : Grammar} {lo hi lo' hi' : UInt32} {n : Node}
    (h : n.Registered grammar lo hi) (hlo : lo'.toNat ≤ lo.toNat) (hhi : hi.toNat ≤ hi'.toNat) :
    n.Registered grammar lo' hi' :=
  ⟨hlo.trans h.lo_le, h.lt_hi.trans_le hhi, h.hasRule_eq⟩

/-- The identities of new nodes are given out in order. -/
theorem Attached.id_bounds {k k' : Skeleton} {id id' : UInt32} {ns : List Node}
    (h : Attached k id ns k' id') {n : Node} (hn : n ∈ ns) :
    id.toNat ≤ n.id.toNat ∧ n.id.toNat < id'.toNat := by
  induction h with
  | nil => cases hn
  | @cons k k' id next id' m ns e _ hid _ hnext hrest ih =>
    have hword : next.toNat = id.toNat + 1 := addWord_ok hnext
    rcases List.mem_cons.mp hn with rfl | hn
    · rw [hid, hrest.nextId_eq]
      omega
    · obtain ⟨hlo, hhi⟩ := ih hn
      omega

/-- Nodes made from a text know what its letters know. -/
theorem Turtle.Run.hasRule_eq {σ : Type} [RandomSource σ] {params : GrowthParams}
    {text : List Letter} {stack stack' : Stack} {s t : Nursery σ} {made : List Made}
    (h : Run params text stack s made stack' t) {ruled : Char → Bool}
    (htext : ∀ letter ∈ text, letter.hasRule = ruled letter.char) :
    ∀ n ∈ made.map (·.node), n.hasRule = ruled n.letter := by
  induction h with
  | nil => simp
  | silent _ _ ih => exact ih fun letter hletter => htext letter (List.mem_cons_of_mem _ hletter)
  | grow hstep _ ih =>
    cases hstep with
    | grow _ hgrew =>
      rw [List.map_cons, List.forall_mem_cons]
      refine ⟨?_, ih fun letter hletter => htext letter (List.mem_cons_of_mem _ hletter)⟩
      rw [hgrew.hasRule_eq, hgrew.letter_eq]
      exact htext _ List.mem_cons_self

namespace Expansion

variable {σ : Type} {grammar : Grammar} {params : GrowthParams} {old : Node}
  {rule : Rule (List Letter)} {s t : Nursery σ} {r : Replacement}

/-- A bridge knows whether its letter is replaced. -/
theorem Bridged.hasRule_eq {made : List Turtle.Made} {stack : Stack} {bridges : List Node}
    (h : Bridged grammar made stack s bridges t) :
    ∀ n ∈ bridges, n.hasRule = grammar.contains n.letter := by
  cases h with
  | unneeded _ => simp
  | needed _ hb =>
    intro n hn
    rw [List.mem_singleton.mp hn, hb.hasRule_eq, hb.letter_eq]

variable [RandomSource σ]

/-- An expansion registers its nodes. -/
theorem Expanded.registered (x : Expanded grammar params old rule s r t)
    (hdescribed : grammar.IsDescribed) (hrule : grammar.find? old.letter = some rule)
    (hexit : old.exit.index < s.site.skeleton.size)
    (hsize : s.site.skeleton.size ≤ s.nextId.toNat + 1) :
    ∀ n ∈ r.nodes, n.Registered grammar s.nextId t.nextId := by
  obtain ⟨front, last, j, hraw, hnodes, -, -, hid⟩ := x.nodes_eq hexit hsize
  have htext := forall_letter_of_select x.select_eq (hdescribed hrule)
  have hregistered : ∀ n ∈ x.raw, n.Registered grammar s.nextId t.nextId := by
    intro n hn
    obtain ⟨hlo, hhi⟩ := x.attached.id_bounds hn
    rw [← hid] at hhi
    refine ⟨hlo, hhi, ?_⟩
    rcases List.mem_append.mp hn with hn | hn
    · exact x.run.hasRule_eq htext n hn
    · exact x.bridged.hasRule_eq n hn
  rw [hraw, List.forall_mem_append, List.forall_mem_singleton] at hregistered
  obtain ⟨hfront, hlast⟩ := hregistered
  rw [hnodes, List.forall_mem_append, List.forall_mem_singleton]
  -- another exit is no other entry in the register
  exact ⟨hfront, hlast.lo_le, hlast.lt_hi, hlast.hasRule_eq⟩

/-- The rule by which a node is expanded is that of its letter. -/
theorem rule?_eq_find? (h : old.hasRule = grammar.contains old.letter) :
    rule? grammar old = grammar.find? old.letter := by
  rw [rule?, h, Rules.contains]
  cases grammar.find? old.letter <;> rfl

/-- The nodes that a generation puts in the place of a node: itself, or nodes registered between two
moments, from its entry to its exit. -/
structure Succeeded (grammar : Grammar) (lo hi : UInt32) (old : Node) (nodes : List Node) :
    Prop where
  carried : grammar.contains old.letter = false → nodes = [old]
  registered : grammar.contains old.letter = true → ∀ n ∈ nodes, n.Registered grammar lo hi
  preorder : Row.IsPreorder [old.entry] nodes
  last_exit : ∃ front last, nodes = front ++ [last] ∧ last.exit = old.exit

theorem Succeeded.mono {lo hi lo' hi' : UInt32} {nodes : List Node}
    (h : Succeeded grammar lo hi old nodes) (hlo : lo'.toNat ≤ lo.toNat)
    (hhi : hi.toNat ≤ hi'.toNat) : Succeeded grammar lo' hi' old nodes :=
  { h with registered := fun hc n hn => (h.registered hc n hn).mono hlo hhi }

/-- What takes the place of a node succeeds it: the node itself, or new nodes with identities from
the stretch between. -/
theorem succeeded_of_replace (h : replace grammar params old s = .ok r t)
    (hdescribed : grammar.IsDescribed) (hold : old.hasRule = grammar.contains old.letter)
    (hne : old.entry ≠ old.exit) (hsize : s.site.skeleton.size ≤ s.nextId.toNat + 1) :
    s.nextId.toNat ≤ t.nextId.toNat ∧ Succeeded grammar s.nextId t.nextId old r.nodes := by
  have hreplaced := replaced_of_replace h hne hsize
  obtain ⟨e, he, hexit, hexpand, hcarry⟩ := replace_eq_ok h
  have hpreorder : Row.IsPreorder [old.entry] r.nodes := by
    refine (hreplaced.preorder [old.entry] ?_ List.mem_cons_self).1
    intro j hj
    rw [List.mem_singleton.mp hj]
    exact Skeleton.index_lt_of_get? he
  have hlast : ∃ front last, r.nodes = front ++ [last] ∧ last.exit = old.exit := by
    obtain ⟨front, last, hnodes, hlast, -⟩ := hreplaced.last_exit
    exact ⟨front, last, hnodes, hlast⟩
  have hsize' : (refreshed old e s).site.skeleton.size = s.site.skeleton.size :=
    Skeleton.size_put ..
  -- the node knows of its rule, so that the grammar alone decides what becomes of it
  rw [rule?_eq_find? hold] at hexpand hcarry
  cases hrule : grammar.find? old.letter with
  | none =>
    obtain ⟨hnodes, rfl⟩ := hcarry hrule
    have hcontains : grammar.contains old.letter = false := by rw [Rules.contains, hrule]; rfl
    refine ⟨Nat.le_refl _, fun _ => hnodes, fun hc => ?_, hpreorder, hlast⟩
    rw [hcontains] at hc
    cases hc
  | some rule =>
    obtain ⟨x⟩ := hexpand rule hrule
    have hcontains : grammar.contains old.letter = true := by rw [Rules.contains, hrule]; rfl
    have hregistered := x.registered hdescribed hrule (by rwa [hsize']) (by rwa [hsize'])
    refine ⟨?_, fun hc => ?_, fun _ => hregistered, hpreorder, hlast⟩
    · obtain ⟨front, last, j, -, -, -, -, hid⟩ := x.nodes_eq (by rwa [hsize']) (by rwa [hsize'])
      rw [hid, x.attached.nextId_eq]
      exact Nat.le_add_right _ _
    · rw [hcontains] at hc
      cases hc

/-- In a pass over a rooted row every node is succeeded. -/
theorem succeeded_of_mapM {origin : Vec} {root : JointId} {before row : List Node}
    {parts : List Replacement} (h : (row.mapM (replace grammar params)) s = .ok parts t)
    (hdescribed : grammar.IsDescribed)
    (hrow : ∀ old ∈ row, old.hasRule = grammar.contains old.letter)
    (hroot : Rooted origin root (before ++ row) s.site.skeleton s.nextId) :
    s.nextId.toNat ≤ t.nextId.toNat ∧
      List.Forall₂ (fun old part => Succeeded grammar s.nextId t.nextId old part.nodes)
        row parts := by
  induction row generalizing before parts s with
  | nil =>
    obtain ⟨rfl, rfl⟩ := Outcome.mapM_nil_eq_ok.mp h
    exact ⟨Nat.le_refl _, .nil⟩
  | cons old row ih =>
    obtain ⟨part, r, parts', hpart, hrest, rfl⟩ := Outcome.mapM_cons_eq_ok.mp h
    rw [List.forall_mem_cons] at hrow
    have hrep := replaced_of_replace hpart hroot.entry_ne_exit hroot.size_le
    obtain ⟨hle, hfirst⟩ :=
      succeeded_of_replace hpart hdescribed hrow.1 hroot.entry_ne_exit hroot.size_le
    obtain ⟨hle', hsucceeded⟩ := ih hrest hrow.2 (hroot.replaced hrep)
    refine ⟨hle.trans hle', .cons (hfirst.mono (Nat.le_refl _) hle') ?_⟩
    exact hsucceeded.imp fun _ _ hs => hs.mono hle (Nat.le_refl _)

end Expansion

/-! ## Plants -/

/-- A frame does not touch the register of a node. -/
theorem Node.Grows.register_eq {σ : Type} [RandomSource σ] {m : Moment} {n : Node} {entry : Joint}
    {source source' : σ} {g : Grown} (h : n.Grows m entry source g source') :
    g.node.id = n.id ∧ g.node.letter = n.letter ∧ g.node.hasRule = n.hasRule := by
  cases h <;> exact ⟨rfl, rfl, rfl⟩

namespace Plant

/-- The nodes of the plant are registered, and its grammar is described. -/
structure Registered (p : Plant) : Prop where
  described : p.grammar.IsDescribed
  nodes : ∀ n ∈ p.nodes, n.Registered p.grammar 0 p.nextId

variable {σ : Type} [RandomSource σ] {origin : Vec}

theorem registered_of_sprout {letter : Char} {rules : Rules String} {params : GrowthParams}
    {s t : Surroundings σ} {p : Plant} (h : sprout letter rules params origin s = .ok p t) :
    Registered p := by
  obtain ⟨node, m, hseed, rfl, -⟩ := sprout_eq_ok h
  refine ⟨Grammar.isDescribed_ofRules rules, ?_⟩
  intro n hn
  obtain rfl : n = node := List.mem_singleton.mp hn
  obtain ⟨hlo, hhi⟩ := hseed.attached.1.id_bounds List.mem_cons_self
  refine ⟨hlo, hhi, ?_⟩
  cases hseed with
  | grown _ hgrew =>
    rw [hgrew.hasRule_eq, hgrew.letter_eq]
    rfl
  | inert _ _ hletter _ _ _ hrule _ => rw [hrule, hletter]

theorem Registered.tick {p p' : Plant} {time : Scalar} {noise : Noise} {marks : List Mark}
    {s t : Surroundings σ} {root : JointId} (hp : Registered p)
    (hroot : Rooted origin root p.nodes p.skeleton p.nextId)
    (h : p.tick time noise s = .ok (p', marks) t) : Registered p' := by
  obtain ⟨nodes, k, source, hgrow, rfl, -⟩ := tick_eq_ok h
  obtain ⟨results, rfl, -, hshown, -⟩ := shown_of_growAll hgrow hroot
  refine ⟨hp.described, ?_⟩
  intro n hn
  obtain ⟨result, hr, rfl⟩ := List.mem_map.mp hn
  obtain ⟨old, hold, e, x, source₁, source₂, -, -, hgrows⟩ := exists_shown hshown hr
  obtain ⟨hid, hletter, hrule⟩ := hgrows.register_eq
  obtain ⟨hlo, hhi, hhas⟩ := hp.nodes old hold
  exact ⟨by rwa [hid], by rwa [hid], by rw [hrule, hletter, hhas]⟩

/-- A generation in which every node is succeeded, and the names that the handles have then. -/
theorem Registered.exists_succeeded {p p' : Plant} {tally : Tally} {s t : Surroundings σ}
    {root : JointId} (hp : Registered p) (hroot : Rooted origin root p.nodes p.skeleton p.nextId)
    (h : p.generate s = .ok (p', tally) t) :
    ∃ (parts : List Replacement) (ρ : JointId → JointId) (k : Skeleton),
      p'.nodes = (parts.flatMap (·.nodes)).map (Node.rename ρ) ∧
      Renamed ρ (Row.handles (parts.flatMap (·.nodes))) k p'.skeleton ∧
      p'.grammar = p.grammar ∧ p.nextId.toNat ≤ p'.nextId.toNat ∧
      List.Forall₂ (fun old part => Expansion.Succeeded p.grammar p.nextId p'.nextId old part.nodes)
        p.nodes parts := by
  obtain ⟨parts, m, ρ, hparts, -, -, hnodes, hrenamed, hid, -, hgrammar⟩ :=
    exists_renamed_of_generate hroot h
  have hstart : Rooted origin root ([] ++ p.nodes) p.skeleton p.nextId := hroot
  obtain ⟨hle, hsucceeded⟩ := Expansion.succeeded_of_mapM hparts hp.described
    (fun old hold => (hp.nodes old hold).hasRule_eq) hstart
  rw [← hid] at hle hsucceeded
  exact ⟨parts, ρ, m.site.skeleton, hnodes, hrenamed, hgrammar, hle, hsucceeded⟩

/-- A generation enters its new nodes into the register. -/
theorem Registered.generate {p p' : Plant} {tally : Tally} {s t : Surroundings σ} {root : JointId}
    (hp : Registered p) (hroot : Rooted origin root p.nodes p.skeleton p.nextId)
    (h : p.generate s = .ok (p', tally) t) : Registered p' := by
  obtain ⟨parts, ρ, k, hnodes, -, hgrammar, hle, hsucceeded⟩ := hp.exists_succeeded hroot h
  rw [← hgrammar] at hsucceeded
  refine ⟨by rw [hgrammar]; exact hp.described, ?_⟩
  have hregistered : ∀ n ∈ parts.flatMap (·.nodes), n.Registered p'.grammar 0 p'.nextId := by
    intro n hn
    obtain ⟨part, hpart, hn⟩ := List.mem_flatMap.mp hn
    obtain ⟨old, hold, hs⟩ := exists_of_forall₂ hsucceeded hpart
    have hkept := hp.nodes old hold
    rw [← hgrammar] at hkept
    cases hcontains : p'.grammar.contains old.letter with
    | false =>
      rw [hs.carried hcontains, List.mem_singleton] at hn
      rw [hn]
      exact hkept.mono (Nat.le_refl _) hle
    | true => exact (hs.registered hcontains n hn).mono (Nat.zero_le _) (Nat.le_refl _)
  intro n hn
  rw [hnodes] at hn
  obtain ⟨old, hold, rfl⟩ := List.mem_map.mp hn
  obtain ⟨hlo, hhi, hrule⟩ := hregistered old hold
  exact ⟨hlo, hhi, hrule⟩

end Plant

/-- The nodes of a plant that can be reached are registered. -/
theorem Plant.Reachable.registered {origin : Vec} {p : Plant} (h : Reachable origin p) :
    Registered p := by
  induction h with
  | sprout h => exact registered_of_sprout h
  | generate hp h ih =>
    obtain ⟨root, hroot⟩ := hp.sound.rooted
    exact ih.generate hroot h
  | tick hp h ih =>
    obtain ⟨root, hroot⟩ := hp.sound.rooted
    exact ih.tick hroot h

end PlantGrowth
