import PlantGrowth.Proofs.Faultless

/-!
# Stages of a construction

A construction numbers two things: nodes by their identities and joints by their handles. A
`BuildStage` is what these depend on at one moment: the skeleton, the next identity, the handles
that nodes and frames hold, and whether a joint is about to be made. A node takes its identity first
and its joint afterwards, and between the two the stage is `pending`.

`Turtle.Visits`, `Expansion.Visits`, `Expansion.PassVisits` and `Plant.SeedVisits` are the stages of
a text, of a replacement, of a pass over a row and of a first node, with one constructor for each
place at which an identity is taken, a joint is made or one computation hands over to the next.
`Plant.Visits` collects the stages of all plants sown at an origin, inside their generations and
frames as well. No stop is left out: a construction ends, with a result or with a fault, at one of
its stages (`Plant.exists_visits_of_seed`, `Plant.exists_visits_of_replaceAll`,
`Plant.exists_visits_of_growAll`).
-/

set_option autoImplicit false

namespace PlantGrowth

/-! ## Where computations end -/

namespace Outcome

variable {ε σ α β : Type}

/-- State in which a computation ended, with a result or with a fault. -/
def state : EStateM.Result ε σ α → σ
  | .ok _ s => s
  | .error _ s => s

theorem bind_of_error {x : EStateM ε σ α} {f : α → EStateM ε σ β} {e : ε} {s t : σ}
    (h : x s = .error e t) : (x >>= f) s = .error e t :=
  bind_eq_error.mpr (Or.inl h)

/-- What follows a computation and stays in its state does not matter for where it ends. -/
theorem state_bind {x : EStateM ε σ α} {f : α → EStateM ε σ β} (h : ∀ a t, state (f a t) = t)
    (s : σ) : state ((x >>= f) s) = state (x s) := by
  cases hx : x s with
  | error e t => rw [bind_of_error hx]; rfl
  | ok a t => rw [bind_of_ok hx, h]; rfl

end Outcome

namespace OnSite

variable {σ : Type} {s t : Site σ} {e : Fault}

/-- Bringing an exit in line changes nothing where it fails. -/
theorem eq_of_refresh_eq_error {n : Node} (h : refresh n s = .error e t) : t = s := by
  simp only [refresh, Outcome.bind_eq_error, joint_eq_ok] at h
  rcases h with h | ⟨j, r, ⟨-, rfl⟩, h⟩
  · exact eq_of_joint_eq_error h
  · exact eq_of_setJoint_eq_error h

theorem eq_of_relink_eq_error {n : Node} {target : JointId} (h : relink n target s = .error e t) :
    t = s := by
  unfold relink at h
  split at h
  · exact (Outcome.pure_eq_error.mp h).elim
  · simp only [Outcome.bind_eq_error, Outcome.pure_eq_error, joint_eq_ok, and_false, exists_false,
      or_false] at h
    rcases h with h | ⟨j, r, ⟨-, rfl⟩, h⟩
    · exact eq_of_joint_eq_error h
    · exact eq_of_setJoint_eq_error h

end OnSite

theorem Expansion.eq_of_relinkLast_eq_error {σ : Type} {target : JointId} {row : List Node}
    {s t : Site σ} {e : Fault} (h : relinkLast target row s = .error e t) : t = s := by
  induction row with
  | nil => exact (Outcome.pure_eq_error.mp h).elim
  | cons n row ih =>
    cases row with
    | nil =>
      simp only [relinkLast, Outcome.bind_eq_error, Outcome.pure_eq_error, and_false, exists_false,
        or_false] at h
      exact OnSite.eq_of_relink_eq_error h
    | cons m row =>
      simp only [relinkLast, Outcome.bind_eq_error, Outcome.pure_eq_error, and_false, exists_false,
        or_false] at h
      exact ih h

/-! ## Stages -/

/-- What the numbers given out by a construction depend on at one moment of it. -/
structure BuildStage where
  skeleton : Skeleton
  /-- Identity of the next node. -/
  nextId : UInt32
  /-- Handles that nodes and frames hold. -/
  held : List JointId
  /-- Whether a joint is about to be made, for the root or for a node that has its identity. -/
  pending : Bool

/-- The stage with more handles held, by nodes that are not dealt with at the moment. -/
def BuildStage.holding (x : BuildStage) (more : List JointId) : BuildStage :=
  { x with held := more ++ x.held }

namespace Nursery

variable {σ : Type}

/-- The stage of a nursery, given who holds handles there and whether a joint is about to be
made. -/
def stage (s : Nursery σ) (held : List JointId) (pending : Bool) : BuildStage :=
  ⟨s.site.skeleton, s.nextId, held, pending⟩

/-- The nursery is at a stage. -/
structure At (s : Nursery σ) (x : BuildStage) : Prop where
  skeleton_eq : s.site.skeleton = x.skeleton
  nextId_eq : s.nextId = x.nextId

theorem at_stage (s : Nursery σ) (held : List JointId) (pending : Bool) :
    s.At (s.stage held pending) := ⟨rfl, rfl⟩

theorem At.holding {s : Nursery σ} {x : BuildStage} (h : s.At x) (more : List JointId) :
    s.At (x.holding more) := ⟨h.skeleton_eq, h.nextId_eq⟩

end Nursery

/-- Handles of the joints at which the frames stand. -/
def Stack.joints (s : Stack) : List JointId := s.frames.map (·.joint)

/-! ## Texts -/

namespace Turtle

variable {σ : Type} [RandomSource σ] {params : GrowthParams} {letter : Letter} {stack : Stack}
  {s t : Nursery σ} {e : Fault}

/-- Stages of a text: one before each letter and one at the end, and for each letter that makes a
node the one where the node has its identity and its joint is still to be made. -/
inductive Visits (params : GrowthParams) : List Letter → Stack → Nursery σ → BuildStage → Prop
  | here (text : List Letter) (stack : Stack) (s : Nursery σ) :
      Visits params text stack s (s.stage stack.joints false)
  | named {letter : Letter} (text : List Letter) (stack : Stack) {s t : Nursery σ} {id : UInt32} :
      letter.action.makesNode = true → Build.freshId s = .ok id t →
      Visits params (letter :: text) stack s (t.stage stack.joints true)
  | rest {letter : Letter} {text : List Letter} {stack stack' : Stack} {s t : Nursery σ}
      {node? : Option Node} {x : BuildStage} : read params letter stack s = .ok (node?, stack') t →
      Visits params text stack' t x →
      Visits params (letter :: text) stack s (x.holding (Row.handles node?.toList))

/-- The turtle fails before a letter, or with an identity for a node that has no joint. -/
theorem Fails.exists_visits (h : Fails params letter stack s e t) (text : List Letter) :
    ∃ x, Visits params (letter :: text) stack s x ∧ t.At x := by
  cases h with
  | save _ _ => exact ⟨_, .here _ stack s, s.at_stage _ _⟩
  | restore _ _ => exact ⟨_, .here _ stack s, s.at_stage _ _⟩
  | identity _ _ => exact ⟨_, .here _ stack s, s.at_stage _ _⟩
  | shape hmakes hid _ => exact ⟨_, .named text stack hmakes hid, t.at_stage _ _⟩
  | attach hmakes hid _ hskeleton hnext =>
    exact ⟨_, .named text stack hmakes hid, hskeleton, hnext⟩

/-- The nodes of a text are put together without changing the nursery in which it ended. -/
theorem state_readText_cons {text : List Letter} {node? : Option Node} {stack' : Stack}
    (h : read params letter stack s = .ok (node?, stack') t) :
    Outcome.state (readText params (letter :: text) stack s) =
      Outcome.state (readText params text stack' t) := by
  rw [readText, Outcome.bind_of_ok h]
  refine Outcome.state_bind ?_ t
  rintro ⟨made, stack''⟩ u
  cases node? <;> rfl

/-- The turtle stops at a stage of its text. -/
theorem exists_visits_of_readText (params : GrowthParams) (text : List Letter) (stack : Stack)
    (s : Nursery σ) : ∃ x, Visits params text stack s x ∧
      (Outcome.state (readText params text stack s)).At x := by
  -- the text stops at its first letter, or where the rest of it stops
  induction text generalizing stack s with
  | nil => exact ⟨_, .here [] stack s, s.at_stage _ _⟩
  | cons letter text ih =>
    cases hread : read params letter stack s with
    | error e t =>
      rw [readText, Outcome.bind_of_error hread]
      exact (fails_of_read hread).exists_visits text
    | ok r t =>
      obtain ⟨node?, stack'⟩ := r
      obtain ⟨x, hx, hat⟩ := ih stack' t
      rw [state_readText_cons hread]
      exact ⟨_, .rest hread hx, hat.holding _⟩

/-- A text that makes a node has a stage where the joint of that node is about to be made. -/
theorem exists_pending_of_readText {text : List Letter} {made : List Made} {stack' : Stack}
    (h : readText params text stack s = .ok (made, stack') t) (hmade : made ≠ []) :
    ∃ x, Visits params text stack s x ∧ x.pending = true := by
  induction text generalizing stack s made with
  | nil =>
    simp only [readText, Outcome.pure_eq_ok, Prod.mk.injEq] at h
    exact absurd h.1.1.symm hmade
  | cons letter text ih =>
    simp only [readText, Outcome.bind_eq_ok] at h
    obtain ⟨⟨node?, stack₁⟩, r, hread, ⟨made', stack₂⟩, r', hrest, h⟩ := h
    cases node? with
    | none =>
      simp only [Outcome.pure_eq_ok, Prod.mk.injEq] at h
      obtain ⟨⟨rfl, rfl⟩, rfl⟩ := h
      obtain ⟨x, hx, hpending⟩ := ih hrest hmade
      exact ⟨_, .rest hread hx, hpending⟩
    | some node =>
      -- the node was attached, so there was an identity for it
      cases step_of_read hread with
      | grow hmakes hgrew =>
        cases hgrew.attached with
        | cons _ _ _ hnext _ =>
          have hid := Build.freshId_eq_ok.mpr ⟨_, hnext, rfl, rfl⟩
          exact ⟨_, .named text stack hmakes hid, rfl⟩

end Turtle

/-! ## Replacements -/

namespace Expansion

variable {σ : Type} [RandomSource σ] {grammar : Grammar} {params : GrowthParams} {old : Node}
  {s t : Nursery σ} {e : Fault}

/-- The expansion of a node begins: its exit is in line, and a text is chosen by its rule. -/
def Opens (grammar : Grammar) (old : Node) (s : Nursery σ) (text : List Letter)
    (t : Nursery σ) : Prop :=
  ∃ rule u m, rule? grammar old = some rule ∧ Build.onSite (.refresh old) s = .ok u m ∧
    Build.onSite (.draw rule.select) m = .ok text t

/-- The text of an expansion is read, and the brackets it leaves open are noted. -/
def Reads (grammar : Grammar) (params : GrowthParams) (old : Node) (s : Nursery σ)
    (made : List Turtle.Made) (stack : Stack) (t : Nursery σ) : Prop :=
  ∃ text m n u, Opens grammar old s text m ∧
    Turtle.readText params text (.ofFrame ⟨old.entry, old.rotation, old.depth⟩) m =
      .ok (made, stack) n ∧ noteUnclosed old stack n = .ok u t

/-- Stages of a replacement: those of the text that is read in place of the node, and those of the
bridge behind it. -/
inductive Visits (grammar : Grammar) (params : GrowthParams) (old : Node) (s : Nursery σ) :
    BuildStage → Prop
  | start : Visits grammar params old s (s.stage (Row.handles [old]) false)
  | refreshed {u : Unit} {t : Nursery σ} : Build.onSite (.refresh old) s = .ok u t →
      Visits grammar params old s (t.stage (Row.handles [old]) false)
  | reading {text : List Letter} {t : Nursery σ} {x : BuildStage} : Opens grammar old s text t →
      Turtle.Visits params text (.ofFrame ⟨old.entry, old.rotation, old.depth⟩) t x →
      Visits grammar params old s (x.holding (Row.handles [old]))
  | named {made : List Turtle.Made} {stack : Stack} {t m : Nursery σ} {id : UInt32} :
      Reads grammar params old s made stack t → needsBridge made stack = true →
      Build.freshId t = .ok id m → Visits grammar params old s (m.stage
        (Row.handles (made.map (·.node)) ++ Row.handles [old] ++ stack.joints) true)
  | bridged {made : List Turtle.Made} {stack : Stack} {t m : Nursery σ} {b : Node} :
      Reads grammar params old s made stack t → needsBridge made stack = true →
      bridge grammar stack.top t = .ok b m → Visits grammar params old s (m.stage
        (Row.handles [b] ++ (Row.handles (made.map (·.node)) ++ Row.handles [old] ++ stack.joints))
        false)

theorem exists_visits_of_reads {made : List Turtle.Made} {stack : Stack}
    (h : Reads grammar params old s made stack t) :
    ∃ x, Visits grammar params old s x ∧ t.At x := by
  obtain ⟨text, m, n, u, hopens, hread, hnote⟩ := h
  obtain ⟨x, hx, hat⟩ := Turtle.exists_visits_of_readText params text
    (.ofFrame ⟨old.entry, old.rotation, old.depth⟩) m
  rw [hread] at hat
  obtain ⟨journal, rfl⟩ := journal_of_noteUnclosed hnote
  exact ⟨_, .reading hopens hx, hat.skeleton_eq, hat.nextId_eq⟩

theorem exists_visits_of_bridges_eq_error {made : List Turtle.Made} {stack : Stack}
    {m : Nursery σ} (hreads : Reads grammar params old s made stack m)
    (h : bridges grammar made stack m = .error e t) :
    ∃ x, Visits grammar params old s x ∧ t.At x := by
  unfold bridges at h
  split at h
  · rename_i hneeds
    rw [Outcome.map_eq_error] at h
    simp only [bridge, Outcome.bind_eq_error, Build.freshId_eq_error, Build.onSite_eq_error] at h
    rcases h with ⟨-, rfl⟩ | ⟨id, r, hid, site, h, rfl⟩
    · exact exists_visits_of_reads hreads
    · rw [OnSite.eq_of_attach_eq_error h]
      exact ⟨_, .named hreads hneeds hid, rfl, rfl⟩
  · exact (Outcome.pure_eq_error.mp h).elim

theorem exists_visits_of_bridges {made : List Turtle.Made} {stack : Stack} {ends : List Node}
    {m : Nursery σ} (hreads : Reads grammar params old s made stack m)
    (h : bridges grammar made stack m = .ok ends t) :
    ∃ x, Visits grammar params old s x ∧ t.At x := by
  unfold bridges at h
  split at h
  · rename_i hneeds
    obtain ⟨b, hb, -⟩ := Outcome.map_eq_ok.mp h
    exact ⟨_, .bridged hreads hneeds hb, t.at_stage _ _⟩
  · obtain ⟨-, rfl⟩ := Outcome.pure_eq_ok.mp h
    exact exists_visits_of_reads hreads

/-- A replacement that fails stops at one of its stages. -/
theorem exists_visits_of_replace_eq_error (h : replace grammar params old s = .error e t) :
    ∃ x, Visits grammar params old s x ∧ t.At x := by
  rw [replace, Outcome.bind_eq_error] at h
  rcases h with h | ⟨u, m, hrefresh, h⟩
  · obtain ⟨site, hsite, rfl⟩ := Build.onSite_eq_error.mp h
    rw [OnSite.eq_of_refresh_eq_error hsite]
    exact ⟨_, .start, s.at_stage _ _⟩
  cases hrule : rule? grammar old with
  | none =>
    simp only [hrule] at h
    exact (Outcome.pure_eq_error.mp h).elim
  | some rule =>
    simp only [hrule, expand_eq] at h
    simp only [Outcome.bind_eq_error, Outcome.pure_eq_error, and_false, exists_false,
      or_false] at h
    rcases h with h | ⟨text, m₁, hselect, h⟩
    · obtain ⟨site, hsite, rfl⟩ := Build.onSite_eq_error.mp h
      rw [← (OnSite.draw_eq_error.mp hsite).2]
      exact ⟨_, .refreshed hrefresh, m.at_stage _ _⟩
    have hopens : Opens grammar old s text m₁ := ⟨rule, u, m, hrule, hrefresh, hselect⟩
    rcases h with h | ⟨⟨made, stack⟩, m₂, hread, h⟩
    · obtain ⟨x, hx, hat⟩ := Turtle.exists_visits_of_readText params text
        (.ofFrame ⟨old.entry, old.rotation, old.depth⟩) m₁
      rw [h] at hat
      exact ⟨_, .reading hopens hx, hat.holding _⟩
    rcases h with h | ⟨u', m₃, hnote, h⟩
    · exact absurd h (noteUnclosed_ne_error old stack)
    have hreads : Reads grammar params old s made stack m₃ :=
      ⟨text, m₁, m₂, u', hopens, hread, hnote⟩
    rcases h with h | ⟨ends, m₄, hends, h⟩
    · exact exists_visits_of_bridges_eq_error hreads h
    · obtain ⟨site, hsite, rfl⟩ := Build.onSite_eq_error.mp h
      rw [eq_of_relinkLast_eq_error hsite]
      exact exists_visits_of_bridges hreads hends

/-- The expansion of a node has a stage where a joint is about to be made. -/
theorem exists_pending_of_replace {rule : Rule (List Letter)} {r : Replacement}
    (hrule : rule? grammar old = some rule) (h : replace grammar params old s = .ok r t) :
    ∃ x, Visits grammar params old s x ∧ x.pending = true := by
  obtain ⟨e, he, hexit, hexpand, -⟩ := replace_cases h
  have hrefresh : Build.onSite (.refresh old) s = .ok () (refreshed old e s) :=
    Build.onSite_eq_ok.mpr ⟨_, OnSite.refresh_eq_ok.mpr ⟨e, he, hexit, rfl⟩, rfl⟩
  have hexpand := hexpand rule hrule
  rw [expand_eq] at hexpand
  simp only [Outcome.bind_eq_ok] at hexpand
  obtain ⟨text, m₁, hselect, ⟨made, stack⟩, m₂, hread, u, m₃, hnote, ends, m₄, hends, -⟩ := hexpand
  have hopens : Opens grammar old s text m₁ := ⟨rule, (), _, hrule, hrefresh, hselect⟩
  -- either the last node of the text ends the expansion, or a bridge does
  cases hneeds : needsBridge made stack with
  | false =>
    obtain ⟨⟨front, last, hmade, -⟩, -⟩ := needsBridge_eq_false_iff.mp hneeds
    obtain ⟨x, hx, hpending⟩ := Turtle.exists_pending_of_readText hread (by simp [hmade])
    exact ⟨_, .reading hopens hx, hpending⟩
  | true =>
    rw [bridges, if_pos hneeds] at hends
    obtain ⟨b, hb, -⟩ := Outcome.map_eq_ok.mp hends
    obtain ⟨id, m, hid, -⟩ := Outcome.bind_eq_ok.mp hb
    exact ⟨_, .named ⟨text, m₁, m₂, u, hopens, hread, hnote⟩ hneeds hid, rfl⟩

/-- Stages of a pass over a row. While a node is replaced, the nodes behind it hold their handles,
and so do, from then on, the nodes that took its place. -/
inductive PassVisits (grammar : Grammar) (params : GrowthParams) :
    List Node → Nursery σ → BuildStage → Prop
  | done (s : Nursery σ) : PassVisits grammar params [] s (s.stage [] false)
  | here {old : Node} (row : List Node) {s : Nursery σ} {x : BuildStage} :
      Visits grammar params old s x →
      PassVisits grammar params (old :: row) s (x.holding (Row.handles row))
  | rest {old : Node} {row : List Node} {s t : Nursery σ} {r : Replacement} {x : BuildStage} :
      replace grammar params old s = .ok r t → PassVisits grammar params row t x →
      PassVisits grammar params (old :: row) s (x.holding (Row.handles r.nodes))

/-- A pass stops at one of its stages. -/
theorem exists_passVisits (grammar : Grammar) (params : GrowthParams) (row : List Node)
    (s : Nursery σ) : ∃ x, PassVisits grammar params row s x ∧
      (Outcome.state ((row.mapM (replace grammar params)) s)).At x := by
  -- the pass stops at its first node, or where the pass over the others stops
  induction row generalizing s with
  | nil => exact ⟨_, .done s, s.at_stage _ _⟩
  | cons old row ih =>
    rw [List.mapM_cons]
    cases hr : replace grammar params old s with
    | error e t =>
      obtain ⟨x, hx, hat⟩ := exists_visits_of_replace_eq_error hr
      rw [Outcome.bind_of_error hr]
      exact ⟨_, .here row hx, hat.holding _⟩
    | ok r t =>
      obtain ⟨x, hx, hat⟩ := ih t
      refine ⟨_, .rest hr hx, ?_⟩
      rw [Outcome.bind_of_ok hr, Outcome.state_bind fun _ _ => rfl]
      exact hat.holding _

/-- A pass that expands a node has a stage where a joint is about to be made. -/
theorem exists_pending_of_mapM {row : List Node} {parts : List Replacement}
    (h : (row.mapM (replace grammar params)) s = .ok parts t)
    (hrule : ∃ n ∈ row, (rule? grammar n).isSome) :
    ∃ x, PassVisits grammar params row s x ∧ x.pending = true := by
  induction row generalizing s parts with
  | nil => simp at hrule
  | cons old row ih =>
    obtain ⟨r, u, parts', hr, hrest, -⟩ := Outcome.mapM_cons_eq_ok.mp h
    rw [List.exists_mem_cons_iff] at hrule
    rcases hrule with hold | hrow
    · obtain ⟨rule, hold⟩ := Option.isSome_iff_exists.mp hold
      obtain ⟨x, hx, hpending⟩ := exists_pending_of_replace hold hr
      exact ⟨_, .here row hx, hpending⟩
    · obtain ⟨x, hx, hpending⟩ := ih hrest hrow
      exact ⟨_, .rest hr hx, hpending⟩

/-- The counts of a pass are added up where the pass ended. -/
theorem state_replaceAll (grammar : Grammar) (params : GrowthParams) (row : List Node)
    (s : Nursery σ) : Outcome.state (replaceAll grammar params row s) =
      Outcome.state ((row.mapM (replace grammar params)) s) := by
  refine Outcome.state_bind (fun parts t => ?_) s
  rw [Outcome.state_bind fun _ _ => rfl]
  unfold Build.check
  split <;> rfl

end Expansion

/-! ## Plants -/

namespace Plant

section Seed

variable {σ : Type} [RandomSource σ]

/-- Stages of a first node, grown by the turtle or put there for a letter that grows none. -/
inductive SeedVisits (grammar : Grammar) (params : GrowthParams) (letter : Char)
    (s : Nursery σ) : BuildStage → Prop
  | reading {x : BuildStage} : Turtle.Visits params [Grammar.letter grammar letter]
      (.ofFrame ⟨ground, 0, 0⟩) s x → SeedVisits grammar params letter s x
  | named {stack : Stack} {t r m : Nursery σ} {u : Unit} {id : UInt32} :
      Turtle.read params (Grammar.letter grammar letter) (.ofFrame ⟨ground, 0, 0⟩) s =
        .ok (none, stack) t →
      Build.note (.inertSeed letter) t = .ok u r → Build.freshId r = .ok id m →
      SeedVisits grammar params letter s (m.stage [ground] true)
  | done {node : Node} {t : Nursery σ} : seed grammar params letter ground s = .ok node t →
      SeedVisits grammar params letter s (t.stage (Row.handles [node]) false)

/-- A seed stops at one of its stages. -/
theorem exists_seedVisits (grammar : Grammar) (params : GrowthParams) (letter : Char)
    (s : Nursery σ) : ∃ x, SeedVisits grammar params letter s x ∧
      (Outcome.state (seed grammar params letter ground s)).At x := by
  cases h : seed grammar params letter ground s with
  | ok node t => exact ⟨_, .done h, t.at_stage _ _⟩
  | error e t =>
    show ∃ x, _ ∧ t.At x
    simp only [seed, Outcome.bind_eq_error] at h
    rcases h with h | ⟨⟨node?, stack⟩, r, hread, h⟩
    · obtain ⟨x, hx, hat⟩ := (Turtle.fails_of_read h).exists_visits []
      exact ⟨x, .reading hx, hat⟩
    cases node? with
    | some node => exact (Outcome.pure_eq_error.mp h).elim
    | none =>
      simp only [Outcome.bind_eq_error, Build.note_eq_error, Build.freshId_eq_error,
        Build.onSite_eq_error, false_or] at h
      obtain ⟨u, r', hnote, ⟨-, rfl⟩ | ⟨id, r'', hid, site, h, rfl⟩⟩ := h
      · have hr := Build.note_eq_ok.mp hnote
        refine ⟨_, .reading (.rest hread (.here [] stack r)), ?_, ?_⟩
        · rw [← hr]; rfl
        · rw [← hr]; rfl
      · rw [OnSite.eq_of_attach_eq_error h]
        exact ⟨_, .named hread hnote hid, rfl, rfl⟩

end Seed

/-- Stages of the plants sown at an origin, as they are made and as they go through generations
and frames. -/
inductive Visits (origin : Vec) : BuildStage → Prop
  /-- The joint of the root is about to be made. -/
  | bare : Visits origin ⟨.empty, 0, [], true⟩
  | sowing {σ : Type} [RandomSource σ] {letter : Char} {rules : Rules String}
      {params : GrowthParams} {s : Surroundings σ} {x : BuildStage} :
      SeedVisits (Grammar.ofRules rules) params letter
        ⟨⟨soil origin, s.source⟩, 1, 0, s.journal⟩ x → Visits origin x
  | standing {p : Plant} : Reachable origin p →
      Visits origin ⟨p.skeleton, p.nextId, Row.handles p.nodes, false⟩
  | replacing {σ : Type} [RandomSource σ] {p : Plant} {s : Surroundings σ} {x : BuildStage} :
      Reachable origin p → Expansion.PassVisits p.grammar p.params p.nodes
        ⟨⟨p.skeleton, s.source⟩, p.age, p.nextId, s.journal⟩ x → Visits origin x
  | compacted {σ : Type} [RandomSource σ] {p : Plant} {s : Surroundings σ} {next : Replacement}
      {m : Nursery σ} {c : Compacted} : Reachable origin p →
      Expansion.replaceAll p.grammar p.params p.nodes
        ⟨⟨p.skeleton, s.source⟩, p.age, p.nextId, s.journal⟩ = .ok next m →
      m.site.skeleton.compact next.nodes = .ok c →
      Visits origin ⟨c.skeleton, m.nextId, Row.handles c.nodes, false⟩
  /-- Some nodes have been grown in a frame, or a node could not be grown. -/
  | growing {σ : Type} [RandomSource σ] {p : Plant} {before after : List Node} (time : Scalar)
      (noise : Noise) (source : σ) : Reachable origin p → p.nodes = before ++ after →
      Visits origin ⟨(Outcome.state ((before.mapM (OnSite.growNode ⟨p.params, p.age, time, noise⟩))
        ⟨p.skeleton, source⟩)).skeleton, p.nextId, Row.handles p.nodes, false⟩

section Stops

variable {σ : Type} [RandomSource σ] {origin : Vec}

theorem exists_visits_of_seed (rules : Rules String) (params : GrowthParams) (letter : Char)
    (s : Surroundings σ) : ∃ x, Visits origin x ∧
      (Outcome.state (seed (Grammar.ofRules rules) params letter ground
        ⟨⟨soil origin, s.source⟩, 1, 0, s.journal⟩)).At x := by
  obtain ⟨x, hx, hat⟩ := exists_seedVisits (Grammar.ofRules rules) params letter
    (⟨⟨soil origin, s.source⟩, 1, 0, s.journal⟩ : Nursery σ)
  exact ⟨x, .sowing hx, hat⟩

theorem exists_visits_of_replaceAll {p : Plant} (hp : Reachable origin p) (s : Surroundings σ) :
    ∃ x, Visits origin x ∧ (Outcome.state (Expansion.replaceAll p.grammar p.params p.nodes
      ⟨⟨p.skeleton, s.source⟩, p.age, p.nextId, s.journal⟩)).At x := by
  obtain ⟨x, hx, hat⟩ := Expansion.exists_passVisits p.grammar p.params p.nodes
    ⟨⟨p.skeleton, s.source⟩, p.age, p.nextId, s.journal⟩
  rw [Expansion.state_replaceAll]
  exact ⟨x, .replacing hp hx, hat⟩

theorem exists_visits_of_growAll {p : Plant} (hp : Reachable origin p) (time : Scalar)
    (noise : Noise) (source : σ) : ∃ x, Visits origin x ∧ x.nextId = p.nextId ∧
      (Outcome.state (OnSite.growAll ⟨p.params, p.age, time, noise⟩ p.nodes
        ⟨p.skeleton, source⟩)).skeleton = x.skeleton := by
  refine ⟨_, .growing time noise source hp (List.append_nil p.nodes).symm, rfl, ?_⟩
  rw [OnSite.growAll, Outcome.state_bind fun _ _ => rfl]

end Stops

end Plant

end PlantGrowth
