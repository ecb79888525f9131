import PlantGrowth.Chance.Stream
import PlantGrowth.Proofs.Recompaction
import PlantGrowth.Proofs.Relocation

/-!
# Compaction cannot be observed

A compaction changes the names of handles and leaves out joints that nothing uses. No frame and no
generation afterwards can tell: on the compacted row every sequence of operations makes the same
reports, draws, journal entries and faults as on the row that was left as it was, and after every
operation the two rows differ in the names of handles alone (`Skeleton.compact_unobservable`).

The names of the handles in use come from the compaction (`Renamed`); those of joints made later
are smaller by the number of joints left out, and together they are a `Relocation`. What one
operation keeps is `Operation.apply_follows`, what a run keeps `Operation.run_follows`.
-/

set_option autoImplicit false

namespace PlantGrowth

open Outcome

/-! ## Operations on a row -/

/-- What is done to a row of nodes: a frame, or a generation without its compaction. -/
inductive Operation where
  | frame (params : GrowthParams) (time : Scalar) (noise : Noise)
  | pass (grammar : Grammar) (params : GrowthParams)

/-- What an operation reports. -/
inductive Report where
  | marks (marks : List Mark)
  | tally (tally : Tally)

/-- How things stand after an operation. -/
structure Stage (σ : Type) where
  nodes : List Node
  report : Report
  nursery : Nursery σ

namespace Operation

variable {σ : Type} [RandomSource σ]

def apply : Operation → List Node → Build σ (List Node × Report)
  | .frame params time noise, row => do
    let s ← get
    let (row, marks) ← Build.onSite (.growAll ⟨params, s.age, time, noise⟩ row)
    return (row, .marks marks)
  | .pass grammar params, row => do
    let next ← Expansion.replaceAll grammar params row
    return (next.nodes, .tally next.tally)

/-- One operation after the other, with the stages on the way. -/
def run : List Operation → List Node → Build σ (List (Stage σ))
  | [], _ => return []
  | o :: ops, row => do
    let (row, report) ← o.apply row
    let nursery ← get
    let later ← run ops row
    return ⟨row, report, nursery⟩ :: later

end Operation

/-! ## Rows under other names -/

/-- The row `row'` on the skeleton `k'` is the row on `k` under other names: its nodes differ only
in their handles, different handles have different names, and every handle has its joint under the
name. -/
structure Row.UnderNames (ρ : JointId → JointId) (k : Skeleton) (row : List Node) (k' : Skeleton)
    (row' : List Node) : Prop where
  nodes_eq : row' = row.map (Node.rename ρ)
  name_eq_iff : ∀ i ∈ handles row, ∀ j ∈ handles row, ρ i = ρ j ↔ i = j
  joint_eq : ∀ j ∈ handles row, ∃ x, k.get? j = some x ∧ k'.get? (ρ j) = some x

/-- What a nursery has besides its skeleton. -/
def Nursery.beyondSkeleton {σ : Type} (s : Nursery σ) : σ × UInt32 × UInt32 × Journal :=
  (s.site.source, s.age, s.nextId, s.journal)

/-- The nursery on another skeleton. -/
def Nursery.onto {σ : Type} (s : Nursery σ) (k : Skeleton) : Nursery σ :=
  { s with site := ⟨k, s.site.source⟩ }

/-- Two stages that differ only in the names of handles and in joints that no node uses. -/
structure Stage.UnderNames {σ : Type} (ρ : JointId → JointId) (x y : Stage σ) : Prop where
  row : Row.UnderNames ρ x.nursery.site.skeleton x.nodes y.nursery.site.skeleton y.nodes
  report_eq : y.report = x.report
  beyond_eq : y.nursery.beyondSkeleton = x.nursery.beyondSkeleton

namespace Relocation

variable {M : Relocation} {σ : Type}

theorem Moved.underNames {k k' : Skeleton} (h : M.Moved k k') {row row' : List Node}
    (hrow : List.Forall₂ (M.NodeMoved k.size) row row') :
    Row.UnderNames M.name k row k' row' := by
  have held : ∀ j ∈ Row.handles row, M.Held k.size j := by
    intro j hj
    obtain ⟨a, ha, hj⟩ := List.mem_flatMap.mp hj
    obtain ⟨b, -, hab⟩ := exists_of_forall₂ (R := fun b a => M.NodeMoved k.size a b) hrow.flip ha
    rw [List.mem_cons, List.mem_singleton] at hj
    rcases hj with rfl | rfl
    · exact hab.entry
    · exact hab.exit
  refine ⟨?_, fun i hi j hj => name_eq_iff (held i hi) (held j hj), ?_⟩
  · rw [← map_eq_of_forall₂ (g := id) (hrow.imp fun _ _ hab => hab.eq), List.map_id]
  · intro j hj
    obtain ⟨x, hx⟩ := Skeleton.exists_get? (held j hj).inside
    exact ⟨x, hx, by rw [h.get?_eq (held j hj).live, hx]⟩

theorem Alongside.beyond_eq {s t : Nursery σ} (h : M.Alongside s t) :
    t.beyondSkeleton = s.beyondSkeleton := by
  unfold Nursery.beyondSkeleton
  rw [h.source_eq, h.age_eq, h.nextId_eq, h.journal_eq]

end Relocation

/-! ## Runs on a skeleton that has lost joints -/

namespace Operation

variable {σ : Type} [RandomSource σ] {M : Relocation} {n : Nat}

theorem raises_apply (o : Operation) (row : List Node) :
    Raises (Nursery.joints σ) (o.apply row) := by
  cases o with
  | frame params time noise =>
    exact .bind Build.raises_get fun _ =>
      .bind (Build.raises_onSite (OnSite.raises_growAll _ row)) fun _ => .pure _
  | pass grammar params => exact .bind (Expansion.raises_replaceAll row) fun _ => .pure _

theorem raises_run (ops : List Operation) (row : List Node) :
    Raises (Nursery.joints σ) (run ops row) := by
  induction ops generalizing row with
  | nil => exact .pure _
  | cons o ops ih =>
    exact .bind (raises_apply o row) fun _ => .bind Build.raises_get fun _ =>
      .bind (ih _) fun _ => .pure _

theorem apply_follows (o : Operation) {row row' : List Node}
    (h : List.Forall₂ (M.NodeMoved n) row row') :
    (M.nurseries σ).Follows n (fun n x y => List.Forall₂ (M.NodeMoved n) x.1 y.1 ∧ y.2 = x.2)
      (o.apply row) (o.apply row') := by
  cases o with
  | frame params time noise =>
    refine .bind Build.get_follows (fun _ =>
      .bind (Build.raises_onSite (OnSite.raises_growAll _ row)) fun _ => .pure _) ?_
    rintro n₁ s t h₁ ⟨hst, -⟩
    rw [hst.age_eq]
    have hrow : List.Forall₂ (M.NodeMoved n₁) row row' := h.imp fun _ _ hab => hab.mono h₁
    refine .bind (Build.onSite_follows (OnSite.growAll_follows _ hrow)) (fun _ => .pure _) ?_
    rintro n₂ ⟨nodes, marks⟩ ⟨nodes', _⟩ h₂ ⟨hnodes, rfl⟩
    exact .pure fun n₃ h₃ => ⟨hnodes.imp fun _ _ hab => hab.mono h₃, rfl⟩
  | pass grammar params =>
    refine .bind (Expansion.replaceAll_follows h) (fun _ => .pure _) ?_
    intro n₁ next next' h₁ hnext
    exact .pure fun n₂ h₂ => ⟨(hnext.mono h₂).nodes, congrArg Report.tally hnext.tally_eq⟩

theorem run_follows (ops : List Operation) {row row' : List Node}
    (h : List.Forall₂ (M.NodeMoved n) row row') :
    (M.nurseries σ).Follows n (fun _ => List.Forall₂ (Stage.UnderNames M.name)) (run ops row)
      (run ops row') := by
  induction ops generalizing n row row' with
  | nil => exact .pure fun _ _ => .nil
  | cons o ops ih =>
    refine .bind (apply_follows o h) (fun _ => .bind Build.raises_get fun _ =>
      .bind (raises_run ops _) fun _ => .pure _) ?_
    rintro n₁ ⟨nodes, report⟩ ⟨nodes', _⟩ h₁ ⟨hnodes, rfl⟩
    refine .bind Build.get_follows (fun _ => .bind (raises_run ops _) fun _ => .pure _) ?_
    rintro _ s t h₂ ⟨hst, rfl⟩
    have hnodes' : List.Forall₂ (M.NodeMoved s.site.skeleton.size) nodes nodes' :=
      hnodes.imp fun _ _ hab => hab.mono h₂
    refine .bind (ih hnodes') (fun _ => .pure _) ?_
    intro n₃ later later' _ hlater
    exact .pure fun _ _ => .cons ⟨hst.moved.underNames hnodes', rfl, hst.beyond_eq⟩ hlater

end Operation

/-! ## Compaction as a loss of joints -/

namespace Renamed

variable {ρ : JointId → JointId} {used : List JointId} {k k' : Skeleton}

/-- Index of a joint made later, once the joints not in use are gone. -/
theorem index_shifted (j : JointId) (freed : Nat) :
    (⟨.ofNat (j.index - freed)⟩ : JointId).index = j.index - freed := by
  have hj : j.index < UInt32.size := j.word.toNat_lt
  exact JointId.index_ofNat (by omega)

/-- The names of a compaction, with names for the joints made later. -/
def relocation (hr : Renamed ρ used k k') : Relocation where
  name j := if j.index < k.size then ρ j else ⟨.ofNat (j.index - (k.size - k'.size))⟩
  Live j := j ∈ used ∨ k.size ≤ j.index
  size := k.size
  freed := k.size - k'.size
  injective := by
    have hsize := hr.size_le
    -- handles in use get names below `k'.size`, later ones names from there on
    have split {i j : JointId} (hi : i ∈ used) (hj : k.size ≤ j.index) :
        ρ i ≠ ⟨.ofNat (j.index - (k.size - k'.size))⟩ := by
      intro he
      have hlt := hr.inside i hi
      rw [he, index_shifted] at hlt
      omega
    intro i j hi hj he
    rcases hi with hi | hi
    · rw [if_pos (hr.index_lt hi)] at he
      rcases hj with hj | hj
      · rw [if_pos (hr.index_lt hj)] at he
        exact hr.injective i hi j hj he
      · rw [if_neg (by omega)] at he
        exact absurd he (split hi hj)
    · rw [if_neg (by omega)] at he
      rcases hj with hj | hj
      · rw [if_pos (hr.index_lt hj)] at he
        exact absurd he.symm (split hj hi)
      · rw [if_neg (by omega)] at he
        have hindex := congrArg JointId.index he
        rw [index_shifted, index_shifted] at hindex
        exact JointId.ext_index (by omega)
  live_of_le := Or.inr
  index_name := by
    intro j hj
    have hsize := hr.size_le
    rw [if_neg (by omega), index_shifted]
    omega

theorem relocation_name (hr : Renamed ρ used k k') {j : JointId} (hj : j ∈ used) :
    hr.relocation.name j = ρ j := if_pos (hr.index_lt hj)

theorem held (hr : Renamed ρ used k k') {j : JointId} (hj : j ∈ used) :
    hr.relocation.Held k.size j :=
  ⟨Or.inl hj, hr.index_lt hj⟩

theorem moved (hr : Renamed ρ used k k') : hr.relocation.Moved k k' where
  size_le := Nat.le_refl _
  size_eq := Nat.add_sub_cancel' hr.size_le
  get?_eq := by
    rintro j (hj | hj)
    · rw [hr.relocation_name hj]
      exact hr.get?_eq j hj
    · -- neither skeleton has joints there yet
      have hindex := hr.relocation.index_name hj
      have hfreed : hr.relocation.freed = k.size - k'.size := rfl
      have hsize := hr.size_le
      rw [Skeleton.get?_eq_none_iff.mpr hj]
      exact Skeleton.get?_eq_none_iff.mpr (by omega)

theorem nodes_moved {row : List Node} (hr : Renamed ρ (Row.handles row) k k') :
    List.Forall₂ (hr.relocation.NodeMoved k.size) row (row.map (Node.rename ρ)) := by
  rw [List.forall₂_map_right_iff, List.forall₂_same]
  intro a ha
  have hentry := Row.entry_mem_handles ha
  have hexit := Row.exit_mem_handles ha
  refine ⟨?_, hr.held hentry, hr.held hexit⟩
  show ({ a with entry := ρ a.entry, exit := ρ a.exit } : Node) =
    { a with entry := hr.relocation.name a.entry, exit := hr.relocation.name a.exit }
  rw [hr.relocation_name hentry, hr.relocation_name hexit]

end Renamed

/-- Compaction renames handles, and nothing else of it can be observed. It keeps one joint for each
handle in use and reports how many it left out; a second compaction changes nothing; and whatever
frames and generations come after it, as long as handles suffice for the joints, are the same as
without it, handles renamed. -/
theorem Skeleton.compact_unobservable {k : Skeleton} {row : List Node} (hk : k.size ≤ UInt32.size)
    (hrow : ∀ j ∈ Row.handles row, j.index < k.size) :
    ∃ (c : Compacted) (ρ : JointId → JointId), k.compact row = .ok c ∧
      Row.UnderNames ρ k row c.skeleton c.nodes ∧
      c.skeleton.size = (Row.handles row).dedup.length ∧
      c.freed + c.skeleton.size = k.size ∧
      c.skeleton.compact c.nodes = .ok { c with freed := 0 } ∧
      ∀ (σ : Type) [RandomSource σ] (ops : List Operation) (s : Nursery σ), s.site.skeleton = k →
        (final (Operation.run ops row s)).site.skeleton.size ≤ UInt32.size →
        Alike (fun s t => t.beyondSkeleton = s.beyondSkeleton)
          (fun stages s stages' t => List.Forall₂ (Stage.UnderNames ρ) stages stages' ∧
            t.beyondSkeleton = s.beyondSkeleton)
          (Operation.run ops row s) (Operation.run ops c.nodes (s.onto c.skeleton)) := by
  obtain ⟨c, h⟩ := exists_compact_eq_ok hk hrow
  obtain ⟨ρ, hnodes, hr, hfreed⟩ := compact_eq_ok hk h
  have hmoved : List.Forall₂ (hr.relocation.NodeMoved k.size) row c.nodes := by
    rw [hnodes]
    exact hr.nodes_moved
  refine ⟨c, hr.relocation.name, h, hr.moved.underNames hmoved, hr.size_eq, ?_,
    compact_of_compact_eq_ok hk h, ?_⟩
  · rw [hfreed]
    exact Nat.sub_add_cancel hr.size_le
  · intro σ _ ops s hs hbound
    subst hs
    have halong : hr.relocation.Alongside s (s.onto c.skeleton) := ⟨hr.moved, rfl, rfl, rfl, rfl⟩
    refine (Operation.run_follows ops hmoved s _ halong (Nat.le_refl _) hbound).mono ?_ ?_
    · exact fun _ _ hst => hst.beyond_eq
    · rintro stages s' stages' t' ⟨hstages, hst, -⟩
      exact ⟨hstages, hst.beyond_eq⟩

/-- A row on four joints, of which one is not in use. All three nodes start at the first joint, and
the last two end at the same joint. -/
def twigs : List Node :=
  let branch : Branch := .sprout 5 default default
  [⟨0, 'F', ⟨0⟩, ⟨2⟩, 0, 1, true, .branch branch⟩,
    ⟨1, 'X', ⟨0⟩, ⟨3⟩, 0, 1, true, .bud default⟩,
    ⟨2, 'F', ⟨0⟩, ⟨3⟩, 0, 1, false, .branch branch⟩]

/-- The skeleton under the twigs, in a nursery. -/
def twigNursery : Nursery Reel where
  site := ⟨⟨#[.root ⟨0, 0⟩, .root ⟨1, 0⟩, .waiting ⟨2, 0⟩ .up, .waiting ⟨3, 0⟩ .up]⟩, ⟨#[0], 0⟩⟩
  age := 1
  nextId := 3

/-- A frame, a generation that leaves a bracket open, and another frame. -/
def twigOperations : List Operation :=
  let frame : Operation := .frame {} 0 (.constant 0)
  [frame, .pass (.ofRules (Rules.ofList [('F', .fixed "F[+F"), ('X', .fixed "")])) {}, frame]

/-- The twigs with three joints grow as they do with four. -/
theorem Skeleton.compact_unobservable_twigs : ∃ c ρ stages stages' s t,
    twigNursery.site.skeleton.compact twigs = .ok c ∧ c.skeleton.size = 3 ∧ c.freed = 1 ∧
    Operation.run twigOperations twigs twigNursery = .ok stages s ∧
    Operation.run twigOperations c.nodes (twigNursery.onto c.skeleton) = .ok stages' t ∧
    stages.length = 3 ∧ List.Forall₂ (Stage.UnderNames ρ) stages stages' ∧
    t.beyondSkeleton = s.beyondSkeleton := by
  have hsize : twigNursery.site.skeleton.size = 4 := rfl
  have hcount : (Row.handles twigs).dedup.length = 3 := by decide
  have hrow : ∀ j ∈ Row.handles twigs, j.index < twigNursery.site.skeleton.size := by decide
  have hbound : (final (Operation.run twigOperations twigs twigNursery)).site.skeleton.size ≤
      UInt32.size := by decide +kernel
  have hok : isOk (fun stages => stages.length == 3)
      (Operation.run twigOperations twigs twigNursery) = true := by decide +kernel
  obtain ⟨stages, s, hrun, hlength⟩ := exists_of_isOk hok
  obtain ⟨c, ρ, hc, -, hkept, hfreed, -, hsame⟩ := compact_unobservable (by decide) hrow
  obtain ⟨stages', t, hrun', hstages, hst⟩ :=
    (hsame Reel twigOperations twigNursery rfl hbound).exists_of_ok hrun
  rw [hcount] at hkept
  rw [hkept, hsize] at hfreed
  exact ⟨c, ρ, stages, stages', s, t, hc, hkept, Nat.add_right_cancel hfreed, hrun, hrun',
    beq_iff_eq.mp hlength, hstages, hst⟩

end PlantGrowth
