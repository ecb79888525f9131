import PlantGrowth.Proofs.Lockstep
import PlantGrowth.Proofs.Reachable

/-!
# Sway and the growth front

The flow field turns and moves joints while the plant grows, on the same skeleton that carries
the flags by which growth advances. Still nothing of it reaches the growth: two plants that
differ only in the flow field and in the places of their joints (`Plant.SameFront`) go through
frames side by side, whatever the times and the noise, with the same lengths, the same flags, the
same draws and the same marks up to their places.

One node is `Node.grow_matched`, a frame `Plant.SameFront.frame_alike`, a film of any number of
frames `Plant.SameFront.film_alike`. Noise need not have a value everywhere; what is asked is
that none is missing where the film takes one (`Plant.Unbroken`).
-/

set_option autoImplicit false

namespace PlantGrowth

open Outcome

/-! ## Noise with its gaps filled -/

namespace Noise

/-- Whether the noise has a value everywhere. -/
def IsTotal (noise : Noise) : Prop := ∀ x y t, ∃ v, noise x y t = .ok v

/-- The noise with zero where it has no value. -/
def filled (noise : Noise) : Noise := fun x y t =>
  match noise x y t with
  | .ok v => .ok v
  | .error _ => .ok 0

theorem isTotal_filled (noise : Noise) : noise.filled.IsTotal := by
  intro x y t
  unfold filled
  cases noise x y t with
  | ok v => exact ⟨v, rfl⟩
  | error _ => exact ⟨0, rfl⟩

theorem filled_eq_self {noise : Noise} (h : noise.IsTotal) : noise.filled = noise := by
  funext x y t
  obtain ⟨v, hv⟩ := h x y t
  rw [filled, hv]

theorem isTotal_constant (c : Scalar) : (constant c).IsTotal := fun _ _ _ => ⟨c, rfl⟩

theorem isTotal_linear (a b c d : Scalar) : (linear a b c d).IsTotal := fun _ _ _ => ⟨_, rfl⟩

end Noise

/-! ## What sway leaves alone -/

/-- The flags of a joint: whether growth passes, and whether the last branch is growing. -/
def Joint.flags (j : Joint) : Bool × Bool := (j.ready, j.extending)

/-- The flags of all joints. -/
def Skeleton.flags (k : Skeleton) : Array (Bool × Bool) := k.joints.map Joint.flags

/-- The mark with all its points moved to the origin. -/
def Mark.unplaced : Mark → Mark
  | .segment _ _ width colour leaf =>
    .segment .zero .zero width colour (leaf.map fun d => { d with centre := .zero })
  | .dot d => .dot { d with centre := .zero }

namespace Skeleton

variable {k k' : Skeleton}

theorem size_eq_of_flags (h : k'.flags = k.flags) : k'.size = k.size := by
  have hsize := congrArg Array.size h
  rwa [flags, flags, Array.size_map, Array.size_map] at hsize

theorem rel_get?_of_flags (h : k'.flags = k.flags) (i : JointId) :
    Option.Rel (fun e e' : Joint => e'.flags = e.flags) (k.get? i) (k'.get? i) := by
  have hget : (k'.get? i).map Joint.flags = (k.get? i).map Joint.flags := by
    rw [get?, get?, ← Array.getElem?_map, ← Array.getElem?_map]
    exact congrArg (·[i.index]?) h
  generalize k.get? i = x at hget ⊢
  generalize k'.get? i = y at hget ⊢
  cases x with
  | none =>
    rw [Option.map_none, Option.map_eq_none_iff] at hget
    rw [hget]
    exact .none
  | some e =>
    obtain ⟨e', rfl, he⟩ := Option.map_eq_some_iff.mp hget
    exact .some he

theorem flags_put (k : Skeleton) (i : JointId) (x : Joint) :
    (k.put i x).flags = k.flags.setIfInBounds i.index x.flags := by
  rw [flags, put, Array.map_setIfInBounds]
  rfl

end Skeleton

/-! ## A node in two winds -/

/-- The same moment in another wind: another flow field, another time, other noise, and neither
noise with a gap. -/
structure Moment.OtherWind (m m' : Moment) : Prop where
  params_eq : m'.params = { m.params with flowField := m'.params.flowField }
  age_eq : m'.age = m.age
  total : m.noise.IsTotal
  total' : m'.noise.IsTotal

/-- What two nodes did in a frame is the same but for places. -/
structure Grown.UpToPlaces (g g' : Grown) : Prop where
  node_eq : g'.node = g.node
  flags_eq : g'.exit.flags = g.exit.flags
  mark_eq : g'.mark.map Mark.unplaced = g.mark.map Mark.unplaced

namespace Branch

variable {σ : Type} [RandomSource σ] {m m' : Moment}

theorem exists_sway (h : m.noise.IsTotal) (depth : UInt32) (entry exit : Joint) (length : Scalar) :
    ∃ exit', sway m depth entry exit length = .ok exit' := by
  unfold sway
  cases m.params.flowField with
  | none => exact ⟨exit, rfl⟩
  | some flow =>
    obtain ⟨v, hv⟩ := h (exit.position.x / flow.xScale) (exit.position.y / flow.yScale)
      (m.time / flow.zScale)
    simp only [FlowField.deflection, hv]
    exact ⟨_, rfl⟩

theorem advance_congr (h : m.OtherWind m') {e e' : Joint} (he : e'.ready = e.ready) (b : Branch)
    (source : σ) : b.advance m' e' source = b.advance m e source := by
  rw [advance, advance, he, h.params_eq]

end Branch

namespace Node

variable {σ : Type} [RandomSource σ] {m m' : Moment}

theorem flags_carry (n : Node) {e e' : Joint} (he : e'.flags = e.flags) :
    (n.carry e').flags = (n.carry e).flags := by
  obtain ⟨hready, hextending⟩ := Prod.mk.inj he
  unfold carry Kind.carry Joint.flags
  cases n.kind <;> simp [hready, hextending]

/-- A branch does the same in another wind, up to places. -/
theorem growBranch_matched (h : m.OtherWind m') (n : Node) (before : Branch) {e e' : Joint}
    (he : e'.flags = e.flags) (source : σ) :
    Matched (fun a b => a.1.UpToPlaces b.1 ∧ b.2 = a.2)
      (n.growBranch m before e source) (n.growBranch m' before e' source) := by
  have hready : e'.ready = e.ready := (Prod.mk.inj he).1
  unfold growBranch
  rw [Branch.advance_congr h hready]
  refine Matched.bind (.refl (R := Eq) (fun _ => rfl) _) ?_
  rintro ⟨b, source⟩ _ rfl
  have hstill := flags_carry { n with kind := .branch b } he
  simp only [hready]
  cases e.ready with
  | false => exact .ok ⟨⟨rfl, hstill, rfl⟩, rfl⟩
  | true =>
    -- both branches sway, each to a place of its own
    obtain ⟨x, hx⟩ := Branch.exists_sway h.total n.depth e
      (({ n with kind := .branch b } : Node).carry e) b.currentLength
    obtain ⟨x', hx'⟩ := Branch.exists_sway h.total' n.depth e'
      (({ n with kind := .branch b } : Node).carry e') b.currentLength
    have hflags : x'.flags = x.flags := by
      obtain ⟨hr, hex⟩ := Branch.sway_eq_ok hx
      obtain ⟨hr', hex'⟩ := Branch.sway_eq_ok hx'
      obtain ⟨hr'', hex''⟩ := Prod.mk.inj hstill
      rw [Joint.flags, Joint.flags, hr, hex, hr', hex', hr'', hex'']
    rw [hx, hx']
    refine .ok ⟨⟨rfl, hflags, ?_⟩, rfl⟩
    rw [h.params_eq, h.age_eq]
    cases before.isGrown <;> rfl

/-- A node does the same in another wind, up to places. -/
theorem grow_matched (h : m.OtherWind m') (n : Node) {e e' : Joint}
    (he : e'.flags = e.flags) (source : σ) :
    Matched (fun a b => a.1.UpToPlaces b.1 ∧ b.2 = a.2)
      (n.grow m e source) (n.grow m' e' source) := by
  obtain ⟨hready, hextending⟩ := Prod.mk.inj he
  unfold grow
  cases hkind : n.kind with
  | placeholder => exact .ok ⟨⟨rfl, n.flags_carry he, rfl⟩, rfl⟩
  | bud colour =>
    refine .ok ⟨⟨rfl, n.flags_carry he, ?_⟩, rfl⟩
    rw [hready, hextending, h.params_eq]
    cases e.extending || e.ready <;> rfl
  | branch b => exact n.growBranch_matched h b he source

end Node

/-! ## A frame in two winds -/

namespace OnSite

variable {σ : Type} [RandomSource σ] {m m' : Moment}

/-- Sites that differ in places alone. -/
structure SameFlags (s t : Site σ) : Prop where
  flags_eq : t.skeleton.flags = s.skeleton.flags
  source_eq : t.source = s.source

/-- Nodes after a frame that are equal, with marks that look the same. -/
structure SameLook (a b : Node × Option Mark) : Prop where
  node_eq : b.1 = a.1
  mark_eq : b.2.map Mark.unplaced = a.2.map Mark.unplaced

theorem growNode_sway (h : m.OtherWind m') (n : Node) {s t : Site σ} (hst : SameFlags s t) :
    Alike SameFlags (fun a s b t => SameLook a b ∧ SameFlags s t)
      (growNode m n s) (growNode m' n t) := by
  have hsize := Skeleton.size_eq_of_flags hst.flags_eq
  unfold growNode
  refine (joint_alike hst hsize (Skeleton.rel_get?_of_flags hst.flags_eq n.entry)).bind ?_
  rintro e s e' t ⟨he, rfl, rfl⟩
  have hgrow := n.grow_matched h he s.source
  refine (draw_alike (A := Grown.UpToPlaces) (S := fun a b => b = a) hst ?_).bind ?_
  · rw [hst.source_eq]
    exact hgrow
  rintro g _ g' _ ⟨hg, source, _, rfl, rfl, rfl⟩
  refine Alike.bind (setJoint_alike ⟨hst.flags_eq, rfl⟩ (by exact hsize)) ?_
  rintro u _ u' _ ⟨-, rfl, rfl⟩
  refine .pure ⟨⟨hg.node_eq, hg.mark_eq⟩, ?_, rfl⟩
  rw [Skeleton.flags_put, Skeleton.flags_put, hst.flags_eq, hg.flags_eq]

theorem mapM_growNode_sway (h : m.OtherWind m') (row : List Node) {s t : Site σ}
    (hst : SameFlags s t) :
    Alike SameFlags (fun a s b t => List.Forall₂ SameLook a b ∧ SameFlags s t)
      ((row.mapM (growNode m)) s) ((row.mapM (growNode m')) t) := by
  refine Alike.mapM (A := Eq) ?_ ?_ hst
  · rintro n _ rfl s t hst
    exact growNode_sway h n hst
  · exact List.forall₂_same.mpr fun _ _ => rfl

end OnSite

/-! ## Films -/

/-- Time and noise of a frame. -/
structure Shot where
  time : Scalar
  noise : Noise

/-- A frame that has been shot: the plant afterwards, the mark of each of its nodes, and the random
source afterwards. -/
structure Still (σ : Type) where
  plant : Plant
  drawn : List (Option Mark)
  source : σ

namespace Plant

section Film

variable {σ : Type} [RandomSource σ]

/-- The plant after one frame, and the mark of each node. -/
def frame (p : Plant) (shot : Shot) : Garden σ (Plant × List (Option Mark)) := do
  let (results, skeleton) ← Garden.onSkeleton p.skeleton
    (p.nodes.mapM (OnSite.growNode ⟨p.params, p.age, shot.time, shot.noise⟩))
  return ({ p with nodes := results.map (·.1), skeleton }, results.map (·.2))

/-- A frame is told by its marks alone. -/
theorem tick_eq_frame (p : Plant) (shot : Shot) :
    (p.tick shot.time shot.noise : Garden σ (Plant × List Mark)) =
      (fun (p', drawn) => (p', drawn.reduceOption)) <$> p.frame shot := by
  funext s
  unfold tick frame OnSite.growAll Garden.onSkeleton
  simp only [bind, EStateM.bind, Functor.map, EStateM.map, pure, EStateM.pure]
  cases (p.nodes.mapM (OnSite.growNode ⟨p.params, p.age, shot.time, shot.noise⟩))
    ⟨p.skeleton, s.source⟩ with
  | error e t => simp
  | ok results t =>
    have hmarks (marks : List (Option Mark)) : marks.reduceOption = marks.filterMap id := rfl
    simp [hmarks, List.filterMap_map]

/-- A sequence of frames, each on the plant as the frame before has left it. -/
def film (p : Plant) : List Shot → Garden σ (List (Still σ))
  | [] => return []
  | shot :: rest => do
    let (p', drawn) ← p.frame shot
    let source := (← get).source
    return ⟨p', drawn, source⟩ :: (← p'.film rest)

end Film

/-! ## Films in two winds -/

/-- Plants that differ in their flow fields and in the places of their joints alone. -/
structure SameFront (p q : Plant) : Prop where
  plant_eq : q = { p with
    params := { p.params with flowField := q.params.flowField }, skeleton := q.skeleton }
  flags_eq : q.skeleton.flags = p.skeleton.flags

end Plant

/-- Stills of plants that have grown equally far: the same lengths and flags, the same draws, and
for each node a mark of the same look or for both none. -/
structure Still.SameFront {σ : Type} (a b : Still σ) : Prop where
  plant : a.plant.SameFront b.plant
  isFullyGrown_eq : b.plant.isFullyGrown = a.plant.isFullyGrown
  drawn_eq : b.drawn.map (Option.map Mark.unplaced) = a.drawn.map (Option.map Mark.unplaced)
  source_eq : b.source = a.source

/-- The shot with the gaps of its noise filled. -/
def Shot.filled (shot : Shot) : Shot := { shot with noise := shot.noise.filled }

namespace Plant

variable {σ : Type} [RandomSource σ] {p q : Plant}

/-- No frame of the film meets a gap of its noise: it comes out the same with the gaps filled. -/
def Unbroken (p : Plant) (shots : List Shot) (s : Surroundings σ) : Prop :=
  p.film (shots.map Shot.filled) s = p.film shots s

theorem SameFront.nodes_eq (h : SameFront p q) : q.nodes = p.nodes := by
  rw [h.plant_eq]

theorem SameFront.isFullyGrown_eq (h : SameFront p q) : q.isFullyGrown = p.isFullyGrown := by
  rw [isFullyGrown, h.nodes_eq, isFullyGrown]

/-- A frame of plants that have grown equally far. -/
theorem SameFront.frame_alike (h : SameFront p q) {shot shot' : Shot} (htotal : shot.noise.IsTotal)
    (htotal' : shot'.noise.IsTotal) (s : Surroundings σ) :
    Alike Eq (fun a s b t => (SameFront a.1 b.1 ∧
        b.2.map (Option.map Mark.unplaced) = a.2.map (Option.map Mark.unplaced)) ∧ s = t)
      (p.frame shot s) (q.frame shot' s) := by
  have hwind : Moment.OtherWind ⟨p.params, p.age, shot.time, shot.noise⟩
      ⟨q.params, q.age, shot'.time, shot'.noise⟩ := by
    refine ⟨?_, ?_, htotal, htotal'⟩ <;> rw [h.plant_eq]
  have hsites : OnSite.SameFlags ⟨p.skeleton, s.source⟩ ⟨q.skeleton, s.source⟩ :=
    ⟨h.flags_eq, rfl⟩
  have hgrow := (OnSite.mapM_growNode_sway hwind p.nodes hsites).mono
    (fun _ _ hst => hst.source_eq.symm) fun _ _ _ _ hrow =>
      show (_ ∧ _) ∧ _ from ⟨⟨hrow.1, hrow.2.flags_eq⟩, hrow.2.source_eq.symm⟩
  have hframe := Garden.onSkeleton_alike
    (A := fun a k b k' => List.Forall₂ OnSite.SameLook a b ∧ k'.flags = k.flags) hgrow
  unfold frame
  rw [h.nodes_eq]
  refine (hframe.mono (fun _ _ => Surroundings.eq_of_kept) fun _ _ _ _ hab =>
    show (_ ∧ _) ∧ _ from ⟨hab.1, Surroundings.eq_of_kept hab.2⟩).bind ?_
  rintro ⟨results, k⟩ s ⟨results', k'⟩ _ ⟨⟨hresults, hflags⟩, rfl⟩
  have hnodes : results'.map (·.1) = results.map (·.1) :=
    map_eq_of_forall₂ (hresults.imp fun _ _ hr => hr.node_eq)
  refine .pure ⟨⟨⟨?_, hflags⟩, ?_⟩, rfl⟩
  · rw [h.plant_eq, hnodes]
  · rw [List.map_map, List.map_map]
    exact map_eq_of_forall₂ (hresults.imp fun _ _ hr => hr.mark_eq)

/-- Films of plants that have grown equally far, where no noise has a gap. -/
theorem SameFront.film_alike (h : SameFront p q) {shots shots' : List Shot}
    (hshots : List.Forall₂ (fun a b => a.noise.IsTotal ∧ b.noise.IsTotal) shots shots')
    (s : Surroundings σ) :
    Alike Eq (fun a s b t => List.Forall₂ Still.SameFront a b ∧ s = t)
      (p.film shots s) (q.film shots' s) := by
  induction hshots generalizing p q s with
  | nil => exact .pure ⟨.nil, rfl⟩
  | @cons shot shot' shots shots' htotal _ ih =>
    unfold film
    refine (h.frame_alike htotal.1 htotal.2 s).bind ?_
    rintro ⟨p', drawn⟩ s ⟨q', drawn'⟩ _ ⟨⟨hfront, hdrawn⟩, rfl⟩
    refine Alike.bind (Q := fun a s' b t' => (a = s ∧ b = s) ∧ s' = s ∧ t' = s)
      (.ok ⟨⟨rfl, rfl⟩, rfl, rfl⟩) ?_
    rintro _ _ _ _ ⟨⟨rfl, rfl⟩, rfl, rfl⟩
    refine (ih hfront _).bind ?_
    rintro stills t stills' _ ⟨hstills, rfl⟩
    exact .pure ⟨.cons ⟨hfront, hfront.isFullyGrown_eq, hdrawn, rfl⟩ hstills, rfl⟩

/-- Whatever flow field, times and noise a film is shot with, and wherever the joints are, after
every frame the lengths, the flags, the draws and the look of the marks are the same, and a film
stops where the other one does; as long as no noise is asked for a value that it does not have. -/
theorem film_sameFront (h : SameFront p q) {shots shots' : List Shot}
    (hlength : shots'.length = shots.length) {s : Surroundings σ} (hp : p.Unbroken shots s)
    (hq : q.Unbroken shots' s) :
    Alike Eq (fun stills t stills' t' => List.Forall₂ Still.SameFront stills stills' ∧ t = t')
      (p.film shots s) (q.film shots' s) := by
  rw [← hp, ← hq]
  refine h.film_alike ?_ s
  rw [List.forall₂_map_left_iff, List.forall₂_map_right_iff, List.forall₂_iff_get]
  exact ⟨hlength.symm, fun _ _ _ => ⟨Noise.isTotal_filled _, Noise.isTotal_filled _⟩⟩

end Plant

/-! ## Unbroken films -/

theorem Noise.filled_of_ok {noise : Noise} {x y t v : Scalar} (h : noise x y t = .ok v) :
    noise.filled x y t = .ok v := by
  rw [filled, h]

/-- The moment with the gaps of its noise filled. -/
def Moment.filled (m : Moment) : Moment := { m with noise := m.noise.filled }

namespace Branch

variable {σ : Type} [RandomSource σ] {m : Moment}

theorem sway_filled_of_ok {depth : UInt32} {entry exit exit' : Joint} {length : Scalar}
    (h : sway m depth entry exit length = .ok exit') :
    sway m.filled depth entry exit length = .ok exit' := by
  have hfield : m.filled.params.flowField = m.params.flowField := rfl
  unfold sway at h ⊢
  rw [hfield]
  cases hflow : m.params.flowField with
  | none =>
    rw [hflow] at h
    exact h
  | some flow =>
    rw [hflow] at h
    simp only [FlowField.deflection, except_bind_eq_ok] at h ⊢
    obtain ⟨angle, ⟨v, hv, hangle⟩, hexit⟩ := h
    exact ⟨angle, ⟨v, Noise.filled_of_ok hv, hangle⟩, hexit⟩

end Branch

namespace Node

variable {σ : Type} [RandomSource σ] {m : Moment}

theorem grow_filled_of_ok {n : Node} {entry : Joint} {source source' : σ} {g : Grown}
    (h : n.grow m entry source = .ok (g, source')) :
    n.grow m.filled entry source = .ok (g, source') := by
  unfold grow at h ⊢
  cases hkind : n.kind with
  | placeholder =>
    rw [hkind] at h
    exact h
  | bud colour =>
    rw [hkind] at h
    exact h
  | branch before =>
    rw [hkind] at h
    simp only [growBranch, except_bind_eq_ok] at h ⊢
    obtain ⟨a, hadvance, h⟩ := h
    refine ⟨a, hadvance, ?_⟩
    split at h
    · rw [if_pos ‹_›]
      exact h
    · rw [if_neg ‹_›]
      simp only [except_bind_eq_ok] at h ⊢
      obtain ⟨exit, hsway, h⟩ := h
      exact ⟨exit, Branch.sway_filled_of_ok hsway, h⟩

end Node

theorem OnSite.growNode_filled_of_ok {σ : Type} [RandomSource σ] {m : Moment} {n : Node}
    {result : Node × Option Mark} {s t : Site σ} (h : growNode m n s = .ok result t) :
    growNode m.filled n s = .ok result t := by
  simp only [growNode, bind_eq_ok, draw_eq_ok] at h ⊢
  obtain ⟨e, r, he, g, r', ⟨source, hgrow, hr⟩, hrest⟩ := h
  exact ⟨e, r, he, g, r', ⟨source, Node.grow_filled_of_ok hgrow, hr⟩, hrest⟩

namespace Plant

variable {σ : Type} [RandomSource σ] {p : Plant}

theorem frame_filled_of_ok {shot : Shot} {a : Plant × List (Option Mark)} {s t : Surroundings σ}
    (h : p.frame shot s = .ok a t) : p.frame shot.filled s = .ok a t := by
  simp only [frame, bind_eq_ok] at h ⊢
  obtain ⟨⟨results, k⟩, r, hframe, h⟩ := h
  refine ⟨⟨results, k⟩, r, ?_, h⟩
  obtain ⟨source, hresults, hr⟩ := Garden.onSkeleton_eq_ok.mp hframe
  have hfilled := mapM_of_ok (g := OnSite.growNode
    (Moment.filled ⟨p.params, p.age, shot.time, shot.noise⟩))
    (fun _ _ _ _ => OnSite.growNode_filled_of_ok) hresults
  exact Garden.onSkeleton_eq_ok.mpr ⟨source, hfilled, hr⟩

/-- A film that comes out to its end is unbroken. -/
theorem unbroken_of_ok {shots : List Shot} {stills : List (Still σ)} {s t : Surroundings σ}
    (h : p.film shots s = .ok stills t) : p.Unbroken shots s := by
  rw [Unbroken, h]
  induction shots generalizing p stills s t with
  | nil => exact h
  | cons shot shots ih =>
    simp only [film, List.map_cons, bind_eq_ok] at h ⊢
    obtain ⟨a, r, hframe, u, r', hget, stills', r'', hrest, h⟩ := h
    exact ⟨a, r, frame_filled_of_ok hframe, u, r', hget, stills', r'', ih hrest, h⟩

/-- A film with noise that has a value everywhere is unbroken. -/
theorem unbroken_of_isTotal {shots : List Shot} (h : ∀ shot ∈ shots, shot.noise.IsTotal)
    (s : Surroundings σ) : p.Unbroken shots s := by
  have hfilled : shots.map Shot.filled = shots := by
    refine (List.map_congr_left fun shot hshot => ?_).trans shots.map_id
    rw [Shot.filled, Noise.filled_eq_self (h shot hshot)]
    rfl
  rw [Unbroken, hfilled]

/-- The plant in a flow field, with all its joints moved to one place. -/
def inWind (p : Plant) (flow : FlowField) (place : Vec) : Plant :=
  { p with
    params := { p.params with flowField := some flow }
    skeleton := ⟨p.skeleton.joints.map fun j => { j with position := place }⟩ }

theorem sameFront_inWind (p : Plant) (flow : FlowField) (place : Vec) :
    SameFront p (p.inWind flow place) := by
  refine ⟨rfl, ?_⟩
  rw [Skeleton.flags, Skeleton.flags, inWind, Array.map_map]
  rfl

/-- Two frames with noise that has no values. -/
def calmShots : List Shot :=
  [⟨0, fun _ _ _ => .error .addOverflow⟩, ⟨16, fun _ _ _ => .error .addOverflow⟩]

/-- Two frames with noise that has a value everywhere. -/
def windyShots : List Shot := [⟨5, .linear 1 1 1 0⟩, ⟨90, .constant 1⟩]

/-- Two frames of the sapling in still air, where noise without values does no harm, and two frames
of it in the wind show the same growth. -/
theorem film_sameFront_sapling : ∃ p t stills stills' t', sapling ⟨⟨#[0], 0⟩, #[]⟩ = .ok p t ∧
    p.film calmShots t = .ok stills t' ∧
    (p.inWind {} ⟨7, 7⟩).film windyShots t = .ok stills' t' ∧
    List.Forall₂ Still.SameFront stills stills' := by
  have hok : Outcome.isOk (fun _ => true) ((do let p ← sapling; p.film calmShots :
      Garden Reel (List (Still Reel))) ⟨⟨#[0], 0⟩, #[]⟩) = true := by decide +kernel
  obtain ⟨stills, t', h, -⟩ := Outcome.exists_of_isOk hok
  obtain ⟨p, t, hp, hfilm⟩ := Outcome.bind_eq_ok.mp h
  have hwind : ∀ shot ∈ windyShots, shot.noise.IsTotal := by
    simp [windyShots, Noise.isTotal_linear, Noise.isTotal_constant]
  have hlength : windyShots.length = calmShots.length := by simp [windyShots, calmShots]
  have halike := film_sameFront (p.sameFront_inWind {} ⟨7, 7⟩) hlength (unbroken_of_ok hfilm)
    (unbroken_of_isTotal hwind t)
  obtain ⟨stills', r, hfilm', hsame, hr⟩ := halike.exists_of_ok hfilm
  rw [← hr] at hfilm'
  exact ⟨p, t, stills, stills', t', hp, hfilm, hfilm', hsame⟩

end Plant

end PlantGrowth
