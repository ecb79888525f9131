import PlantGrowth.Proofs.Kinds
import PlantGrowth.Proofs.Lockstep

/-!
# Two expansions in step

What an expansion does depends neither on what the joints hold nor on most of what the kinds of the
nodes say. This file runs two expansions side by side, on skeletons that have equally many joints
and on nodes that look the same through a view of their kinds (`Node.SameThrough`). The parameters
may differ as long as the turtle turns by the same angle and shapes nodes that look the same with
the same draws (`GrowthParams.SameThrough`).

`Outcome.InStep` says that two computations from related states come to related results and states,
or stop with the same fault. Each computation of an expansion has a lemma of that form, from
`OnSite.joint_inStep` and its like for single steps to `Expansion.replaceAll_inStep` for a pass and
`Skeleton.compact_matched` for the compaction after it.
-/

set_option autoImplicit false

namespace PlantGrowth

open Outcome

/-! ## Computations in step -/

namespace Outcome

variable {ε σ τ α β γ δ : Type}

/-- From related states both computations come to related results and states, or both stop with the
same fault. -/
def InStep (I : σ → τ → Prop) (R : α → β → Prop) (x : EStateM ε σ α) (y : EStateM ε τ β) : Prop :=
  ∀ s t, I s t → Alike (fun _ _ => True) (fun a s' b t' => R a b ∧ I s' t') (x s) (y t)

namespace InStep

variable {I : σ → τ → Prop} {R : α → β → Prop} {S : γ → δ → Prop}

theorem pure {a : α} {b : β} (h : R a b) :
    InStep I R (Pure.pure a : EStateM ε σ α) (Pure.pure b : EStateM ε τ β) :=
  fun _ _ hst => .ok ⟨h, hst⟩

/-- One pair of steps after the other, if the results of the first are good for the second. -/
theorem bind {x : EStateM ε σ α} {y : EStateM ε τ β} {f : α → EStateM ε σ γ}
    {g : β → EStateM ε τ δ} (h : InStep I R x y) (hfg : ∀ a b, R a b → InStep I S (f a) (g b)) :
    InStep I S (x >>= f) (y >>= g) :=
  fun s t hst => (h s t hst).bind fun a s' b t' hab => hfg a b hab.1 s' t' hab.2

/-- The results may be changed on both sides. -/
theorem map {x : EStateM ε σ α} {y : EStateM ε τ β} {f : α → γ} {g : β → δ} (h : InStep I R x y)
    (hfg : ∀ a b, R a b → S (f a) (g b)) : InStep I S (f <$> x) (g <$> y) := by
  rw [← bind_pure_comp, ← bind_pure_comp]
  exact h.bind fun a b hab => pure (hfg a b hab)

/-- Lists whose elements are related one by one are worked through in step. -/
theorem mapM {f : α → EStateM ε σ γ} {g : β → EStateM ε τ δ}
    (hfg : ∀ a b, R a b → InStep I S (f a) (g b)) {as : List α} {bs : List β}
    (h : List.Forall₂ R as bs) : InStep I (List.Forall₂ S) (as.mapM f) (bs.mapM g) :=
  fun _ _ hst => .mapM (fun a b hab s t hst => hfg a b hab s t hst) h hst

end InStep

end Outcome

/-! ## Nodes that look the same -/

/-- The node with its kind as seen through a view. -/
def Node.mapKind (view : Kind → Kind) (n : Node) : Node := { n with kind := view n.kind }

/-- The nodes differ at most in what a view of their kinds does not show. -/
def Node.SameThrough (view : Kind → Kind) (a b : Node) : Prop := b.mapKind view = a.mapKind view

section SameThrough

variable {view : Kind → Kind} {a b : Node}

/-- A node looks the same as itself. -/
theorem Node.SameThrough.refl (view : Kind → Kind) (a : Node) : a.SameThrough view a := rfl

/-- A node whose kind is exchanged for one of the same looks. -/
theorem Node.sameThrough_of_kind {kind : Kind} (h : view kind = view a.kind) :
    a.SameThrough view { a with kind } := by
  rw [SameThrough, mapKind, mapKind, h]

/-- Nodes that look the same differ in their kinds only. -/
theorem Node.SameThrough.exists_kind (h : a.SameThrough view b) :
    ∃ kind, view kind = view a.kind ∧ b = { a with kind } := by
  obtain ⟨id, letter, entry, exit, rotation, depth, hasRule, kind⟩ := b
  simp only [SameThrough, mapKind, Node.mk.injEq] at h
  obtain ⟨rfl, rfl, rfl, rfl, rfl, rfl, rfl, hkind⟩ := h
  exact ⟨kind, hkind, rfl⟩

/-- Rows of nodes that look the same one by one look the same as a whole. -/
theorem Row.map_mapKind_eq_iff {row row' : List Node} :
    row'.map (Node.mapKind view) = row.map (Node.mapKind view) ↔
      List.Forall₂ (Node.SameThrough view) row row' := by
  rw [eq_comm, ← List.forall₂_eq_eq_eq, List.forall₂_map_left_iff, List.forall₂_map_right_iff]
  constructor <;> exact fun h => h.imp fun _ _ => Eq.symm

end SameThrough

/-- With both parameters the turtle turns by the same angle and shapes nodes that look the same,
with the same draws. -/
structure GrowthParams.SameThrough (view : Kind → Kind) (params params' : GrowthParams) : Prop where
  angle_eq : params'.angle = params.angle
  shape (σ : Type) [RandomSource σ] (age : UInt32) (frame : Frame) (action : Action) (source : σ) :
    Matched (fun a b => (b.1.1 = a.1.1 ∧ view b.1.2 = view a.1.2) ∧ b.2 = a.2)
      (Turtle.shape params age frame action source) (Turtle.shape params' age frame action source)

theorem GrowthParams.SameThrough.refl (view : Kind → Kind) (params : GrowthParams) :
    params.SameThrough view params where
  angle_eq := rfl
  shape _ _ _ _ _ _ := .refl (fun _ => ⟨⟨rfl, rfl⟩, rfl⟩) _

/-! ## Steps on two sites -/

/-- Sites with equally many joints and the same source. -/
structure Site.Abreast {σ : Type} (s t : Site σ) : Prop where
  size_eq : t.skeleton.size = s.skeleton.size
  source_eq : t.source = s.source

/-- Skeletons of one size have joints at the same handles. -/
theorem Skeleton.get?_rel {k k' : Skeleton} (h : k'.size = k.size) (j : JointId) :
    Option.Rel (fun _ _ => True) (k.get? j) (k'.get? j) := by
  by_cases hj : j.index < k.size
  · obtain ⟨x, hx⟩ := exists_get? hj
    obtain ⟨y, hy⟩ := exists_get? (h.symm ▸ hj : j.index < k'.size)
    rw [hx, hy]
    exact .some trivial
  · have hle : k.size ≤ j.index := Nat.not_lt.mp hj
    have hx : k.get? j = none := Array.getElem?_eq_none hle
    have hy : k'.get? j = none := Array.getElem?_eq_none (h.trans_le hle)
    rw [hx, hy]
    exact .none

namespace OnSite

variable {σ : Type} {view : Kind → Kind} {a b : Node}

/-- Reading fails on both sites or on neither, for they have as many joints. -/
theorem joint_inStep (j : JointId) :
    InStep Site.Abreast (fun _ _ => True) (joint j : OnSite σ Joint) (joint j) := by
  intro s t hst
  refine (joint_alike (E := fun _ _ => True) trivial hst.size_eq
    (Skeleton.get?_rel hst.size_eq j)).mono (fun _ _ _ => trivial) ?_
  rintro e s' e' t' ⟨-, rfl, rfl⟩
  exact ⟨trivial, hst⟩

/-- Joints are written at the same places, whatever they are. -/
theorem setJoint_inStep (j : JointId) (x y : Joint) :
    InStep Site.Abreast (fun _ _ => True) (setJoint j x : OnSite σ Unit) (setJoint j y) := by
  intro s t hst
  refine (setJoint_alike (E := fun _ _ => True) trivial hst.size_eq).mono (fun _ _ _ => trivial) ?_
  rintro u s' u' t' ⟨-, rfl, rfl⟩
  refine ⟨trivial, ?_, hst.source_eq⟩
  rw [Skeleton.size_put, Skeleton.size_put, hst.size_eq]

/-- Sites of one size give out the same handles. -/
theorem addJoint_inStep (x y : Joint) :
    InStep Site.Abreast (fun i j => j = i) (addJoint x : OnSite σ JointId) (addJoint y) := by
  intro s t hst
  have hnext : t.skeleton.nextId = s.skeleton.nextId := by
    rw [Skeleton.nextId, Skeleton.nextId, hst.size_eq]
  refine .ok ⟨hnext, ?_, hst.source_eq⟩
  rw [Skeleton.size_push, Skeleton.size_push, hst.size_eq]

/-- Samples that agree on the random source behind them. -/
theorem draw_inStep {α β : Type} {A : α → β → Prop} {f : σ → Except Fault (α × σ)}
    {g : σ → Except Fault (β × σ)}
    (h : ∀ source, Matched (fun a b => A a.1 b.1 ∧ b.2 = a.2) (f source) (g source)) :
    InStep Site.Abreast A (draw f) (draw g) := by
  rintro ⟨k, source⟩ ⟨k', source'⟩ ⟨hsize, rfl⟩
  refine (draw_alike (E := fun _ _ => True) (S := fun r r' => r' = r) trivial (h source')).mono
    (fun _ _ _ => trivial) ?_
  rintro x s' y t' ⟨hxy, r, r', hr, rfl, rfl⟩
  exact ⟨hxy, hsize, hr⟩

theorem refresh_inStep (h : a.SameThrough view b) :
    InStep Site.Abreast (fun _ _ => True) (refresh a : OnSite σ Unit) (refresh b) := by
  obtain ⟨kind, -, rfl⟩ := h.exists_kind
  exact (joint_inStep a.entry).bind fun _ _ _ => setJoint_inStep a.exit _ _

/-- Nodes that look the same have the same handles, so they are given the same exits. -/
theorem relink_inStep (h : a.SameThrough view b) (target : JointId) :
    InStep Site.Abreast (Node.SameThrough view) (relink a target : OnSite σ Node)
      (relink b target) := by
  obtain ⟨kind, hkind, rfl⟩ := h.exists_kind
  unfold relink
  by_cases he : target = a.exit
  · rw [if_pos he, if_pos he]
    exact .pure h
  · rw [if_neg he, if_neg he]
    refine (joint_inStep a.exit).bind fun _ _ _ => ?_
    exact (setJoint_inStep target _ _).bind fun _ _ _ =>
      .pure (Node.sameThrough_of_kind (a := { a with exit := target }) hkind)

/-- Nodes of kinds that look the same are attached alike. -/
theorem attach_inStep {kind kind' : Kind} (h : view kind' = view kind) {id : UInt32}
    {letter : Char} {entry : JointId} {rotation : Scalar} {depth : UInt32} {hasRule : Bool} :
    InStep Site.Abreast (Node.SameThrough view)
      (attach id letter entry rotation depth hasRule kind : OnSite σ Node)
      (attach id letter entry rotation depth hasRule kind') := by
  refine (joint_inStep entry).bind fun _ _ _ => (addJoint_inStep _ _).bind ?_
  rintro exit _ rfl
  exact .pure (Node.sameThrough_of_kind h)

end OnSite

/-! ## Steps in two nurseries -/

/-- Nurseries on sites abreast and with the same counters. Their journals may differ. -/
structure Nursery.Abreast {σ : Type} (s t : Nursery σ) : Prop where
  site : s.site.Abreast t.site
  age_eq : t.age = s.age
  nextId_eq : t.nextId = s.nextId

namespace Build

variable {σ α β : Type}

theorem onSite_inStep {R : α → β → Prop} {x : OnSite σ α} {y : OnSite σ β}
    (h : InStep Site.Abreast R x y) : InStep Nursery.Abreast R (onSite x) (onSite y) := by
  intro s t hst
  have hxy := h s.site t.site hst.site
  unfold onSite
  generalize x s.site = o at hxy ⊢
  generalize y t.site = o' at hxy ⊢
  cases hxy with
  | ok hr => exact .ok ⟨hr.1, hr.2, hst.age_eq, hst.nextId_eq⟩
  | error _ => exact .error trivial

theorem check_inStep (x : Except Fault α) :
    InStep Nursery.Abreast (fun a b => b = a) (check x : Build σ α) (check x) := by
  intro s t hst
  unfold check
  cases x with
  | ok a => exact .ok ⟨rfl, hst⟩
  | error e => exact .error trivial

theorem note_inStep (e e' : Event) :
    InStep Nursery.Abreast (fun _ _ => True) (note e : Build σ Unit) (note e') :=
  fun _ _ hst => .ok ⟨trivial, hst.site, hst.age_eq, hst.nextId_eq⟩

/-- The two nurseries give out the same identities. -/
theorem freshId_inStep :
    InStep Nursery.Abreast (fun a b => b = a) (freshId : Build σ UInt32) freshId := by
  intro s t hst
  unfold freshId
  rw [hst.nextId_eq]
  cases addWord s.nextId 1 with
  | ok next => exact .ok ⟨rfl, hst.site, hst.age_eq, rfl⟩
  | error e => exact .error trivial

theorem raiseAge_inStep (depth : UInt32) :
    InStep Nursery.Abreast (fun _ _ => True) (raiseAge depth : Build σ Unit) (raiseAge depth) :=
  fun _ _ hst => .ok ⟨trivial, hst.site, congrArg (max · depth) hst.age_eq, hst.nextId_eq⟩

theorem get_inStep :
    InStep Nursery.Abreast Nursery.Abreast (get : Build σ (Nursery σ)) get :=
  fun _ _ hst => .ok ⟨hst, hst⟩

end Build

/-! ## The turtle -/

namespace Turtle

variable {σ : Type} [RandomSource σ] {view : Kind → Kind} {params params' : GrowthParams}

/-- The turtle grows nodes that look the same and steps onto the same exits. -/
theorem growNode_inStep (h : params.SameThrough view params') (letter : Letter) (stack : Stack) :
    InStep Nursery.Abreast (fun r r' => r.1.SameThrough view r'.1 ∧ r'.2 = r.2)
      (growNode params letter stack : Build σ (Node × Stack)) (growNode params' letter stack) := by
  refine Build.freshId_inStep.bind ?_
  rintro id _ rfl
  refine Build.get_inStep.bind fun n n' hn => ?_
  rw [hn.age_eq]
  refine (Build.onSite_inStep (OnSite.draw_inStep
    (A := fun a b => b.1 = a.1 ∧ view b.2 = view a.2)
    (h.shape σ n.age stack.top letter.action))).bind ?_
  rintro ⟨rotation, kind⟩ ⟨_, kind'⟩ ⟨rfl, hkind⟩
  refine (Build.onSite_inStep (OnSite.attach_inStep hkind)).bind fun a b hab => ?_
  obtain ⟨kind'', -, rfl⟩ := hab.exists_kind
  exact .pure ⟨hab, rfl⟩

/-- One letter leads to nodes that look the same, or to none, and to one stack. -/
theorem read_inStep (h : params.SameThrough view params') (letter : Letter) (stack : Stack) :
    InStep Nursery.Abreast (fun r r' => Option.Rel (Node.SameThrough view) r.1 r'.1 ∧ r'.2 = r.2)
      (read params letter stack : Build σ (Option Node × Stack)) (read params' letter stack) := by
  unfold read
  cases letter.action with
  | turnLeft =>
    rw [h.angle_eq]
    exact .pure ⟨.none, rfl⟩
  | turnRight =>
    rw [h.angle_eq]
    exact .pure ⟨.none, rfl⟩
  | save =>
    refine (Build.check_inStep stack.save).bind ?_
    rintro saved _ rfl
    exact (Build.raiseAge_inStep _).bind fun _ _ _ => .pure ⟨.none, rfl⟩
  | restore =>
    refine (Build.check_inStep stack.restore).bind ?_
    rintro ⟨matched, restored⟩ _ rfl
    cases matched with
    | false => exact (Build.note_inStep _ _).bind fun _ _ _ => .pure ⟨.none, rfl⟩
    | true => exact .pure ⟨.none, rfl⟩
  | bud | branch | placeholder =>
    refine (growNode_inStep h letter stack).bind ?_
    rintro ⟨a, _⟩ ⟨b, stack'⟩ ⟨hab, rfl⟩
    exact .pure ⟨.some hab, rfl⟩

/-- Nodes that look the same, made in the same places of a text. -/
def Made.SameThrough (view : Kind → Kind) (m m' : Made) : Prop :=
  m.node.SameThrough view m'.node ∧ m'.outer = m.outer

/-- One text leads to nodes that look the same, one by one, and to one stack. -/
theorem readText_inStep (h : params.SameThrough view params') (text : List Letter)
    (stack : Stack) :
    InStep Nursery.Abreast
      (fun r r' => List.Forall₂ (Made.SameThrough view) r.1 r'.1 ∧ r'.2 = r.2)
      (readText params text stack : Build σ (List Made × Stack)) (readText params' text stack) := by
  induction text generalizing stack with
  | nil => exact .pure ⟨.nil, rfl⟩
  | cons letter rest ih =>
    refine (read_inStep h letter stack).bind ?_
    rintro ⟨node?, _⟩ ⟨node?', stack'⟩ ⟨hnode, rfl⟩
    refine (ih stack').bind ?_
    rintro ⟨made, _⟩ ⟨made', last⟩ ⟨hmade, rfl⟩
    cases hnode with
    | some hab => exact .pure ⟨.cons ⟨hab, rfl⟩ hmade, rfl⟩
    | none => exact .pure ⟨hmade, rfl⟩

end Turtle

/-! ## Expansions -/

/-- Replacements by nodes that look the same, counted in the same way. -/
def Replacement.SameThrough (view : Kind → Kind) (r r' : Replacement) : Prop :=
  List.Forall₂ (Node.SameThrough view) r.nodes r'.nodes ∧ r'.tally = r.tally

namespace Expansion

variable {σ : Type} {view : Kind → Kind}

/-- The last nodes of the rows take over the same exit. -/
theorem relinkLast_inStep {row row' : List Node}
    (h : List.Forall₂ (Node.SameThrough view) row row') (target : JointId) :
    InStep Site.Abreast (List.Forall₂ (Node.SameThrough view))
      (relinkLast target row : OnSite σ (List Node)) (relinkLast target row') := by
  induction h with
  | nil => exact .pure .nil
  | cons hab hrest ih =>
    cases hrest with
    | nil => exact (OnSite.relink_inStep hab target).bind fun _ _ hlast => .pure (.cons hlast .nil)
    | cons _ _ => exact ih.bind fun _ _ hrow => .pure (.cons hab hrow)

/-- Looks play no part in whether a bridge is needed. -/
theorem needsBridge_sameThrough {made made' : List Turtle.Made}
    (h : List.Forall₂ (Turtle.Made.SameThrough view) made made') (stack : Stack) :
    needsBridge made' stack = needsBridge made stack :=
  needsBridge_congr (map_eq_of_forall₂ (h.imp fun _ _ hm => hm.2)) rfl

/-- A bridge does not depend on the looks of other nodes. -/
theorem bridge_inStep (grammar : Grammar) (frame : Frame) :
    InStep Nursery.Abreast (Node.SameThrough view) (bridge grammar frame : Build σ Node)
      (bridge grammar frame) := by
  refine Build.freshId_inStep.bind ?_
  rintro id _ rfl
  exact Build.onSite_inStep (OnSite.attach_inStep rfl)

theorem bridges_inStep (grammar : Grammar) {made made' : List Turtle.Made}
    (h : List.Forall₂ (Turtle.Made.SameThrough view) made made') (stack : Stack) :
    InStep Nursery.Abreast (List.Forall₂ (Node.SameThrough view))
      (bridges grammar made stack : Build σ (List Node)) (bridges grammar made' stack) := by
  unfold bridges
  rw [needsBridge_sameThrough h]
  split
  · exact (bridge_inStep grammar stack.top).map fun _ _ hab => .cons hab .nil
  · exact .pure .nil

theorem noteUnclosed_inStep (old old' : Node) (stack : Stack) :
    InStep Nursery.Abreast (fun _ _ => True) (noteUnclosed old stack : Build σ Unit)
      (noteUnclosed old' stack) := by
  unfold noteUnclosed
  split
  · exact Build.note_inStep _ _
  · exact .pure trivial

variable [RandomSource σ] {params params' : GrowthParams} {a b : Node}

/-- Nodes that look the same are expanded by the same text into nodes that look the same, with one
tally. -/
theorem expand_inStep (h : params.SameThrough view params') (hab : a.SameThrough view b)
    (grammar : Grammar) (rule : Rule (List Letter)) :
    InStep Nursery.Abreast (Replacement.SameThrough view)
      (expand grammar params a rule : Build σ Replacement) (expand grammar params' b rule) := by
  have hb := hab
  obtain ⟨kind, -, rfl⟩ := hab.exists_kind
  rw [expand_eq, expand_eq]
  refine (Build.onSite_inStep (OnSite.draw_inStep (A := fun x y => y = x)
    fun source => .refl (fun _ => ⟨rfl, rfl⟩) (rule.select source))).bind ?_
  rintro _ text rfl
  refine (Turtle.readText_inStep h text _).bind ?_
  rintro ⟨made, _⟩ ⟨made', stack⟩ ⟨hmade, rfl⟩
  refine (noteUnclosed_inStep a _ stack).bind fun _ _ _ => ?_
  refine (bridges_inStep grammar hmade stack).bind fun ends ends' hends => ?_
  have hnodes : List.Forall₂ (Node.SameThrough view) (made.map (·.node)) (made'.map (·.node)) := by
    rw [List.forall₂_map_left_iff, List.forall₂_map_right_iff]
    exact hmade.imp fun _ _ hm => hm.1
  refine (Build.onSite_inStep (relinkLast_inStep (List.rel_append hnodes hends) a.exit)).bind ?_
  intro row row' hrow
  exact .pure ⟨hrow, by rw [needsBridge_sameThrough hmade]⟩

/-- Nodes that look the same are replaced alike, or both carried on. -/
theorem replace_inStep (h : params.SameThrough view params') (hab : a.SameThrough view b)
    (grammar : Grammar) :
    InStep Nursery.Abreast (Replacement.SameThrough view)
      (replace grammar params a : Build σ Replacement) (replace grammar params' b) := by
  refine (Build.onSite_inStep (OnSite.refresh_inStep hab)).bind fun _ _ _ => ?_
  have hrule : rule? grammar b = rule? grammar a := by
    obtain ⟨kind, -, rfl⟩ := hab.exists_kind
    rfl
  rw [hrule]
  cases rule? grammar a with
  | some rule => exact expand_inStep h hab grammar rule
  | none => exact .pure ⟨.cons hab .nil, rfl⟩

/-- A pass over rows that look the same makes rows that look the same, with the same draws, ages
and identities. -/
theorem replaceAll_inStep (h : params.SameThrough view params') {row row' : List Node}
    (hrow : List.Forall₂ (Node.SameThrough view) row row') (grammar : Grammar) :
    InStep Nursery.Abreast (Replacement.SameThrough view)
      (replaceAll grammar params row : Build σ Replacement) (replaceAll grammar params' row') := by
  have hpass : InStep Nursery.Abreast (List.Forall₂ (Replacement.SameThrough view))
      (row.mapM (replace grammar params) : Build σ (List Replacement))
      (row'.mapM (replace grammar params')) :=
    InStep.mapM (R := Node.SameThrough view) (fun a b hab => replace_inStep h hab grammar) hrow
  refine hpass.bind fun parts parts' hparts => ?_
  have htallies : parts'.map (·.tally) = parts.map (·.tally) :=
    map_eq_of_forall₂ (hparts.imp fun _ _ hr => hr.2)
  have hnodes : List.Forall₂ (Node.SameThrough view) (parts.flatMap (·.nodes))
      (parts'.flatMap (·.nodes)) := List.rel_flatMap hparts fun _ _ hr => hr.1
  rw [htallies]
  refine (Build.check_inStep _).bind ?_
  rintro _ tally rfl
  exact .pure ⟨hnodes, rfl⟩

end Expansion

/-! ## Compaction -/

/-- Renumberings that have given the same names. -/
structure Renumbering.Abreast (r t : Renumbering) : Prop where
  handles_eq : t.handles = r.handles
  size_eq : t.kept.size = r.kept.size

namespace Renumbering

variable {view : Kind → Kind} {k k' : Skeleton}

/-- New names are given out in the same order. -/
theorem rename_inStep (h : k'.size = k.size) (j : JointId) :
    InStep Abreast (fun i i' => i' = i) (rename k j) (rename k' j) := by
  intro r t hrt
  have hrel := Skeleton.get?_rel h j
  unfold rename
  rw [hrt.handles_eq, hrt.size_eq]
  generalize k.get? j = x at hrel ⊢
  generalize k'.get? j = y at hrel ⊢
  rw [h]
  rcases r.handles[j.index]? with _ | _ | new
  · exact .error trivial
  · cases hrel with
    | some _ =>
      refine .ok ⟨rfl, rfl, ?_⟩
      rw [Array.size_push, Array.size_push, hrt.size_eq]
    | none => exact .error trivial
  · exact .ok ⟨rfl, hrt⟩

theorem renameNode_inStep (h : k'.size = k.size) {a b : Node} (hab : a.SameThrough view b) :
    InStep Abreast (Node.SameThrough view) (renameNode k a) (renameNode k' b) := by
  obtain ⟨kind, hkind, rfl⟩ := hab.exists_kind
  refine (rename_inStep h a.entry).bind ?_
  rintro _ entry rfl
  refine (rename_inStep h a.exit).bind ?_
  rintro _ exit rfl
  exact .pure (Node.sameThrough_of_kind (a := { a with entry, exit }) hkind)

end Renumbering

/-- Compactions of rows that look the same, on skeletons of one size, keep and free equally many
joints. -/
structure Compacted.SameThrough (view : Kind → Kind) (c c' : Compacted) : Prop where
  nodes : List.Forall₂ (Node.SameThrough view) c.nodes c'.nodes
  size_eq : c'.skeleton.size = c.skeleton.size
  freed_eq : c'.freed = c.freed

/-- Skeletons of one size are compacted alike for rows that look the same: the names and the number
of freed joints agree. -/
theorem Skeleton.compact_matched {view : Kind → Kind} {k k' : Skeleton} (h : k'.size = k.size)
    {row row' : List Node} (hrow : List.Forall₂ (Node.SameThrough view) row row') :
    Matched (Compacted.SameThrough view) (k.compact row) (k'.compact row') := by
  have hstart : (Renumbering.start k).Abreast (.start k') := by
    refine ⟨?_, rfl⟩
    rw [Renumbering.start, Renumbering.start, h]
  have hnodes := InStep.mapM (fun _ _ hab => Renumbering.renameNode_inStep h hab) hrow _ _ hstart
  unfold compact
  generalize (row.mapM (Renumbering.renameNode k)) (.start k) = o at hnodes ⊢
  generalize (row'.mapM (Renumbering.renameNode k')) (.start k') = o' at hnodes ⊢
  cases hnodes with
  | ok hq => exact .ok ⟨hq.1, hq.2.size_eq, congrArg₂ (· - ·) h hq.2.size_eq⟩
  | error _ => exact .error _

end PlantGrowth
