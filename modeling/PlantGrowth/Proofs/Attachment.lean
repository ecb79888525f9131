import PlantGrowth.Proofs.Outcome
import PlantGrowth.Proofs.Row

/-!
# New nodes on a skeleton

A construction grows a skeleton by attaching nodes one after the other, each with the next
identity and an exit joint of its own. `Attached` is the growth of a skeleton by a row of
nodes. As long as the skeleton has at most one joint more than there are identities given
away, no handle wraps: the exits are the next handles in order (`Attached.exit_index`), the
joints that were there stay as they are (`Attached.get?_of_lt`), and every new node's exit is
in line with its entry (`Attached.inSync`).
-/

set_option autoImplicit false

namespace PlantGrowth

/-- The exit joint of the node is the one that belongs to its entry joint. -/
def InSync (k : Skeleton) (n : Node) : Prop :=
  ∃ e, k.get? n.entry = some e ∧ k.get? n.exit = some (n.carry e)

/-- Whether an exit is in step depends on the joints at the two handles only. -/
theorem InSync.congr {k k' : Skeleton} {n : Node} (h : InSync k n)
    (hentry : k'.get? n.entry = k.get? n.entry) (hexit : k'.get? n.exit = k.get? n.exit) :
    InSync k' n := by
  obtain ⟨e, he, hx⟩ := h
  exact ⟨e, hentry.trans he, hexit.trans hx⟩

/-- A number below two to the thirty-two is the index of its handle. -/
theorem JointId.index_ofNat {m : Nat} (h : m < UInt32.size) :
    (⟨.ofNat m⟩ : JointId).index = m := by
  show (UInt32.ofNat m).toNat = m
  rw [UInt32.toNat_ofNat']
  exact Nat.mod_eq_of_lt h

/-- Handles are told apart by their indices. -/
theorem JointId.ext_index {i j : JointId} (h : i.index = j.index) : i = j := by
  cases i
  cases j
  simpa [JointId.index, UInt32.toNat_inj] using h

namespace Skeleton

/-- A handle names no joint exactly if it lies beyond the skeleton. -/
theorem get?_eq_none_iff {k : Skeleton} {id : JointId} : k.get? id = none ↔ k.size ≤ id.index := by
  simp [get?, size]

theorem index_lt_of_get? {k : Skeleton} {id : JointId} {j : Joint} (h : k.get? id = some j) :
    id.index < k.size := by
  by_contra hge
  rw [get?_eq_none_iff.mpr (Nat.le_of_not_lt hge)] at h
  cases h

/-- Every handle inside of the skeleton names a joint. -/
theorem exists_get? {k : Skeleton} {id : JointId} (h : id.index < k.size) :
    ∃ j, k.get? id = some j := by
  cases hj : k.get? id with
  | some j => exact ⟨j, rfl⟩
  | none => exact absurd h (Nat.not_lt.mpr (get?_eq_none_iff.mp hj))

/-- The next handle is the one behind all joints, as long as it does not wrap. -/
theorem index_nextId {k : Skeleton} (h : k.size < UInt32.size) : k.nextId.index = k.size :=
  JointId.index_ofNat h

/-- A new joint leaves the ones before it alone. -/
theorem get?_push_of_lt {k : Skeleton} {id : JointId} (h : id.index < k.size) (j : Joint) :
    (k.push j).get? id = k.get? id := by
  rw [get?_push, if_neg (Nat.ne_of_lt h)]

end Skeleton

theorem addWord_lt {a b c : UInt32} (h : addWord a b = .ok c) :
    a.toNat + b.toNat < UInt32.size := by
  rw [← addWord_ok h]
  exact c.toNat_lt

/-- Growth of a skeleton by a row of nodes, with the next identity before and after. -/
inductive Attached : Skeleton → UInt32 → List Node → Skeleton → UInt32 → Prop
  | nil (k : Skeleton) (id : UInt32) : Attached k id [] k id
  | cons {k k' : Skeleton} {id next id' : UInt32} {n : Node} {ns : List Node} {e : Joint} :
      k.get? n.entry = some e → n.id = id → n.exit = k.nextId → addWord id 1 = .ok next →
      Attached (k.push (n.carry e)) next ns k' id' → Attached k id (n :: ns) k' id'

namespace Attached

variable {k k' k'' : Skeleton} {id id' id'' : UInt32} {ns ms : List Node}

/-- Rows attached one after the other make one attached row. -/
theorem append (h : Attached k id ns k' id') (h' : Attached k' id' ms k'' id'') :
    Attached k id (ns ++ ms) k'' id'' := by
  induction h with
  | nil => exact h'
  | cons he hid hexit hnext _ ih => exact .cons he hid hexit hnext (ih h')

/-- Each attached node has brought a joint. -/
theorem size_eq (h : Attached k id ns k' id') : k'.size = k.size + ns.length := by
  induction h with
  | nil => rfl
  | cons _ _ _ _ _ ih =>
    rw [ih, Skeleton.size_push, List.length_cons]
    omega

/-- Each attached node has taken an identity. -/
theorem nextId_eq (h : Attached k id ns k' id') : id'.toNat = id.toNat + ns.length := by
  induction h with
  | nil => rfl
  | cons _ _ _ hnext _ ih =>
    rw [ih, addWord_ok hnext, List.length_cons]
    show _ + 1 + _ = _
    omega

/-- Joints that were there stay as they are. -/
theorem get?_of_lt (h : Attached k id ns k' id') {j : JointId} (hj : j.index < k.size) :
    k'.get? j = k.get? j := by
  induction h with
  | nil => rfl
  | cons _ _ _ _ _ ih =>
    rw [ih (by rw [Skeleton.size_push]; omega), Skeleton.get?_push_of_lt hj]

/-- The bound that keeps handles from wrapping holds on. -/
theorem size_le (h : Attached k id ns k' id') (hk : k.size ≤ id.toNat + 1) :
    k'.size ≤ id'.toNat + 1 := by
  rw [h.size_eq, h.nextId_eq]
  omega

/-- The exits of the new nodes are the next handles in order. -/
theorem exit_index (h : Attached k id ns k' id') (hk : k.size ≤ id.toNat + 1) :
    ns.map (·.exit.index) = List.range' k.size ns.length := by
  induction h with
  | nil => rfl
  | @cons k k' id next id' n ns e he hid hexit hnext _ ih =>
    have hlt := addWord_lt hnext
    have hword := addWord_ok hnext
    have hone : (1 : UInt32).toNat = 1 := rfl
    -- there are no more joints than identities, so the next handle does not wrap
    have hfirst : n.exit.index = k.size := by
      rw [hexit]
      exact Skeleton.index_nextId (by omega)
    have hrest := ih (by rw [Skeleton.size_push]; omega)
    rw [List.map_cons, hfirst, hrest, Skeleton.size_push, List.length_cons, List.range'_succ]

/-- The exits of attached nodes are among the new joints. -/
theorem size_le_exit (h : Attached k id ns k' id') (hk : k.size ≤ id.toNat + 1) {n : Node}
    (hn : n ∈ ns) : k.size ≤ n.exit.index ∧ n.exit.index < k'.size := by
  have hmem : n.exit.index ∈ ns.map (·.exit.index) := List.mem_map_of_mem hn
  rw [h.exit_index hk, List.mem_range'_1] at hmem
  rw [h.size_eq]
  exact hmem

/-- Attached nodes have exits of their own. -/
theorem nodup_exits (h : Attached k id ns k' id') (hk : k.size ≤ id.toNat + 1) :
    (ns.map (·.exit)).Nodup := by
  have hmap : (ns.map (·.exit)).map JointId.index = List.range' k.size ns.length := by
    rw [List.map_map]
    exact h.exit_index hk
  apply List.Nodup.of_map JointId.index
  rw [hmap]
  exact List.nodup_range'

/-- Every new node ends in line with its entry. -/
theorem inSync (h : Attached k id ns k' id') (hk : k.size ≤ id.toNat + 1) {n : Node}
    (hn : n ∈ ns) : InSync k' n := by
  induction h with
  | nil => cases hn
  | @cons k k' id next id' m ns e he hid hexit hnext hrest ih =>
    have hlt := addWord_lt hnext
    have hword := addWord_ok hnext
    have hone : (1 : UInt32).toNat = 1 := rfl
    have hfirst : m.exit.index = k.size := by
      rw [hexit]
      exact Skeleton.index_nextId (by omega)
    rcases List.mem_cons.mp hn with rfl | hn
    -- the nodes that come later only add joints behind those of the first
    · have hentry := Skeleton.index_lt_of_get? he
      refine ⟨e, ?_, ?_⟩
      · rw [hrest.get?_of_lt (by rw [Skeleton.size_push]; omega), Skeleton.get?_push_of_lt hentry,
          he]
      · rw [hrest.get?_of_lt (by rw [Skeleton.size_push]; omega), Skeleton.get?_push,
          if_pos hfirst]
    · exact ih (by rw [Skeleton.size_push]; omega) hn

end Attached

/-- Attaching a node takes the next handle for its exit, whose joint is told from the one at the
entry. -/
theorem OnSite.attach_eq_ok {σ : Type} {id depth : UInt32} {letter : Char} {entry : JointId}
    {rotation : Scalar} {hasRule : Bool} {kind : Kind} {n : Node} {s t : Site σ} :
    attach id letter entry rotation depth hasRule kind s = .ok n t ↔
      ∃ e, s.skeleton.get? entry = some e ∧
        ⟨id, letter, entry, s.skeleton.nextId, rotation, depth, hasRule, kind⟩ = n ∧
        ⟨s.skeleton.push (kind.carry rotation e), s.source⟩ = t := by
  simp only [attach, Outcome.bind_eq_ok, Outcome.pure_eq_ok, joint_eq_ok, addJoint_eq_ok]
  constructor
  · rintro ⟨e, r, ⟨he, rfl⟩, exit, r', ⟨rfl, rfl⟩, rfl, rfl⟩
    exact ⟨e, he, rfl, rfl⟩
  · rintro ⟨e, he, rfl, rfl⟩
    exact ⟨e, s, ⟨he, rfl⟩, _, _, ⟨rfl, rfl⟩, rfl, rfl⟩

end PlantGrowth
