import PlantGrowth.Proofs.Memoryless

/-!
# Settled skeletons

A skeleton is settled for a row of nodes if no exit joint of them has to be computed anew:
computing it gives the joint that is there already. For one node that is the same as being in
line with its entry (`inSync_iff_refresh_eq`), and for a settled row all exits may be computed
anew in any order and any number of times (`Settled.forM_refresh_eq`).

Frames unsettle a plant, since sway moves the exits away from where their entries say. A
generation settles it again: `Plant.Reachable.generate_settled`.
-/

set_option autoImplicit false

namespace PlantGrowth

/-! ## Joints put where they are -/

namespace Skeleton

variable {k : Skeleton} {id : JointId} {j : Joint}

/-- Putting a joint where it is already changes nothing. -/
theorem put_eq_self_of_get? (h : k.get? id = some j) : k.put id j = k := by
  have hsame : k.joints.setIfInBounds id.index j = k.joints := by
    apply Array.ext_getElem?
    intro i
    by_cases hi : id.index = i
    · subst hi
      rw [Array.getElem?_setIfInBounds_self_of_lt (index_lt_of_get? h)]
      exact h.symm
    · exact Array.getElem?_setIfInBounds_ne hi
  rw [put, hsame]

theorem put_eq_self_iff (h : id.index < k.size) : k.put id j = k ↔ k.get? id = some j := by
  constructor
  · intro hput
    rw [← hput]
    exact get?_put_self h j
  · exact put_eq_self_of_get?

end Skeleton

/-! ## Nodes whose exits are in line -/

section Settled

variable {σ : Type} {k : Skeleton} {n : Node}

/-- A node is in line with its entry exactly if computing its exit anew changes nothing. -/
theorem inSync_iff_refresh_eq (source : σ) :
    InSync k n ↔ OnSite.refresh n ⟨k, source⟩ = .ok () ⟨k, source⟩ := by
  rw [OnSite.refresh_eq_ok]
  constructor
  · rintro ⟨e, he, hx⟩
    refine ⟨e, he, Skeleton.index_lt_of_get? hx, ?_⟩
    rw [Skeleton.put_eq_self_of_get? hx]
  · rintro ⟨e, he, hlt, hsite⟩
    have hput : k.put n.exit (n.carry e) = k := congrArg Site.skeleton hsite
    exact ⟨e, he, (Skeleton.put_eq_self_iff hlt).mp hput⟩

/-- Computing any exit of the row anew changes nothing, whatever the random source. -/
def Settled (k : Skeleton) (row : List Node) : Prop :=
  ∀ n ∈ row, ∀ (σ : Type) (source : σ), OnSite.refresh n ⟨k, source⟩ = .ok () ⟨k, source⟩

theorem settled_iff {row : List Node} : Settled k row ↔ ∀ n ∈ row, InSync k n := by
  constructor
  · intro h n hn
    exact (inSync_iff_refresh_eq ()).mpr (h n hn Unit ())
  · intro h n hn σ source
    exact (inSync_iff_refresh_eq source).mp (h n hn)

/-- The exits of a settled row may be computed anew in any order and any number of times. -/
theorem Settled.forM_refresh_eq {row order : List Node} (h : Settled k row) (horder : order ⊆ row)
    (source : σ) :
    (forM order OnSite.refresh : OnSite σ PUnit) ⟨k, source⟩ = .ok () ⟨k, source⟩ := by
  induction order with
  | nil => rfl
  | cons n order ih =>
    have hn : OnSite.refresh n ⟨k, source⟩ = .ok () ⟨k, source⟩ :=
      h n (horder List.mem_cons_self) σ source
    rw [List.forM_cons, Outcome.bind_eq_ok]
    exact ⟨(), ⟨k, source⟩, hn, ih fun m hm => horder (List.mem_cons_of_mem n hm)⟩

end Settled

namespace Plant

/-- A generation leaves every exit resynchronized, whatever frames went before: for each node of
the new row, whether carried over, new or a bridge, the joint at its exit is what its entry and
the node itself say, and computing it anew changes nothing. -/
theorem Reachable.generate_settled {σ : Type} [RandomSource σ] {origin : Vec} {p p' : Plant}
    {tally : Tally} {s t : Surroundings σ} (hp : Reachable origin p)
    (h : p.generate s = .ok (p', tally) t) :
    (∀ n ∈ p'.nodes, ∃ e, p'.skeleton.get? n.entry = some e ∧
      p'.skeleton.get? n.exit = some (n.carry e)) ∧ Settled p'.skeleton p'.nodes := by
  have hsync := (hp.sound.generate h).2
  exact ⟨hsync, settled_iff.mpr hsync⟩

/-- So does the next generation of the shoot, which has grown in moving air. -/
theorem Reachable.generate_settled_shoot : ∃ p t p' tally t',
    shoot ⟨⟨#[0], 0⟩, #[]⟩ = .ok p t ∧ p.generate t = .ok (p', tally) t' ∧ p'.nodes ≠ [] ∧
    (∀ n ∈ p'.nodes, ∃ e, p'.skeleton.get? n.entry = some e ∧
      p'.skeleton.get? n.exit = some (n.carry e)) ∧ Settled p'.skeleton p'.nodes := by
  have hok : Outcome.isOk (fun _ => true) ((do let p ← shoot; p.generate :
      Garden Reel (Plant × Tally)) ⟨⟨#[0], 0⟩, #[]⟩) = true := by decide +kernel
  obtain ⟨⟨p', tally⟩, t', h, -⟩ := Outcome.exists_of_isOk hok
  obtain ⟨p, t, hshoot, hgenerate⟩ := Outcome.bind_eq_ok.mp h
  have hp := reachable_of_shoot hshoot
  obtain ⟨hsync, hsettled⟩ := hp.generate_settled hgenerate
  exact ⟨p, t, p', tally, t', hshoot, hgenerate, (hp.sound.generate hgenerate).1.ne_nil, hsync,
    hsettled⟩

end Plant

end PlantGrowth
