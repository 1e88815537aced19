import ConstantFlow.Proofs.WalkingOrder

/-! The walking order by a loop on frames. The loop takes the same course as the traversal by recursion: a flag stands
for a vertex met, and each frame of the path comes back with what a visit of its block leaves behind. So no step fails
and the loop ends, on any graph at all. Ids of 32 bits limit only what can be told apart in the outcome. -/

namespace ConstantFlow

theorem Traversal.mem_seen_visit {targets : Nat → List Nat} {u : Nat} (fuel v : Nat) {r : Traversal}
    (hu : u ∈ r.seen) : u ∈ (visit targets fuel v r).seen := by
  induction fuel generalizing v r with
  | zero => exact hu
  | succ fuel ih =>
      rw [visit_succ]
      refine List.foldlRecOn (motive := fun r : Traversal => u ∈ r.seen) (targets v) _ (List.mem_cons_of_mem _ hu) ?_
      intro r hr w _
      by_cases hseen : w ∈ r.seen
      · rw [follow_of_seen hseen]
        exact hr
      · rw [follow_of_new hseen]
        exact ih w hr

namespace Sweep
variable {n : Nat} {t : Sweep} {r : Traversal}

/-- Whether a state of the loop says of the vertices below `n` what a traversal by recursion does. -/
structure Describes (n : Nat) (t : Sweep) (r : Traversal) : Prop where
  length : t.met.length = n
  met : ∀ i < n, t.met[i]? = some (decide (i ∈ r.seen))
  finished : t.finished.map BlockId.index = r.finished

theorem describes_new (n : Nat) : Describes n ⟨List.replicate n false, []⟩ ⟨[], []⟩ := by
  refine ⟨List.length_replicate, fun i hi => ?_, rfl⟩
  simp [hi]

theorem Describes.meet (h : Describes n t r) {b : BlockId} (hb : b.index < n) :
    ∃ t', t.meet? b = some t' ∧ Describes n t' ⟨b.index :: r.seen, r.finished⟩ := by
  refine ⟨_, if_pos (h.length.symm ▸ hb), ?_, fun i hi => ?_, h.finished⟩
  · rw [List.length_set, h.length]
  · rw [List.getElem?_set]
    by_cases heq : b.index = i
    · simp [heq, h.length, hi]
    · simp [heq, Ne.symm heq, h.met i hi]

theorem Describes.finish (h : Describes n t r) (b : BlockId) :
    Describes n { t with finished := b :: t.finished } ⟨r.seen, b.index :: r.finished⟩ :=
  ⟨h.length, h.met, by rw [List.map_cons, h.finished]⟩

section Turns
variable {g : Graph} {frame : Frame} {path : List Frame} {block : Block}

theorem follow?_of_turn {t' : Sweep} {path' : List Frame} (h : turn? g t frame path = some (t', path')) :
    follow? g t (frame :: path) = follow? g t' path' := by
  rw [follow?, h]
  rfl

theorem turn?_leave (hblock : g.blocks[frame.block.index]? = some block)
    (hnext : block.successors[frame.next]? = none) :
    turn? g t frame path = some ({ t with finished := frame.block :: t.finished }, path) := by
  simp [turn?, Graph.block?, hblock, hnext]

theorem turn?_pass (hblock : g.blocks[frame.block.index]? = some block) {e : Option BlockId}
    (hnext : block.successors[frame.next]? = some e) (he : ∀ w, e = some w → ¬ w.index < g.size) :
    turn? g t frame path = some (t, ⟨frame.block, frame.next + 1⟩ :: path) := by
  cases e with
  | none => simp [turn?, Graph.block?, hblock, hnext]
  | some w => simp [turn?, Graph.block?, hblock, hnext, he w rfl]

variable {w : BlockId}

theorem Describes.turn?_met (h : Describes g.size t r) (hblock : g.blocks[frame.block.index]? = some block)
    (hnext : block.successors[frame.next]? = some (some w)) (hw : w.index < g.size) (hmet : w.index ∈ r.seen) :
    turn? g t frame path = some (t, ⟨frame.block, frame.next + 1⟩ :: path) := by
  simp [turn?, Graph.block?, hblock, hnext, hw, h.met _ hw, hmet]

theorem Describes.turn?_new (h : Describes g.size t r) (hblock : g.blocks[frame.block.index]? = some block)
    (hnext : block.successors[frame.next]? = some (some w)) (hw : w.index < g.size) (hnew : w.index ∉ r.seen)
    {t' : Sweep} (hmeet : t.meet? w = some t') :
    turn? g t frame path = some (t', ⟨w, 0⟩ :: ⟨frame.block, frame.next + 1⟩ :: path) := by
  simp [turn?, Graph.block?, hblock, hnext, hw, h.met _ hw, hnew, hmeet]

end Turns

section Visits
open Traversal (visit)
variable {g : Graph} {b : BlockId} {block : Block} {frames : List Frame}

/-- What is promised of visits with some fuel: the loop meets the block and comes back to the frames below it with what
the visit leaves behind. -/
def Visits (g : Graph) (fuel : Nat) : Prop :=
  ∀ t r b frames, Describes g.size t r → b.index < g.size → b.index ∉ r.seen → unmet g.size r.seen ≤ fuel →
    ∃ t₁ t', t.meet? b = some t₁ ∧ follow? g t₁ (⟨b, 0⟩ :: frames) = follow? g t' frames ∧
      Describes g.size t' (visit g.targets fuel b.index r)

/-- Looking at all successors of a block, with room to visit those that are new. -/
theorem Visits.scan {fuel : Nat} (hvisits : Visits g fuel) {met : List Nat} (hroom : unmet g.size met ≤ fuel)
    (hblock : g.blocks[b.index]? = some block) :
    Graph.Scan g b block frames (follow? g) (Traversal.follow (visit g.targets fuel))
      fun _ t r => Describes g.size t r ∧ ∀ v ∈ met, v ∈ r.seen where
  pass _ _ _ hnext hout := follow?_of_turn (turn?_pass hblock hnext hout)
  step := by
    rintro k w - t r hnext hw ⟨ht, hmet⟩
    have hlt := g.targets_lt _ _ hw
    by_cases hseen : w.index ∈ r.seen
    · rw [Traversal.follow_of_seen hseen]
      exact ⟨t, follow?_of_turn (ht.turn?_met hblock hnext hlt hseen), ht, hmet⟩
    · obtain ⟨t₁, t', hmeet, hback, ht'⟩ :=
        hvisits t r w (⟨b, k + 1⟩ :: frames) ht hlt hseen ((unmet_mono hmet).trans hroom)
      rw [Traversal.follow_of_new hseen]
      exact ⟨t', (follow?_of_turn (ht.turn?_new hblock hnext hlt hseen hmeet)).trans hback, ht',
        fun v hv => Traversal.mem_seen_visit fuel w.index (hmet v hv)⟩

/-- The loop runs through visits as recursion does. -/
theorem visits (g : Graph) (fuel : Nat) : Visits g fuel := by
  induction fuel with
  | zero =>
      intro t r b frames _ hb hnew hroom
      have := unmet_cons_lt hb hnew
      omega
  | succ fuel ih =>
      intro t r b frames ht hb hnew hroom
      -- Meeting the block takes one unmet vertex away, and the scan of its successors keeps it met.
      have hless : unmet g.size (b.index :: r.seen) ≤ fuel := unmet_cons_le hb hnew hroom
      obtain ⟨t₁, hmeet, ht₁⟩ := ht.meet hb
      obtain ⟨block, hblock⟩ := Graph.exists_getElem? hb
      obtain ⟨t₂, hrun, ht₂, -⟩ := (ih.scan hless hblock).run hblock ⟨ht₁, fun _ hv => hv⟩
      have hend : follow? g t₂ (⟨b, block.successors.length⟩ :: frames) =
          follow? g { t₂ with finished := b :: t₂.finished } frames :=
        follow?_of_turn (turn?_leave hblock (List.getElem?_eq_none le_rfl))
      exact ⟨t₁, _, hmeet, hrun.trans hend, ht₂.finish b⟩

theorem start?_spec {root : BlockId} (ht : Describes g.size t r) (hroot : root.index < g.size)
    (hnew : root.index ∉ r.seen) :
    ∃ t', start? g t root = some t' ∧ Describes g.size t' (visit g.targets g.size root.index r) := by
  obtain ⟨t₁, t', hmeet, hfollow, ht'⟩ := visits g g.size t r root [] ht hroot hnew (unmet_le _ _)
  have hend : follow? g t' [] = some t' := by rw [follow?]
  exact ⟨t', by simp [start?, hmeet, hfollow, hend], ht'⟩

end Visits
end Sweep

namespace Graph
variable {g : Graph}

theorem entryIndex?_eq (g : Graph) :
    g.entryIndex? = (g.entry.filter (·.index < g.size)).map BlockId.index := by
  rw [entryIndex?, Option.filter_map]
  rfl

/-- The loop from the entry has an outcome: the blocks that the entry reaches have been met and finished, and no
others. -/
theorem sweep_spec (g : Graph) :
    ∃ t, (g.entry.filter (·.index < g.size)).toList.foldlM (Sweep.start? g) ⟨List.replicate g.size false, []⟩ =
      some t ∧ Sweep.Describes g.size t ⟨g.reached, g.reached⟩ := by
  cases hentry : g.entry.filter (·.index < g.size) with
  | none =>
      have hnone : g.entryIndex? = none := by rw [entryIndex?_eq, hentry, Option.map_none]
      rw [reached, hnone]
      exact ⟨_, rfl, Sweep.describes_new g.size⟩
  | some e =>
      have hsome : g.entryIndex? = some e.index := by rw [entryIndex?_eq, hentry, Option.map_some]
      obtain ⟨t, hstart, ht⟩ := Sweep.start?_spec (Sweep.describes_new g.size) (entryIndex?_lt hsome) List.not_mem_nil
      have hseen := Traversal.mem_seen_visit_empty g.targets_lt (entryIndex?_lt hsome)
      rw [reached, hsome]
      refine ⟨t, by simpa using hstart, ht.length, fun i hi => ?_, ht.finished⟩
      rw [ht.met i hi]
      exact congrArg some (decide_eq_decide.2 (hseen i))

/-- The loop on frames has an outcome on every graph, whatever is wrong with the ids, the entry and the edges: it never
steps outside a table, it ends, and it gives the ids of the positions in walking order. -/
theorem orderIds?_eq (g : Graph) : g.orderIds? = some (g.order.map BlockId.ofIndex) := by
  obtain ⟨t, hloop, ht⟩ := g.sweep_spec
  have hfinished : t.finished = g.reached.map BlockId.ofIndex := by
    have hindices : t.finished.map BlockId.index = g.reached := ht.finished
    rw [← hindices, List.map_map]
    exact (List.map_id'' BlockId.ofIndex_index _).symm
  have hrest : ((List.range g.size).filter fun i => t.met[i]? = some false) =
      (List.range g.size).filter fun i => !g.reached.contains i := by
    refine List.filter_congr fun i hi => ?_
    simp [ht.met i (List.mem_range.1 hi)]
  rw [orderIds?, hloop, order, List.map_append, ← hfinished, ← hrest]
  rfl

/-- The ids in walking order tell where their blocks stand exactly if there are no more blocks than ids. -/
theorem map_index_order_iff (g : Graph) :
    (g.order.map BlockId.ofIndex).map BlockId.index = g.order ↔ g.size ≤ UInt32.size := by
  rw [List.map_map]
  constructor
  · intro hsame
    by_contra hlt
    have hmem : UInt32.size ∈ g.order := mem_order.2 (Nat.lt_of_not_le hlt)
    have hwrapped : (BlockId.ofIndex UInt32.size).index = UInt32.size :=
      List.map_inj_left.1 (hsame.trans (List.map_id _).symm) _ hmem
    rw [BlockId.index_ofIndex, Nat.mod_self] at hwrapped
    exact absurd hwrapped (by decide)
  · intro hsize
    refine (List.map_congr_left fun i hi => ?_).trans (List.map_id _)
    exact (BlockId.index_ofIndex i).trans (Nat.mod_eq_of_lt ((mem_order.1 hi).trans_le hsize))

end Graph
end ConstantFlow
