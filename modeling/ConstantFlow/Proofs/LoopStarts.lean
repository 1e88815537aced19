import ConstantFlow.Graph.Builder
import ConstantFlow.Proofs.WalkStates

/-! What loops cost at the start of a block, told by the connected blocks of the graph alone. A block that control may
enter out of a loop, back from a block walked later, or from its own end knows no constant of a variable that this
loop overwrites. Edges need not be entered at both ends here: what counts is whom a block names as predecessor. -/

namespace ConstantFlow.Graph
variable {k : Kind} {settings : Settings} {g : Graph}

/-- At the start of a block no constant is known of a variable that is overwritten in another loop with a predecessor
of the block, in the block's own loop if a predecessor of that loop is walked later, or in the block itself if it
branches to itself and the settings count that. -/
theorem startAt_unresolved_of_overwritten (hfault : g.fault? = none) {i : Nat} {b : Block}
    (hb : g.blocks[i]? = some b) :
    (∀ p ∈ b.livePredecessors, (∃ j, j ≠ p.index ∧ g.Connected p.index j) → ¬ g.Connected p.index i →
      ∀ name, g.LoopOverwrites k p.index name →
        ((Walk.of k settings g).startAt i).get? name = some .unresolved) ∧
    (∀ p ∈ b.livePredecessors, p ≠ b.id → g.Connected p.index i → g.rank i < g.rank p.index →
      ∀ name, g.LoopOverwrites k i name →
        ((Walk.of k settings g).startAt i).get? name = some .unresolved) ∧
    (b.id ∈ b.liveSuccessors → settings.invalidateSelfLoops = true →
      ∀ name ∈ overwritten k b.statements,
        ((Walk.of k settings g).startAt i).get? name = some .unresolved) := by
  have hg := sound_of_fault? hfault
  refine ⟨?_, ?_, ?_⟩
  · intro p hp hloop hapart name hname
    apply Walk.startAt_of_givesUp _ hb
    exact (hg.givesUp_iff hb).2 (Or.inr (Or.inl ⟨p, hp, hapart, hloop, hname⟩))
  · intro p hp hne hconn hlater name hname
    apply Walk.startAt_of_givesUp _ hb
    have hsource : p ∈ Walk.sources b := Walk.mem_sources.2 ⟨hp, hne⟩
    exact (hg.givesUp_iff hb).2 (Or.inl ⟨⟨p, hsource, by omega, hconn⟩, hname⟩)
  · intro hself hsettings name hname
    apply Walk.startAt_of_givesUp _ hb
    have htarget : i ∈ g.targets i := (hg.mem_targets hb).2 ⟨b.id, hself, hg.placed hb⟩
    exact (hg.givesUp_iff hb).2 (Or.inr (Or.inr ⟨hsettings, htarget, hname⟩))

/-- A loop of two blocks that overwrites one variable, left for a block that overwrites another and branches to
itself. -/
def leaving : Graph := build "f"
  [.block [.assign ⟨"v", .integer⟩ (.int 1) ⟨1, 1, 0⟩, .assign ⟨"n", .integer⟩ (.int 0) ⟨1, 9, 0⟩],
    .block [.other ⟨2, 1, 0⟩],
    .block [.assign ⟨"v", .integer⟩ (.int 2) ⟨3, 1, 0⟩],
    .block [.combine ⟨"n", .integer⟩ .add (.int 1) ⟨4, 1, 0⟩],
    .edge ⟨0⟩ ⟨1⟩, .edge ⟨1⟩ ⟨2⟩, .edge ⟨2⟩ ⟨1⟩, .edge ⟨1⟩ ⟨3⟩, .edge ⟨3⟩ ⟨3⟩]

theorem leaving_loopOverwrites : leaving.LoopOverwrites .integer 1 "v" :=
  ⟨2, _, by decide +kernel, rfl, by decide +kernel⟩

theorem startAt_unresolved_of_overwritten_leaving :
    leaving.fault? = none ∧
    (∃ j, j ≠ 1 ∧ leaving.Connected 1 j) ∧ ¬ leaving.Connected 1 3 ∧
      ((Walk.of .integer {} leaving).startAt 3).get? "v" = some .unresolved ∧
    leaving.Connected 2 1 ∧ leaving.rank 1 < leaving.rank 2 ∧
      ((Walk.of .integer {} leaving).startAt 1).get? "v" = some .unresolved ∧
      ((Walk.of .integer {} leaving).startAt 3).get? "n" = some .unresolved := by
  have hfault : leaving.fault? = none := by decide +kernel
  have hloop : ∃ j, j ≠ 1 ∧ leaving.Connected 1 j := ⟨2, by decide, by decide +kernel⟩
  have hapart : ¬ leaving.Connected 1 3 := by decide +kernel
  have hconn : leaving.Connected 2 1 := by decide +kernel
  have hlater : leaving.rank 1 < leaving.rank 2 := by decide +kernel
  have hhead := @startAt_unresolved_of_overwritten .integer {} leaving hfault 1 _ rfl
  have hexit := @startAt_unresolved_of_overwritten .integer {} leaving hfault 3 _ rfl
  exact ⟨hfault, hloop, hapart, hexit.1 ⟨1⟩ (by decide) hloop hapart "v" leaving_loopOverwrites, hconn, hlater,
    hhead.2.1 ⟨2⟩ (by decide) (by decide) hconn hlater "v" leaving_loopOverwrites,
    hexit.2.2 (by decide) rfl "n" (by decide +kernel)⟩

end ConstantFlow.Graph
