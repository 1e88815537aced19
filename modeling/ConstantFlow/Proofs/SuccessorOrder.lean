import ConstantFlow.Graph.Builder
import ConstantFlow.Proofs.BlockLookup
import ConstantFlow.Proofs.Dominance
import ConstantFlow.Proofs.LoopNumbers
import ConstantFlow.Proofs.Precision
import Mathlib.Data.List.Forall2

/-! The order in which blocks list their successors. It decides how the depth-first searches run, and with them the
walking order and the numbers of loops. In a reducible graph it decides nothing else: each edge goes the same way in
every walking order, so that each block starts from the same predecessors and gives up the same variables, and the
history keeps no trace of the order of visits. -/

namespace ConstantFlow

/-- Whether a block is another one with its successors listed in some order. -/
structure Block.Reordered (b b' : Block) : Prop where
  id : b.id = b'.id
  statements : b.statements = b'.statements
  predecessors : b.predecessors = b'.predecessors
  successors : b.successors.Perm b'.successors

/-- Whether a graph is another one with the successors of each block listed in some order. -/
structure Graph.Reordered (g g' : Graph) : Prop where
  functionId : g.functionId = g'.functionId
  entry : g.entry = g'.entry
  blocks : List.Forall₂ Block.Reordered g.blocks g'.blocks

namespace Block.Reordered
variable {b b' : Block}

theorem symm (h : b.Reordered b') : b'.Reordered b :=
  ⟨h.id.symm, h.statements.symm, h.predecessors.symm, h.successors.symm⟩

theorem mem_liveSuccessors (h : b.Reordered b') {target : BlockId} :
    target ∈ b.liveSuccessors ↔ target ∈ b'.liveSuccessors :=
  (h.successors.filterMap _).mem_iff

theorem livePredecessors (h : b.Reordered b') : b.livePredecessors = b'.livePredecessors := by
  rw [Block.livePredecessors, h.predecessors, Block.livePredecessors]

theorem sources (h : b.Reordered b') : Walk.sources b = Walk.sources b' := by
  rw [Walk.sources, h.livePredecessors, h.id, Walk.sources]

end Block.Reordered

namespace Graph.Reordered
variable {k : Kind} {settings : Settings} {g g' : Graph} {i j : Nat} {name : String}

theorem symm (h : g.Reordered g') : g'.Reordered g :=
  ⟨h.functionId.symm, h.entry.symm, (h.blocks.imp fun _ _ hb => hb.symm).flip⟩

theorem size (h : g.Reordered g') : g.size = g'.size := h.blocks.length_eq

theorem getElem? (h : g.Reordered g') {b : Block} (hb : g.blocks[i]? = some b) :
    ∃ b', g'.blocks[i]? = some b' ∧ b.Reordered b' := by
  have hi : i < g.size := lt_size_of_getElem? hb
  have hi' : i < g'.size := h.size ▸ hi
  obtain rfl : g.blocks[i] = b := (List.getElem?_eq_some_iff.1 hb).2
  exact ⟨g'.blocks[i], List.getElem?_eq_getElem hi', (List.forall₂_iff_get.1 h.blocks).2 i hi hi'⟩

/-! ### Paths -/

theorem entryIndex? (h : g.Reordered g') : g.entryIndex? = g'.entryIndex? := by
  rw [Graph.entryIndex?, h.entry, h.size, Graph.entryIndex?]

theorem targets_subset (h : g.Reordered g') (i : Nat) : ∀ j ∈ g.targets i, j ∈ g'.targets i := by
  intro j hj
  obtain ⟨hlt, b, hb, target, htarget, hindex⟩ := mem_targets.1 hj
  obtain ⟨b', hb', hblock⟩ := h.getElem? hb
  exact mem_targets.2 ⟨h.size ▸ hlt, b', hb', target, hblock.mem_liveSuccessors.1 htarget, hindex⟩

theorem mem_targets_iff (h : g.Reordered g') : j ∈ g.targets i ↔ j ∈ g'.targets i :=
  ⟨h.targets_subset i j, h.symm.targets_subset i j⟩

theorem connected_iff (h : g.Reordered g') : g.Connected i j ↔ g'.Connected i j :=
  ⟨fun hconn => ⟨hconn.1.mono h.targets_subset, hconn.2.mono h.targets_subset⟩,
    fun hconn => ⟨hconn.1.mono h.symm.targets_subset, hconn.2.mono h.symm.targets_subset⟩⟩

theorem reachable (h : g.Reordered g') (hi : g.Reachable i) : g'.Reachable i := by
  obtain ⟨e, he, hreach⟩ := hi
  exact ⟨e, h.entryIndex? ▸ he, Leads.mono h.targets_subset hreach⟩

theorem reachable_iff (h : g.Reordered g') : g.Reachable i ↔ g'.Reachable i := ⟨h.reachable, h.symm.reachable⟩

theorem dominates (h : g.Reordered g') {d : Nat} (hdom : g.Dominates d i) : g'.Dominates d i := by
  intro e path he hpath hlast
  exact hdom e path (h.entryIndex? ▸ he) (hpath.imp fun a => h.symm.targets_subset a) hlast

theorem dominates_iff (h : g.Reordered g') {d : Nat} : g.Dominates d i ↔ g'.Dominates d i :=
  ⟨h.dominates, h.symm.dominates⟩

/-! ### What a graph keeps -/

theorem sound (h : g.Reordered g') (hg : g.Sound) : g'.Sound := by
  have hblock : ∀ {b' : Block}, b' ∈ g'.blocks → ∃ b ∈ g.blocks, b'.Reordered b := by
    intro b' hb'
    obtain ⟨i, hi⟩ := List.mem_iff_getElem?.1 hb'
    obtain ⟨b, hb, hre⟩ := h.symm.getElem? hi
    exact ⟨b, List.mem_of_getElem? hb, hre⟩
  refine ⟨?_, ?_, ?_, ?_⟩
  · intro i b' hb'
    obtain ⟨b, hb, hre⟩ := h.symm.getElem? hb'
    rw [hre.id, hg.placed hb]
  · intro hne
    rw [← h.entryIndex?]
    apply hg.entered
    intro hnil
    have hsize := h.size
    rw [Graph.size, hnil, List.length_nil, eq_comm] at hsize
    exact hne (List.eq_nil_of_length_eq_zero hsize)
  · intro b' hb' target htarget
    obtain ⟨b, hb, hre⟩ := hblock hb'
    rw [← h.size]
    exact hg.successor_lt hb target (hre.mem_liveSuccessors.1 htarget)
  · intro b' hb' source hsource
    obtain ⟨b, hb, hre⟩ := hblock hb'
    rw [← h.size]
    exact hg.predecessor_lt hb source (hre.livePredecessors ▸ hsource)

theorem symmetric (h : g.Reordered g') (hsym : g.Symmetric) : g'.Symmetric := by
  intro source' hsource' target' htarget'
  obtain ⟨i, hi⟩ := List.mem_iff_getElem?.1 hsource'
  obtain ⟨j, hj⟩ := List.mem_iff_getElem?.1 htarget'
  obtain ⟨source, hsource, hres⟩ := h.symm.getElem? hi
  obtain ⟨target, htarget, hret⟩ := h.symm.getElem? hj
  rw [hres.mem_liveSuccessors, hret.livePredecessors, hret.id, hres.id]
  exact hsym source (List.mem_of_getElem? hsource) target (List.mem_of_getElem? htarget)

theorem reducible (h : g.Reordered g') (hred : g.Reducible) : g'.Reducible := by
  have hkeeps : ∀ a b, g'.Keeps a b → g.Keeps a b := by
    rintro a b ⟨ha, hedge, hdom⟩
    exact ⟨h.reachable_iff.2 ha, h.mem_targets_iff.2 hedge, fun hdom' => hdom (h.dominates hdom')⟩
  intro i hcycle
  exact hred i (Relation.TransGen.mono hkeeps i i hcycle)

/-- An edge of a reducible graph goes the same way in both walking orders. -/
theorem rank_lt_iff (h : g.Reordered g') (hred : g.Reducible) (hedge : j ∈ g.targets i) :
    g.rank i < g.rank j ↔ g'.rank i < g'.rank j := by
  rw [hred.rank_lt_iff hedge, (h.reducible hred).rank_lt_iff (h.mem_targets_iff.1 hedge), h.reachable_iff,
    h.reachable_iff, h.dominates_iff]

/-! ### States -/

theorem loopOverwrites (h : g.Reordered g') (hover : g.LoopOverwrites k i name) : g'.LoopOverwrites k i name := by
  obtain ⟨q, b, hconn, hb, hname⟩ := hover
  obtain ⟨b', hb', hblock⟩ := h.getElem? hb
  exact ⟨q, b', h.connected_iff.1 hconn, hb', hblock.statements ▸ hname⟩

theorem forfeits (h : g.Reordered g') (hred : g.Reducible) (hforfeits : g.Forfeits k settings i name) :
    g'.Forfeits k settings i name := by
  rcases hforfeits with ⟨⟨p, hne, hedge, hlate, hconn⟩, hover⟩ | ⟨p, hedge, hapart, ⟨j, hj, hconn⟩, hover⟩ |
    ⟨hsettings, hself, b, hb, hname⟩
  · refine Or.inl ⟨⟨p, hne, h.mem_targets_iff.1 hedge, ?_, h.connected_iff.1 hconn⟩, h.loopOverwrites hover⟩
    exact fun hlt => hlate ((h.rank_lt_iff hred hedge).2 hlt)
  · refine Or.inr (Or.inl ⟨p, h.mem_targets_iff.1 hedge, ?_, ⟨j, hj, h.connected_iff.1 hconn⟩, ?_⟩)
    · exact fun hconn' => hapart (h.connected_iff.2 hconn')
    · exact h.loopOverwrites hover
  · obtain ⟨b', hb', hblock⟩ := h.getElem? hb
    exact Or.inr (Or.inr ⟨hsettings, h.mem_targets_iff.1 hself, b', hb', hblock.statements ▸ hname⟩)

theorem forgoes (h : g.Reordered g') (hg : g.Sound) (hsym : g.Symmetric) (hred : g.Reducible) :
    (Walk.of k settings g).Forgoes (Walk.of k settings g') := by
  refine ⟨h.size, fun {i b b'} hb hb' => ?_⟩
  obtain ⟨b'', hb'', hblock⟩ := h.getElem? hb
  obtain rfl : b'' = b' := Option.some.inj (hb''.symm.trans hb')
  refine ⟨hblock.statements, hblock.sources, ?_, ?_⟩
  · intro p hp
    exact h.rank_lt_iff hred ((hg.mem_sources hsym hb).1 ⟨p, hp, rfl⟩).2
  · intro name hgiven
    rw [(h.sound hg).givesUp_iff_forfeits (h.symmetric hsym) hb'] at hgiven
    rw [hg.givesUp_iff_forfeits hsym hb]
    exact h.symm.forfeits (h.reducible hred) hgiven

/-- Each block starts in the same state: either walk gives up what the other one does. -/
theorem startAt_eq (h : g.Reordered g') (hg : g.Sound) (hsym : g.Symmetric) (hred : g.Reducible) (i : Nat) :
    (Walk.of k settings g).startAt i = (Walk.of k settings g').startAt i := by
  apply State.Vaguer.antisymm
  · exact ((h.forgoes hg hsym hred).vaguer i).1
  · exact ((h.symm.forgoes (h.sound hg) (h.symmetric hsym) (h.reducible hred)).vaguer i).1

theorem recorded_eq (h : g.Reordered g') (hg : g.Sound) (hsym : g.Symmetric) (hred : g.Reducible) :
    Walk.recorded (Walk.of k settings g).visits = Walk.recorded (Walk.of k settings g').visits := by
  apply History.ext_entries
  intro name e
  rw [Walk.mem_recorded, Walk.mem_recorded]
  constructor
  · rintro ⟨i, b, hb, he⟩
    obtain ⟨b', hb', hblock⟩ := h.getElem? hb
    exact ⟨i, b', hb', h.startAt_eq hg hsym hred i ▸ hblock.statements ▸ he⟩
  · rintro ⟨i, b', hb', he⟩
    obtain ⟨b, hb, hblock⟩ := h.symm.getElem? hb'
    exact ⟨i, b, hb, h.startAt_eq hg hsym hred i ▸ hblock.statements ▸ he⟩

/-! ### Loops and what they overwrite -/

theorem atIndex_ne_zero (h : g.Reordered g') (hg : g.Sound) (hne : g.loops.atIndex i ≠ 0) :
    g'.loops.atIndex i ≠ 0 := by
  obtain ⟨c, hc, hi⟩ := Graph.atIndex_ne_zero.1 hne
  have hlt := lt_size_of_mem_cycle hc hi
  obtain ⟨j, hj, hconn⟩ := (hg.isPlaced.atIndex_ne_zero_iff hlt).1 hne
  exact ((h.sound hg).isPlaced.atIndex_ne_zero_iff (h.size ▸ hlt)).2 ⟨j, hj, h.connected_iff.1 hconn⟩

theorem same (h : g.Reordered g') (hg : g.Sound) {a b : BlockId} (hsame : g.loops.same a b = true) :
    g'.loops.same a b = true := by
  rw [Loops.same, Bool.and_eq_true, decide_eq_true_iff, decide_eq_true_iff] at hsame ⊢
  have hconn := connected_of_atIndex_eq hsame.1 hsame.2
  exact ⟨h.atIndex_ne_zero hg hsame.1, atIndex_congr (h.connected_iff.1 hconn)⟩

theorem mem_changes_loop (h : g.Reordered g') (hg : g.Sound) {a : BlockId}
    (hname : name ∈ (g.changes k settings g.loops).loop (g.loops.of a)) :
    name ∈ (g'.changes k settings g'.loops).loop (g'.loops.of a) := by
  have hne : g.loops.atIndex a.index ≠ 0 := (Graph.mem_changes_loop.1 hname).1
  rw [Loops.of, (h.sound hg).mem_changes_atIndex (h.atIndex_ne_zero hg hne)]
  exact h.loopOverwrites ((hg.mem_changes_atIndex hne).1 hname)

theorem selfLoop (h : g.Reordered g') (a : BlockId) : g.loops.selfLoop a = g'.loops.selfLoop a := by
  rw [Loops.selfLoop, Loops.selfLoop, loops, loops, List.getElem?_map, List.getElem?_map]
  congr 1
  cases hb : g.blocks[a.index]? with
  | none =>
      have hout : g'.blocks[a.index]? = none := by
        rw [List.getElem?_eq_none_iff] at hb ⊢
        exact h.blocks.length_eq ▸ hb
      rw [hout]
  | some b =>
      obtain ⟨b', hb', hblock⟩ := h.getElem? hb
      rw [hb', Option.map_some, Option.map_some, Option.some.injEq, hblock.id]
      exact Bool.eq_iff_iff.2 (by simp [hblock.mem_liveSuccessors])

theorem mem_changes_selfLoop (h : g.Reordered g') {a : BlockId}
    (hname : name ∈ (g.changes k settings g.loops).selfLoop a) :
    name ∈ (g'.changes k settings g'.loops).selfLoop a := by
  obtain ⟨hsettings, hself, b, hb, hid, hname⟩ := Graph.mem_changes_selfLoop.1 hname
  obtain ⟨i, hi⟩ := List.mem_iff_getElem?.1 hb
  obtain ⟨b', hb', hblock⟩ := h.getElem? hi
  exact Graph.mem_changes_selfLoop.2 ⟨hsettings, h.selfLoop a ▸ hself, b', List.mem_of_getElem? hb',
    hblock.id ▸ hid, hblock.statements ▸ hname⟩

end Graph.Reordered

/-- Whether two analyses say the same, apart from the numbers that loops carry. -/
structure Analysis.SameUpToNumbers {k : Kind} (a b : Analysis k) : Prop where
  functionId : a.functionId = b.functionId
  blockCount : a.blockCount = b.blockCount
  history : a.history = b.history
  sameLoop : ∀ p q : BlockId, a.loops.same p q = b.loops.same p q
  /-- What the loop of a block overwrites. -/
  changed : ∀ p : BlockId, a.changes.loop (a.loops.of p) = b.changes.loop (b.loops.of p)
  selfLoop : ∀ p : BlockId, a.loops.selfLoop p = b.loops.selfLoop p
  /-- What a block that branches to itself overwrites. -/
  changedInSelf : ∀ p : BlockId, a.changes.selfLoop p = b.changes.selfLoop p

namespace Graph
variable {k : Kind} {settings : Settings} {g g' : Graph}

/-- The analysis of a reducible graph does not depend on the order in which blocks list their successors. -/
theorem analyze_reordered (hfault : g.fault? = none) (hsym : g.Symmetric) (hred : g.Reducible)
    (h : g.Reordered g') : (g.analyze k settings).SameUpToNumbers (g'.analyze k settings) := by
  have hg := sound_of_fault? hfault
  refine ⟨h.functionId, h.size, ?_, ?_, ?_, h.selfLoop, ?_⟩
  · have hrecorded : Walk.recorded (Walk.of k settings g).visits = Walk.recorded (Walk.of k settings g').visits :=
      h.recorded_eq hg hsym hred
    show (if settings.squashHistory then _ else _ : History k) = if settings.squashHistory then _ else _
    rw [hrecorded]
  · intro a b
    exact Bool.eq_iff_iff.2 ⟨h.same hg, h.symm.same (h.sound hg)⟩
  · intro a
    apply sortNames_ext
    intro name
    exact ⟨h.mem_changes_loop hg, h.symm.mem_changes_loop (h.sound hg)⟩
  · intro a
    apply sortNames_ext
    intro name
    exact ⟨h.mem_changes_selfLoop, h.symm.mem_changes_selfLoop⟩

/-- The graph with the successors of each block listed backwards. -/
def flipped (g : Graph) : Graph :=
  { g with blocks := g.blocks.map fun b => { b with successors := b.successors.reverse } }

theorem reordered_flipped (g : Graph) : g.Reordered g.flipped := by
  refine ⟨rfl, rfl, ?_⟩
  rw [flipped, List.forall₂_map_right_iff, List.forall₂_same]
  intro b _
  exact ⟨rfl, rfl, rfl, (List.reverse_perm b.successors).symm⟩

/-- Two loops side by side, one of which overwrites a variable, and a block that both are left for. -/
def sideBySide : Graph := build "f"
  [.block [.assign ⟨"v", .integer⟩ (.int 1) ⟨1, 1, 0⟩],
    .block [.other ⟨2, 1, 0⟩],
    .block [.combine ⟨"v", .integer⟩ .add (.int 1) ⟨3, 1, 0⟩],
    .block [.other ⟨4, 1, 0⟩],
    .block [.assign ⟨"n", .integer⟩ (.int 7) ⟨5, 1, 0⟩],
    .block [.assign ⟨"v", .integer⟩ (.int 2) ⟨6, 1, 0⟩],
    .edge ⟨0⟩ ⟨1⟩, .edge ⟨0⟩ ⟨3⟩, .edge ⟨1⟩ ⟨2⟩, .edge ⟨2⟩ ⟨1⟩, .edge ⟨3⟩ ⟨4⟩, .edge ⟨4⟩ ⟨3⟩, .edge ⟨1⟩ ⟨5⟩,
    .edge ⟨3⟩ ⟨5⟩, .edge ⟨5⟩ ⟨5⟩]

/-- The walking order and the numbers of the loops change, the analysis does not. -/
theorem analyze_reordered_sideBySide :
    (sideBySide.fault? = none ∧ sideBySide.Symmetric ∧ sideBySide.Reducible) ∧
      sideBySide.order ≠ sideBySide.flipped.order ∧
      sideBySide.loops.of ⟨1⟩ ≠ sideBySide.flipped.loops.of ⟨1⟩ ∧
      (sideBySide.analyze .integer {}).SameUpToNumbers (sideBySide.flipped.analyze .integer {}) :=
  ⟨by decide +kernel, by decide +kernel, by decide +kernel,
    analyze_reordered (by decide +kernel) (by decide +kernel) (by decide +kernel) sideBySide.reordered_flipped⟩

end Graph
end ConstantFlow
