import ConstantFlow.Graph.Builder
import ConstantFlow.Proofs.BlockStates
import ConstantFlow.Walk
import Mathlib.Data.List.Forall2

/-! The lists in which blocks name their predecessors. At a block a walk asks such a list for the states to merge, for
a predecessor still to be visited and for the loops that control leaves. None of the answers depends on more than which
blocks are named: order, repeats and edges that are never taken leave no trace in the states of a walk, and so none in
the analysis. -/

namespace ConstantFlow

/-- Whether a block is another one with the same predecessors, listed in any way. -/
structure Block.Relisted (b b' : Block) : Prop where
  id : b.id = b'.id
  statements : b.statements = b'.statements
  successors : b.successors = b'.successors
  predecessors : ∀ p : BlockId, some p ∈ b.predecessors ↔ some p ∈ b'.predecessors

/-- Whether a graph is another one with the predecessors of each block listed in any way. -/
structure Graph.Relisted (g g' : Graph) : Prop where
  functionId : g.functionId = g'.functionId
  entry : g.entry = g'.entry
  blocks : List.Forall₂ Block.Relisted g.blocks g'.blocks

namespace Block.Relisted
variable {b b' : Block} {p : BlockId}

theorem liveSuccessors (h : b.Relisted b') : b.liveSuccessors = b'.liveSuccessors := by
  rw [Block.liveSuccessors, h.successors, Block.liveSuccessors]

theorem mem_livePredecessors (h : b.Relisted b') : p ∈ b.livePredecessors ↔ p ∈ b'.livePredecessors := by
  simp [Block.livePredecessors, h.predecessors]

theorem mem_sources (h : b.Relisted b') : p ∈ Walk.sources b ↔ p ∈ Walk.sources b' := by
  simp only [Walk.sources, List.mem_filter, h.mem_livePredecessors, h.id]

end Block.Relisted

section Corresponding
variable {α β : Type} {R : α → α → Prop} {l l' : List α}

theorem map_eq_of_forall₂ {f : α → β} (hf : ∀ a a', R a a' → f a = f a') (h : List.Forall₂ R l l') :
    l.map f = l'.map f := by
  rw [← List.forall₂_eq_eq_eq, List.forall₂_map_left_iff, List.forall₂_map_right_iff]
  exact h.imp hf

theorem flatMap_eq_of_forall₂ {f : α → List β} (hf : ∀ a a', R a a' → f a = f a') (h : List.Forall₂ R l l') :
    l.flatMap f = l'.flatMap f := by
  rw [List.flatMap_def, List.flatMap_def, map_eq_of_forall₂ hf h]

end Corresponding

/-! ### What does not read the lists -/

namespace Graph.Relisted
variable {g g' : Graph}

theorem size (h : g.Relisted g') : g.size = g'.size := h.blocks.length_eq

theorem getElem?_cases (h : g.Relisted g') (i : Nat) :
    (g.blocks[i]? = none ∧ g'.blocks[i]? = none) ∨
      ∃ b b', g.blocks[i]? = some b ∧ g'.blocks[i]? = some b' ∧ b.Relisted b' := by
  by_cases hi : i < g.blocks.length
  · have hi' : i < g'.blocks.length := h.blocks.length_eq ▸ hi
    exact Or.inr ⟨g.blocks[i], g'.blocks[i], List.getElem?_eq_getElem hi, List.getElem?_eq_getElem hi',
      (List.forall₂_iff_get.1 h.blocks).2 i hi hi'⟩
  · have hi' : ¬ i < g'.blocks.length := h.blocks.length_eq ▸ hi
    exact Or.inl ⟨List.getElem?_eq_none (Nat.not_lt.1 hi), List.getElem?_eq_none (Nat.not_lt.1 hi')⟩

theorem targets (h : g.Relisted g') : g.targets = g'.targets := by
  funext i
  rw [Graph.targets, Graph.targets]
  rcases h.getElem?_cases i with ⟨hb, hb'⟩ | ⟨b, b', hb, hb', hblock⟩
  · rw [hb, hb']
  · simp only [hb, hb', hblock.liveSuccessors, h.size]

theorem order (h : g.Relisted g') : g.order = g'.order := by
  simp only [Graph.order, Graph.reached, Graph.entryIndex?, h.entry, h.targets, h.size]

theorem loops (h : g.Relisted g') : g.loops = g'.loops := by
  have hids : g.blocks.map (·.id) = g'.blocks.map (·.id) := map_eq_of_forall₂ (fun _ _ hb => hb.id) h.blocks
  have hself : (g.blocks.map fun b => b.liveSuccessors.contains b.id) =
      g'.blocks.map fun b => b.liveSuccessors.contains b.id :=
    map_eq_of_forall₂ (fun _ _ hb => by rw [hb.liveSuccessors, hb.id]) h.blocks
  simp only [Graph.loops, Graph.components, Graph.roots, hids, hself, h.entry, h.targets, h.size]

theorem changes (h : g.Relisted g') (k : Kind) (settings : Settings) (loops : Loops) :
    g.changes k settings loops = g'.changes k settings loops := by
  rw [Graph.changes, Graph.changes]
  congr 1
  · exact flatMap_eq_of_forall₂ (fun _ _ hb => by rw [hb.id, hb.statements]) h.blocks
  · exact flatMap_eq_of_forall₂ (fun _ _ hb => by rw [hb.id, hb.statements]) h.blocks

end Graph.Relisted

/-! ### Walks -/

/-- Whether two visits differ in no more than how the block's predecessors are listed. -/
structure Visit.Relisted {k : Kind} (v v' : Visit k) : Prop where
  block : v.block.Relisted v'.block
  rest : { v with block := v'.block } = v'

/-- Whether two walks go by the same loops and settings over graphs that differ in their predecessor lists. -/
structure Walk.Relisted {k : Kind} (w w' : Walk k) : Prop where
  settings : w.settings = w'.settings
  graph : w.graph.Relisted w'.graph
  loops : w.loops = w'.loops
  changes : w.changes = w'.changes

theorem Graph.Relisted.walk {g g' : Graph} (h : g.Relisted g') (k : Kind) (settings : Settings) :
    (Walk.of k settings g).Relisted (Walk.of k settings g') := by
  refine ⟨rfl, h, h.loops, ?_⟩
  show g.changes k settings g.loops = g'.changes k settings g'.loops
  rw [h.changes, h.loops]

namespace Walk.Relisted
variable {k : Kind} {w w' : Walk k} {visits visits' : List (Visit k)} {b b' : Block}

theorem finish? (hvisits : List.Forall₂ Visit.Relisted visits visits') (i : Nat) :
    Walk.finish? visits i = Walk.finish? visits' i := by
  have hpairs : visits.map (fun v => (v.index, v.finish)) = visits'.map fun v => (v.index, v.finish) :=
    map_eq_of_forall₂ (fun v v' hv => by rw [← hv.rest]) hvisits
  have hfind : ∀ visits : List (Visit k), Walk.finish? visits i =
      ((visits.map fun v => (v.index, v.finish)).find? fun p => p.1 = i).map (·.2) := by
    intro visits
    rw [List.find?_map, Option.map_map]
    rfl
  rw [hfind, hfind, hpairs]

theorem incoming (hvisits : List.Forall₂ Visit.Relisted visits visits') (hblock : b.Relisted b') (s : State k) :
    s ∈ Walk.incoming visits b ↔ s ∈ Walk.incoming visits' b' := by
  simp only [Walk.incoming, List.mem_filterMap, hblock.mem_sources, finish? hvisits]

theorem reentered (h : w.Relisted w') (hvisits : List.Forall₂ Visit.Relisted visits visits')
    (hblock : b.Relisted b') : w.reentered visits b = w'.reentered visits' b' := by
  rw [Bool.eq_iff_iff]
  simp only [Walk.reentered, List.any_eq_true, hblock.mem_sources, finish? hvisits, h.loops, hblock.id]

theorem exited (h : w.Relisted w') (hblock : b.Relisted b') (l : LoopId) : l ∈ w.exited b ↔ l ∈ w'.exited b' := by
  simp only [Walk.exited, List.mem_filter, List.mem_map, hblock.mem_livePredecessors, h.loops, hblock.id]

theorem givenUp (h : w.Relisted w') (hvisits : List.Forall₂ Visit.Relisted visits visits') (hblock : b.Relisted b')
    (name : String) : name ∈ w.givenUp visits b ↔ name ∈ w'.givenUp visits' b' := by
  simp only [Walk.givenUp, List.mem_append, List.mem_flatMap, h.reentered hvisits hblock, h.exited hblock,
    h.settings, h.loops, h.changes, hblock.id]

theorem start (h : w.Relisted w') (hvisits : List.Forall₂ Visit.Relisted visits visits') (hblock : b.Relisted b') :
    w.start visits b = w'.start visits' b' := by
  rw [Walk.start_eq, Walk.start_eq, State.merge_congr (incoming hvisits hblock)]
  exact State.forget_congr _ (h.givenUp hvisits hblock)

/-- What one step keeps: visits that differ in predecessor lists only. -/
theorem step (h : w.Relisted w') (hvisits : List.Forall₂ Visit.Relisted visits visits') (i : Nat) :
    List.Forall₂ Visit.Relisted (w.step visits i) (w'.step visits' i) := by
  rw [Walk.step, Walk.step]
  rcases h.graph.getElem?_cases i with ⟨hb, hb'⟩ | ⟨b, b', hb, hb', hblock⟩
  · rw [hb, hb']
    exact hvisits
  · rw [hb, hb']
    refine List.rel_append hvisits (List.Forall₂.cons ⟨hblock, ?_⟩ List.Forall₂.nil)
    simp only [Walk.visit, h.start hvisits hblock, h.reentered hvisits hblock, h.loops, hblock.id, hblock.statements]

end Walk.Relisted

theorem Walk.Relisted.visits {k : Kind} {w w' : Walk k} (h : w.Relisted w') :
    List.Forall₂ Visit.Relisted w.visits w'.visits := by
  rw [Walk.visits, Walk.visits, h.graph.order]
  exact List.foldl_rel List.Forall₂.nil fun i _ _ _ hvisits => h.step hvisits i

/-! ### What is kept -/

namespace Visit.Relisted
variable {k : Kind} {v v' : Visit k}

theorem entries (h : v.Relisted v') : v.entries = v'.entries := by
  rw [Visit.entries, Visit.entries, h.block.statements, ← h.rest]

theorem notices (h : v.Relisted v') : v.notices = v'.notices := by
  rw [Visit.notices, Visit.notices, h.block.id, ← h.rest]

end Visit.Relisted

namespace Graph
variable {g g' : Graph}

/-- The analysis of a graph, and the messages about it, depend on the predecessors of a block only through the set of
those that are named. -/
theorem analyze_relisted (k : Kind) (settings : Settings) (h : g.Relisted g') :
    g.analyze k settings = g'.analyze k settings ∧
      (Walk.of k settings g).analyze.2 = (Walk.of k settings g').analyze.2 := by
  have hvisits := (h.walk k settings).visits
  have hentries : (Walk.of k settings g).visits.flatMap Visit.entries =
      (Walk.of k settings g').visits.flatMap Visit.entries :=
    flatMap_eq_of_forall₂ (fun _ _ hv => hv.entries) hvisits
  have hnotices : (Walk.of k settings g).visits.flatMap Visit.notices =
      (Walk.of k settings g').visits.flatMap Visit.notices :=
    flatMap_eq_of_forall₂ (fun _ _ hv => hv.notices) hvisits
  have hanalyze : (Walk.of k settings g).analyze = (Walk.of k settings g').analyze := by
    obtain ⟨hsettings, hgraph, hloops, hchanges⟩ := h.walk k settings
    simp only [Walk.analyze, Walk.recorded, hentries, hnotices, hsettings, hgraph.functionId, hgraph.size, hloops,
      hchanges]
  exact ⟨congrArg Prod.fst hanalyze, congrArg Prod.snd hanalyze⟩

/-- The graph in which each block lists its predecessors backwards and again, with an edge that is never taken. -/
def relistedTwice (g : Graph) : Graph :=
  { g with blocks := g.blocks.map fun b =>
      { b with predecessors := b.predecessors.reverse ++ none :: b.predecessors } }

theorem relisted_relistedTwice (g : Graph) : g.Relisted g.relistedTwice := by
  refine ⟨rfl, rfl, ?_⟩
  rw [relistedTwice, List.forall₂_map_right_iff, List.forall₂_same]
  intro b _
  exact ⟨rfl, rfl, rfl, fun p => by simp⟩

/-- A loop that overwrites one variable and keeps another. Its blocks have one predecessor or two. -/
def looping : Graph := build "f"
  [.block [.assign ⟨"v", .integer⟩ (.int 0) ⟨1, 1, 0⟩, .assign ⟨"n", .integer⟩ (.int 7) ⟨1, 9, 0⟩],
    .block [.other ⟨2, 1, 0⟩],
    .block [.combine ⟨"v", .integer⟩ .add (.int 1) ⟨3, 1, 0⟩],
    .block [.other ⟨4, 1, 0⟩],
    .edge ⟨0⟩ ⟨1⟩, .edge ⟨1⟩ ⟨2⟩, .edge ⟨2⟩ ⟨1⟩, .edge ⟨1⟩ ⟨3⟩]

/-- Each block but the entry now merges several states, with the same outcome. -/
theorem analyze_relisted_looping :
    looping.relistedTwice ≠ looping ∧
      (looping.analyze .integer {}).history.lookup "n" ⟨5, 1, 0⟩ = some (.resolved 7) ∧
      looping.analyze .integer {} = looping.relistedTwice.analyze .integer {} ∧
      (Walk.of .integer {} looping).analyze.2 = (Walk.of .integer {} looping.relistedTwice).analyze.2 :=
  ⟨by decide +kernel, by decide +kernel, analyze_relisted .integer {} looping.relisted_relistedTwice⟩

end Graph
end ConstantFlow
