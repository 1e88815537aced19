import ConstantFlow.Walk
import ConstantFlow.Proofs.LoopClasses
import ConstantFlow.Proofs.WalkingOrder

/-! The states of a walk, block by block. The walk visits every position once, so the start state of a block is the
meeting of the end states of the predecessors walked before it, less what is given up there, and its end state is what
its statements make of its start state. These two equations are all that later proofs use of the walk. The first one
is then stated by the edges of the graph, and followed back through a loop that leaves a variable alone. -/

namespace ConstantFlow
namespace Walk
variable {k : Kind} (w : Walk k)

def walked (l : List Nat) : List (Visit k) := l.foldl w.step []

/-- The visit to the block at a position, if there is one. -/
def visitAt? (i : Nat) : Option (Visit k) := w.visits.find? (·.index = i)

def startAt (i : Nat) : State k := ((w.visitAt? i).map (·.start)).getD Table.empty

def endAt (i : Nat) : State k := ((w.visitAt? i).map (·.finish)).getD Table.empty

theorem foldl_step_eq {l : List Nat} (hl : ∀ i ∈ l, i < w.graph.size) (visits : List (Visit k)) :
    ∃ later, l.foldl w.step visits = visits ++ later ∧ later.map Visit.index = l := by
  induction l generalizing visits with
  | nil => exact ⟨[], by simp, rfl⟩
  | cons i rest ih =>
      obtain ⟨b, hb⟩ := Graph.exists_getElem? (hl i List.mem_cons_self)
      have hstep : w.step visits i = visits ++ [w.visit visits i b] := by
        rw [step, hb]
      obtain ⟨later, heq, hindex⟩ := ih (fun j hj => hl j (List.mem_cons_of_mem _ hj)) (w.step visits i)
      refine ⟨w.visit visits i b :: later, ?_, ?_⟩
      · rw [List.foldl_cons, heq, hstep, List.append_assoc, List.singleton_append]
      · rw [List.map_cons, hindex]
        rfl

theorem order_lt : ∀ i ∈ w.graph.order, i < w.graph.size := fun _ hi => Graph.mem_order.1 hi

theorem visits_split {front back : List Nat} (h : w.graph.order = front ++ back) :
    ∃ later, w.visits = w.walked front ++ later ∧ (w.walked front).map Visit.index = front ∧
      later.map Visit.index = back := by
  have hfront : ∀ i ∈ front, i < w.graph.size := fun i hi => w.order_lt i (h ▸ List.mem_append_left _ hi)
  have hback : ∀ i ∈ back, i < w.graph.size := fun i hi => w.order_lt i (h ▸ List.mem_append_right _ hi)
  obtain ⟨first, hfirst, hindex⟩ := w.foldl_step_eq hfront []
  obtain ⟨later, hlater, hindex'⟩ := w.foldl_step_eq hback (w.walked front)
  refine ⟨later, ?_, ?_, hindex'⟩
  · rw [visits, h, List.foldl_append]
    exact hlater
  · rw [walked, hfirst, List.nil_append, hindex]

theorem find?_index_eq_none {visits : List (Visit k)} {i : Nat} (h : i ∉ visits.map Visit.index) :
    visits.find? (·.index = i) = none := by
  rw [List.find?_eq_none]
  intro v hv hindex
  exact h (List.mem_map.2 ⟨v, hv, by simpa using hindex⟩)

theorem visitAt?_eq {front back : List Nat} {i : Nat} (h : w.graph.order = front ++ i :: back) {b : Block}
    (hb : w.graph.blocks[i]? = some b) : w.visitAt? i = some (w.visit (w.walked front) i b) := by
  have hsplit : w.graph.order = (front ++ [i]) ++ back := by simp [h]
  obtain ⟨later, hvisits, -, -⟩ := w.visits_split hsplit
  obtain ⟨-, -, hindex, -⟩ := w.visits_split h
  have hlast : w.walked (front ++ [i]) = w.walked front ++ [w.visit (w.walked front) i b] := by
    rw [walked, List.foldl_append, List.foldl_cons, List.foldl_nil, step, hb]
    rfl
  -- A position stands in the order once, so no earlier visit is to it.
  have hnot : i ∉ (w.walked front).map Visit.index := by
    rw [hindex]
    intro hmem
    have hnodup := w.graph.order_nodup
    rw [h, List.nodup_append] at hnodup
    exact hnodup.2.2 i hmem i List.mem_cons_self rfl
  have hself : (w.visit (w.walked front) i b).index = i := rfl
  rw [visitAt?, hvisits, hlast, List.append_assoc, List.find?_append, find?_index_eq_none hnot, Option.none_or,
    List.singleton_append, List.find?_cons_of_pos (by simp [hself])]

theorem startAt_eq {front back : List Nat} {i : Nat} (h : w.graph.order = front ++ i :: back) {b : Block}
    (hb : w.graph.blocks[i]? = some b) : w.startAt i = w.start (w.walked front) b := by
  rw [startAt, w.visitAt?_eq h hb]
  rfl

theorem endAt_eq {i : Nat} {b : Block} (hb : w.graph.blocks[i]? = some b) :
    w.endAt i = (w.startAt i).run b.statements := by
  obtain ⟨front, back, h⟩ := Graph.order_split (Graph.lt_size_of_getElem? hb)
  rw [endAt, startAt, w.visitAt?_eq h hb]
  rfl

theorem finish?_walked {front back : List Nat} (h : w.graph.order = front ++ back) (i : Nat) :
    finish? (w.walked front) i = if i ∈ front then some (w.endAt i) else none := by
  obtain ⟨later, hvisits, hindex, -⟩ := w.visits_split h
  by_cases hi : i ∈ front
  · rw [if_pos hi, finish?, endAt, visitAt?, hvisits, List.find?_append]
    rw [← hindex, List.mem_map] at hi
    obtain ⟨v, hv, hvi⟩ := hi
    cases hfind : (w.walked front).find? (·.index = i) with
    | none => exact absurd hvi (by simpa using List.find?_eq_none.1 hfind v hv)
    | some u => rfl
  · have hnot : i ∉ (w.walked front).map Visit.index := by
      rw [hindex]
      exact hi
    rw [if_neg hi, finish?, find?_index_eq_none hnot]
    rfl

/-! ### What is given up, and what is kept -/

/-- Whether a variable loses its constant at the start of the block at a position: where control comes back from
inside the loop, where it leaves another loop, or where the block branches to itself. -/
def GivesUp (i : Nat) (b : Block) (name : String) : Prop :=
  ((∃ p ∈ sources b, ¬ w.graph.rank p.index < w.graph.rank i ∧ w.loops.same p b.id = true) ∧
    name ∈ w.changes.loop (w.loops.of b.id)) ∨
  (∃ p ∈ b.livePredecessors, w.loops.of p ≠ 0 ∧ w.loops.of p ≠ w.loops.of b.id ∧
    name ∈ w.changes.loop (w.loops.of p)) ∨
  (w.settings.invalidateSelfLoops = true ∧ w.loops.selfLoop b.id = true ∧ name ∈ w.changes.selfLoop b.id)

theorem mem_sources {b : Block} {p : BlockId} : p ∈ sources b ↔ p ∈ b.livePredecessors ∧ p ≠ b.id := by
  rw [sources, List.mem_filter, decide_eq_true_eq]

theorem mem_exited {b : Block} {l : LoopId} :
    l ∈ w.exited b ↔ ∃ p ∈ b.livePredecessors, w.loops.of p = l ∧ l ≠ 0 ∧ l ≠ w.loops.of b.id := by
  simp only [exited, List.mem_filter, List.mem_map, Bool.and_eq_true, decide_eq_true_eq]
  constructor
  · rintro ⟨⟨p, hp, heq⟩, hne, hother⟩
    exact ⟨p, hp, heq, hne, hother⟩
  · rintro ⟨p, hp, heq, hne, hother⟩
    exact ⟨⟨p, hp, heq⟩, hne, hother⟩

variable {w} in
theorem reentered_iff {front back : List Nat} {i : Nat} (h : w.graph.order = front ++ i :: back) {b : Block} :
    w.reentered (w.walked front) b = true ↔
      ∃ p ∈ sources b, ¬ w.graph.rank p.index < w.graph.rank i ∧ w.loops.same p b.id = true := by
  rw [reentered, List.any_eq_true]
  refine exists_congr fun p => and_congr_right fun _ => ?_
  rw [Bool.and_eq_true, w.finish?_walked h, Graph.rank_lt_iff_mem h]
  by_cases hp : p.index ∈ front <;> simp [hp]

theorem mem_givenUp {front back : List Nat} {i : Nat} (h : w.graph.order = front ++ i :: back) {b : Block}
    {name : String} : name ∈ w.givenUp (w.walked front) b ↔ w.GivesUp i b name := by
  rw [givenUp, List.mem_append, List.mem_append, GivesUp, or_assoc]
  refine or_congr ?_ (or_congr ?_ ?_)
  · by_cases hre : w.reentered (w.walked front) b = true
    · rw [if_pos hre]
      exact ⟨fun hmem => ⟨(reentered_iff h).1 hre, hmem⟩, fun hmem => hmem.2⟩
    · rw [if_neg hre]
      refine ⟨fun hmem => absurd hmem List.not_mem_nil, fun hmem => absurd ((reentered_iff h).2 hmem.1) hre⟩
  · rw [List.mem_flatMap]
    constructor
    · rintro ⟨l, hl, hname⟩
      obtain ⟨p, hp, rfl, hne, hother⟩ := w.mem_exited.1 hl
      exact ⟨p, hp, hne, hother, hname⟩
    · rintro ⟨p, hp, hne, hother, hname⟩
      exact ⟨w.loops.of p, w.mem_exited.2 ⟨p, hp, rfl, hne, hother⟩, hname⟩
  · by_cases hself : (w.settings.invalidateSelfLoops && w.loops.selfLoop b.id) = true
    · rw [if_pos hself]
      rw [Bool.and_eq_true] at hself
      exact ⟨fun hmem => ⟨hself.1, hself.2, hmem⟩, fun hmem => hmem.2.2⟩
    · rw [if_neg hself]
      rw [Bool.and_eq_true] at hself
      exact ⟨fun hmem => absurd hmem List.not_mem_nil, fun hmem => absurd ⟨hmem.1, hmem.2.1⟩ hself⟩

theorem mem_incoming {front back : List Nat} {i : Nat} (h : w.graph.order = front ++ i :: back) {b : Block}
    {s : State k} :
    s ∈ incoming (w.walked front) b ↔
      ∃ p ∈ sources b, w.graph.rank p.index < w.graph.rank i ∧ w.endAt p.index = s := by
  rw [incoming, List.mem_filterMap]
  refine exists_congr fun p => and_congr_right fun _ => ?_
  rw [w.finish?_walked h, Graph.rank_lt_iff_mem h]
  by_cases hp : p.index ∈ front <;> simp [hp]

theorem startAt_of_givesUp {i : Nat} {b : Block} (hb : w.graph.blocks[i]? = some b) {name : String}
    (hup : w.GivesUp i b name) : (w.startAt i).get? name = some .unresolved := by
  obtain ⟨front, back, h⟩ := Graph.order_split (Graph.lt_size_of_getElem? hb)
  rw [w.startAt_eq h hb, start_eq, State.get?_forget, if_pos ((w.mem_givenUp h).2 hup)]

/-- A block starts with a constant exactly if it is not given up there, some predecessor is walked before the block,
and all such predecessors end with the constant. -/
theorem startAt_resolved_iff {i : Nat} {b : Block} (hb : w.graph.blocks[i]? = some b) {name : String} {c : k.Value} :
    (w.startAt i).get? name = some (.resolved c) ↔
      ¬ w.GivesUp i b name ∧ (∃ p ∈ sources b, w.graph.rank p.index < w.graph.rank i) ∧
        ∀ p ∈ sources b, w.graph.rank p.index < w.graph.rank i →
          (w.endAt p.index).get? name = some (.resolved c) := by
  obtain ⟨front, back, h⟩ := Graph.order_split (Graph.lt_size_of_getElem? hb)
  rw [w.startAt_eq h hb, start_eq, State.get?_forget]
  by_cases hup : name ∈ w.givenUp (w.walked front) b
  · rw [if_pos hup]
    refine ⟨fun hno => (nomatch hno), fun hno => absurd ((w.mem_givenUp h).1 hup) hno.1⟩
  · rw [if_neg hup, State.get?_merge_eq_resolved_iff, ← w.mem_givenUp h]
    have hsome : incoming (w.walked front) b ≠ [] ↔
        ∃ p ∈ sources b, w.graph.rank p.index < w.graph.rank i := by
      constructor
      · intro hne
        obtain ⟨s, hs⟩ := List.exists_mem_of_ne_nil _ hne
        obtain ⟨p, hp, hlt, -⟩ := (w.mem_incoming h).1 hs
        exact ⟨p, hp, hlt⟩
      · rintro ⟨p, hp, hlt⟩
        exact List.ne_nil_of_mem ((w.mem_incoming h).2 ⟨p, hp, hlt, rfl⟩)
    rw [hsome]
    constructor
    · rintro ⟨hex, hall⟩
      exact ⟨hup, hex, fun p hp hlt => hall _ ((w.mem_incoming h).2 ⟨p, hp, hlt, rfl⟩)⟩
    · rintro ⟨-, hex, hall⟩
      refine ⟨hex, fun s hs => ?_⟩
      obtain ⟨p, hp, hlt, rfl⟩ := (w.mem_incoming h).1 hs
      exact hall p hp hlt

end Walk

/-! ### Start states by positions -/

namespace Graph
variable {k : Kind} {settings : Settings} {g : Graph} {name : String}

/-- Whether a block connected with a position overwrites a variable. -/
def LoopOverwrites (k : Kind) (g : Graph) (i : Nat) (name : String) : Prop :=
  ∃ q b, g.Connected i q ∧ g.blocks[q]? = some b ∧ name ∈ overwritten k b.statements

/-- Whether control comes into a position out of another loop that overwrites a variable. -/
def LeavesOverwriting (k : Kind) (g : Graph) (i : Nat) (name : String) : Prop :=
  ∃ p, i ∈ g.targets p ∧ ¬ g.Connected p i ∧ (∃ j, j ≠ p ∧ g.Connected p j) ∧ g.LoopOverwrites k p name

/-- Whether a variable loses its constant at the start of a position, by the edges into it. -/
def Forfeits (k : Kind) (settings : Settings) (g : Graph) (i : Nat) (name : String) : Prop :=
  ((∃ p, p ≠ i ∧ i ∈ g.targets p ∧ ¬ g.rank p < g.rank i ∧ g.Connected p i) ∧ g.LoopOverwrites k i name) ∨
  g.LeavesOverwriting k i name ∨
  (settings.invalidateSelfLoops = true ∧ i ∈ g.targets i ∧
    ∃ b, g.blocks[i]? = some b ∧ name ∈ overwritten k b.statements)

theorem Sound.index_ne_iff (hg : g.Sound) {i : Nat} {b : Block} (hb : g.blocks[i]? = some b) {p : BlockId} :
    p.index ≠ i ↔ p ≠ b.id := by
  rw [← hg.placed hb]
  exact not_congr ⟨BlockId.index_injective, fun heq => congrArg BlockId.index heq⟩

theorem Sound.mem_sources (hg : g.Sound) (hsym : g.Symmetric) {i : Nat} {b : Block} (hb : g.blocks[i]? = some b)
    {p : Nat} : (∃ source ∈ Walk.sources b, source.index = p) ↔ p ≠ i ∧ i ∈ g.targets p := by
  rw [hg.mem_targets_iff_predecessor hsym hb]
  constructor
  · rintro ⟨source, hmem, rfl⟩
    obtain ⟨hsource, hne⟩ := Walk.mem_sources.1 hmem
    exact ⟨(hg.index_ne_iff hb).2 hne, source, hsource, rfl⟩
  · rintro ⟨hne, source, hsource, rfl⟩
    exact ⟨source, Walk.mem_sources.2 ⟨hsource, (hg.index_ne_iff hb).1 hne⟩, rfl⟩

theorem Sound.mem_changes_atIndex (hg : g.Sound) {i : Nat} (hne : g.loops.atIndex i ≠ 0) :
    name ∈ (g.changes k settings g.loops).loop (g.loops.atIndex i) ↔ g.LoopOverwrites k i name := by
  rw [mem_changes_loop]
  constructor
  · rintro ⟨-, b, hb, heq, hname⟩
    obtain ⟨q, hq⟩ := List.mem_iff_getElem?.1 hb
    refine ⟨q, b, ?_, hq, hname⟩
    rw [hg.isPlaced.of_id hq] at heq
    exact connected_of_atIndex_eq hne heq.symm
  · rintro ⟨q, b, hconn, hb, hname⟩
    refine ⟨hne, b, List.mem_of_getElem? hb, ?_, hname⟩
    rw [hg.isPlaced.of_id hb, atIndex_congr hconn]

theorem Sound.reentered_iff (hg : g.Sound) {i : Nat} {b : Block} (hb : g.blocks[i]? = some b) :
    (∃ p ∈ Walk.sources b, ¬ g.rank p.index < g.rank i ∧ g.loops.same p b.id = true) ↔
      ∃ p ∈ Walk.sources b, ¬ g.rank p.index < g.rank i ∧ g.Connected p.index i := by
  refine exists_congr fun p => and_congr_right fun hp => and_congr_right fun _ => ?_
  obtain ⟨hsource, hne⟩ := Walk.mem_sources.1 hp
  rw [hg.isPlaced.same_iff (hg.predecessor_lt (List.mem_of_getElem? hb) p hsource), hg.placed hb]
  exact ⟨fun h => h.1, fun h => ⟨h, i, ((hg.index_ne_iff hb).2 hne).symm, h⟩⟩

theorem Sound.left_iff (hg : g.Sound) {i : Nat} {b : Block} (hb : g.blocks[i]? = some b) :
    (∃ p ∈ b.livePredecessors, g.loops.of p ≠ 0 ∧ g.loops.of p ≠ g.loops.of b.id ∧
      name ∈ (g.changes k settings g.loops).loop (g.loops.of p)) ↔
      ∃ p ∈ b.livePredecessors, ¬ g.Connected p.index i ∧ (∃ j, j ≠ p.index ∧ g.Connected p.index j) ∧
        g.LoopOverwrites k p.index name := by
  rw [hg.isPlaced.of_id hb]
  refine exists_congr fun p => and_congr_right fun hp => ?_
  have hother := hg.isPlaced.atIndex_ne_zero_iff (hg.predecessor_lt (List.mem_of_getElem? hb) p hp)
  constructor
  · rintro ⟨hne, hother', hname⟩
    exact ⟨fun hconn => hother' (atIndex_congr hconn), hother.1 hne, (hg.mem_changes_atIndex hne).1 hname⟩
  · rintro ⟨hapart, hloop, hname⟩
    have hne := hother.2 hloop
    exact ⟨hne, fun heq => hapart (connected_of_atIndex_eq hne heq), (hg.mem_changes_atIndex hne).2 hname⟩

theorem Sound.mem_changes_selfLoop_iff (hg : g.Sound) {i : Nat} {b : Block} (hb : g.blocks[i]? = some b) :
    name ∈ (g.changes k settings g.loops).selfLoop b.id ↔
      settings.invalidateSelfLoops = true ∧ i ∈ g.targets i ∧ name ∈ overwritten k b.statements := by
  rw [mem_changes_selfLoop, hg.selfLoop_iff hb]
  refine and_congr_right fun _ => and_congr_right fun _ => ?_
  constructor
  · rintro ⟨b', hb', hid, hname⟩
    obtain ⟨q, hq⟩ := List.mem_iff_getElem?.1 hb'
    have hqi : q = i := by
      rw [← hg.placed hq, hid, hg.placed hb]
    rw [hqi, hb] at hq
    cases hq
    exact hname
  · intro hname
    exact ⟨b, List.mem_of_getElem? hb, rfl, hname⟩

/-- What is given up at the start of a block, by the edges that it names. -/
theorem Sound.givesUp_iff (hg : g.Sound) {i : Nat} {b : Block} (hb : g.blocks[i]? = some b) :
    (Walk.of k settings g).GivesUp i b name ↔
      ((∃ p ∈ Walk.sources b, ¬ g.rank p.index < g.rank i ∧ g.Connected p.index i) ∧ g.LoopOverwrites k i name) ∨
      (∃ p ∈ b.livePredecessors, ¬ g.Connected p.index i ∧ (∃ j, j ≠ p.index ∧ g.Connected p.index j) ∧
        g.LoopOverwrites k p.index name) ∨
      (settings.invalidateSelfLoops = true ∧ i ∈ g.targets i ∧ name ∈ overwritten k b.statements) := by
  refine or_congr ?_ (or_congr (hg.left_iff hb) ?_)
  · refine (and_congr_left' (hg.reentered_iff hb)).trans (and_congr_right ?_)
    rintro ⟨p, hp, -, hconn⟩
    have hne := (hg.index_ne_iff hb).2 (Walk.mem_sources.1 hp).2
    have hloop := (hg.isPlaced.atIndex_ne_zero_iff (lt_size_of_getElem? hb)).2 ⟨p.index, hne, hconn.symm⟩
    show name ∈ (g.changes k settings g.loops).loop (g.loops.of b.id) ↔ _
    rw [hg.isPlaced.of_id hb, hg.mem_changes_atIndex hloop]
  · show (settings.invalidateSelfLoops = true ∧ g.loops.selfLoop b.id = true ∧
      name ∈ (g.changes k settings g.loops).selfLoop b.id) ↔ _
    rw [hg.selfLoop_iff hb, hg.mem_changes_selfLoop_iff hb]
    exact ⟨fun h => h.2.2, fun h => ⟨h.1, h.2.1, h⟩⟩

/-- The same by the edges of the graph, if these are entered at both ends. -/
theorem Sound.givesUp_iff_forfeits (hg : g.Sound) (hsym : g.Symmetric) {i : Nat} {b : Block}
    (hb : g.blocks[i]? = some b) : (Walk.of k settings g).GivesUp i b name ↔ g.Forfeits k settings i name := by
  rw [hg.givesUp_iff hb]
  refine or_congr (and_congr_left' ?_) (or_congr ?_ ?_)
  · constructor
    · rintro ⟨source, hsource, hlate, hconn⟩
      obtain ⟨hne, hedge⟩ := (hg.mem_sources hsym hb).1 ⟨source, hsource, rfl⟩
      exact ⟨source.index, hne, hedge, hlate, hconn⟩
    · rintro ⟨p, hne, hedge, hlate, hconn⟩
      obtain ⟨source, hsource, rfl⟩ := (hg.mem_sources hsym hb).2 ⟨hne, hedge⟩
      exact ⟨source, hsource, hlate, hconn⟩
  · constructor
    · rintro ⟨source, hsource, hleft⟩
      exact ⟨source.index, (hg.mem_targets_iff_predecessor hsym hb).2 ⟨source, hsource, rfl⟩, hleft⟩
    · rintro ⟨p, hedge, hleft⟩
      obtain ⟨source, hsource, rfl⟩ := (hg.mem_targets_iff_predecessor hsym hb).1 hedge
      exact ⟨source, hsource, hleft⟩
  · refine and_congr_right fun _ => and_congr_right fun _ => ?_
    constructor
    · intro hname
      exact ⟨b, hb, hname⟩
    · rintro ⟨b', hb', hname⟩
      rw [hb] at hb'
      cases hb'
      exact hname

/-- A position starts with a constant exactly if it does not forfeit it, an edge comes from an earlier position, and
the constant holds at the end of every such position. -/
theorem Sound.startAt_resolved_iff (hg : g.Sound) (hsym : g.Symmetric) {i : Nat} (hi : i < g.size) {c : k.Value} :
    ((Walk.of k settings g).startAt i).get? name = some (.resolved c) ↔
      ¬ g.Forfeits k settings i name ∧ (∃ p, i ∈ g.targets p ∧ g.rank p < g.rank i) ∧
        ∀ p, i ∈ g.targets p → g.rank p < g.rank i →
          ((Walk.of k settings g).endAt p).get? name = some (.resolved c) := by
  obtain ⟨b, hb⟩ := exists_getElem? hi
  rw [Walk.startAt_resolved_iff _ hb, hg.givesUp_iff_forfeits hsym hb]
  have hsource : ∀ p, g.rank p < g.rank i → i ∈ g.targets p → ∃ source ∈ Walk.sources b, source.index = p := by
    intro p hlt hedge
    exact (hg.mem_sources hsym hb).2 ⟨fun heq => absurd hlt (heq ▸ Nat.lt_irrefl _), hedge⟩
  have hedge : ∀ source ∈ Walk.sources b, i ∈ g.targets source.index := fun source hmem =>
    ((hg.mem_sources hsym hb).1 ⟨source, hmem, rfl⟩).2
  refine and_congr_right fun _ => and_congr ?_ ?_
  · constructor
    · rintro ⟨source, hmem, hlt⟩
      exact ⟨source.index, hedge source hmem, hlt⟩
    · rintro ⟨p, hp, hlt⟩
      obtain ⟨source, hmem, rfl⟩ := hsource p hlt hp
      exact ⟨source, hmem, hlt⟩
  · constructor
    · intro hall p hp hlt
      obtain ⟨source, hmem, rfl⟩ := hsource p hlt hp
      exact hall source hmem hlt
    · intro hall source hmem hlt
      exact hall source.index (hedge source hmem) hlt

/-! ### Variables that a loop leaves alone -/

/-- Whether all blocks connected with a position leave a variable alone. -/
def LoopSpares (k : Kind) (g : Graph) (i : Nat) (name : String) : Prop :=
  ∀ q b, g.Connected i q → g.blocks[q]? = some b → Spares k name b.statements

instance (k : Kind) (g : Graph) (i : Nat) (name : String) : Decidable (g.LoopSpares k i name) :=
  decidable_of_iff
    (∀ q < g.size, g.Connected i q → ∀ b ∈ g.blocks[q]?.toList, Spares k name b.statements) (by
      constructor
      · intro h q b hq hb
        exact h q (lt_size_of_getElem? hb) hq b (by simp [hb])
      · intro h q _ hq b hb
        exact h q b hq (by simpa using hb))

theorem LoopSpares.of_connected {i j : Nat} (h : g.LoopSpares k i name) (hij : g.Connected i j) :
    g.LoopSpares k j name := fun q b hq hb => h q b (hij.trans hq) hb

theorem LoopSpares.not_loopOverwrites {i : Nat} (h : g.LoopSpares k i name) : ¬ g.LoopOverwrites k i name := by
  rintro ⟨q, b, hconn, hb, hname⟩
  exact (h q b hconn hb).1 hname

theorem LoopSpares.endAt_eq {i : Nat} (h : g.LoopSpares k i name) (hi : i < g.size) :
    ((Walk.of k settings g).endAt i).get? name = ((Walk.of k settings g).startAt i).get? name := by
  obtain ⟨b, hb⟩ := exists_getElem? hi
  rw [Walk.endAt_eq _ hb]
  exact (h i b (Linked.refl i) hb).get?_run _

/-- A constant that a loop leaves alone comes from the block of the loop that is walked first. -/
theorem LoopSpares.startAt_first {h i : Nat} (hspares : g.LoopSpares k h name) (hg : g.Sound) (hsym : g.Symmetric)
    (hi : g.Reachable i) (hconn : g.Connected h i) (hfirst : g.IsFirst h) {c : k.Value}
    (hres : ((Walk.of k settings g).startAt i).get? name = some (.resolved c)) :
    ((Walk.of k settings g).startAt h).get? name = some (.resolved c) := by
  -- Strong induction on the place in the walking order: a block other than the first has an earlier source in the loop.
  generalize hn : g.rank i = n
  induction n using Nat.strong_induction_on generalizing i with
  | _ n ih =>
      by_cases hih : i = h
      · exact hih ▸ hres
      · obtain ⟨p, hedge, hlt, hp⟩ := exists_earlier_connected hi hconn hfirst hih
        have hend := ((hg.startAt_resolved_iff hsym hi.lt_size).1 hres).2.2 p hedge hlt
        rw [(hspares.of_connected hp).endAt_eq (source_lt_size_of_mem_targets hedge)] at hend
        have hpreach : g.Reachable p := hi.of_connected (hconn.symm.trans hp)
        exact ih (g.rank p) (hn ▸ hlt) hpreach hp hend rfl

end Graph
end ConstantFlow
