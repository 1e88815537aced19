import ConstantFlow.Proofs.LoopClasses
import ConstantFlow.Proofs.WalkingOrder

/-! The numbers that loops carry. Where blocks carry their positions as ids, the numbers in use are those from 1 to the
number of loops, and the positions of one number are one whole class of two or more connected positions. Numbers fall
along the paths of control: a loop that can be reached from another closes before it. Nothing else is asked of the
graph: its entry may be missing, and its edges may end outside of it. -/

namespace ConstantFlow.Graph
variable {g : Graph}

/-- The positions connected with a position, ascending. -/
def component (g : Graph) (i : Nat) : List Nat := (List.range g.size).filter (g.Connected i)

theorem mem_component {i j : Nat} : j ∈ g.component i ↔ j < g.size ∧ g.Connected i j := by
  rw [component, List.mem_filter, List.mem_range, decide_eq_true_eq]

theorem two_le_length_component_iff {i : Nat} (hi : i < g.size) :
    2 ≤ (g.component i).length ↔ ∃ j, j ≠ i ∧ g.Connected i j := by
  have hnodup : (g.component i).Nodup := List.nodup_range.filter _
  rw [two_le_length_iff hnodup (mem_component.2 ⟨hi, Linked.refl i⟩)]
  constructor
  · rintro ⟨j, hj, hne⟩
    exact ⟨j, hne, (mem_component.1 hj).2⟩
  · rintro ⟨j, hne, hconn⟩
    exact ⟨j, mem_component.2 ⟨hconn.lt_size hi, hconn⟩, hne⟩

/-! ### One cycle to a number -/

theorem disjoint_of_once {closed : List (List Nat)} (h : closed.flatten.Nodup) :
    (closed.reverse.filter (2 ≤ ·.length)).Pairwise List.Disjoint := by
  have hclosed := (List.nodup_flatten.1 h).2
  have hreverse : closed.reverse.Pairwise List.Disjoint :=
    List.pairwise_reverse.2 (hclosed.imp fun h => h.symm)
  exact hreverse.filter _

theorem cycles_disjoint (g : Graph) : g.loops.cycles.Pairwise List.Disjoint :=
  disjoint_of_once (List.nodup_append.1 g.components_following.once).2.1

theorem atIndex_of_mem_cycle {l : Loops} (hl : l.cycles.Pairwise List.Disjoint) {m i : Nat} {c : List Nat}
    (hc : l.cycles[m]? = some c) (hi : i ∈ c) : l.atIndex i = m + 1 := by
  have hne : l.atIndex i ≠ 0 := atIndex_ne_zero.2 ⟨c, List.mem_of_getElem? hc, hi⟩
  obtain ⟨n, hn⟩ := Nat.exists_eq_succ_of_ne_zero hne
  obtain ⟨d, hd, hid⟩ := atIndex_eq_succ hn
  obtain ⟨hm, rfl⟩ := List.getElem?_eq_some_iff.1 hc
  obtain ⟨hn', rfl⟩ := List.getElem?_eq_some_iff.1 hd
  -- The cycle that the search finds and the given one share a position, so they stand at one place.
  have hdisjoint := List.pairwise_iff_getElem.1 hl
  rcases Nat.lt_trichotomy n m with hlt | rfl | hgt
  · exact absurd hi (hdisjoint n m hn' hm hlt hid)
  · exact hn
  · exact absurd hid (hdisjoint m n hm hn' hgt hi)

theorem Connected.lt_size_of_ne {i j : Nat} (h : g.Connected i j) (hne : j ≠ i) : i < g.size := by
  rcases Relation.ReflTransGen.cases_head h.1 with heq | ⟨next, hedge, -⟩
  · exact absurd heq.symm hne
  · exact source_lt_size_of_mem_targets hedge

theorem lt_size_of_mem_cycle {c : List Nat} (hc : c ∈ g.loops.cycles) {i : Nat} (hi : i ∈ c) : i < g.size := by
  obtain ⟨hclosed, hlen⟩ := mem_cycles.1 hc
  obtain ⟨j, hj, hne⟩ := (two_le_length_iff (closed_nodup hclosed) hi).1 hlen
  exact ((mem_cycle_iff hc hi j).1 hj).lt_size_of_ne hne

theorem exists_mem_cycle {c : List Nat} (hc : c ∈ g.loops.cycles) : ∃ i ∈ c, i < g.size := by
  obtain ⟨i, hi, -⟩ := g.components_following.component c (mem_cycles.1 hc).1
  exact ⟨i, hi, lt_size_of_mem_cycle hc hi⟩

theorem atIndex_le_count {l : Loops} (i : Nat) : l.atIndex i ≤ l.count := by
  cases hnumber : l.atIndex i with
  | zero => exact Nat.zero_le _
  | succ m =>
      obtain ⟨c, hc, -⟩ := atIndex_eq_succ hnumber
      exact (List.getElem?_eq_some_iff.1 hc).1

/-- Every number from 1 to the number of loops is in use. -/
theorem exists_atIndex_eq {id : LoopId} (hne : id ≠ 0) (hle : id ≤ g.loops.count) :
    ∃ i < g.size, g.loops.atIndex i = id := by
  obtain ⟨m, rfl⟩ := Nat.exists_eq_succ_of_ne_zero hne
  have hc : g.loops.cycles[m]? = some g.loops.cycles[m] := List.getElem?_eq_getElem hle
  obtain ⟨i, hi, hlt⟩ := exists_mem_cycle (List.mem_of_getElem? hc)
  exact ⟨i, hlt, atIndex_of_mem_cycle g.cycles_disjoint hc hi⟩

theorem members_atIndex {i : Nat} (hne : g.loops.atIndex i ≠ 0) :
    g.loops.members (g.loops.atIndex i) = g.component i := by
  have hcount : g.loops.blockCount = g.size := by
    simp [Loops.blockCount, loops, size]
  rw [Loops.members, if_neg hne, hcount, component]
  apply List.filter_congr
  intro j _
  apply decide_eq_decide.2
  constructor
  · intro heq
    exact connected_of_atIndex_eq hne heq.symm
  · intro hconn
    exact (atIndex_congr hconn).symm

/-- Loop numbers tell exactly which blocks are connected: two blocks share a loop if they are connected and not alone,
a block has a number if another one is connected with it, the numbers in use are those from 1 to the number of loops,
and each of them is carried by one whole component of two or more blocks. -/
theorem loops_eq_components (hplaced : g.Placed) :
    (∀ a b : BlockId, a.index < g.size → b.index < g.size →
      (g.loops.same a b = true ↔ g.Connected a.index b.index ∧ 2 ≤ (g.component a.index).length)) ∧
    (∀ a : BlockId, a.index < g.size →
      (g.loops.of a ≠ 0 ↔ ∃ j < g.size, j ≠ a.index ∧ g.Connected a.index j)) ∧
    (∀ id : LoopId, id ≠ 0 →
      ((∃ a : BlockId, a.index < g.size ∧ g.loops.of a = id) ↔ id ≤ g.loops.count)) ∧
    ∀ id : LoopId, id ≠ 0 → id ≤ g.loops.count →
      ∃ i < g.size, g.loops.members id = g.component i ∧ 2 ≤ (g.component i).length := by
  refine ⟨?_, ?_, ?_, ?_⟩
  · intro a b ha _
    rw [hplaced.same_iff ha, two_le_length_component_iff ha]
  · intro a ha
    refine (hplaced.atIndex_ne_zero_iff ha).trans (exists_congr fun j => ?_)
    exact ⟨fun h => ⟨h.2.lt_size ha, h⟩, fun h => h.2⟩
  · intro id hne
    constructor
    · rintro ⟨a, -, rfl⟩
      exact atIndex_le_count a.index
    · intro hle
      obtain ⟨i, hi, hnumber⟩ := exists_atIndex_eq hne hle
      obtain ⟨b, hb⟩ := exists_getElem? hi
      exact ⟨b.id, hplaced hb ▸ hi, (hplaced.of_id hb).trans hnumber⟩
  · intro id hne hle
    obtain ⟨i, hi, rfl⟩ := exists_atIndex_eq hne hle
    exact ⟨i, hi, members_atIndex hne,
      (two_le_length_component_iff hi).2 ((hplaced.atIndex_ne_zero_iff hi).1 hne)⟩

/-- Two loops and a block that branches to itself, with an entry and an edge outside the graph and an edge never
taken. The edges are entered at their sources only. -/
def tangled : Graph where
  functionId := "f"
  entry := some ⟨9⟩
  blocks :=
    [⟨⟨0⟩, [], [], [some ⟨2⟩, some ⟨7⟩]⟩, ⟨⟨1⟩, [], [], [some ⟨1⟩, some ⟨4⟩]⟩,
      ⟨⟨2⟩, [], [], [some ⟨3⟩, some ⟨1⟩]⟩, ⟨⟨3⟩, [], [], [none, some ⟨0⟩]⟩,
      ⟨⟨4⟩, [], [], [some ⟨5⟩]⟩, ⟨⟨5⟩, [], [], [some ⟨4⟩]⟩]

theorem loops_eq_components_tangled :
    tangled.Placed ∧ tangled.loops.count = 2 ∧
      (tangled.loops.same ⟨2⟩ ⟨0⟩ = true ↔ tangled.Connected 2 0 ∧ 2 ≤ (tangled.component 2).length) ∧
      ∃ i < tangled.size, tangled.loops.members 2 = tangled.component i ∧ 2 ≤ (tangled.component i).length := by
  have hplaced : tangled.Placed := fun _ _ hb => placed_of_misplaced? (by decide) hb
  have hcount : tangled.loops.count = 2 := by decide +kernel
  have h := loops_eq_components hplaced
  exact ⟨hplaced, hcount, h.1 ⟨2⟩ ⟨0⟩ (by decide) (by decide), h.2.2.2 2 (by decide) (by rw [hcount])⟩

/-! ### The order of numbers -/

/-- No path leads from a cycle to one with a greater number. -/
theorem cycles_pairwise (g : Graph) :
    g.loops.cycles.Pairwise fun earlier later => ∀ i ∈ earlier, ∀ j ∈ later, ¬ g.Reaches i j :=
  (List.pairwise_reverse.2 g.components_following.closed_pairwise).filter _

theorem atIndex_lt_of_reaches {i j : Nat} (hi : g.loops.atIndex i ≠ 0) (hj : g.loops.atIndex j ≠ 0)
    (hne : g.loops.atIndex i ≠ g.loops.atIndex j) (hreach : g.Reaches i j) :
    g.loops.atIndex j < g.loops.atIndex i := by
  obtain ⟨m, hm⟩ := Nat.exists_eq_succ_of_ne_zero hi
  obtain ⟨n, hn⟩ := Nat.exists_eq_succ_of_ne_zero hj
  obtain ⟨c, hc, hic⟩ := atIndex_eq_succ hm
  obtain ⟨d, hd, hjd⟩ := atIndex_eq_succ hn
  obtain ⟨hm', rfl⟩ := List.getElem?_eq_some_iff.1 hc
  obtain ⟨hn', rfl⟩ := List.getElem?_eq_some_iff.1 hd
  have hle : n ≤ m := by
    by_contra hlt
    exact List.pairwise_iff_getElem.1 g.cycles_pairwise m n hm' hn' (Nat.not_le.1 hlt) i hic j hjd hreach
  rw [hm, hn] at hne ⊢
  exact Nat.succ_lt_succ (lt_of_le_of_ne hle fun heq => hne (congrArg Nat.succ heq.symm))

/-- Loops are numbered against the paths of control: where a path leads from one loop to another, the other has the
smaller number. So if control can pass from one component of two or more blocks to another and cannot come back, both
have numbers, and the one it leaves has the greater. -/
theorem loops_against_control (hplaced : g.Placed) :
    (∀ a b : BlockId, g.loops.of a ≠ 0 → g.loops.of b ≠ 0 → g.loops.of a ≠ g.loops.of b →
      g.Reaches a.index b.index → g.loops.of b < g.loops.of a) ∧
    ∀ a b : BlockId, a.index < g.size → 2 ≤ (g.component a.index).length → 2 ≤ (g.component b.index).length →
      g.Reaches a.index b.index → ¬ g.Reaches b.index a.index →
        g.loops.of b ≠ 0 ∧ g.loops.of b < g.loops.of a := by
  refine ⟨fun a b ha hb hne hreach => atIndex_lt_of_reaches ha hb hne hreach, ?_⟩
  intro a b hlt hca hcb hreach hback
  have hltb : b.index < g.size := hreach.lt_size hlt
  have ha : g.loops.atIndex a.index ≠ 0 :=
    (hplaced.atIndex_ne_zero_iff hlt).2 ((two_le_length_component_iff hlt).1 hca)
  have hb : g.loops.atIndex b.index ≠ 0 :=
    (hplaced.atIndex_ne_zero_iff hltb).2 ((two_le_length_component_iff hltb).1 hcb)
  refine ⟨hb, atIndex_lt_of_reaches ha hb (fun heq => ?_) hreach⟩
  exact hback (connected_of_atIndex_eq ha heq).2

/-- The graph `tangled` entered in the loop that the other loop leads to, so that the other one is left to a later root
of the search. -/
def tangledEnteredLast : Graph := { tangled with entry := some ⟨4⟩ }

theorem loops_against_control_tangledEnteredLast :
    tangledEnteredLast.Placed ∧ tangledEnteredLast.Reaches 0 4 ∧ tangledEnteredLast.loops.of ⟨0⟩ = 2 ∧
      tangledEnteredLast.loops.of ⟨4⟩ = 1 ∧
      tangledEnteredLast.loops.of ⟨4⟩ < tangledEnteredLast.loops.of ⟨0⟩ := by
  have hplaced : tangledEnteredLast.Placed := fun _ _ hb => placed_of_misplaced? (by decide) hb
  have hreach : tangledEnteredLast.Reaches 0 4 :=
    ((Leads.single (b := 2) (by decide)).tail (c := 1) (by decide)).tail (by decide)
  have hfirst : tangledEnteredLast.loops.of ⟨0⟩ = 2 := by decide +kernel
  have hlast : tangledEnteredLast.loops.of ⟨4⟩ = 1 := by decide +kernel
  refine ⟨hplaced, hreach, hfirst, hlast, (loops_against_control hplaced).1 ⟨0⟩ ⟨4⟩ ?_ ?_ ?_ hreach⟩
  · rw [hfirst]
    decide
  · rw [hlast]
    decide
  · rw [hfirst, hlast]
    decide

end ConstantFlow.Graph
