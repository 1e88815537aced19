import ConstantFlow.Changes
import ConstantFlow.Proofs.BlockStates
import ConstantFlow.Proofs.StrongComponents

/-! Where blocks carry their positions as ids, the loops of a graph are the classes of two or more connected positions,
and the variables noted for a loop are those that some block of the class overwrites. -/

namespace ConstantFlow
namespace Graph
variable {g : Graph}

theorem roots_lt : ∀ root ∈ g.roots, root < g.size := by
  intro root hroot
  rw [roots, List.mem_filter, decide_eq_true_eq] at hroot
  exact hroot.2

theorem components_following (g : Graph) : Components.Following g.targets [] g.components :=
  (Components.search_spec g.targets_lt g.roots_lt).1

theorem Placed.mem_roots (hg : g.Placed) {i : Nat} (hi : i < g.size) : i ∈ g.roots := by
  obtain ⟨b, hb⟩ := exists_getElem? hi
  rw [roots, List.mem_filter, decide_eq_true_eq, List.mem_map]
  refine ⟨⟨b.id, ?_, hg hb⟩, hi⟩
  exact List.mem_append_right _ (List.mem_map.2 ⟨b, List.mem_of_getElem? hb, rfl⟩)

theorem Placed.mem_closed (hg : g.Placed) {i : Nat} (hi : i < g.size) : i ∈ g.components.closed.flatten := by
  have hmet := (Components.search_spec g.targets_lt g.roots_lt).2 i (hg.mem_roots hi)
  rcases Components.mem_met.1 hmet with hopen | hclosed
  · have hnil : g.components.stack = [] := g.components_following.stack_eq_nil
    rw [components] at hnil
    rw [hnil] at hopen
    simp at hopen
  · exact hclosed

theorem mem_cycles {c : List Nat} : c ∈ g.loops.cycles ↔ c ∈ g.components.closed ∧ 2 ≤ c.length := by
  simp [loops]

theorem mem_cycle_iff {c : List Nat} (hc : c ∈ g.loops.cycles) {i : Nat} (hi : i ∈ c) (j : Nat) :
    j ∈ c ↔ g.Connected i j := by
  obtain ⟨v, -, hclass⟩ := g.components_following.component c (mem_cycles.1 hc).1
  have hvi := (hclass i).1 hi
  rw [hclass]
  exact ⟨fun hvj => hvi.symm.trans hvj, fun hij => hvi.trans hij⟩

/-- Connected positions lie in the same cycles. -/
theorem mem_cycle_congr {i j : Nat} (h : g.Connected i j) {c : List Nat} (hc : c ∈ g.loops.cycles) :
    i ∈ c ↔ j ∈ c := by
  constructor
  · intro hi
    exact (mem_cycle_iff hc hi j).2 h
  · intro hj
    exact (mem_cycle_iff hc hj i).2 h.symm

/-- A list without repeats has two or more members exactly if it has one besides a given one. -/
theorem two_le_length_iff {c : List Nat} (hnodup : c.Nodup) {i : Nat} (hi : i ∈ c) :
    2 ≤ c.length ↔ ∃ j ∈ c, j ≠ i := by
  constructor
  · intro hlen
    by_contra hnone
    have hsub : c ⊆ [i] := by
      intro j hj
      by_contra hne
      exact hnone ⟨j, hj, fun heq => hne (List.mem_singleton.2 heq)⟩
    have hle := (List.subperm_of_subset hnodup hsub).length_le
    rw [List.length_singleton] at hle
    omega
  · rintro ⟨j, hj, hne⟩
    have hsub : [i, j] ⊆ c := by simp [hi, hj]
    exact (List.subperm_of_subset (by simpa using hne.symm) hsub).length_le

theorem closed_nodup {c : List Nat} (hc : c ∈ g.components.closed) : c.Nodup := by
  have hflat := (List.nodup_append.1 g.components_following.once).2.1
  exact (List.nodup_flatten.1 hflat).1 c hc

theorem Placed.exists_cycle (hg : g.Placed) {i : Nat} (hi : i < g.size) :
    (∃ c ∈ g.loops.cycles, i ∈ c) ↔ ∃ j, j ≠ i ∧ g.Connected i j := by
  constructor
  · rintro ⟨c, hc, hic⟩
    obtain ⟨hclosed, hlen⟩ := mem_cycles.1 hc
    obtain ⟨j, hj, hne⟩ := (two_le_length_iff (closed_nodup hclosed) hic).1 hlen
    exact ⟨j, hne, (mem_cycle_iff hc hic j).1 hj⟩
  · rintro ⟨j, hne, hconn⟩
    obtain ⟨c, hc, hic⟩ := List.mem_flatten.1 (hg.mem_closed hi)
    obtain ⟨v, -, hclass⟩ := g.components_following.component c hc
    have hjc : j ∈ c := (hclass j).2 (((hclass i).1 hic).trans hconn)
    exact ⟨c, mem_cycles.2 ⟨hc, (two_le_length_iff (closed_nodup hc) hic).2 ⟨j, hjc, hne⟩⟩, hic⟩

theorem findIdx?_contains_congr {i j : Nat} {cycles : List (List Nat)} (h : ∀ c ∈ cycles, i ∈ c ↔ j ∈ c) :
    cycles.findIdx? (·.contains i) = cycles.findIdx? (·.contains j) := by
  induction cycles with
  | nil => rfl
  | cons c rest ih =>
      have hc : c.contains i = c.contains j := by
        simp only [List.contains_eq_mem, h c List.mem_cons_self]
      rw [List.findIdx?_cons, List.findIdx?_cons, hc, ih fun d hd => h d (List.mem_cons_of_mem _ hd)]

theorem atIndex_congr {i j : Nat} (h : g.Connected i j) : g.loops.atIndex i = g.loops.atIndex j := by
  rw [Loops.atIndex, Loops.atIndex, findIdx?_contains_congr fun c hc => mem_cycle_congr h hc]

theorem atIndex_ne_zero {l : Loops} {i : Nat} : l.atIndex i ≠ 0 ↔ ∃ c ∈ l.cycles, i ∈ c := by
  rw [Loops.atIndex]
  cases hfind : l.cycles.findIdx? (·.contains i) with
  | none =>
      rw [List.findIdx?_eq_none_iff] at hfind
      simp only [ne_eq, not_true_eq_false, false_iff]
      rintro ⟨c, hc, hic⟩
      simpa [hic] using hfind c hc
  | some m =>
      simp only [ne_eq, Nat.add_eq_zero_iff, one_ne_zero, and_false, not_false_eq_true, true_iff]
      obtain ⟨hm, hic, -⟩ := List.findIdx?_eq_some_iff_getElem.1 hfind
      exact ⟨_, List.getElem_mem hm, by simpa using hic⟩

theorem atIndex_eq_succ {l : Loops} {i m : Nat} (h : l.atIndex i = m + 1) : ∃ c, l.cycles[m]? = some c ∧ i ∈ c := by
  rw [Loops.atIndex] at h
  split at h
  · rename_i n hfind
    obtain ⟨hn, hin, -⟩ := List.findIdx?_eq_some_iff_getElem.1 hfind
    cases h
    exact ⟨_, List.getElem?_eq_getElem hn, by simpa using hin⟩
  · cases h

theorem connected_of_atIndex_eq {i j : Nat} (hne : g.loops.atIndex i ≠ 0)
    (heq : g.loops.atIndex i = g.loops.atIndex j) : g.Connected i j := by
  obtain ⟨m, hm⟩ := Nat.exists_eq_succ_of_ne_zero hne
  obtain ⟨c, hc, hi⟩ := atIndex_eq_succ hm
  obtain ⟨d, hd, hj⟩ := atIndex_eq_succ (heq ▸ hm)
  rw [hc, Option.some.injEq] at hd
  exact (mem_cycle_iff (List.mem_of_getElem? hc) hi j).1 (hd ▸ hj)

theorem Placed.atIndex_ne_zero_iff (hg : g.Placed) {i : Nat} (hi : i < g.size) :
    g.loops.atIndex i ≠ 0 ↔ ∃ j, j ≠ i ∧ g.Connected i j :=
  atIndex_ne_zero.trans (hg.exists_cycle hi)

theorem Placed.of_id (hg : g.Placed) {i : Nat} {b : Block} (hb : g.blocks[i]? = some b) :
    g.loops.of b.id = g.loops.atIndex i := by
  rw [Loops.of, hg hb]

/-- Two blocks lie in one loop exactly if they are connected and not alone. -/
theorem Placed.same_iff (hg : g.Placed) {a b : BlockId} (ha : a.index < g.size) :
    g.loops.same a b = true ↔
      g.Connected a.index b.index ∧ ∃ j, j ≠ a.index ∧ g.Connected a.index j := by
  have hother := hg.atIndex_ne_zero_iff ha
  rw [Loops.same, Bool.and_eq_true, decide_eq_true_iff, decide_eq_true_iff]
  constructor
  · rintro ⟨hne, heq⟩
    exact ⟨connected_of_atIndex_eq hne heq, hother.1 hne⟩
  · rintro ⟨hconn, hex⟩
    exact ⟨hother.2 hex, atIndex_congr hconn⟩

/-! ### Changes -/

theorem mem_changes_loop {k : Kind} {settings : Settings} {loops : Loops} {id : LoopId} {name : String} :
    name ∈ (g.changes k settings loops).loop id ↔
      id ≠ 0 ∧ ∃ b ∈ g.blocks, loops.of b.id = id ∧ name ∈ overwritten k b.statements := by
  rw [Changes.loop, mem_sortNames, List.mem_filterMap]
  constructor
  · rintro ⟨⟨l, n⟩, hmem, hname⟩
    simp only [Option.ite_none_right_eq_some, Option.some.injEq] at hname
    obtain ⟨rfl, rfl⟩ := hname
    obtain ⟨b, hb, hin⟩ := List.mem_flatMap.1 hmem
    split at hin
    · simp at hin
    · rename_i hne
      obtain ⟨n', hn', heq⟩ := List.mem_map.1 hin
      obtain ⟨rfl, rfl⟩ := Prod.mk.inj heq
      exact ⟨hne, b, hb, rfl, hn'⟩
  · rintro ⟨hne, b, hb, rfl, hname⟩
    refine ⟨(loops.of b.id, name), List.mem_flatMap.2 ⟨b, hb, ?_⟩, by simp⟩
    rw [if_neg hne]
    exact List.mem_map.2 ⟨name, hname, rfl⟩

theorem mem_changes_selfLoop {k : Kind} {settings : Settings} {loops : Loops} {id : BlockId} {name : String} :
    name ∈ (g.changes k settings loops).selfLoop id ↔
      settings.invalidateSelfLoops = true ∧ loops.selfLoop id = true ∧
        ∃ b ∈ g.blocks, b.id = id ∧ name ∈ overwritten k b.statements := by
  rw [Changes.selfLoop, mem_sortNames, List.mem_filterMap]
  constructor
  · rintro ⟨⟨l, n⟩, hmem, hname⟩
    simp only [Option.ite_none_right_eq_some, Option.some.injEq] at hname
    obtain ⟨rfl, rfl⟩ := hname
    obtain ⟨b, hb, hin⟩ := List.mem_flatMap.1 hmem
    split at hin
    · rename_i hself
      rw [Bool.and_eq_true] at hself
      obtain ⟨n', hn', heq⟩ := List.mem_map.1 hin
      obtain ⟨rfl, rfl⟩ := Prod.mk.inj heq
      exact ⟨hself.1, hself.2, b, hb, rfl, hn'⟩
    · simp at hin
  · rintro ⟨hsettings, hself, b, hb, rfl, hname⟩
    refine ⟨(b.id, name), List.mem_flatMap.2 ⟨b, hb, ?_⟩, by simp⟩
    rw [if_pos (by rw [hsettings, hself]; rfl)]
    exact List.mem_map.2 ⟨name, hname, rfl⟩

theorem Sound.selfLoop_iff (hg : g.Sound) {i : Nat} {b : Block} (hb : g.blocks[i]? = some b) :
    g.loops.selfLoop b.id = true ↔ i ∈ g.targets i := by
  have hself : g.loops.selfLoop b.id = b.liveSuccessors.contains b.id := by
    rw [Loops.selfLoop, loops, hg.placed hb, List.getElem?_map, hb]
    rfl
  rw [hself, List.contains_iff_mem, hg.mem_targets hb]
  constructor
  · intro hmem
    exact ⟨b.id, hmem, hg.placed hb⟩
  · rintro ⟨target, hmem, hindex⟩
    have hid : target = b.id := BlockId.index_injective (hindex.trans (hg.placed hb).symm)
    exact hid ▸ hmem

end Graph
end ConstantFlow
