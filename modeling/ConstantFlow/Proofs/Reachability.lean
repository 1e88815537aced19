import ConstantFlow.Graph.Order
import Mathlib.Data.Finset.Card
import Mathlib.Logic.Relation

/-! Paths of directed graphs on the natural numbers, and of control flow graphs. Two blocks are connected if paths
lead both ways between them. In a graph without a fault, positions and ids go together and every edge ends inside the
graph, so that paths can be followed along successor lists and, where edges are entered at both ends, along
predecessor lists. A loop on frames goes through a successor list one entry after another. -/

namespace ConstantFlow

/-- Whether a path leads from one vertex to another. -/
def Leads (targets : Nat → List Nat) : Nat → Nat → Prop :=
  Relation.ReflTransGen fun a b => b ∈ targets a

/-- Whether paths lead both ways between two vertices. -/
def Linked (targets : Nat → List Nat) (a b : Nat) : Prop := Leads targets a b ∧ Leads targets b a

section Paths
variable {targets : Nat → List Nat} {a b c : Nat}

theorem Leads.refl (a : Nat) : Leads targets a a := Relation.ReflTransGen.refl

theorem Leads.trans (hab : Leads targets a b) (hbc : Leads targets b c) : Leads targets a c :=
  Relation.ReflTransGen.trans hab hbc

theorem Leads.single (h : b ∈ targets a) : Leads targets a b := Relation.ReflTransGen.single h

theorem Leads.tail (hab : Leads targets a b) (hbc : c ∈ targets b) : Leads targets a c :=
  Relation.ReflTransGen.tail hab hbc

/-- What holds of a vertex and passes along edges holds of every vertex that a path leads to. -/
theorem Leads.preserves {P : Nat → Prop} (hstep : ∀ v, P v → ∀ w ∈ targets v, P w) (h : Leads targets a b)
    (ha : P a) : P b := by
  induction h with
  | refl => exact ha
  | tail _ hedge ih => exact hstep _ ih _ hedge

theorem Leads.mono {targets' : Nat → List Nat} (hsub : ∀ v, ∀ w ∈ targets v, w ∈ targets' v)
    (h : Leads targets a b) : Leads targets' a b := by
  induction h with
  | refl => exact Leads.refl a
  | tail _ hedge ih => exact ih.tail (hsub _ _ hedge)

theorem Linked.refl (a : Nat) : Linked targets a a := ⟨Leads.refl a, Leads.refl a⟩

theorem Linked.symm (h : Linked targets a b) : Linked targets b a := ⟨h.2, h.1⟩

theorem Linked.trans (hab : Linked targets a b) (hbc : Linked targets b c) : Linked targets a c :=
  ⟨hab.1.trans hbc.1, hbc.2.trans hab.2⟩

/-- A vertex on a path between linked vertices is linked with both. -/
theorem Linked.of_between (h : Linked targets a b) (hac : Leads targets a c) (hcb : Leads targets c b) :
    Linked targets a c := ⟨hac, hcb.trans h.2⟩

end Paths

/-- The number of vertices below `n` that a search has not met. -/
def unmet (n : Nat) (met : List Nat) : Nat := (Finset.range n \ met.toFinset).card

theorem unmet_mono {n : Nat} {met met' : List Nat} (h : ∀ v ∈ met, v ∈ met') : unmet n met' ≤ unmet n met := by
  apply Finset.card_le_card
  intro v hv
  simp only [Finset.mem_sdiff, Finset.mem_range, List.mem_toFinset] at hv ⊢
  exact ⟨hv.1, fun hmet => hv.2 (h v hmet)⟩

/-- Meeting a new vertex leaves fewer to meet. -/
theorem unmet_cons_lt {n v : Nat} {met : List Nat} (hv : v < n) (hnew : v ∉ met) :
    unmet n (v :: met) < unmet n met := by
  apply Finset.card_lt_card
  rw [Finset.ssubset_iff_of_subset]
  · refine ⟨v, ?_, ?_⟩
    · simp [hv, hnew]
    · simp
  · intro w hw
    simp only [Finset.mem_sdiff, Finset.mem_range, List.mem_toFinset, List.mem_cons, not_or] at hw ⊢
    exact ⟨hw.1, hw.2.2⟩

theorem unmet_cons_le {n v fuel : Nat} {met : List Nat} (hv : v < n) (hnew : v ∉ met) (hroom : unmet n met ≤ fuel + 1) :
    unmet n (v :: met) ≤ fuel := by
  have := unmet_cons_lt hv hnew
  omega

theorem unmet_le (n : Nat) (met : List Nat) : unmet n met ≤ n := by
  calc unmet n met ≤ (Finset.range n).card := Finset.card_le_card Finset.sdiff_subset
    _ = n := Finset.card_range n

theorem BlockId.index_injective {a b : BlockId} (h : a.index = b.index) : a = b := by
  cases a with
  | mk m =>
      cases b with
      | mk n => exact congrArg BlockId.mk (UInt32.toNat_inj.1 h)

theorem BlockId.index_ofIndex (i : Nat) : (ofIndex i).index = i % UInt32.size := UInt32.toNat_ofNat'

theorem BlockId.ofIndex_index (b : BlockId) : ofIndex b.index = b := by
  rw [ofIndex, index, UInt32.ofNat_toNat]

namespace Graph
variable {g : Graph}

/-- Whether control can pass from one position to another, in any number of steps. -/
def Reaches (g : Graph) (i j : Nat) : Prop := Leads g.targets i j

/-- Whether control can pass both ways between two positions. -/
def Connected (g : Graph) (i j : Nat) : Prop := Linked g.targets i j

/-- Whether control can reach a position from the entry. -/
def Reachable (g : Graph) (i : Nat) : Prop := ∃ e, g.entryIndex? = some e ∧ g.Reaches e i

/-- Whether every edge is entered at both of its ends. -/
def Symmetric (g : Graph) : Prop :=
  ∀ source ∈ g.blocks, ∀ target ∈ g.blocks,
    target.id ∈ source.liveSuccessors ↔ source.id ∈ target.livePredecessors

instance (g : Graph) : Decidable g.Symmetric := by
  unfold Symmetric
  infer_instance

theorem lt_size_of_getElem? {i : Nat} {b : Block} (hb : g.blocks[i]? = some b) : i < g.size :=
  (List.getElem?_eq_some_iff.1 hb).1

theorem exists_getElem? {i : Nat} (hi : i < g.size) : ∃ b, g.blocks[i]? = some b :=
  ⟨g.blocks[i], List.getElem?_eq_getElem hi⟩

theorem mem_targets {i j : Nat} :
    j ∈ g.targets i ↔
      j < g.size ∧ ∃ b, g.blocks[i]? = some b ∧ ∃ target ∈ b.liveSuccessors, target.index = j := by
  rw [targets]
  cases hb : g.blocks[i]? with
  | none => simp
  | some b =>
      simp only [List.mem_filter, List.mem_map, decide_eq_true_eq, Option.some.injEq, exists_eq_left']
      exact and_comm

theorem lt_size_of_mem_targets {i j : Nat} (h : j ∈ g.targets i) : j < g.size := (mem_targets.1 h).1

theorem targets_lt (g : Graph) (v : Nat) : ∀ w ∈ g.targets v, w < g.size :=
  fun _ hw => lt_size_of_mem_targets hw

theorem source_lt_size_of_mem_targets {i j : Nat} (h : j ∈ g.targets i) : i < g.size := by
  obtain ⟨-, b, hb, -⟩ := mem_targets.1 h
  exact lt_size_of_getElem? hb

theorem entryIndex?_lt {e : Nat} (h : g.entryIndex? = some e) : e < g.size := by
  simp only [entryIndex?, Option.filter_eq_some_iff, decide_eq_true_eq] at h
  exact h.2

theorem Reaches.lt_size {i j : Nat} (h : g.Reaches i j) (hi : i < g.size) : j < g.size :=
  Leads.preserves (P := fun v => v < g.size) (fun _ _ _ hw => lt_size_of_mem_targets hw) h hi

theorem Connected.lt_size {i j : Nat} (h : g.Connected i j) (hi : i < g.size) : j < g.size :=
  Reaches.lt_size h.1 hi

theorem Reachable.lt_size {i : Nat} (h : g.Reachable i) : i < g.size := by
  obtain ⟨e, he, hreach⟩ := h
  exact hreach.lt_size (entryIndex?_lt he)

theorem Reachable.trans {i j : Nat} (hi : g.Reachable i) (hij : g.Reaches i j) : g.Reachable j := by
  obtain ⟨e, he, hreach⟩ := hi
  exact ⟨e, he, Leads.trans hreach hij⟩

theorem Reachable.of_connected {i j : Nat} (hi : g.Reachable i) (h : g.Connected i j) : g.Reachable j :=
  hi.trans h.1

/-- Whether every block carries its position as its id. -/
def Placed (g : Graph) : Prop := ∀ ⦃i : Nat⦄ ⦃b : Block⦄, g.blocks[i]? = some b → b.id.index = i

/-- What a graph without a fault promises. -/
structure Sound (g : Graph) : Prop where
  placed : ∀ {i : Nat} {b : Block}, g.blocks[i]? = some b → b.id.index = i
  entered : g.blocks ≠ [] → ∃ e, g.entryIndex? = some e
  successor_lt : ∀ {b : Block}, b ∈ g.blocks → ∀ target ∈ b.liveSuccessors, target.index < g.size
  predecessor_lt : ∀ {b : Block}, b ∈ g.blocks → ∀ source ∈ b.livePredecessors, source.index < g.size

theorem Sound.isPlaced (hg : g.Sound) : g.Placed := fun _ _ hb => hg.placed hb

theorem block?_isSome {id : BlockId} : (g.block? id).isSome = true ↔ id.index < g.size := by
  simp [block?, size]

theorem placed_of_misplaced? (h : g.misplaced? = none) {i : Nat} {b : Block} (hb : g.blocks[i]? = some b) :
    b.id.index = i := by
  have hmem : (b, i) ∈ g.blocks.zipIdx := List.mk_mem_zipIdx_iff_getElem?.2 hb
  have hnone := List.findSome?_eq_none_iff.1 h (b, i) hmem
  by_contra hne
  simp [hne] at hnone

theorem edge_lt_of_danglingEdge? (h : g.danglingEdge? = none) {b : Block} (hb : b ∈ g.blocks)
    {source target : BlockId} (hedge : (source, target) ∈ b.edges) :
    source.index < g.size ∧ target.index < g.size := by
  have hmem : (source, target) ∈ g.blocks.flatMap Block.edges := List.mem_flatMap.2 ⟨b, hb, hedge⟩
  have hnone := List.findSome?_eq_none_iff.1 h (source, target) hmem
  by_contra hout
  have hfalse : ((g.block? source).isSome && (g.block? target).isSome) = false := by
    rw [Bool.eq_false_iff, ne_eq, Bool.and_eq_true, block?_isSome, block?_isSome]
    exact hout
  simp [hfalse] at hnone

theorem sound_of_fault? (h : g.fault? = none) : g.Sound := by
  rw [fault?, Option.or_eq_none_iff, Option.or_eq_none_iff] at h
  obtain ⟨hplaced, hentry, hedges⟩ := h
  refine ⟨placed_of_misplaced? hplaced, ?_, ?_, ?_⟩
  · intro hne
    rw [entryFault?] at hentry
    cases he : g.entry with
    | none => simp [he, hne] at hentry
    | some e =>
        have hlt : e.index < g.size := by
          by_contra hout
          rw [he] at hentry
          simp only [block?_isSome.not.2 hout] at hentry
          simp at hentry
        exact ⟨e.index, by simp [entryIndex?, he, hlt]⟩
  · intro b hb target htarget
    have hedge : (b.id, target) ∈ b.edges :=
      List.mem_append_left _ (List.mem_map.2 ⟨target, htarget, rfl⟩)
    exact (edge_lt_of_danglingEdge? hedges hb hedge).2
  · intro b hb source hsource
    have hedge : (source, b.id) ∈ b.edges :=
      List.mem_append_right _ (List.mem_map.2 ⟨source, hsource, rfl⟩)
    exact (edge_lt_of_danglingEdge? hedges hb hedge).1

/-- The successors of a block of a sound graph are its targets. -/
theorem Sound.mem_targets (hg : g.Sound) {i : Nat} {b : Block} (hb : g.blocks[i]? = some b) {j : Nat} :
    j ∈ g.targets i ↔ ∃ target ∈ b.liveSuccessors, target.index = j := by
  rw [Graph.mem_targets]
  constructor
  · rintro ⟨-, b', hb', htarget⟩
    rw [hb] at hb'
    cases hb'
    exact htarget
  · rintro ⟨target, htarget, rfl⟩
    exact ⟨hg.successor_lt (List.mem_of_getElem? hb) target htarget, b, hb, target, htarget, rfl⟩

/-- The predecessors of a block are the positions it is a target of, if edges are entered at both ends. -/
theorem Sound.mem_targets_iff_predecessor (hg : g.Sound) (hsym : g.Symmetric) {j : Nat} {b : Block}
    (hb : g.blocks[j]? = some b) {i : Nat} :
    j ∈ g.targets i ↔ ∃ source ∈ b.livePredecessors, source.index = i := by
  have hbmem := List.mem_of_getElem? hb
  constructor
  · intro h
    obtain ⟨-, p, hp, target, htarget, hindex⟩ := Graph.mem_targets.1 h
    have hid : target = b.id := BlockId.index_injective (hindex.trans (hg.placed hb).symm)
    rw [hid] at htarget
    exact ⟨p.id, (hsym p (List.mem_of_getElem? hp) b hbmem).1 htarget, hg.placed hp⟩
  · rintro ⟨source, hsource, rfl⟩
    obtain ⟨p, hp⟩ := exists_getElem? (hg.predecessor_lt hbmem source hsource)
    have hid : source = p.id := BlockId.index_injective (hg.placed hp).symm
    rw [hid] at hsource
    exact (hg.mem_targets hp).2
      ⟨b.id, (hsym p (List.mem_of_getElem? hp) b hbmem).2 hsource, hg.placed hb⟩

/-! ### Loops on frames -/

/-- The positions in the graph that a list of successors leads to. -/
def ends (g : Graph) (successors : List (Option BlockId)) : List Nat :=
  ((successors.filterMap fun e => e).map BlockId.index).filter (· < g.size)

theorem targets_eq_ends {i : Nat} {block : Block} (hblock : g.blocks[i]? = some block) :
    g.targets i = g.ends block.successors := by
  rw [targets, hblock]
  rfl

theorem ends_cons_inside {w : BlockId} (hw : w.index < g.size) (rest : List (Option BlockId)) :
    g.ends (some w :: rest) = w.index :: g.ends rest := by
  simp [ends, hw]

theorem ends_cons_pass {e : Option BlockId} (he : ∀ w, e = some w → ¬ w.index < g.size) (rest : List (Option BlockId)) :
    g.ends (e :: rest) = g.ends rest := by
  cases e with
  | none => rfl
  | some w => simp [ends, he w rfl]

section Scan
variable {σ ρ α : Type} {b : BlockId} {block : Block}

/-- What a loop on frames does with the entries of a successor list: it passes over one that does not end in the graph,
and looking at any other carries a relation between its state and a state by recursion one step further. -/
structure Scan (g : Graph) (b : BlockId) (block : Block) (frames : List Frame) (loop : σ → List Frame → α)
    (look : ρ → Nat → ρ) (R : List Nat → σ → ρ → Prop) : Prop where
  pass : ∀ k e t, block.successors[k]? = some e → (∀ w, e = some w → ¬ w.index < g.size) →
    loop t (⟨b, k⟩ :: frames) = loop t (⟨b, k + 1⟩ :: frames)
  step : ∀ k w done t r, block.successors[k]? = some (some w) → w.index ∈ g.targets b.index → R done t r →
    ∃ t', loop t (⟨b, k⟩ :: frames) = loop t' (⟨b, k + 1⟩ :: frames) ∧ R (done ++ [w.index]) t' (look r w.index)

variable {frames : List Frame} {loop : σ → List Frame → α} {look : ρ → Nat → ρ} {R : List Nat → σ → ρ → Prop}

theorem Scan.run_rest (h : Scan g b block frames loop look R) (hblock : g.blocks[b.index]? = some block)
    {front rest : List (Option BlockId)} (hsplit : block.successors = front ++ rest) {done : List Nat} {t : σ} {r : ρ}
    (hr : R done t r) :
    ∃ t', loop t (⟨b, front.length⟩ :: frames) = loop t' (⟨b, block.successors.length⟩ :: frames) ∧
      R (done ++ g.ends rest) t' ((g.ends rest).foldl look r) := by
  induction rest generalizing front done t r with
  | nil =>
      rw [List.append_nil] at hsplit
      refine ⟨t, by rw [hsplit], ?_⟩
      rw [show g.ends [] = [] from rfl, List.append_nil]
      exact hr
  | cons e rest ih =>
      have hnext : block.successors[front.length]? = some e := by
        rw [hsplit, List.getElem?_append_right le_rfl, Nat.sub_self, List.getElem?_cons_zero]
      have hsplit' : block.successors = (front ++ [e]) ++ rest := by
        rw [hsplit, List.append_assoc, List.singleton_append]
      have hlength : (front ++ [e]).length = front.length + 1 := List.length_append
      by_cases htaken : ∃ w, e = some w ∧ w.index < g.size
      · obtain ⟨w, rfl, hw⟩ := htaken
        have htarget : w.index ∈ g.targets b.index := by
          rw [targets_eq_ends hblock, hsplit]
          simp [ends, hw]
        obtain ⟨t₁, hturn, hr₁⟩ := h.step front.length w done t r hnext htarget hr
        obtain ⟨t', hrun, hr'⟩ := ih hsplit' hr₁
        rw [hlength] at hrun
        rw [List.append_assoc, List.singleton_append] at hr'
        rw [ends_cons_inside hw, List.foldl_cons]
        exact ⟨t', hturn.trans hrun, hr'⟩
      · have hpass : ∀ w, e = some w → ¬ w.index < g.size := fun w he hw => htaken ⟨w, he, hw⟩
        obtain ⟨t', hrun, hr'⟩ := ih hsplit' hr
        rw [hlength] at hrun
        rw [ends_cons_pass hpass]
        exact ⟨t', (h.pass front.length e t hnext hpass).trans hrun, hr'⟩

/-- From the first entry of the list to behind the last one, the state by recursion goes through the targets. -/
theorem Scan.run (h : Scan g b block frames loop look R) (hblock : g.blocks[b.index]? = some block) {t : σ} {r : ρ}
    (hr : R [] t r) :
    ∃ t', loop t (⟨b, 0⟩ :: frames) = loop t' (⟨b, block.successors.length⟩ :: frames) ∧
      R (g.targets b.index) t' ((g.targets b.index).foldl look r) := by
  rw [targets_eq_ends hblock]
  exact h.run_rest hblock (List.nil_append block.successors).symm hr

end Scan

end Graph
end ConstantFlow
