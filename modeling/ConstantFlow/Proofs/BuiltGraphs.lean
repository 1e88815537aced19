import ConstantFlow.Graph.Builder
import ConstantFlow.Proofs.Reachability

/-! Graphs made by building steps that name only blocks they have made. Each edge list of such a graph tells, in order,
the steps that concern its block, so that every edge stands at both of its ends as often as it was added. Blocks are
handed ids of 32 bits; until these run out, the graph is without fault. -/

namespace ConstantFlow

theorem BlockId.index_ofIndex_le (i : Nat) : (ofIndex i).index ≤ i := by
  rw [index_ofIndex]
  exact Nat.mod_le _ _

theorem BlockId.index_inj {a b : BlockId} : a.index = b.index ↔ a = b := ⟨index_injective, congrArg index⟩

/-- A block with more entries in its lists. -/
def Block.extend (b : Block) (sent received : List (Option BlockId)) : Block :=
  { b with successors := b.successors ++ sent, predecessors := b.predecessors ++ received }

namespace Graph

namespace Step

def isBlock : Step → Bool
  | .block _ => true
  | .edge _ _ | .deadEdge _ _ | .entry _ => false

/-- Whether a step adds an edge that can be taken. -/
def isEdge : Step → Bool
  | .edge _ _ => true
  | .block _ | .deadEdge _ _ | .entry _ => false

/-- Whether a step adds an edge that can never be taken, from a given block. -/
def isDeadFrom (p : BlockId) : Step → Bool
  | .deadEdge source _ => source = p
  | .block _ | .edge _ _ | .entry _ => false

/-- Whether a step adds an edge that can never be taken, to a given block. -/
def isDeadTo (p : BlockId) : Step → Bool
  | .deadEdge _ target => target = p
  | .block _ | .edge _ _ | .entry _ => false

def named : Step → List BlockId
  | .block _ => []
  | .edge source target | .deadEdge source target => [source, target]
  | .entry id => [id]

/-- What a step adds to the successors of the block at a position. -/
def sent (i : Nat) : Step → List (Option BlockId)
  | .edge source target => if source.index = i then [some target] else []
  | .deadEdge source _ => if source.index = i then [none] else []
  | .block _ | .entry _ => []

/-- What a step adds to the predecessors of the block at a position. -/
def received (i : Nat) : Step → List (Option BlockId)
  | .edge source target => if target.index = i then [some source] else []
  | .deadEdge _ target => if target.index = i then [none] else []
  | .block _ | .entry _ => []

end Step

/-- Whether each step names only ids that the steps before it have handed out. -/
def NamesEarlier (functionId : String) (steps : List Step) : Prop :=
  ∀ (i : Nat) (hi : i < steps.length), ∀ id ∈ steps[i].named, some id ∈ (empty functionId).results (steps.take i)

instance (functionId : String) (steps : List Step) : Decidable (NamesEarlier functionId steps) := by
  unfold NamesEarlier
  infer_instance

variable {g : Graph} {functionId : String} {steps : List Step} {s : Step}

/-! ### One step -/

theorem size_step : (g.step s).size = g.size + if s.isBlock then 1 else 0 := by
  cases s <;> simp [step, addBlock, addEdge, addDeadEdge, link, setEntry, size, Step.isBlock]

theorem size_le_step (g : Graph) (s : Step) : g.size ≤ (g.step s).size := by
  rw [size_step]
  exact Nat.le_add_right _ _

theorem getElem?_link (source target : BlockId) (x y : Option BlockId) (i : Nat) :
    (g.link source target x y).blocks[i]? =
      g.blocks[i]?.map (·.extend (if source.index = i then [x] else []) (if target.index = i then [y] else [])) := by
  simp only [link, List.getElem?_modify]
  cases g.blocks[i]? with
  | none => rfl
  | some b => by_cases hs : source.index = i <;> by_cases ht : target.index = i <;> simp [hs, ht, Block.extend]

/-- A block after a step is a block from before it with what the step adds to its lists, or the one that the step
makes. -/
theorem getElem?_step_cases {i : Nat} {b : Block} (h : (g.step s).blocks[i]? = some b) :
    (∃ b₀, g.blocks[i]? = some b₀ ∧ b = b₀.extend (s.sent i) (s.received i)) ∨
      i = g.size ∧ ∃ statements, s = .block statements ∧ b = ⟨BlockId.ofIndex i, statements, [], []⟩ := by
  cases s with
  | block statements =>
      simp only [step, addBlock] at h
      rcases Nat.lt_or_ge i g.size with hlt | hge
      · rw [List.getElem?_append_left hlt] at h
        exact Or.inl ⟨b, h, by simp [Block.extend, Step.sent, Step.received]⟩
      · rw [List.getElem?_append_right hge, List.getElem?_singleton] at h
        split at h
        · have hi : i = g.size := Nat.le_antisymm (Nat.sub_eq_zero_iff_le.1 ‹_›) hge
          cases h
          exact Or.inr ⟨hi, statements, rfl, by rw [hi]⟩
        · cases h
  | edge source target =>
      rw [step, addEdge, getElem?_link] at h
      obtain ⟨b₀, hb₀, rfl⟩ := Option.map_eq_some_iff.1 h
      exact Or.inl ⟨b₀, hb₀, rfl⟩
  | deadEdge source target =>
      rw [step, addDeadEdge, getElem?_link] at h
      obtain ⟨b₀, hb₀, rfl⟩ := Option.map_eq_some_iff.1 h
      exact Or.inl ⟨b₀, hb₀, rfl⟩
  | entry id => exact Or.inl ⟨b, h, by simp [Block.extend, Step.sent, Step.received]⟩

/-- What a run of steps keeps true of the entry. -/
def EntryInside (g : Graph) : Prop := (g.entry = none → g.size = 0) ∧ ∀ e, g.entry = some e → e.index < g.size

theorem EntryInside.step (h : g.EntryInside) (hs : ∀ id ∈ s.named, id.index < g.size) : (g.step s).EntryInside := by
  cases s with
  | block statements =>
      refine ⟨fun hnone => ?_, fun e he => ?_⟩
      · cases hentry : g.entry <;> simp [Graph.step, addBlock, hentry] at hnone
      · rw [size_step, Step.isBlock, if_pos rfl]
        cases hentry : g.entry with
        | none =>
            have hid : BlockId.ofIndex g.size = e := by simpa [Graph.step, addBlock, hentry] using he
            exact hid ▸ Nat.lt_succ_of_le (BlockId.index_ofIndex_le g.size)
        | some e' =>
            have hid : e' = e := by simpa [Graph.step, addBlock, hentry] using he
            exact Nat.lt_succ_of_lt (hid ▸ h.2 e' hentry)
  | edge source target => exact ⟨fun hnone => size_step.trans (h.1 hnone), fun e he => size_step ▸ h.2 e he⟩
  | deadEdge source target => exact ⟨fun hnone => size_step.trans (h.1 hnone), fun e he => size_step ▸ h.2 e he⟩
  | entry id =>
      refine ⟨fun hnone => ?_, fun e he => ?_⟩
      · cases hnone
      · cases he
        exact hs id List.mem_cons_self

theorem length_flatMap_modify {α β : Type} {l : List α} {f : α → α} {parts : α → List β} {i k : Nat} (hi : i < l.length)
    (hk : ∀ a, (parts (f a)).length = (parts a).length + k) :
    ((l.modify i f).flatMap parts).length = (l.flatMap parts).length + k := by
  induction l generalizing i with
  | nil => cases hi
  | cons a rest ih =>
      cases i with
      | zero =>
          simp only [List.modify_zero_cons, List.flatMap_cons, List.length_append, hk]
          omega
      | succ i =>
          simp only [List.modify_succ_cons, List.flatMap_cons, List.length_append, ih (Nat.lt_of_succ_lt_succ hi)]
          omega

theorem edgeCount_link {source target : BlockId} (hsource : source.index < g.size) (htarget : target.index < g.size)
    (x y : Option BlockId) : (g.link source target x y).edgeCount = g.edgeCount + x.toList.length := by
  have hsent : ∀ b : Block, ({ b with successors := b.successors ++ [x] } : Block).liveSuccessors.length =
      b.liveSuccessors.length + x.toList.length := by
    intro b
    cases x <;> simp [Block.liveSuccessors]
  have hreceived : ∀ b : Block, ({ b with predecessors := b.predecessors ++ [y] } : Block).liveSuccessors.length =
      b.liveSuccessors.length + 0 := fun _ => rfl
  simp only [link, edgeCount]
  rw [length_flatMap_modify (by rwa [List.length_modify]) hreceived, length_flatMap_modify hsource hsent, Nat.add_zero]

theorem edgeCount_step (hs : ∀ id ∈ s.named, id.index < g.size) :
    (g.step s).edgeCount = g.edgeCount + if s.isEdge then 1 else 0 := by
  cases s with
  | block statements => simp [Graph.step, addBlock, edgeCount, Block.liveSuccessors, Step.isEdge]
  | edge source target => exact edgeCount_link (hs source (by simp [Step.named])) (hs target (by simp [Step.named])) _ _
  | deadEdge source target =>
      exact edgeCount_link (hs source (by simp [Step.named])) (hs target (by simp [Step.named])) _ _
  | entry id => rfl

/-! ### Runs of steps -/

theorem build_snoc (functionId : String) (steps : List Step) (s : Step) :
    build functionId (steps ++ [s]) = (build functionId steps).step s := by
  rw [build, List.foldl_append]
  rfl

theorem size_foldl_step : (steps.foldl step g).size = g.size + steps.countP Step.isBlock := by
  induction steps generalizing g with
  | nil => rfl
  | cons s rest ih =>
      rw [List.foldl_cons, ih, size_step, List.countP_cons]
      omega

theorem size_build (functionId : String) (steps : List Step) :
    (build functionId steps).size = steps.countP Step.isBlock :=
  size_foldl_step.trans (Nat.zero_add _)

/-- An id that has been handed out stands for a position in the graph. -/
theorem index_lt_of_mem_results {id : BlockId} (h : some id ∈ g.results steps) :
    id.index < (steps.foldl step g).size := by
  induction steps generalizing g with
  | nil => simp [results] at h
  | cons s rest ih =>
      rw [results, List.mem_cons] at h
      rcases h with h | h
      · cases s with
        | block statements =>
            cases h
            have hle := BlockId.index_ofIndex_le g.size
            rw [size_foldl_step, List.countP_cons, Step.isBlock, if_pos rfl]
            omega
        | edge source target => cases h
        | deadEdge source target => cases h
        | entry id => cases h
      · exact ih h

theorem namesEarlier_snoc (h : NamesEarlier functionId (steps ++ [s])) :
    NamesEarlier functionId steps ∧ ∀ id ∈ s.named, id.index < (build functionId steps).size := by
  constructor
  · intro i hi id hid
    have hi' : i < (steps ++ [s]).length := by
      rw [List.length_append]
      omega
    have hget : (steps ++ [s])[i] = steps[i] := List.getElem_append_left hi
    have hmem := h i hi' id (hget ▸ hid)
    rwa [List.take_append_of_le_length hi.le] at hmem
  · intro id hid
    have hmem := h steps.length (by simp) id (by simpa using hid)
    rw [List.take_left] at hmem
    exact index_lt_of_mem_results hmem

theorem NamesEarlier.named_lt (h : NamesEarlier functionId steps) :
    ∀ s ∈ steps, ∀ id ∈ s.named, id.index < (build functionId steps).size := by
  induction steps using List.reverseRecOn with
  | nil => simp
  | append_singleton steps s ih =>
      obtain ⟨hsteps, hs⟩ := namesEarlier_snoc h
      intro r hr id hid
      rw [build_snoc]
      refine lt_of_lt_of_le ?_ (size_le_step _ s)
      rcases List.mem_append.1 hr with hr | hr
      · exact ih hsteps r hr id hid
      · exact hs id (List.mem_singleton.1 hr ▸ hid)

/-- What each step keeps true, as long as steps name blocks of the graph, a run of steps keeps true. -/
theorem NamesEarlier.run {P : List Step → Graph → Prop} (hnil : P [] (empty functionId))
    (hsnoc : ∀ steps s g, P steps g → (∀ r ∈ steps, ∀ id ∈ r.named, id.index < g.size) →
      (∀ id ∈ s.named, id.index < g.size) → P (steps ++ [s]) (g.step s))
    (h : NamesEarlier functionId steps) : P steps (build functionId steps) := by
  induction steps using List.reverseRecOn with
  | nil => exact hnil
  | append_singleton steps s ih =>
      obtain ⟨hsteps, hs⟩ := namesEarlier_snoc h
      rw [build_snoc]
      exact hsnoc steps s _ (ih hsteps) hsteps.named_lt hs

theorem NamesEarlier.entryInside (h : NamesEarlier functionId steps) : (build functionId steps).EntryInside := by
  refine h.run (P := fun _ g => g.EntryInside) ⟨fun _ => rfl, fun e he => ?_⟩ fun _ _ _ hg _ hs => hg.step hs
  cases he

theorem NamesEarlier.edgeCount_eq (h : NamesEarlier functionId steps) :
    (build functionId steps).edgeCount = steps.countP Step.isEdge := by
  refine h.run (P := fun steps g => g.edgeCount = steps.countP Step.isEdge) rfl fun steps s g hg _ hs => ?_
  rw [edgeCount_step hs, hg, List.countP_append, List.countP_singleton]

/-- The steps that do not name a position leave the lists there alone. -/
theorem Step.sent_eq_nil {i : Nat} (h : ∀ id ∈ s.named, id.index ≠ i) : s.sent i = [] ∧ s.received i = [] := by
  cases s <;> simp_all [named, sent, received]

/-- The lists of a block tell in order what the steps added to them. -/
theorem NamesEarlier.lists (h : NamesEarlier functionId steps) {i : Nat} {b : Block}
    (hb : (build functionId steps).blocks[i]? = some b) :
    b.id = BlockId.ofIndex i ∧ b.successors = steps.flatMap (Step.sent i) ∧
      b.predecessors = steps.flatMap (Step.received i) := by
  refine h.run (P := fun steps g => ∀ b, g.blocks[i]? = some b → b.id = BlockId.ofIndex i ∧
    b.successors = steps.flatMap (Step.sent i) ∧ b.predecessors = steps.flatMap (Step.received i)) ?_ ?_ b hb
  · intro b hb
    cases hb
  · intro steps s g hg hnamed _ b hb
    rcases getElem?_step_cases hb with ⟨b₀, hb₀, rfl⟩ | ⟨rfl, statements, rfl, rfl⟩
    · obtain ⟨hid, hsent, hreceived⟩ := hg b₀ hb₀
      refine ⟨hid, ?_, ?_⟩
      · rw [Block.extend, hsent, List.flatMap_append, List.flatMap_singleton]
      · rw [Block.extend, hreceived, List.flatMap_append, List.flatMap_singleton]
    · -- No step so far has named the position of the block that is made now.
      have hnone : ∀ r ∈ steps ++ [Step.block statements], r.sent g.size = [] ∧ r.received g.size = [] := by
        intro r hr
        apply Step.sent_eq_nil
        intro id hid
        rcases List.mem_append.1 hr with hr | hr
        · exact (hnamed r hr id hid).ne
        · rw [List.mem_singleton.1 hr] at hid
          cases hid
      exact ⟨rfl, (List.flatMap_eq_nil_iff.2 fun r hr => (hnone r hr).1).symm,
        (List.flatMap_eq_nil_iff.2 fun r hr => (hnone r hr).2).symm⟩

/-! ### Counting entries -/

theorem count_flatMap_eq_countP {α β : Type} [BEq β] {parts : α → List β} {x : β} {p : α → Bool}
    (h : ∀ a, (parts a).count x = if p a then 1 else 0) (l : List α) : (l.flatMap parts).count x = l.countP p := by
  induction l with
  | nil => rfl
  | cons a rest ih =>
      rw [List.flatMap_cons, List.count_append, List.countP_cons, ih, h]
      omega

namespace Step

theorem count_sent (p b : BlockId) (s : Step) :
    (s.sent p.index).count (some b) = if s == .edge p b then 1 else 0 := by
  cases s <;> grind [sent, BlockId.index_inj]

theorem count_received (p b : BlockId) (s : Step) :
    (s.received b.index).count (some p) = if s == .edge p b then 1 else 0 := by
  cases s <;> grind [received, BlockId.index_inj]

theorem count_sent_none (p : BlockId) (s : Step) :
    (s.sent p.index).count none = if s.isDeadFrom p then 1 else 0 := by
  cases s <;> grind [sent, isDeadFrom, BlockId.index_inj]

theorem count_received_none (p : BlockId) (s : Step) :
    (s.received p.index).count none = if s.isDeadTo p then 1 else 0 := by
  cases s <;> grind [received, isDeadTo, BlockId.index_inj]

end Step

section Built
variable {p b : BlockId} {P B : Block}

theorem NamesEarlier.count_successors (h : NamesEarlier functionId steps)
    (hP : (build functionId steps).block? p = some P) : P.successors.count (some b) = steps.count (.edge p b) := by
  rw [(h.lists hP).2.1]
  exact count_flatMap_eq_countP (Step.count_sent p b) steps

theorem NamesEarlier.count_predecessors (h : NamesEarlier functionId steps)
    (hB : (build functionId steps).block? b = some B) : B.predecessors.count (some p) = steps.count (.edge p b) := by
  rw [(h.lists hB).2.2]
  exact count_flatMap_eq_countP (Step.count_received p b) steps

theorem NamesEarlier.count_successors_none (h : NamesEarlier functionId steps)
    (hP : (build functionId steps).block? p = some P) : P.successors.count none = steps.countP (Step.isDeadFrom p) := by
  rw [(h.lists hP).2.1]
  exact count_flatMap_eq_countP (Step.count_sent_none p) steps

theorem NamesEarlier.count_predecessors_none (h : NamesEarlier functionId steps)
    (hP : (build functionId steps).block? p = some P) : P.predecessors.count none = steps.countP (Step.isDeadTo p) := by
  rw [(h.lists hP).2.2]
  exact count_flatMap_eq_countP (Step.count_received_none p) steps

end Built

/-! ### Faults -/

theorem misplaced?_of_placed (h : g.Placed) : g.misplaced? = none := by
  rw [misplaced?, List.findSome?_eq_none_iff]
  rintro ⟨b, i⟩ hmem
  exact if_pos (h (List.mk_mem_zipIdx_iff_getElem?.1 hmem))

theorem EntryInside.entryFault? (h : g.EntryInside) : g.entryFault? = none := by
  rw [Graph.entryFault?]
  cases hentry : g.entry with
  | none => exact if_pos (List.isEmpty_iff_length_eq_zero.2 (h.1 hentry))
  | some e => exact if_pos (block?_isSome.2 (h.2 e hentry))

theorem danglingEdge?_of_lt (h : ∀ b ∈ g.blocks, ∀ e ∈ b.edges, e.1.index < g.size ∧ e.2.index < g.size) :
    g.danglingEdge? = none := by
  rw [danglingEdge?, List.findSome?_eq_none_iff]
  rintro ⟨source, target⟩ hmem
  obtain ⟨b, hb, hedge⟩ := List.mem_flatMap.1 hmem
  obtain ⟨hsource, htarget⟩ := h b hb _ hedge
  exact if_pos (Bool.and_eq_true_iff.2 ⟨block?_isSome.2 hsource, block?_isSome.2 htarget⟩)

/-- An entry of an edge list is an id that some step names. -/
theorem Step.mem_named_of_mem_sent {i : Nat} {id : BlockId} (h : some id ∈ s.sent i ∨ some id ∈ s.received i) :
    id ∈ s.named := by
  cases s <;> grind [sent, received, named]

theorem NamesEarlier.edges_lt (h : NamesEarlier functionId steps) :
    ∀ b ∈ (build functionId steps).blocks, ∀ e ∈ b.edges,
      e.1.index < (build functionId steps).size ∧ e.2.index < (build functionId steps).size := by
  intro b hb e he
  obtain ⟨i, hi⟩ := List.getElem?_of_mem hb
  obtain ⟨hid, hsent, hreceived⟩ := h.lists hi
  have hown : b.id.index < (build functionId steps).size :=
    hid ▸ (BlockId.index_ofIndex_le i).trans_lt (lt_size_of_getElem? hi)
  rcases List.mem_append.1 he with he | he
  · obtain ⟨target, htarget, rfl⟩ := List.mem_map.1 he
    have hmem : some target ∈ steps.flatMap (Step.sent i) := hsent ▸ by simpa [Block.liveSuccessors] using htarget
    obtain ⟨s, hs, hin⟩ := List.mem_flatMap.1 hmem
    exact ⟨hown, h.named_lt s hs target (Step.mem_named_of_mem_sent (Or.inl hin))⟩
  · obtain ⟨source, hsource, rfl⟩ := List.mem_map.1 he
    have hmem : some source ∈ steps.flatMap (Step.received i) :=
      hreceived ▸ by simpa [Block.livePredecessors] using hsource
    obtain ⟨s, hs, hin⟩ := List.mem_flatMap.1 hmem
    exact ⟨h.named_lt s hs source (Step.mem_named_of_mem_sent (Or.inr hin)), hown⟩

/-- Blocks carry their positions until the ids run out. -/
theorem NamesEarlier.placed_iff (h : NamesEarlier functionId steps) :
    (build functionId steps).Placed ↔ (build functionId steps).size ≤ UInt32.size := by
  constructor
  · intro hplaced
    by_contra hlarge
    obtain ⟨b, hb⟩ := exists_getElem? (Nat.lt_of_not_le hlarge)
    have hindex := hplaced hb
    rw [(h.lists hb).1, BlockId.index_ofIndex, Nat.mod_self] at hindex
    exact absurd hindex (by decide)
  · intro hsmall i b hb
    rw [(h.lists hb).1, BlockId.index_ofIndex]
    exact Nat.mod_eq_of_lt ((lt_size_of_getElem? hb).trans_le hsmall)

theorem NamesEarlier.fault?_eq_none_iff (h : NamesEarlier functionId steps) :
    (build functionId steps).fault? = none ↔ steps.countP Step.isBlock ≤ UInt32.size := by
  rw [← size_build functionId, ← h.placed_iff]
  constructor
  · intro hnone
    exact (sound_of_fault? hnone).isPlaced
  · intro hplaced
    rw [fault?, misplaced?_of_placed hplaced, h.entryInside.entryFault?, danglingEdge?_of_lt h.edges_lt]
    rfl

/-- Where blocks carry their positions, an edge stands at one end if it stands at the other. -/
theorem NamesEarlier.symmetric (h : NamesEarlier functionId steps) (hplaced : (build functionId steps).Placed) :
    (build functionId steps).Symmetric := by
  have hown : ∀ b ∈ (build functionId steps).blocks, (build functionId steps).block? b.id = some b := by
    intro b hb
    obtain ⟨i, hi⟩ := List.getElem?_of_mem hb
    rw [block?, hplaced hi, hi]
  intro source hsource target htarget
  have hsent : target.id ∈ source.liveSuccessors ↔ some target.id ∈ source.successors := by
    simp [Block.liveSuccessors]
  have hreceived : source.id ∈ target.livePredecessors ↔ some source.id ∈ target.predecessors := by
    simp [Block.livePredecessors]
  rw [hsent, hreceived, ← List.count_pos_iff, ← List.count_pos_iff, h.count_successors (hown source hsource),
    h.count_predecessors (hown target htarget)]

/-- Building gives sound graphs whose edges stand at both ends. The steps may come in any order and number, as long as
each id they name has been handed out before. The graph is then without fault exactly if the blocks are no more than
the ids that there are, and each edge stands among the successors of its source and the predecessors of its target as
often as it was added; so do edges never taken, without a name. -/
theorem build_symmetric (h : NamesEarlier functionId steps) :
    ((build functionId steps).fault? = none ↔ steps.countP Step.isBlock ≤ UInt32.size) ∧
    ((build functionId steps).fault? = none → (build functionId steps).Symmetric) ∧
    (∀ p b P B, (build functionId steps).block? p = some P → (build functionId steps).block? b = some B →
      P.successors.count (some b) = steps.count (.edge p b) ∧
        B.predecessors.count (some p) = steps.count (.edge p b)) ∧
    (∀ p P, (build functionId steps).block? p = some P →
      P.successors.count none = steps.countP (Step.isDeadFrom p) ∧
        P.predecessors.count none = steps.countP (Step.isDeadTo p)) ∧
    (build functionId steps).edgeCount = steps.countP Step.isEdge := by
  refine ⟨h.fault?_eq_none_iff, fun hnone => h.symmetric (sound_of_fault? hnone).isPlaced, ?_, ?_, h.edgeCount_eq⟩
  · intro p b P B hP hB
    exact ⟨h.count_successors hP, h.count_predecessors hB⟩
  · intro p P hP
    exact ⟨h.count_successors_none hP, h.count_predecessors_none hP⟩

/-- Two blocks with a repeated edge, an edge from a block to itself, edges never taken and an entry that changes. -/
def doubled : List Step :=
  [.block [], .edge ⟨0⟩ ⟨0⟩, .block [], .edge ⟨0⟩ ⟨1⟩, .entry ⟨1⟩, .deadEdge ⟨1⟩ ⟨0⟩, .edge ⟨0⟩ ⟨1⟩, .deadEdge ⟨1⟩ ⟨1⟩,
    .entry ⟨0⟩]

theorem build_symmetric_doubled :
    NamesEarlier "f" doubled ∧ (build "f" doubled).fault? = none ∧ (build "f" doubled).Symmetric ∧
      (build "f" doubled).edgeCount = 3 ∧
      ∃ P B, (build "f" doubled).block? ⟨0⟩ = some P ∧ (build "f" doubled).block? ⟨1⟩ = some B ∧
        P.successors.count (some ⟨1⟩) = 2 ∧ B.predecessors.count (some ⟨0⟩) = 2 ∧
          B.successors.count none = 2 ∧ B.predecessors.count none = 1 := by
  have hnames : NamesEarlier "f" doubled := by decide
  obtain ⟨hfault, hsymmetric, hedges, hdead, hcount⟩ := build_symmetric hnames
  have hnone : (build "f" doubled).fault? = none := hfault.2 (by decide)
  obtain ⟨hsent, hreceived⟩ := hedges ⟨0⟩ ⟨1⟩ _ _ rfl rfl
  obtain ⟨hout, hin⟩ := hdead ⟨1⟩ _ rfl
  exact ⟨hnames, hnone, hsymmetric hnone, hcount, _, _, rfl, rfl, hsent, hreceived, hout, hin⟩

end Graph
end ConstantFlow
