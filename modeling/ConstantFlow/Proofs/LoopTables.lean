import ConstantFlow.Loops.Tables
import ConstantFlow.Proofs.LoopNumbers

/-! What the tables of the search for loops say, told by the state of the search by recursion: the stack and the
components closed so far are the same, and blocks that stand higher on the stack were found later. Finding a block,
lowering a mark and closing a component keep this true, and none of them fails on a graph with fewer blocks than there
are numbers for them. -/

namespace ConstantFlow

/-- The loops among the components closed so far. -/
def Components.loops (s : Components) : Loops := ⟨s.closed.reverse.filter (2 ≤ ·.length), []⟩

namespace Tables
variable {n : Nat} {t : Tables} {s : Components}

/-! ### Writing -/

theorem write?_of_lt {α : Type} {table : List α} {i : Nat} (hi : i < table.length) (a : α) :
    write? table i a = some (table.set i a) := if_pos hi

/-- Writing for some blocks changes their entries and no others. -/
theorem writeAll?_spec {α : Type} {blocks : List BlockId} {table : List α} (a : α)
    (hin : ∀ i ∈ blocks.map BlockId.index, i < table.length) :
    ∃ table', writeAll? table blocks a = some table' ∧ table'.length = table.length ∧
      (∀ i ∈ blocks.map BlockId.index, table'[i]? = some a) ∧
      ∀ i ∉ blocks.map BlockId.index, table'[i]? = table[i]? := by
  induction blocks generalizing table with
  | nil => exact ⟨table, rfl, rfl, by simp, fun _ _ => rfl⟩
  | cons b rest ih =>
      have hb : b.index < table.length := hin b.index List.mem_cons_self
      have hlength : (table.set b.index a).length = table.length := List.length_set
      obtain ⟨table', heq, hlen, hmem, hother⟩ := @ih (table.set b.index a) fun i hi =>
        hlength.symm ▸ hin i (List.mem_cons_of_mem _ hi)
      refine ⟨table', ?_, hlen.trans hlength, fun i hi => ?_, fun i hi => ?_⟩
      · rw [writeAll?, List.foldlM_cons, write?_of_lt hb]
        exact heq
      · by_cases hrest : i ∈ rest.map BlockId.index
        · exact hmem i hrest
        · have hhead : i = b.index := (List.mem_cons.1 hi).resolve_right hrest
          rw [hother i hrest, hhead, List.getElem?_set_self hb]
      · rw [List.map_cons, List.mem_cons, not_or] at hi
        rw [hother i hi.2, List.getElem?_set_ne fun h => hi.1 h.symm]

theorem succ?_of_lt {m : UInt32} (h : m.toNat + 1 < UInt32.size) : succ? m = some (m + 1) := if_pos h

theorem toNat_succ {m : UInt32} (h : m.toNat + 1 < UInt32.size) : (m + 1).toNat = m.toNat + 1 := by
  rw [UInt32.toNat_add]
  exact Nat.mod_eq_of_lt h

/-- Parting a stack at a block splits the positions at its position. -/
theorem partAt_spec {root : BlockId} {new below : List Nat} {stack : List BlockId} (hnew : root.index ∉ new)
    (hstack : stack.map BlockId.index = new ++ root.index :: below) :
    (partAt root stack).1.map BlockId.index = new ++ [root.index] ∧
      (partAt root stack).2.map BlockId.index = below := by
  induction new generalizing stack with
  | nil =>
      obtain ⟨b, rest, rfl, hb, hrest⟩ := List.map_eq_cons_iff.1 hstack
      rw [partAt, if_pos (BlockId.index_injective hb)]
      exact ⟨congrArg (· :: []) hb, hrest⟩
  | cons u new ih =>
      obtain ⟨b, rest, rfl, hb, hrest⟩ := List.map_eq_cons_iff.1 hstack
      rw [List.mem_cons, not_or] at hnew
      have hne : b ≠ root := fun h => hnew.1 (h ▸ hb)
      obtain ⟨hmembers, hbelow⟩ := ih hnew.2 hrest
      rw [partAt, if_neg hne]
      exact ⟨by rw [List.map_cons, hb, hmembers, List.cons_append], hbelow⟩

/-! ### Times -/

/-- When a block was found, 0 if it was not. -/
def timeOf (t : Tables) (i : Nat) : Nat := (t.foundAt[i]?.join.getD 0).toNat

/-- The earliest time that a block is known to lead to. -/
def lowOf (t : Tables) (i : Nat) : Nat := (t.low[i]?.getD 0).toNat

/-- Whether a table for `n` blocks holds the numbers of loops. -/
structure Numbers (n : Nat) (ids : List UInt32) (count : UInt32) (l : Loops) : Prop where
  length : ids.length = n
  count : count.toNat = l.count
  ids : ∀ i < n, ids[i]?.map UInt32.toNat = some (l.atIndex i)

/-- What tables for `n` blocks have to do with the state of the search by recursion. -/
structure Tracks (n : Nat) (t : Tables) (s : Components) : Prop where
  foundAt_length : t.foundAt.length = n
  low_length : t.low.length = n
  isOpen_length : t.isOpen.length = n
  stack : t.stack.map BlockId.index = s.stack
  isOpen : ∀ i < n, t.isOpen[i]? = some (decide (i ∈ s.stack))
  found : ∀ i < n, t.foundAt[i]? = some none ↔ i ∉ s.met
  met_lt : ∀ i ∈ s.met, i < n
  next : t.next.toNat = s.met.length
  time_lt : ∀ i ∈ s.met, t.timeOf i < t.next.toNat
  times : s.stack.Pairwise fun upper lower => t.timeOf lower < t.timeOf upper
  popped : t.popped.map (List.map BlockId.index) = s.closed
  numbers : Numbers n t.loopIds t.loopCount s.loops

theorem tracks_new (n : Nat) : Tracks n (new n) ⟨[], []⟩ := by
  refine ⟨?_, ?_, ?_, rfl, ?_, ?_, ?_, rfl, ?_, List.Pairwise.nil, rfl, List.length_replicate, rfl, ?_⟩
  · exact List.length_replicate
  · exact List.length_replicate
  · exact List.length_replicate
  · intro i hi
    simp [new, hi]
  · intro i hi
    simp [new, hi, Components.met]
  · simp [Components.met]
  · simp [Components.met]
  · intro i hi
    simp [new, hi, Components.loops, Loops.atIndex]

theorem Tracks.foundAt_of_met (h : Tracks n t s) {i : Nat} (hi : i ∈ s.met) :
    ∃ time, t.foundAt[i]? = some (some time) ∧ time.toNat = t.timeOf i := by
  have hlt := h.met_lt i hi
  cases hget : t.foundAt[i]? with
  | none => exact absurd (List.getElem?_eq_none_iff.1 hget) (by rw [h.foundAt_length]; omega)
  | some entry =>
      cases entry with
      | none => exact absurd hi ((h.found i hlt).1 hget)
      | some time => exact ⟨time, rfl, by simp [timeOf, hget]⟩

theorem Tracks.low_of_lt (h : Tracks n t s) {i : Nat} (hi : i < n) :
    ∃ low, t.low[i]? = some low ∧ low.toNat = t.lowOf i := by
  have hget := List.getElem?_eq_getElem (l := t.low) (i := i) (h.low_length.symm ▸ hi)
  exact ⟨_, hget, by simp [lowOf, hget]⟩

theorem length_le_of_lt {l : List Nat} (hl : l.Nodup) (hlt : ∀ i ∈ l, i < n) : l.length ≤ n := by
  have hsub : l ⊆ List.range n := fun i hi => List.mem_range.2 (hlt i hi)
  have hle := (List.subperm_of_subset hl hsub).length_le
  rwa [List.length_range] at hle

/-! ### Finding a block -/

theorem Tracks.discover (h : Tracks n t s) (hn : n < UInt32.size) (honce : s.met.Nodup) {b : BlockId}
    (hb : b.index < n) (hnew : b.index ∉ s.met) :
    ∃ t', t.discover? b = some t' ∧ Tracks n t' ⟨b.index :: s.stack, s.closed⟩ ∧
      t'.lowOf b.index = t'.timeOf b.index ∧
      ∀ i ≠ b.index, t'.timeOf i = t.timeOf i ∧ t'.lowOf i = t.lowOf i := by
  have hfoundAt : b.index < t.foundAt.length := h.foundAt_length.symm ▸ hb
  have hlow : b.index < t.low.length := h.low_length.symm ▸ hb
  have hisOpen : b.index < t.isOpen.length := h.isOpen_length.symm ▸ hb
  have hroom : t.next.toNat + 1 < UInt32.size := by
    have hle : (b.index :: s.met).length ≤ n :=
      length_le_of_lt (List.nodup_cons.2 ⟨hnew, honce⟩) (List.forall_mem_cons.2 ⟨hb, h.met_lt⟩)
    rw [List.length_cons, ← h.next] at hle
    omega
  let t' : Tables := { t with
    foundAt := t.foundAt.set b.index (some t.next), low := t.low.set b.index t.next, next := t.next + 1
    isOpen := t.isOpen.set b.index true, stack := b :: t.stack }
  have htime : t'.timeOf b.index = t.next.toNat := by simp [t', timeOf, hfoundAt]
  have hother : ∀ i ≠ b.index, t'.timeOf i = t.timeOf i ∧ t'.lowOf i = t.lowOf i := by
    intro i hi
    simp [t', timeOf, lowOf, hi.symm]
  have hnext : t'.next.toNat = t.next.toNat + 1 := toNat_succ hroom
  have hothers : ∀ i ∈ s.met, t'.timeOf i = t.timeOf i := fun i hi => (hother i fun heq => hnew (heq ▸ hi)).1
  refine ⟨t', ?_, ⟨?_, ?_, ?_, ?_, ?_, ?_, ?_, ?_, ?_, ?_, h.popped, h.numbers⟩, ?_, hother⟩
  · simp [discover?, write?_of_lt hfoundAt, write?_of_lt hlow, write?_of_lt hisOpen, succ?_of_lt hroom, t']
  · exact List.length_set.trans h.foundAt_length
  · exact List.length_set.trans h.low_length
  · exact List.length_set.trans h.isOpen_length
  · show b.index :: t.stack.map BlockId.index = b.index :: s.stack
    rw [h.stack]
  · intro i hi
    by_cases heq : i = b.index
    · simp [t', heq, hisOpen]
    · simp [t', heq, Ne.symm heq, h.isOpen i hi]
  · intro i hi
    by_cases heq : i = b.index
    · simp [t', heq, hfoundAt, Components.met]
    · have hmet : i ∈ (⟨b.index :: s.stack, s.closed⟩ : Components).met ↔ i ∈ s.met := by
        simp [Components.met, heq]
      rw [hmet, ← h.found i hi]
      simp [t', Ne.symm heq]
  · exact List.forall_mem_cons.2 ⟨hb, h.met_lt⟩
  · rw [hnext, h.next]
    rfl
  · refine List.forall_mem_cons.2 ⟨?_, fun i hi => ?_⟩
    · rw [htime, hnext]
      omega
    · have hlt := h.time_lt i hi
      rw [hothers i hi, hnext]
      omega
  · refine List.pairwise_cons.2 ⟨fun i hi => ?_, h.times.imp_of_mem fun {i j} hi hj hlt => ?_⟩
    · rw [htime, hothers i (Components.mem_met.2 (Or.inl hi))]
      exact h.time_lt i (Components.mem_met.2 (Or.inl hi))
    · rwa [hothers i (Components.mem_met.2 (Or.inl hi)), hothers j (Components.mem_met.2 (Or.inl hj))]
  · rw [htime]
    simp [t', lowOf, hlow]

/-! ### Lowering a mark -/

theorem Tracks.lower (h : Tracks n t s) {b : BlockId} (hb : b.index < n) (time : UInt32) :
    ∃ t', t.lower? b time = some t' ∧ Tracks n t' s ∧ t'.foundAt = t.foundAt ∧
      t'.lowOf b.index = min (t.lowOf b.index) time.toNat ∧ ∀ i ≠ b.index, t'.lowOf i = t.lowOf i := by
  obtain ⟨old, hold, hval⟩ := h.low_of_lt hb
  have hlow : b.index < t.low.length := h.low_length.symm ▸ hb
  refine ⟨{ t with low := t.low.set b.index (if time < old then time else old) }, ?_,
    { h with low_length := List.length_set.trans h.low_length }, rfl, ?_, ?_⟩
  · simp [lower?, hold, write?_of_lt hlow]
  · rw [← hval]
    simp only [lowOf, List.getElem?_set_self hlow, Option.getD_some]
    split
    · rename_i hlt
      exact (Nat.min_eq_right (UInt32.lt_iff_toNat_lt.1 hlt).le).symm
    · rename_i hge
      exact (Nat.min_eq_left (Nat.le_of_not_lt fun hlt => hge (UInt32.lt_iff_toNat_lt.2 hlt))).symm
  · intro i hi
    simp [lowOf, hi.symm]

/-! ### Closing a component -/

theorem cycles_close (stack below : List Nat) (c : List Nat) (closed : List (List Nat)) :
    (⟨below, c :: closed⟩ : Components).loops.cycles =
      (⟨stack, closed⟩ : Components).loops.cycles ++ if 2 ≤ c.length then [c] else [] := by
  by_cases hc : 2 ≤ c.length <;> simp [Components.loops, hc]

/-- A loop added at the end has the next number, and no other number changes. -/
theorem atIndex_append {l l' : Loops} {c : List Nat} (hcycles : l'.cycles = l.cycles ++ [c]) {i : Nat}
    (hnew : i ∈ c → l.atIndex i = 0) : l'.atIndex i = if i ∈ c then l.count + 1 else l.atIndex i := by
  rw [Loops.atIndex, hcycles, List.findIdx?_append, List.findIdx?_singleton]
  by_cases hi : i ∈ c
  · have hnone : l.cycles.findIdx? (·.contains i) = none := by
      have hzero := hnew hi
      rw [Loops.atIndex] at hzero
      split at hzero
      · cases hzero
      · assumption
    rw [hnone, if_pos (List.contains_iff_mem.2 hi), if_pos hi]
    simp [Loops.count]
  · rw [if_neg (List.contains_iff_mem.not.2 hi), if_neg hi, Option.map_none, Option.or_none]
    rfl

/-- There are no more loops than blocks in closed components. -/
theorem count_le_length (s : Components) : s.loops.count ≤ s.closed.flatten.length := by
  rw [Loops.count, Components.loops, List.filter_reverse, List.length_reverse]
  induction s.closed with
  | nil => exact Nat.le_refl _
  | cons c rest ih =>
      rw [List.filter_cons, List.flatten_cons, List.length_append]
      split
      · rename_i hc
        rw [decide_eq_true_iff] at hc
        rw [List.length_cons]
        omega
      · omega

section Closing
variable {c below : List Nat}

/-- The tables of loops after a component of two or more blocks has closed. -/
theorem Numbers.close {ids : List UInt32} {count : UInt32} (h : Numbers n ids count s.loops) (hn : n < UInt32.size)
    (honce : s.met.Nodup) (hlt : ∀ i ∈ s.met, i < n) (hstack : s.stack = c ++ below) {members : List BlockId}
    (hmembers : members.map BlockId.index = c) (hlarge : 2 ≤ c.length) :
    ∃ ids', succ? count = some (count + 1) ∧ writeAll? ids members (count + 1) = some ids' ∧
      Numbers n ids' (count + 1) (⟨below, c :: s.closed⟩ : Components).loops := by
  have hperm := Components.met_close hstack
  have hcycles : (⟨below, c :: s.closed⟩ : Components).loops.cycles = s.loops.cycles ++ [c] := by
    rw [cycles_close s.stack, if_pos hlarge]
  have hcount : (⟨below, c :: s.closed⟩ : Components).loops.count = s.loops.count + 1 := by
    rw [Loops.count, hcycles, List.length_append]
    rfl
  -- The loops are no more than the blocks that have been met, so their number fits.
  have hfits : count.toNat + 1 < UInt32.size := by
    have hle := count_le_length ⟨below, c :: s.closed⟩
    have hmet : (⟨below, c :: s.closed⟩ : Components).met.length ≤ n :=
      length_le_of_lt (hperm.nodup_iff.2 honce) fun i hi => hlt i (hperm.mem_iff.1 hi)
    rw [Components.met, List.length_append] at hmet
    rw [hcount, ← h.count] at hle
    omega
  have hopen : ∀ i ∈ c, i ∈ s.stack := fun i hi => hstack ▸ List.mem_append_left _ hi
  have hin : ∀ i ∈ members.map BlockId.index, i < ids.length := fun i hi =>
    h.length.symm ▸ hlt i (Components.mem_met.2 (Or.inl (hopen i (hmembers ▸ hi))))
  obtain ⟨ids', heq, hlen, hmem, hother⟩ := writeAll?_spec (count + 1) hin
  rw [hmembers] at hmem hother
  refine ⟨ids', succ?_of_lt hfits, heq, hlen.trans h.length, ?_, fun i hi => ?_⟩
  · rw [toNat_succ hfits, h.count, hcount]
  · have hapart : i ∈ c → s.loops.atIndex i = 0 := by
      intro hi
      by_contra hne
      obtain ⟨earlier, hearlier, hin⟩ := Graph.atIndex_ne_zero.1 hne
      have hclosed : i ∈ s.closed.flatten :=
        List.mem_flatten.2 ⟨earlier, List.mem_reverse.1 (List.mem_of_mem_filter hearlier), hin⟩
      exact (List.nodup_append.1 honce).2.2 i (hopen i hi) i hclosed rfl
    rw [atIndex_append hcycles hapart]
    by_cases hmember : i ∈ c
    · rw [if_pos hmember, hmem i hmember, Option.map_some, toNat_succ hfits, h.count]
    · rw [if_neg hmember, hother i hmember, h.ids i hi]

/-- A component of one block leaves the tables of loops as they are. -/
theorem Numbers.close_small {ids : List UInt32} {count : UInt32} (h : Numbers n ids count s.loops)
    (hsmall : c.length ≤ 1) (below : List Nat) : Numbers n ids count (⟨below, c :: s.closed⟩ : Components).loops := by
  have hcycles := cycles_close s.stack below c s.closed
  rw [if_neg (by omega), List.append_nil] at hcycles
  have hsame : (⟨below, c :: s.closed⟩ : Components).loops = s.loops := congrArg (Loops.mk · []) hcycles
  exact hsame ▸ h

/-- All but the tables of loops, after the top of the stack has been taken off. -/
theorem Tracks.pop (h : Tracks n t s) (honce : s.met.Nodup) (hstack : s.stack = c ++ below)
    {members rest : List BlockId} (hmembers : members.map BlockId.index = c) (hrest : rest.map BlockId.index = below)
    {isOpen : List Bool} (hlength : isOpen.length = t.isOpen.length) (hmem : ∀ i ∈ c, isOpen[i]? = some false)
    (hother : ∀ i ∉ c, isOpen[i]? = t.isOpen[i]?) {ids : List UInt32} {count : UInt32}
    (hnumbers : Numbers n ids count (⟨below, c :: s.closed⟩ : Components).loops) :
    Tracks n { t with isOpen, stack := rest, popped := members :: t.popped, loopIds := ids, loopCount := count }
      ⟨below, c :: s.closed⟩ := by
  have hperm := Components.met_close hstack
  have hnodup := (List.nodup_append.1 honce).1
  rw [hstack, List.nodup_append] at hnodup
  refine ⟨h.foundAt_length, h.low_length, hlength.trans h.isOpen_length, hrest, fun i hi => ?_, fun i hi => ?_,
    fun i hi => h.met_lt i (hperm.mem_iff.1 hi), h.next.trans hperm.length_eq.symm,
    fun i hi => h.time_lt i (hperm.mem_iff.1 hi), ?_, ?_, hnumbers⟩
  · by_cases hmember : i ∈ c
    · have hout : i ∉ below := fun hin => hnodup.2.2 i hmember i hin rfl
      rw [hmem i hmember, decide_eq_false hout]
    · rw [hother i hmember, h.isOpen i hi, hstack]
      exact congrArg some (decide_eq_decide.2 (List.mem_append.trans (or_iff_right hmember)))
  · rw [hperm.mem_iff]
    exact h.found i hi
  · have htimes := h.times
    rw [hstack] at htimes
    exact (List.pairwise_append.1 htimes).2.1
  · rw [List.map_cons, hmembers, h.popped]

theorem Tracks.close (h : Tracks n t s) (hn : n < UInt32.size) (honce : s.met.Nodup) {b : BlockId} {new : List Nat}
    (hstack : s.stack = new ++ b.index :: below) :
    ∃ t', t.close? b = some t' ∧ Tracks n t' ⟨below, (new ++ [b.index]) :: s.closed⟩ ∧
      t'.foundAt = t.foundAt ∧ t'.low = t.low := by
  have hsplit : s.stack = (new ++ [b.index]) ++ below := by rw [hstack, List.append_cons]
  have hfresh : b.index ∉ new := by
    have hnodup := (List.nodup_append.1 honce).1
    rw [hstack, List.nodup_append] at hnodup
    exact fun hmem => hnodup.2.2 _ hmem _ List.mem_cons_self rfl
  obtain ⟨hmembers, hbelow⟩ := partAt_spec hfresh (h.stack.trans hstack)
  generalize hparted : partAt b t.stack = parted at hmembers hbelow
  have hin : ∀ i ∈ parted.1.map BlockId.index, i < t.isOpen.length := by
    intro i hi
    have hopen : i ∈ s.stack := hsplit ▸ List.mem_append_left _ (hmembers ▸ hi)
    exact h.isOpen_length.symm ▸ h.met_lt i (Components.mem_met.2 (Or.inl hopen))
  obtain ⟨isOpen, heq, hlen, hmem, hother⟩ := writeAll?_spec false hin
  rw [hmembers] at hmem hother
  have hlength : (new ++ [b.index]).length = parted.1.length := by rw [← hmembers, List.length_map]
  rcases Nat.lt_or_ge 1 parted.1.length with hlarge | hsmall
  · obtain ⟨ids, hsucc, hwrite, hnumbers⟩ :=
      h.numbers.close hn honce h.met_lt hsplit hmembers (hlength.symm ▸ hlarge)
    refine ⟨_, ?_, h.pop honce hsplit hmembers hbelow hlen hmem hother hnumbers, rfl, rfl⟩
    simp [close?, hparted, heq, hsucc, hwrite, Nat.not_le_of_lt hlarge]
  · have hnumbers := h.numbers.close_small (hlength.symm ▸ hsmall) below
    refine ⟨_, ?_, h.pop honce hsplit hmembers hbelow hlen hmem hother hnumbers, rfl, rfl⟩
    simp [close?, hparted, heq, hsmall]

end Closing

/-! ### What the tables say between roots -/

section Numbers
variable {ids : List UInt32} {count : UInt32} {l : Loops}

theorem Numbers.map_toNat (h : Numbers n ids count l) : ids.map UInt32.toNat = (List.range n).map l.atIndex := by
  apply List.ext_getElem?
  intro i
  rw [List.getElem?_map, List.getElem?_map]
  rcases Nat.lt_or_ge i n with hi | hi
  · rw [h.ids i hi, List.getElem?_range hi, Option.map_some]
  · rw [List.getElem?_eq_none (h.length.symm ▸ hi), List.getElem?_eq_none (by rwa [List.length_range])]
    rfl

theorem Numbers.le_count (h : Numbers n ids count l) : ∀ id ∈ ids, id ≤ count := by
  intro id hid
  have hmem : id.toNat ∈ (List.range n).map l.atIndex := h.map_toNat ▸ List.mem_map_of_mem hid
  obtain ⟨i, -, hi⟩ := List.mem_map.1 hmem
  rw [UInt32.le_iff_toNat_le, ← hi, h.count]
  exact Graph.atIndex_le_count i

/-- Every loop that has been counted is carried by all its blocks. -/
theorem Numbers.two_le_count (h : Numbers n ids count l) (hl : l.cycles.Pairwise List.Disjoint)
    (hcycles : ∀ c ∈ l.cycles, c.Nodup ∧ 2 ≤ c.length ∧ ∀ i ∈ c, i < n) {id : UInt32} (hpos : id ≠ 0)
    (hle : id ≤ count) : 2 ≤ ids.count id := by
  have hne : id.toNat ≠ 0 := fun hzero => hpos (UInt32.toNat_inj.1 hzero)
  obtain ⟨m, hm⟩ := Nat.exists_eq_succ_of_ne_zero hne
  have hlt : m < l.cycles.length := by
    have hnat := UInt32.le_iff_toNat_le.1 hle
    rw [hm, h.count] at hnat
    exact hnat
  obtain ⟨hnodup, hlarge, hin⟩ := hcycles _ (List.getElem_mem hlt)
  have hsub : l.cycles[m] ⊆ (List.range n).filter (l.atIndex · == id.toNat) := by
    intro i hi
    rw [List.mem_filter, List.mem_range, beq_iff_eq, hm]
    exact ⟨hin i hi, Graph.atIndex_of_mem_cycle hl (List.getElem?_eq_getElem hlt) hi⟩
  calc 2 ≤ l.cycles[m].length := hlarge
    _ ≤ ((List.range n).filter (l.atIndex · == id.toNat)).length := (List.subperm_of_subset hnodup hsub).length_le
    _ = ((List.range n).map l.atIndex).count id.toNat := by
        rw [List.count, List.countP_map, List.countP_eq_length_filter]
        rfl
    _ = (ids.map UInt32.toNat).count id.toNat := by rw [h.map_toNat]
    _ = ids.count id := List.count_map_of_injective ids UInt32.toNat (fun _ _ => UInt32.toNat_inj.1) id

end Numbers

/-- What holds of the tables when the search is not under way. -/
structure Settled (t : Tables) : Prop where
  /-- The stack has been taken down. -/
  stack : t.stack = []
  /-- No block is marked as open. -/
  isOpen : ∀ flag ∈ t.isOpen, flag = false
  /-- A block that was found has been taken off the stack in one component and once. -/
  found : ∀ i time, t.foundAt[i]? = some (some time) → (t.popped.flatten.map BlockId.index).count i = 1
  /-- No other block has been taken off the stack. -/
  popped : ∀ b ∈ t.popped.flatten, ∃ time, t.foundAt[b.index]? = some (some time)
  /-- The numbers of loops are those counted. -/
  loopIds : ∀ id ∈ t.loopIds, id ≤ t.loopCount
  /-- Every loop counted has two or more blocks. -/
  loops : ∀ id, id ≠ 0 → id ≤ t.loopCount → 2 ≤ t.loopIds.count id

theorem Tracks.settled {targets : Nat → List Nat} (h : Tracks n t s) (hs : Components.Following targets [] s) :
    t.Settled := by
  have hnil := hs.stack_eq_nil
  have hmet : s.met = s.closed.flatten := by rw [Components.met, hnil, List.nil_append]
  have hpopped : t.popped.flatten.map BlockId.index = s.met := by rw [hmet, ← h.popped, List.map_flatten]
  have honce := hs.once
  have hclosed : s.closed.flatten.Nodup := hmet ▸ honce
  refine ⟨?_, fun flag hflag => ?_, fun i time hi => ?_, fun b hb => ?_, h.numbers.le_count, fun id hpos hle => ?_⟩
  · have hstack := h.stack
    rwa [hnil, List.map_eq_nil_iff] at hstack
  · obtain ⟨i, hi⟩ := List.getElem?_of_mem hflag
    have hlt : i < n := h.isOpen_length ▸ (List.getElem?_eq_some_iff.1 hi).1
    rw [h.isOpen i hlt, hnil] at hi
    exact (Option.some.inj hi).symm
  · have hlt : i < n := h.foundAt_length ▸ (List.getElem?_eq_some_iff.1 hi).1
    have hin : i ∈ s.met := by
      by_contra hout
      rw [(h.found i hlt).2 hout] at hi
      cases hi
    rw [hpopped]
    exact List.count_eq_one_of_mem honce hin
  · have hin : b.index ∈ s.met := hpopped ▸ List.mem_map_of_mem hb
    obtain ⟨time, htime, -⟩ := h.foundAt_of_met hin
    exact ⟨time, htime⟩
  · refine h.numbers.two_le_count (Graph.disjoint_of_once hclosed) (fun c hc => ?_) hpos hle
    obtain ⟨hmem, hlarge⟩ := List.mem_filter.1 hc
    rw [List.mem_reverse] at hmem
    refine ⟨(List.nodup_flatten.1 hclosed).1 c hmem, by simpa using hlarge, fun i hi => h.met_lt i ?_⟩
    rw [hmet]
    exact List.mem_flatten.2 ⟨c, hmem, hi⟩

end Tables
end ConstantFlow
