import ConstantFlow.Graph.Builder
import ConstantFlow.Proofs.HistoryLookup
import ConstantFlow.Proofs.WalkStates
import Mathlib.Data.List.Chain

/-! Lookups inside a block against the block's own states. The history of a function is one list of entries for each
variable, which all blocks share. Up to the next statement of another block, a lookup answers with the state of the
block if that state names the variable, and with what was known at the first statement if it does not. The first half
makes lookups exact for the variables that a block knows; the second half lets a constant of another block through. -/

namespace ConstantFlow

/-! ### Statements in order -/

/-- Whether each statement ends where it starts or later, and before the next one starts. -/
def InOrder (statements : List Statement) : Prop :=
  statements.IsChain (fun a b => a.updateLocation < b.location) ∧
    ∀ st ∈ statements, ¬ st.updateLocation < st.location

instance (statements : List Statement) : Decidable (InOrder statements) := by
  unfold InOrder
  infer_instance

namespace InOrder
variable {st : Statement} {rest statements : List Statement} {l : Location}

theorem tail (h : InOrder (st :: rest)) : InOrder rest :=
  ⟨(List.isChain_cons.1 h.1).2, fun st' hst' => h.2 st' (List.mem_cons_of_mem _ hst')⟩

theorem ends_before (h : InOrder (st :: rest)) : ∀ st' ∈ rest, st.updateLocation < st'.location := by
  induction rest generalizing st with
  | nil => exact fun _ h => (nomatch h)
  | cons next rest ih =>
      have hnext : st.updateLocation < next.location := (List.isChain_cons_cons.1 h.1).1
      intro st' hst'
      rcases List.mem_cons.1 hst' with rfl | hst'
      · exact hnext
      · have hself : ¬ next.updateLocation < next.location := h.2 next (by simp)
        exact Location.lt_trans (Location.lt_of_lt_of_not_lt hnext hself) (ih h.tail st' hst')

theorem pairwise (h : InOrder statements) : statements.Pairwise fun a b => a.updateLocation < b.location := by
  induction statements with
  | nil => exact List.Pairwise.nil
  | cons st rest ih => exact List.pairwise_cons.2 ⟨h.ends_before, ih h.tail⟩

/-- No statement updates anything before the first one starts. -/
theorem not_lt_first (h : InOrder (st :: rest)) : ∀ st' ∈ st :: rest, ¬ st'.updateLocation < st.location := by
  intro st' hst' hlt
  have hself := h.2 st List.mem_cons_self
  rcases List.mem_cons.1 hst' with rfl | hmem
  · exact hself hlt
  · have hbefore := Location.lt_of_lt_of_not_lt (h.ends_before st' hmem) (h.2 st' hst')
    exact hself (Location.lt_trans hbefore hlt)

/-- The statements whose updates come before a location stand in front of the others. -/
theorem filter_split (h : InOrder statements) (l : Location) :
    ∃ later, statements = (statements.filter fun st => st.updateLocation < l) ++ later ∧
      ∀ st ∈ later, ¬ st.updateLocation < l := by
  induction statements with
  | nil => exact ⟨[], rfl, fun _ h => (nomatch h)⟩
  | cons st rest ih =>
      by_cases hlt : st.updateLocation < l
      · obtain ⟨later, hsplit, hlater⟩ := ih h.tail
        refine ⟨later, ?_, hlater⟩
        rw [List.filter_cons_of_pos (by simpa using hlt), List.cons_append, ← hsplit]
      · have hall : ∀ st' ∈ st :: rest, ¬ st'.updateLocation < l := by
          intro st' hst' hlt'
          rcases List.mem_cons.1 hst' with rfl | hmem
          · exact hlt hlt'
          · have hbefore := Location.lt_of_lt_of_not_lt (h.ends_before st' hmem) (h.2 st' hst')
            exact hlt (Location.lt_trans hbefore hlt')
        have hnil : ((st :: rest).filter fun st => st.updateLocation < l) = [] := by
          rw [List.filter_eq_nil_iff]
          simpa using hall
        exact ⟨st :: rest, by rw [hnil, List.nil_append], hall⟩

end InOrder

/-! ### Updates and entries of a block -/

namespace State
variable {k : Kind} {s : State k} {statements : List Statement} {name : String}

/-- Either no statement updates a variable, or a last one does, and its update holds at the end. -/
theorem last_update (s : State k) (statements : List Statement) (name : String) :
    ((∀ u ∈ s.trace statements, u.name ≠ name) ∧ (s.run statements).get? name = s.get? name) ∨
      ∃ front st back u, statements = front ++ st :: back ∧ u ∈ st.updates k (s.run front) ∧ u.name = name ∧
        (∀ v ∈ (s.run (front ++ [st])).trace back, v.name ≠ name) ∧
        (s.run statements).get? name = some u.fact := by
  induction statements generalizing s with
  | nil => exact Or.inl ⟨fun _ h => (nomatch h), rfl⟩
  | cons st rest ih =>
      rw [run_cons, trace]
      -- The last update is made further on if any is, and otherwise by this statement or not at all.
      rcases ih (s.apply (st.updates k s)) with ⟨hnone, hget⟩ | ⟨front, st', back, u, rfl, hu, hname, hlast, hget⟩
      · by_cases hex : ∃ u ∈ st.updates k s, u.name = name
        · obtain ⟨u, hu, rfl⟩ := hex
          refine Or.inr ⟨[], st, rest, u, rfl, hu, rfl, ?_, ?_⟩
          · rw [List.nil_append, run_cons, run_nil]
            exact hnone
          · rw [hget, Statement.get?_apply_updates_of_mem hu]
        · have hne : ∀ u ∈ st.updates k s, u.name ≠ name := fun u hu heq => hex ⟨u, hu, heq⟩
          refine Or.inl ⟨fun u hu => ?_, ?_⟩
          · rcases List.mem_append.1 hu with hu | hu
            · exact hne u hu
            · exact hnone u hu
          · rw [hget, get?_apply_of_ne s hne]
      · refine Or.inr ⟨st :: front, st', back, u, rfl, ?_, hname, ?_, hget⟩
        · rw [run_cons]
          exact hu
        · rw [List.cons_append, run_cons]
          exact hlast

theorem mem_entries {e : Entry k} :
    (name, e) ∈ s.entries statements ↔
      (∃ first, statements.head? = some first ∧ ∃ fact, s.get? name = some fact ∧ e = ⟨first.location, .merge, fact⟩) ∨
        ∃ u ∈ s.trace statements, u.name = name ∧ e = ⟨u.location, .code, u.fact⟩ := by
  cases statements with
  | nil => simp [entries, trace]
  | cons first rest =>
      show (name, e) ∈ (s.toList.map fun p => (p.1, (⟨first.location, .merge, p.2⟩ : Entry k))) ++
        (s.trace (first :: rest)).map (fun u => (u.name, ⟨u.location, .code, u.fact⟩)) ↔ _
      simp only [List.mem_append, List.mem_map, List.head?_cons, Option.some.injEq, exists_eq_left']
      refine or_congr ?_ ?_
      · constructor
        · rintro ⟨⟨n, fact⟩, hmem, heq⟩
          obtain ⟨rfl, rfl⟩ := Prod.mk.inj heq
          exact ⟨fact, Table.mem_toList.1 hmem, rfl⟩
        · rintro ⟨fact, hget, rfl⟩
          exact ⟨(name, fact), Table.mem_toList.2 hget, rfl⟩
      · constructor
        · rintro ⟨u, hu, heq⟩
          obtain ⟨rfl, rfl⟩ := Prod.mk.inj heq
          exact ⟨u, hu, rfl, rfl⟩
        · rintro ⟨u, hu, rfl, rfl⟩
          exact ⟨u, hu, rfl⟩

theorem location_of_mem_trace {u : Update k} (hu : u ∈ s.trace statements) :
    ∃ st ∈ statements, u.location = st.updateLocation := by
  obtain ⟨st, hst, t, ht⟩ := exists_of_mem_trace hu
  exact ⟨st, hst, Statement.updates_location ht⟩

theorem location_of_mem_entries {e : Entry k} (he : (name, e) ∈ s.entries statements) :
    ∃ st ∈ statements, e.location = st.location ∨ e.location = st.updateLocation := by
  rcases mem_entries.1 he with ⟨first, hfirst, fact, -, rfl⟩ | ⟨u, hu, -, rfl⟩
  · exact ⟨first, List.mem_of_mem_head? hfirst, Or.inl rfl⟩
  · obtain ⟨st, hst, heq⟩ := location_of_mem_trace hu
    exact ⟨st, hst, Or.inr heq⟩

end State

/-! ### The entries of a walk -/

namespace Walk
variable {k : Kind}

theorem mem_visits_iff (w : Walk k) {v : Visit k} :
    v ∈ w.visits ↔ ∃ i b, w.graph.blocks[i]? = some b ∧ w.visitAt? i = some v := by
  constructor
  · intro hv
    obtain ⟨later, hvisits, -, hindex⟩ := w.visits_split (List.nil_append w.graph.order).symm
    have hall : w.visits.map Visit.index = w.graph.order := by
      rw [hvisits]
      exact hindex
    have hmem : v.index ∈ w.graph.order := by
      rw [← hall]
      exact List.mem_map_of_mem hv
    obtain ⟨b, hb⟩ := Graph.exists_getElem? (Graph.mem_order.1 hmem)
    refine ⟨v.index, b, hb, ?_⟩
    cases hfind : w.visitAt? v.index with
    | none => exact absurd (List.find?_eq_none.1 hfind v hv) (by simp)
    | some u =>
        have hu : u ∈ w.visits := List.mem_of_find?_eq_some hfind
        have hsame : u.index = v.index := by simpa using List.find?_some hfind
        have hnodup : (w.visits.map Visit.index).Nodup := hall ▸ w.graph.order_nodup
        rw [List.inj_on_of_nodup_map hnodup hu hv hsame]
  · rintro ⟨i, b, -, hv⟩
    exact List.mem_of_find?_eq_some hv

/-- The entries of a history are those of the blocks, each from its start state. -/
theorem mem_recorded (w : Walk k) {name : String} {e : Entry k} :
    e ∈ (recorded w.visits).entries name ↔
      ∃ i b, w.graph.blocks[i]? = some b ∧ (name, e) ∈ (w.startAt i).entries b.statements := by
  rw [recorded, History.mem_entries_recorded, List.mem_flatMap]
  have hvisit : ∀ {i : Nat} {b : Block} {v : Visit k}, w.graph.blocks[i]? = some b → w.visitAt? i = some v →
      v.entries = (w.startAt i).entries b.statements := by
    intro i b v hb hv
    obtain ⟨front, back, hsplit⟩ := Graph.order_split (Graph.lt_size_of_getElem? hb)
    rw [startAt, hv]
    rw [w.visitAt?_eq hsplit hb, Option.some.injEq] at hv
    rw [← hv]
    rfl
  constructor
  · rintro ⟨v, hv, hmem⟩
    obtain ⟨i, b, hb, hat⟩ := w.mem_visits_iff.1 hv
    exact ⟨i, b, hb, hvisit hb hat ▸ hmem⟩
  · rintro ⟨i, b, hb, hmem⟩
    obtain ⟨front, back, hsplit⟩ := Graph.order_split (Graph.lt_size_of_getElem? hb)
    have hat := w.visitAt?_eq hsplit hb
    exact ⟨_, w.mem_visits_iff.2 ⟨i, b, hb, hat⟩, hvisit hb hat ▸ hmem⟩

end Walk

theorem Graph.lookup_analyze (k : Kind) (settings : Settings) (g : Graph) (name : String) (l : Location) :
    (g.analyze k settings).history.lookup name l =
      Entry.answer l ((Walk.recorded (Walk.of k settings g).visits).entries name) := by
  rw [← History.lookup_eq_answer]
  show (if settings.squashHistory then _ else _ : History k).lookup name l = _
  split
  · exact History.lookup_squash _ name l
  · rfl

/-! ### Lookups inside a block -/

/-- Whether a location comes at or after one location and before another. -/
def Location.Within (start finish l : Location) : Prop := ¬ l < start ∧ l < finish

instance (start finish l : Location) : Decidable (Location.Within start finish l) := by
  unfold Location.Within
  infer_instance

namespace Graph
variable {k : Kind} {settings : Settings} {g : Graph} {i : Nat} {b : Block} {first : Statement} {l : Location}
  {name : String}

/-- A location after the first statement of a block whose statements stand in order, such that no statement of
another block starts or ends between the two. -/
structure Owns (g : Graph) (i : Nat) (b : Block) (first : Statement) (l : Location) : Prop where
  placed : g.blocks[i]? = some b
  head : b.statements.head? = some first
  ordered : InOrder b.statements
  after : first.location < l
  alone : ∀ p ∈ g.blocks.zipIdx, p.2 ≠ i → ∀ st ∈ p.1.statements,
    ¬ Location.Within first.location l st.location ∧ ¬ Location.Within first.location l st.updateLocation

/-- The state of a block after exactly the statements whose updates come before a location. -/
def stateBefore (k : Kind) (settings : Settings) (g : Graph) (i : Nat) (b : Block) (l : Location) : State k :=
  ((Walk.of k settings g).startAt i).run (b.statements.filter fun st => st.updateLocation < l)

theorem Owns.not_lt_first (h : g.Owns i b first l) {st : Statement} (hst : st ∈ b.statements) :
    ¬ st.updateLocation < first.location := by
  obtain ⟨rest, hstatements⟩ := List.head?_eq_some_iff.1 h.head
  have hordered := h.ordered
  rw [hstatements] at hst hordered
  exact hordered.not_lt_first st hst

theorem Owns.mem_trace_filter (h : g.Owns i b first l) {s : State k} {u : Update k}
    (hu : u ∈ s.trace b.statements) (hl : u.location < l) :
    u ∈ s.trace (b.statements.filter fun st => st.updateLocation < l) := by
  obtain ⟨later, hsplit, hlater⟩ := h.ordered.filter_split l
  rw [hsplit, State.trace_append, List.mem_append] at hu
  refine hu.resolve_right fun hmem => ?_
  obtain ⟨st, hst, heq⟩ := State.location_of_mem_trace hmem
  exact hlater st hst (heq ▸ hl)

theorem Owns.mem_trace (h : g.Owns i b first l) {s : State k} {u : Update k}
    (hu : u ∈ s.trace (b.statements.filter fun st => st.updateLocation < l)) : u ∈ s.trace b.statements := by
  obtain ⟨later, hsplit, -⟩ := h.ordered.filter_split l
  rw [hsplit, State.trace_append]
  exact List.mem_append_left _ hu

/-- An entry before the location lies before the block, or is one that the block made on the way to the location. -/
theorem Owns.entry_cases (h : g.Owns i b first l) {e : Entry k}
    (he : e ∈ (Walk.recorded (Walk.of k settings g).visits).entries name) (hl : e.location < l) :
    e.location < first.location ∨
      (∃ fact, ((Walk.of k settings g).startAt i).get? name = some fact ∧ e = ⟨first.location, .merge, fact⟩) ∨
      ∃ u ∈ ((Walk.of k settings g).startAt i).trace (b.statements.filter fun st => st.updateLocation < l),
        u.name = name ∧ e = ⟨u.location, .code, u.fact⟩ := by
  obtain ⟨j, b', hb', hmem⟩ := (Walk.mem_recorded _).1 he
  by_cases hji : j = i
  · subst hji
    obtain rfl : b' = b := Option.some.inj (hb'.symm.trans h.placed)
    right
    rcases State.mem_entries.1 hmem with ⟨first', hfirst', fact, hget, rfl⟩ | ⟨u, hu, hname, rfl⟩
    · obtain rfl : first' = first := Option.some.inj (hfirst'.symm.trans h.head)
      exact Or.inl ⟨fact, hget, rfl⟩
    · exact Or.inr ⟨u, h.mem_trace_filter hu hl, hname, rfl⟩
  · -- Another block has no entry from the first statement up to the location.
    left
    obtain ⟨st, hst, hlocation⟩ := State.location_of_mem_entries hmem
    obtain ⟨hstart, hend⟩ := h.alone (b', j) (List.mk_mem_zipIdx_iff_getElem?.2 hb') hji st hst
    by_contra hnot
    rcases hlocation with heq | heq
    · exact hstart (heq ▸ ⟨hnot, hl⟩)
    · exact hend (heq ▸ ⟨hnot, hl⟩)

theorem Owns.mem_recorded_merge (h : g.Owns i b first l) {fact : Fact k.Value}
    (hget : ((Walk.of k settings g).startAt i).get? name = some fact) :
    (⟨first.location, .merge, fact⟩ : Entry k) ∈
      (Walk.recorded (Walk.of k settings g).visits).entries name :=
  (Walk.mem_recorded _).2 ⟨i, b, h.placed, State.mem_entries.2 (Or.inl ⟨first, h.head, fact, hget, rfl⟩)⟩

theorem Owns.mem_recorded_code (h : g.Owns i b first l) {u : Update k}
    (hu : u ∈ ((Walk.of k settings g).startAt i).trace (b.statements.filter fun st => st.updateLocation < l)) :
    (⟨u.location, .code, u.fact⟩ : Entry k) ∈
      (Walk.recorded (Walk.of k settings g).visits).entries u.name :=
  (Walk.mem_recorded _).2
    ⟨i, b, h.placed, State.mem_entries.2 (Or.inr ⟨u, h.mem_trace hu, rfl, rfl⟩)⟩

/-- After an update the lookup finds the last one. -/
theorem Owns.lookup_updated (h : g.Owns i b first l) {front back : List Statement} {st : Statement} {u : Update k}
    (hsplit : (b.statements.filter fun st => st.updateLocation < l) = front ++ st :: back)
    (hu : u ∈ st.updates k (((Walk.of k settings g).startAt i).run front))
    (hlast : ∀ v ∈ (((Walk.of k settings g).startAt i).run (front ++ [st])).trace back, v.name ≠ u.name) :
    (g.analyze k settings).history.lookup u.name l = some u.fact := by
  have hlocation := Statement.updates_location hu
  have hst : st ∈ b.statements.filter fun st => st.updateLocation < l := by
    rw [hsplit]
    simp
  rw [List.mem_filter, decide_eq_true_eq] at hst
  have hself : ¬ st.updateLocation < st.location := h.ordered.2 st hst.1
  have htrace : ((Walk.of k settings g).startAt i).trace (b.statements.filter fun st => st.updateLocation < l) =
      ((Walk.of k settings g).startAt i).trace front ++
        (st.updates k (((Walk.of k settings g).startAt i).run front) ++
          (((Walk.of k settings g).startAt i).run (front ++ [st])).trace back) := by
    rw [hsplit, State.trace_append, State.trace, State.run_append, State.run_cons, State.run_nil]
  have hmem := h.mem_recorded_code (htrace ▸ List.mem_append_right _ (List.mem_append_left _ hu))
  rw [lookup_analyze]
  refine Entry.answer_eq_some (History.entries_ascending _ _) hmem ?_ ?_
  · exact hlocation ▸ hst.2
  · intro f hf hfl
    have hfirst : ¬ u.location < first.location := hlocation ▸ h.not_lt_first hst.1
    rcases h.entry_cases hf hfl with hbefore | ⟨fact, -, rfl⟩ | ⟨v, hv, hname, rfl⟩
    · exact Or.inl (Or.inl (Location.lt_of_lt_of_not_lt hbefore hfirst))
    · -- At one location, what code changed comes after what met there.
      rcases Location.lt_trichotomy first.location u.location with hlt | heq | hgt
      · exact Or.inl (Or.inl hlt)
      · exact Or.inl (Or.inr ⟨heq, Or.inl Nat.zero_lt_one⟩)
      · exact absurd hgt hfirst
    · rw [htrace, List.mem_append, List.mem_append] at hv
      rcases hv with hv | hv | hv
      · obtain ⟨st', hst', heq⟩ := State.location_of_mem_trace hv
        have hpairwise : (front ++ st :: back).Pairwise fun a b => a.updateLocation < b.location := by
          rw [← hsplit]
          exact h.ordered.pairwise.sublist List.filter_sublist
        have hlt := (List.pairwise_append.1 hpairwise).2.2 st' hst' st List.mem_cons_self
        refine Or.inl (Or.inl ?_)
        rw [heq, hlocation]
        exact Location.lt_of_lt_of_not_lt hlt hself
      · exact Or.inr (Statement.updates_fact_unique hv hu hname)
      · exact absurd hname (hlast v hv)

/-- A lookup inside a block answers with the state of the block, and with what was known at its first statement about
the variables that this state does not name. -/
theorem Owns.lookup_eq (h : g.Owns i b first l) (name : String) :
    (g.analyze k settings).history.lookup name l =
      ((g.stateBefore k settings i b l).get? name).or
        ((g.analyze k settings).history.lookup name first.location) := by
  rcases State.last_update ((Walk.of k settings g).startAt i)
    (b.statements.filter fun st => st.updateLocation < l) name with
    ⟨hnone, hget⟩ | ⟨front, st, back, u, hsplit, hu, rfl, hlast, hget⟩
  · rw [stateBefore, hget]
    cases hstart : ((Walk.of k settings g).startAt i).get? name with
    | none =>
        rw [Option.none_or, lookup_analyze, lookup_analyze]
        apply Entry.answer_congr
        intro f hf
        refine ⟨fun hfl => ?_, fun hfl => Location.lt_trans hfl h.after⟩
        rcases h.entry_cases hf hfl with hbefore | ⟨fact, hfact, -⟩ | ⟨u, hu, hname, -⟩
        · exact hbefore
        · rw [hstart] at hfact
          cases hfact
        · exact absurd hname (hnone u hu)
    | some fact =>
        rw [Option.some_or, lookup_analyze]
        refine Entry.answer_eq_some (History.entries_ascending _ _) (h.mem_recorded_merge hstart) h.after ?_
        intro f hf hfl
        rcases h.entry_cases hf hfl with hbefore | ⟨fact', hfact', rfl⟩ | ⟨u, hu, hname, -⟩
        · exact Or.inl (Or.inl hbefore)
        · exact Or.inr (Option.some.inj (hfact'.symm.trans hstart))
        · exact absurd hname (hnone u hu)
  · rw [stateBefore, hget, Option.some_or]
    exact h.lookup_updated hsplit hu hlast

theorem Owns.stateBefore_isSome (h : g.Owns i b first l)
    (hknown : name ∈ ((Walk.of k settings g).startAt i).names ∨
      ∃ u ∈ ((Walk.of k settings g).startAt i).trace b.statements, u.name = name ∧ u.location < l) :
    ∃ fact, (g.stateBefore k settings i b l).get? name = some fact := by
  rcases State.last_update ((Walk.of k settings g).startAt i)
    (b.statements.filter fun st => st.updateLocation < l) name with
    ⟨hnone, hget⟩ | ⟨-, -, -, u, -, -, -, -, hget⟩
  · rw [stateBefore, hget]
    rcases hknown with hnames | ⟨u, hu, hname, hl⟩
    · exact Table.mem_names.1 hnames
    · exact absurd hname (hnone u (h.mem_trace_filter hu hl))
  · exact ⟨u.fact, hget⟩

/-- A lookup inside a block reports the fact that the block's state holds there, for every variable that the block
starts with or has updated by then. -/
theorem lookup_eq_stateBefore (h : g.Owns i b first l)
    (hknown : name ∈ ((Walk.of k settings g).startAt i).names ∨
      ∃ u ∈ ((Walk.of k settings g).startAt i).trace b.statements, u.name = name ∧ u.location < l) :
    ∃ fact, (g.stateBefore k settings i b l).get? name = some fact ∧
      (g.analyze k settings).history.lookup name l = some fact := by
  obtain ⟨fact, hfact⟩ := h.stateBefore_isSome hknown
  refine ⟨fact, hfact, ?_⟩
  rw [h.lookup_eq, hfact, Option.some_or]

/-- The second of two blocks starts with a constant, combines it and hands another variable to a call. -/
def relay : Graph := build "f"
  [.block [.assign ⟨"v", .integer⟩ (.int 5) ⟨1, 1, 0⟩, .assign ⟨"w", .integer⟩ (.int 2) ⟨2, 1, 0⟩],
    .block [.call "set" [⟨.address ⟨"v", .integer⟩, ⟨3, 5, 0⟩, false⟩] ⟨3, 1, 0⟩ ⟨3, 7, 0⟩,
      .combine ⟨"w", .integer⟩ .add (.int 1) ⟨4, 1, 0⟩],
    .edge ⟨0⟩ ⟨1⟩]

theorem lookup_eq_stateBefore_relay :
    ∃ b first, relay.Owns 1 b first ⟨4, 5, 0⟩ ∧ "w" ∈ ((Walk.of .integer {} relay).startAt 1).names ∧
      ∃ fact, (relay.stateBefore .integer {} 1 b ⟨4, 5, 0⟩).get? "w" = some fact ∧
        (relay.analyze .integer {}).history.lookup "w" ⟨4, 5, 0⟩ = some fact := by
  have howns : relay.Owns 1
      ⟨⟨1⟩, [.call "set" [⟨.address ⟨"v", .integer⟩, ⟨3, 5, 0⟩, false⟩] ⟨3, 1, 0⟩ ⟨3, 7, 0⟩,
        .combine ⟨"w", .integer⟩ .add (.int 1) ⟨4, 1, 0⟩], [some ⟨0⟩], []⟩
      (.call "set" [⟨.address ⟨"v", .integer⟩, ⟨3, 5, 0⟩, false⟩] ⟨3, 1, 0⟩ ⟨3, 7, 0⟩) ⟨4, 5, 0⟩ :=
    ⟨by decide +kernel, by decide +kernel, by decide +kernel, by decide +kernel, by decide +kernel⟩
  have hnames : "w" ∈ ((Walk.of .integer {} relay).startAt 1).names := by decide +kernel
  exact ⟨_, _, howns, hnames, lookup_eq_stateBefore howns (Or.inl hnames)⟩

/-! ### Constants of other blocks -/

/-- Whether all statements of one block end before any statement of another starts. -/
def EndsBefore (b b' : Block) : Prop :=
  ∀ st ∈ b.statements, ∀ st' ∈ b'.statements, st.updateLocation < st'.location

instance (b b' : Block) : Decidable (EndsBefore b b') := by
  unfold EndsBefore
  infer_instance

/-- A graph whose blocks take up disjoint parts of the text, each with its statements in order. -/
structure LaidOut (g : Graph) : Prop where
  ordered : ∀ b ∈ g.blocks, InOrder b.statements
  apart : ∀ p ∈ g.blocks.zipIdx, ∀ q ∈ g.blocks.zipIdx, p.2 ≠ q.2 → EndsBefore p.1 q.1 ∨ EndsBefore q.1 p.1

theorem LaidOut.owns (hlaid : g.LaidOut) (hb : g.blocks[i]? = some b) (hhead : b.statements.head? = some first)
    (hafter : first.location < l) (hinside : ∃ st ∈ b.statements, ¬ st.updateLocation < l) :
    g.Owns i b first l := by
  refine ⟨hb, hhead, hlaid.ordered b (List.mem_of_getElem? hb), hafter, ?_⟩
  rintro ⟨b', j⟩ hp hji st hst
  have hself : ¬ st.updateLocation < st.location :=
    (hlaid.ordered b' (List.mem_of_getElem? (List.mk_mem_zipIdx_iff_getElem?.1 hp))).2 st hst
  rcases hlaid.apart (b', j) hp (b, i) (List.mk_mem_zipIdx_iff_getElem?.2 hb) hji with hbefore | hbehind
  · have hend := hbefore st hst first (List.mem_of_mem_head? hhead)
    exact ⟨fun hin => hin.1 (Location.lt_of_not_lt_of_lt hself hend), fun hin => hin.1 hend⟩
  · obtain ⟨last, hlast, hnot⟩ := hinside
    have hstart := hbehind last hlast st hst
    have hlate : ∀ {x : Location}, ¬ x < st.location → ¬ x < l := fun hx hlt =>
      hnot (Location.lt_trans (Location.lt_of_lt_of_not_lt hstart hx) hlt)
    exact ⟨fun hin => hlate (Location.lt_irrefl _) hin.2, fun hin => hlate hself hin.2⟩

/-- Inside a block, every constant that a lookup finds is one of the block's own state exactly if that state names
the variable, or no constant was found at the first statement already. -/
theorem lookup_resolved_iff (hlaid : g.LaidOut) (hb : g.blocks[i]? = some b)
    (hhead : b.statements.head? = some first) (hafter : first.location < l)
    (hinside : ∃ st ∈ b.statements, ¬ st.updateLocation < l) :
    (∀ c, (g.analyze k settings).history.lookup name l = some (.resolved c) →
      (g.stateBefore k settings i b l).get? name = some (.resolved c)) ↔
    name ∈ (g.stateBefore k settings i b l).names ∨
      ∀ c, (g.analyze k settings).history.lookup name first.location ≠ some (.resolved c) := by
  have howns := hlaid.owns hb hhead hafter hinside
  rw [howns.lookup_eq, Table.mem_names]
  cases hget : (g.stateBefore k settings i b l).get? name with
  | none =>
      rw [Option.none_or]
      constructor
      · intro hall
        exact Or.inr fun c hc => (nomatch hall c hc)
      · rintro (⟨fact, hfact⟩ | hnone)
        · cases hfact
        · exact fun c hc => absurd hc (hnone c)
  | some fact =>
      rw [Option.some_or]
      exact ⟨fun _ => Or.inl ⟨fact, rfl⟩, fun _ c hc => hc⟩

def usingCall : Statement :=
  .call "use" [⟨.read ⟨"v", .integer⟩, ⟨3, 5, 0⟩, false⟩] ⟨3, 1, 0⟩ ⟨3, 7, 0⟩

def usingBlock : Block := ⟨⟨2⟩, [usingCall], [some ⟨0⟩], []⟩

/-- Two branches of which only one sets a variable that the other uses. -/
def branches : Graph := build "f"
  [.block [.other ⟨1, 1, 0⟩], .block [.assign ⟨"v", .integer⟩ (.int 5) ⟨2, 1, 0⟩], .block [usingCall],
    .edge ⟨0⟩ ⟨1⟩, .edge ⟨0⟩ ⟨2⟩]

theorem branches_laidOut : branches.LaidOut := ⟨by decide +kernel, by decide +kernel⟩

theorem lookup_resolved_iff_branches :
    branches.blocks[2]? = some usingBlock ∧
    ((∀ c, (branches.analyze .integer {}).history.lookup "v" ⟨3, 5, 0⟩ = some (.resolved c) →
      (branches.stateBefore .integer {} 2 usingBlock ⟨3, 5, 0⟩).get? "v" = some (.resolved c)) ↔
    "v" ∈ (branches.stateBefore .integer {} 2 usingBlock ⟨3, 5, 0⟩).names ∨
      ∀ c, (branches.analyze .integer {}).history.lookup "v" usingCall.location ≠ some (.resolved c)) := by
  have hb : branches.blocks[2]? = some usingBlock := by decide +kernel
  have hhead : usingBlock.statements.head? = some usingCall := rfl
  have hafter : usingCall.location < ⟨3, 5, 0⟩ := by decide +kernel
  have hinside : ∃ st ∈ usingBlock.statements, ¬ st.updateLocation < (⟨3, 5, 0⟩ : Location) := by decide +kernel
  exact ⟨hb, lookup_resolved_iff branches_laidOut hb hhead hafter hinside⟩

/-- In `branches`, a lookup in one branch finds the constant of the other, of which the state there says nothing. -/
theorem lookup_finds_sibling_constant :
    branches.fault? = none ∧ (∀ i < branches.size, branches.Reachable i) ∧ branches.LaidOut ∧
      branches.blocks[2]? = some usingBlock ∧
      (branches.analyze .integer {}).history.lookup "v" ⟨3, 5, 0⟩ = some (.resolved 5) ∧
      (branches.stateBefore .integer {} 2 usingBlock ⟨3, 5, 0⟩).get? "v" = none :=
  ⟨by decide +kernel, by decide +kernel, branches_laidOut, by decide +kernel, by decide +kernel, by decide +kernel⟩

end Graph
end ConstantFlow
