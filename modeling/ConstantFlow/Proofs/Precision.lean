import ConstantFlow.Proofs.WalkStates

/-! How much states know. A state is vaguer than another if the other holds all its constants, and it names all
variables of the other: a variable that one of two meeting states does not name loses its constant, so naming more
variables adds no knowledge. Statements keep this order, and so does a walk as a whole: if one of two walks gives up
more than the other at the start of each block, its states are vaguer in every block. -/

namespace ConstantFlow

theorem Fact.ofOption_eq_resolved {α : Type} {o : Option α} {c : α} : ofOption o = resolved c ↔ o = some c := by
  cases o <;> simp [ofOption]

theorem Table.contains_iff {α : Type} {t : Table α} {name : String} :
    t.contains name = true ↔ ∃ value, t.get? name = some value :=
  Option.isSome_iff_exists

theorem Table.contains_iff_mem_names {α : Type} {t : Table α} {name : String} :
    t.contains name = true ↔ name ∈ t.names :=
  contains_iff.trans mem_names.symm

namespace State
variable {k : Kind}

/-- Whether a state holds no constant that another does not hold, and names all variables of the other. -/
structure Vaguer (s t : State k) : Prop where
  constant : ∀ {name : String} {c : k.Value}, s.get? name = some (.resolved c) → t.get? name = some (.resolved c)
  named : ∀ {name : String}, t.contains name = true → s.contains name = true

theorem Vaguer.refl (s : State k) : s.Vaguer s := ⟨id, id⟩

/-- States that are vaguer than each other are the same. -/
theorem Vaguer.antisymm {s t : State k} (hst : s.Vaguer t) (hts : t.Vaguer s) : s = t := by
  apply Table.ext_get?
  intro name
  have hnamed : s.contains name = t.contains name := Bool.eq_iff_iff.2 ⟨hts.named, hst.named⟩
  rw [Table.contains, Table.contains] at hnamed
  cases hs : s.get? name with
  | none =>
      cases ht : t.get? name with
      | none => rfl
      | some fact => simp [hs, ht] at hnamed
  | some fact =>
      cases fact with
      | resolved c => exact (hst.constant hs).symm
      | unresolved =>
          rw [hs] at hnamed
          obtain ⟨other, ht⟩ := Option.isSome_iff_exists.1 hnamed.symm
          cases other with
          | unresolved => exact ht.symm
          | resolved c =>
              have := hts.constant ht
              rw [hs] at this
              cases this

end State

/-! ### Statements -/

namespace Statement
variable {k : Kind} {s t : State k} {st : Statement}

/-- What a statement writes in a vaguer state, it writes in the other one too, with the same constant if it has one. -/
theorem written_of_vaguer (h : s.Vaguer t) {u : Update k} (hu : st.written k s = some u) :
    ∃ v, st.written k t = some v ∧ v.name = u.name ∧ ∀ c, u.fact = .resolved c → v.fact = .resolved c := by
  obtain ⟨target, e, l, value, rfl, htracks, hfold, rfl⟩ | ⟨target, e, l, rfl, htracks, rfl⟩ |
    ⟨target, op, e, l, rfl, htracks, rfl⟩ := written_cases hu
  · exact ⟨_, by simp [written, htracks, hfold], rfl, fun _ => id⟩
  · exact ⟨_, if_pos htracks, rfl, fun _ => id⟩
  · refine ⟨_, if_pos htracks, rfl, fun c hc => ?_⟩
    -- The only statement that reads the state: a constant comes from the constant of the target.
    obtain ⟨current, operand, hcurrent, hoperand, hvalue⟩ := combined_eq_some (Fact.ofOption_eq_resolved.1 hc)
    apply Fact.ofOption_eq_resolved.2
    simp [combined, h.constant hcurrent, hoperand, hvalue]

theorem updates_of_vaguer (h : s.Vaguer t) {u : Update k} (hu : u ∈ st.updates k s) :
    ∃ v ∈ st.updates k t, v.name = u.name ∧ ∀ c, u.fact = .resolved c → v.fact = .resolved c := by
  rcases mem_updates.1 hu with hlost | hwritten
  · exact ⟨u, mem_updates.2 (Or.inl hlost), rfl, fun _ => id⟩
  · obtain ⟨v, hv, hname, hfact⟩ := written_of_vaguer h hwritten
    exact ⟨v, mem_updates.2 (Or.inr hv), hname, hfact⟩

/-- A statement updates the same variables in every state. -/
theorem updates_independent {u : Update k} (hu : u ∈ st.updates k s) (t : State k) :
    ∃ v ∈ st.updates k t, v.name = u.name := by
  rcases mem_updates.1 hu with hlost | hwritten
  · exact ⟨u, mem_updates.2 (Or.inl hlost), rfl⟩
  · obtain ⟨v, hv, hname, -⟩ := written_independent hwritten t
    exact ⟨v, mem_updates.2 (Or.inr hv), hname⟩

theorem vaguer_apply_updates (h : s.Vaguer t) (st : Statement) :
    (s.apply (st.updates k s)).Vaguer (t.apply (st.updates k t)) := by
  have hkept : ∀ {name : String} {s : State k}, (∀ u ∈ st.updates k s, u.name ≠ name) →
      ∀ t : State k, (t.apply (st.updates k t)).get? name = t.get? name := by
    intro name s hnone t
    apply State.get?_apply_of_ne
    intro v hv heq
    obtain ⟨u, hu, hname⟩ := updates_independent hv s
    exact hnone u hu (hname.trans heq)
  refine ⟨?_, ?_⟩
  · intro name c hget
    by_cases hex : ∃ u ∈ st.updates k s, u.name = name
    · obtain ⟨u, hu, rfl⟩ := hex
      rw [get?_apply_updates_of_mem hu, Option.some.injEq] at hget
      obtain ⟨v, hv, hname, hfact⟩ := updates_of_vaguer h hu
      rw [← hname, get?_apply_updates_of_mem hv, hfact c hget]
    · have hnone : ∀ u ∈ st.updates k s, u.name ≠ name := fun u hu heq => hex ⟨u, hu, heq⟩
      rw [hkept hnone] at hget ⊢
      exact h.constant hget
  · intro name hnamed
    by_cases hex : ∃ u ∈ st.updates k s, u.name = name
    · obtain ⟨u, hu, rfl⟩ := hex
      exact Table.contains_iff.2 ⟨_, get?_apply_updates_of_mem hu⟩
    · have hnone : ∀ u ∈ st.updates k s, u.name ≠ name := fun u hu heq => hex ⟨u, hu, heq⟩
      rw [Table.contains, hkept hnone] at hnamed ⊢
      exact h.named hnamed

end Statement

theorem State.Vaguer.run {k : Kind} {s t : State k} (h : s.Vaguer t) (statements : List Statement) :
    (s.run statements).Vaguer (t.run statements) := by
  induction statements generalizing s t with
  | nil => exact h
  | cons st rest ih =>
      rw [run_cons, run_cons]
      exact ih (Statement.vaguer_apply_updates h st)

/-! ### Walks -/

namespace Walk
variable {k : Kind} {w w' : Walk k}

/-- A block starts with a variable named exactly if the variable is given up there or named at the end of a
predecessor walked before the block. -/
theorem startAt_contains_iff (w : Walk k) {i : Nat} {b : Block} (hb : w.graph.blocks[i]? = some b) {name : String} :
    (w.startAt i).contains name = true ↔
      w.GivesUp i b name ∨
        ∃ p ∈ sources b, w.graph.rank p.index < w.graph.rank i ∧ (w.endAt p.index).contains name = true := by
  obtain ⟨front, back, h⟩ := Graph.order_split (Graph.lt_size_of_getElem? hb)
  rw [Table.contains, w.startAt_eq h hb, start_eq, State.get?_forget, ← w.mem_givenUp h]
  by_cases hup : name ∈ w.givenUp (w.walked front) b
  · simp [hup]
  · rw [if_neg hup, or_iff_right hup]
    refine Table.contains_iff_mem_names.trans (State.mem_names_merge.trans ?_)
    constructor
    · rintro ⟨s, hs, hname⟩
      obtain ⟨p, hp, hlt, rfl⟩ := (w.mem_incoming h).1 hs
      exact ⟨p, hp, hlt, Table.contains_iff_mem_names.2 hname⟩
    · rintro ⟨p, hp, hlt, hname⟩
      exact ⟨_, (w.mem_incoming h).2 ⟨p, hp, hlt, rfl⟩, Table.contains_iff_mem_names.1 hname⟩

theorem visitAt?_eq_none (w : Walk k) {i : Nat} (hi : ¬ i < w.graph.size) : w.visitAt? i = none := by
  obtain ⟨later, hvisits, -, hindex⟩ := w.visits_split (List.nil_append w.graph.order).symm
  rw [visitAt?, hvisits]
  apply find?_index_eq_none
  show i ∉ later.map Visit.index
  rw [hindex, Graph.mem_order]
  exact hi

/-- Whether two walks come to the same statements from the same earlier predecessors, and the first one gives up at
least what the second one gives up. -/
structure Forgoes (w w' : Walk k) : Prop where
  size : w.graph.size = w'.graph.size
  block : ∀ {i : Nat} {b b' : Block}, w.graph.blocks[i]? = some b → w'.graph.blocks[i]? = some b' →
    b.statements = b'.statements ∧ sources b = sources b' ∧
      (∀ p ∈ sources b, w.graph.rank p.index < w.graph.rank i ↔ w'.graph.rank p.index < w'.graph.rank i) ∧
      ∀ name, w'.GivesUp i b' name → w.GivesUp i b name

/-- What one block keeps: it starts and ends vaguer if its earlier predecessors end vaguer. -/
theorem Forgoes.vaguer_step (h : w.Forgoes w') {i : Nat} {b : Block} (hb : w.graph.blocks[i]? = some b)
    (hearlier : ∀ p ∈ sources b, w.graph.rank p.index < w.graph.rank i →
      (w.endAt p.index).Vaguer (w'.endAt p.index)) :
    (w.startAt i).Vaguer (w'.startAt i) ∧ (w.endAt i).Vaguer (w'.endAt i) := by
  obtain ⟨b', hb'⟩ := Graph.exists_getElem? (h.size ▸ Graph.lt_size_of_getElem? hb)
  obtain ⟨hstatements, hsources, hrank, hup⟩ := h.block hb hb'
  have hstart : (w.startAt i).Vaguer (w'.startAt i) := by
    refine ⟨?_, ?_⟩
    · intro name c hget
      obtain ⟨hkept, ⟨p, hp, hlt⟩, hall⟩ := (w.startAt_resolved_iff hb).1 hget
      refine (w'.startAt_resolved_iff hb').2 ⟨fun hgiven => hkept (hup name hgiven), ⟨p, ?_, ?_⟩, ?_⟩
      · exact hsources ▸ hp
      · exact (hrank p hp).1 hlt
      · intro q hq hlt
        rw [← hsources] at hq
        have hlt := (hrank q hq).2 hlt
        exact (hearlier q hq hlt).constant (hall q hq hlt)
    · intro name hnamed
      rcases (w'.startAt_contains_iff hb').1 hnamed with hgiven | ⟨p, hp, hlt, hend⟩
      · exact (w.startAt_contains_iff hb).2 (Or.inl (hup name hgiven))
      · rw [← hsources] at hp
        have hlt := (hrank p hp).2 hlt
        exact (w.startAt_contains_iff hb).2 (Or.inr ⟨p, hp, hlt, (hearlier p hp hlt).named hend⟩)
  refine ⟨hstart, ?_⟩
  rw [w.endAt_eq hb, w'.endAt_eq hb', ← hstatements]
  exact hstart.run b.statements

/-- A walk that gives up more is vaguer at the start and at the end of every block. -/
theorem Forgoes.vaguer (h : w.Forgoes w') (i : Nat) :
    (w.startAt i).Vaguer (w'.startAt i) ∧ (w.endAt i).Vaguer (w'.endAt i) := by
  -- Strong induction on the place in the walking order of the first walk.
  generalize hn : w.graph.rank i = n
  induction n using Nat.strong_induction_on generalizing i with
  | _ n ih =>
      by_cases hi : i < w.graph.size
      · obtain ⟨b, hb⟩ := Graph.exists_getElem? hi
        exact h.vaguer_step hb fun p _ hlt => (ih (w.graph.rank p.index) (hn ▸ hlt) p.index rfl).2
      · have hi' : ¬ i < w'.graph.size := h.size ▸ hi
        simp only [startAt, endAt, w.visitAt?_eq_none hi, w'.visitAt?_eq_none hi']
        exact ⟨State.Vaguer.refl _, State.Vaguer.refl _⟩

end Walk

/-- Giving up what self-loops overwrite only ever degrades: at the start and at the end of every block, the walk that
does so holds no constant that the other walk does not hold, and names every variable that the other names. -/
theorem Graph.vaguer_of_invalidateSelfLoops (k : Kind) (settings : Settings) (g : Graph) (i : Nat) :
    ((Walk.of k { settings with invalidateSelfLoops := true } g).startAt i).Vaguer
        ((Walk.of k { settings with invalidateSelfLoops := false } g).startAt i) ∧
      ((Walk.of k { settings with invalidateSelfLoops := true } g).endAt i).Vaguer
        ((Walk.of k { settings with invalidateSelfLoops := false } g).endAt i) := by
  apply Walk.Forgoes.vaguer
  refine ⟨rfl, fun {i b b'} hb hb' => ?_⟩
  obtain rfl : b = b' := Option.some.inj (hb.symm.trans hb')
  refine ⟨rfl, rfl, fun _ _ => Iff.rfl, ?_⟩
  intro name hgiven
  -- Loop numbers and the variables of loops do not depend on the setting.
  have hloop : ∀ id, name ∈ (g.changes k { settings with invalidateSelfLoops := false } g.loops).loop id →
      name ∈ (g.changes k { settings with invalidateSelfLoops := true } g.loops).loop id := by
    intro id hname
    exact mem_changes_loop.2 (mem_changes_loop.1 hname)
  rcases hgiven with ⟨hreentered, hname⟩ | ⟨p, hp, hne, hother, hname⟩ | ⟨hsettings, -⟩
  · exact Or.inl ⟨hreentered, hloop _ hname⟩
  · exact Or.inr (Or.inl ⟨p, hp, hne, hother, hloop _ hname⟩)
  · cases hsettings

end ConstantFlow
