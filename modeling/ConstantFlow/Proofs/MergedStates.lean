import ConstantFlow.Proofs.Precision
import Mathlib.Order.Bounds.Basic

/-! Where several states meet. States are ordered by how much they know, and merging gives their greatest lower bound:
the state that knows most among those that know no more than each of the merged ones. So neither the order of the
states nor repeats leave a trace, and states may be merged group by group. -/

namespace ConstantFlow.State
variable {k : Kind} {states : List (State k)} {name : String}

/-- A state lies below another if it is vaguer. -/
instance : PartialOrder (State k) where
  le := Vaguer
  le_refl := Vaguer.refl
  le_trans _ _ _ hrs hst := ⟨fun h => hst.constant (hrs.constant h), fun h => hrs.named (hst.named h)⟩
  le_antisymm _ _ := Vaguer.antisymm

/-- Where states meet, a variable that one of them names is unresolved unless they all hold one constant. -/
theorem get?_merge_eq_unresolved_iff :
    (merge states).get? name = some .unresolved ↔
      (∃ s ∈ states, name ∈ s.names) ∧ ∀ c, ∃ s ∈ states, s.get? name ≠ some (.resolved c) := by
  rw [← mem_names_merge, Table.mem_names]
  constructor
  · intro h
    refine ⟨⟨_, h⟩, fun c => ?_⟩
    by_contra! hall
    obtain ⟨s, hs, -⟩ := mem_names_merge.1 (Table.mem_names.2 ⟨_, h⟩)
    have hconstant := get?_merge_eq_resolved_iff.2 ⟨List.ne_nil_of_mem hs, hall⟩
    rw [h] at hconstant
    cases hconstant
  · rintro ⟨⟨fact, hfact⟩, hdiffer⟩
    cases fact with
    | unresolved => exact hfact
    | resolved c =>
        obtain ⟨s, hs, hne⟩ := hdiffer c
        exact absurd ((get?_merge_eq_resolved_iff.1 hfact).2 s hs) hne

/-- The merged state is the greatest lower bound of the states. -/
theorem isGLB_merge (hne : states ≠ []) : IsGLB {s | s ∈ states} (merge states) := by
  refine ⟨?_, ?_⟩
  · intro s hs
    refine ⟨fun h => (get?_merge_eq_resolved_iff.1 h).2 s hs, fun h => ?_⟩
    rw [Table.contains_iff_mem_names] at h ⊢
    exact mem_names_merge.2 ⟨s, hs, h⟩
  · intro r hr
    refine ⟨fun h => get?_merge_eq_resolved_iff.2 ⟨hne, fun s hs => (hr hs).constant h⟩, fun h => ?_⟩
    obtain ⟨s, hs, hname⟩ := mem_names_merge.1 (Table.contains_iff_mem_names.1 h)
    exact (hr hs).named (Table.contains_iff_mem_names.2 hname)

theorem le_merge_iff (hne : states ≠ []) {r : State k} : r ≤ merge states ↔ ∀ s ∈ states, r ≤ s :=
  le_isGLB_iff (isGLB_merge hne)

/-- Merging states group by group comes to merging them all at once. -/
theorem merge_map_merge {groups : List (List (State k))} (hgroups : ∀ group ∈ groups, group ≠ [])
    (hne : groups ≠ []) : merge (groups.map merge) = merge groups.flatten := by
  have hflat : groups.flatten ≠ [] := by
    obtain ⟨group, hgroup⟩ := List.exists_mem_of_ne_nil groups hne
    exact fun hnil => hgroups group hgroup (List.flatten_eq_nil_iff.1 hnil group hgroup)
  apply eq_of_forall_le_iff
  intro r
  calc r ≤ merge (groups.map merge)
      ↔ ∀ group ∈ groups, r ≤ merge group := by
        rw [le_merge_iff (by simpa using hne), List.forall_mem_map]
    _ ↔ ∀ group ∈ groups, ∀ s ∈ group, r ≤ s :=
        forall₂_congr fun group hgroup => le_merge_iff (hgroups group hgroup)
    _ ↔ ∀ s ∈ groups.flatten, r ≤ s := List.forall_mem_flatten.symm
    _ ↔ r ≤ merge groups.flatten := (le_merge_iff hflat).symm

/-- Merging is the meet of states: it names what one of them names, a variable keeps the constant that all of them hold
and is unresolved otherwise, and the outcome depends neither on the order and number of the states nor on whether they
are merged at once or in groups. -/
theorem merge_isMeet (hne : states ≠ []) :
    (∀ name, name ∈ (merge states).names ↔ ∃ s ∈ states, name ∈ s.names) ∧
      (∀ name c, (merge states).get? name = some (.resolved c) ↔
        ∀ s ∈ states, s.get? name = some (.resolved c)) ∧
      (∀ name, (merge states).get? name = some .unresolved ↔
        (∃ s ∈ states, name ∈ s.names) ∧ ∀ c, ∃ s ∈ states, s.get? name ≠ some (.resolved c)) ∧
      IsGLB {s | s ∈ states} (merge states) ∧
      (∀ states' : List (State k), (∀ s, s ∈ states' ↔ s ∈ states) → merge states' = merge states) ∧
      (∀ s : State k, merge [s] = s) ∧
      ∀ groups : List (List (State k)), (∀ group ∈ groups, group ≠ []) →
        (∀ s, s ∈ groups.flatten ↔ s ∈ states) → merge (groups.map merge) = merge states := by
  refine ⟨fun _ => mem_names_merge, ?_, fun _ => get?_merge_eq_unresolved_iff, isGLB_merge hne,
    fun _ => merge_congr, merge_singleton, ?_⟩
  · intro name c
    rw [get?_merge_eq_resolved_iff]
    exact and_iff_right hne
  · intro groups hgroups hsame
    have hsome : groups ≠ [] := by
      rintro rfl
      obtain ⟨s, hs⟩ := List.exists_mem_of_ne_nil states hne
      exact absurd ((hsame s).2 hs) List.not_mem_nil
    rw [merge_map_merge hgroups hsome, merge_congr hsame]

/-- Three states that agree on one variable, while the second does not name the other. -/
def parting : List (State .integer) :=
  [Table.ofList [("n", .resolved 1), ("v", .resolved 2)], Table.ofList [("n", .resolved 1)],
    Table.ofList [("n", .resolved 1), ("v", .resolved 2)]]

/-- What the first two states leave is a variable that is named without a constant, and the third cannot restore it. -/
theorem merge_isMeet_parting :
    parting ≠ [] ∧ (merge parting).get? "n" = some (.resolved 1) ∧ (merge parting).get? "v" = some .unresolved ∧
      merge ([parting.take 2, parting.drop 2].map merge) = merge parting := by
  have hne : parting ≠ [] := List.cons_ne_nil _ _
  obtain ⟨-, hresolved, -, -, -, -, hgroups⟩ := merge_isMeet hne
  refine ⟨hne, (hresolved "n" 1).2 (by decide +kernel), by decide +kernel, hgroups _ (by decide) ?_⟩
  intro s
  simp

end ConstantFlow.State
