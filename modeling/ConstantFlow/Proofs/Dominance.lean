import ConstantFlow.Proofs.WalkingOrder
import Mathlib.Data.List.Chain

/-! Dominance, and the graphs in which it decides the walking order along edges. A position dominates another if
every path from the entry to the other comes through it. A graph is reducible if its edges to dominators are all that
closes cycles. The edges that go back in the walking order always include those to dominators; in a reducible graph
they are no others, so that the order in which successors are listed leaves no trace in the direction of an edge. -/

namespace ConstantFlow.Graph
variable {g : Graph} {d i j : Nat}

/-- Whether control can pass along a list of positions. -/
def IsPath (g : Graph) (path : List Nat) : Prop := path.IsChain fun a b => b ∈ g.targets a

/-- Whether every path from the entry to a position comes through another. -/
def Dominates (g : Graph) (d i : Nat) : Prop :=
  ∀ e path, g.entryIndex? = some e → g.IsPath (e :: path) →
    (e :: path).getLast (List.cons_ne_nil e path) = i → d ∈ e :: path

/-- Whether an edge leaves a position that the entry reaches for one that does not dominate it. -/
def Keeps (g : Graph) (i j : Nat) : Prop := g.Reachable i ∧ j ∈ g.targets i ∧ ¬ g.Dominates j i

/-- Whether the edges between positions that the entry reaches form no cycle once those to dominators are removed. -/
def Reducible (g : Graph) : Prop := ∀ i, ¬ Relation.TransGen g.Keeps i i

/-! ### Dominance as the lack of a detour -/

/-- The positions other than a given one that control can pass to. -/
def targetsBut (g : Graph) (d i : Nat) : List Nat := (g.targets i).filter (· ≠ d)

theorem mem_targetsBut : j ∈ g.targetsBut d i ↔ j ∈ g.targets i ∧ j ≠ d := by
  rw [targetsBut, List.mem_filter, decide_eq_true_eq]

/-- A position dominates another exactly if it is the entry, or the entry does not lead there around it. -/
theorem dominates_iff :
    g.Dominates d i ↔ ∀ e, g.entryIndex? = some e → e ≠ d → ¬ Leads (g.targetsBut d) e i := by
  constructor
  · intro h e he hne hlead
    obtain ⟨path, hpath, hlast⟩ := List.exists_isChain_cons_of_relationReflTransGen hlead
    have hclear : ∀ v ∈ e :: path, v ≠ d :=
      hpath.induction (· ≠ d) _ (fun _ _ hedge _ => (mem_targetsBut.1 hedge).2) fun _ => hne
    have hmem := h e path he (hpath.imp fun _ _ hedge => (mem_targetsBut.1 hedge).1) hlast
    exact hclear d hmem rfl
  · intro h e path he hpath hlast
    by_contra hclear
    have hne : ∀ v ∈ e :: path, v ≠ d := fun v hv heq => hclear (heq ▸ hv)
    have hdetour : (e :: path).IsChain fun a b => b ∈ g.targetsBut d a :=
      hpath.imp_of_mem_imp fun _ b _ hb hedge => mem_targetsBut.2 ⟨hedge, hne b hb⟩
    exact h e he (hne e List.mem_cons_self) (List.relationReflTransGen_of_exists_isChain_cons path hdetour hlast)

instance (g : Graph) (d i : Nat) : Decidable (g.Dominates d i) :=
  match he : g.entryIndex? with
  | none => isTrue (dominates_iff.2 (by simp [he]))
  | some e =>
    decidable_of_iff (e ≠ d → i ∉ (Traversal.visit (g.targetsBut d) g.size e ⟨[], []⟩).finished) (by
      have hlt : ∀ v, ∀ w ∈ g.targetsBut d v, w < g.size :=
        fun v w hw => lt_size_of_mem_targets (mem_targetsBut.1 hw).1
      rw [Traversal.mem_visit_empty hlt (entryIndex?_lt he), dominates_iff, he]
      simp)

/-! ### Dominance and the walking order -/

theorem rank_entry {e : Nat} (he : g.entryIndex? = some e) : g.rank e = 0 := by
  obtain ⟨below, hreached, -⟩ := reached_eq he
  rw [rank, order]
  simp [hreached]

/-- The tree of first visits leads to a position through positions that are walked before it. -/
theorem leads_targetsBut_of_rank_lt {e : Nat} (he : g.entryIndex? = some e) (hi : g.Reachable i)
    (hlt : g.rank i < g.rank d) : Leads (g.targetsBut d) e i := by
  generalize hn : g.rank i = n
  induction n using Nat.strong_induction_on generalizing i with
  | _ n ih =>
      by_cases hie : i = e
      · rw [hie]
        exact Leads.refl e
      · obtain ⟨p, hedge, hearlier, hp⟩ := exists_earlier_source he hi hie
        have hlead := ih (g.rank p) (by omega) hp (by omega) rfl
        apply hlead.tail
        refine mem_targetsBut.2 ⟨hedge, fun heq => ?_⟩
        rw [heq] at hlt
        omega

theorem Dominates.rank_le (h : g.Dominates d i) (hi : g.Reachable i) : g.rank d ≤ g.rank i := by
  by_contra hlt
  obtain ⟨e, he, -⟩ := id hi
  have hne : e ≠ d := by
    intro heq
    have := rank_entry (heq ▸ he)
    omega
  exact dominates_iff.1 h e he hne (leads_targetsBut_of_rank_lt he hi (by omega))

theorem keeps_of_leads_onward (h : Leads g.onward i j) (hi : g.Reachable i) :
    Relation.ReflTransGen g.Keeps i j := by
  induction h with
  | refl => exact Relation.ReflTransGen.refl
  | @tail v w hlead hnext ih =>
      obtain ⟨hedge, hlt⟩ := mem_onward.1 hnext
      have hv : g.Reachable v := hi.trans (Leads.mono (fun _ _ hw => (mem_onward.1 hw).1) hlead)
      refine ih.tail ⟨hv, hedge, fun hdom => ?_⟩
      have := hdom.rank_le hv
      omega

/-- A graph is reducible exactly if the edges that go back in the walking order all lead to dominators. -/
theorem reducible_iff :
    g.Reducible ↔ ∀ i j, g.Reachable i → j ∈ g.targets i → ¬ g.rank i < g.rank j → g.Dominates j i := by
  constructor
  · intro hred i j hi hedge hback
    by_contra hdom
    have hreturn := keeps_of_leads_onward (leads_onward_of_retreating hi hedge hback) (hi.trans (Leads.single hedge))
    exact hred i (Relation.TransGen.head' ⟨hi, hedge, hdom⟩ hreturn)
  · intro h i hcycle
    have hrank : ∀ v, Relation.TransGen g.Keeps i v → g.rank i < g.rank v := by
      intro v hv
      induction hv with
      | single hkeep =>
          by_contra hback
          exact hkeep.2.2 (h _ _ hkeep.1 hkeep.2.1 hback)
      | tail _ hkeep ih =>
          by_contra hback
          refine hkeep.2.2 (h _ _ hkeep.1 hkeep.2.1 fun hlt => ?_)
          omega
    exact Nat.lt_irrefl _ (hrank i hcycle)

instance (g : Graph) : Decidable g.Reducible :=
  decidable_of_iff (∀ i < g.size, ∀ j ∈ g.targets i, g.Reachable i → ¬ g.rank i < g.rank j → g.Dominates j i) (by
    rw [reducible_iff]
    constructor
    · intro h i j hi hedge hback
      exact h i hi.lt_size j hedge hi hback
    · intro h i _ j hedge hi hback
      exact h i j hi hedge hback)

/-- Which way an edge of a reducible graph goes in the walking order, without mention of that order. -/
theorem Reducible.rank_lt_iff (hred : g.Reducible) (hedge : j ∈ g.targets i) :
    g.rank i < g.rank j ↔ (g.Reachable i ∧ ¬ g.Dominates j i) ∨ (¬ g.Reachable j ∧ i < j) := by
  have hi := source_lt_size_of_mem_targets hedge
  have hj := lt_size_of_mem_targets hedge
  by_cases hireach : g.Reachable i
  · have hjreach : g.Reachable j := hireach.trans (Leads.single hedge)
    have hiff : ¬ g.rank i < g.rank j ↔ g.Dominates j i := by
      constructor
      · exact reducible_iff.1 hred i j hireach hedge
      · intro hdom
        have := hdom.rank_le hireach
        omega
    rw [← hiff]
    simp [hireach, hjreach]
  · by_cases hjreach : g.Reachable j
    · have := rank_lt_of_not_reachable hjreach hireach
      simp only [hireach, hjreach, false_and, not_true_eq_false, or_self, iff_false]
      omega
    · rw [rank_lt_iff_of_not_reachable hi hireach hj hjreach]
      simp [hireach, hjreach]

end ConstantFlow.Graph
