import ConstantFlow.Graph.Builder
import ConstantFlow.Proofs.WalkStates

/-! Ways into a loop, and the constants that a loop carries through unchanged. The walk sees a loop first at one
block; a constant that the loop leaves alone is the one that the ways into this block agree on. It agrees with the
ways into the other blocks of the loop if there are none, and otherwise only if those happen to agree too. -/

namespace ConstantFlow.Graph
variable {k : Kind} {settings : Settings} {g : Graph} {name : String} {h : Nat}

/-- Whether a position is a way into the loop of another: outside of it, reached from the entry, and with an edge
into it. -/
def WayInto (g : Graph) (h p : Nat) : Prop :=
  g.Reachable p ∧ ¬ g.Connected h p ∧ ∃ j ∈ g.targets p, g.Connected h j

instance (g : Graph) (h p : Nat) : Decidable (g.WayInto h p) := by
  unfold WayInto
  infer_instance

/-- Whether control comes to a position from outside of its loop. -/
def Entered (g : Graph) (i : Nat) : Prop :=
  g.entryIndex? = some i ∨ ∃ p < g.size, i ∈ g.targets p ∧ g.Reachable p ∧ ¬ g.Connected i p

instance (g : Graph) (i : Nat) : Decidable (g.Entered i) := by
  unfold Entered
  infer_instance

/-- Whether control comes into a loop at one of its positions only. -/
def OneWayIn (g : Graph) (h : Nat) : Prop :=
  ∀ i < g.size, ∀ j < g.size, g.Connected h i → g.Connected h j → g.Entered i → g.Entered j → i = j

set_option synthInstance.maxSize 512 in
instance (g : Graph) (h : Nat) : Decidable (g.OneWayIn h) := by
  unfold OneWayIn
  infer_instance

theorem WayInto.entered {p j : Nat} (hway : g.WayInto h p) (hedge : j ∈ g.targets p) (hj : g.Connected h j) :
    g.Entered j :=
  Or.inr ⟨p, hway.1.lt_size, hedge, hway.1, fun hconn => hway.2.1 (hj.trans hconn)⟩

/-- An edge into the first position of a loop comes from an earlier position exactly if it is a way into the loop. -/
theorem IsFirst.earlier_iff (hfirst : g.IsFirst h) (hreach : g.Reachable h) {p : Nat} (hedge : h ∈ g.targets p) :
    g.rank p < g.rank h ↔ g.WayInto h p := by
  constructor
  · intro hlt
    have hp : g.Reachable p := by
      by_contra hnot
      have := rank_lt_of_not_reachable hreach hnot
      omega
    refine ⟨hp, fun hconn => ?_, h, hedge, Linked.refl h⟩
    have := hfirst p hconn
    omega
  · rintro ⟨hp, hapart, -⟩
    exact rank_lt_of_not_reaches hp hedge fun hback => hapart ⟨hback, Leads.single hedge⟩

theorem IsFirst.entered (hfirst : g.IsFirst h) (hreach : g.Reachable h) : g.Entered h := by
  obtain ⟨e, he, -⟩ := id hreach
  by_cases hhe : h = e
  · exact Or.inl (hhe ▸ he)
  · obtain ⟨p, hedge, hlt, -⟩ := exists_earlier_source he hreach hhe
    exact ((hfirst.earlier_iff hreach hedge).1 hlt).entered hedge (Linked.refl h)

/-! ### Constants carried through a loop -/

/-- Whether all ways into a position end with one constant, and no loop left on the way overwrites it. -/
def EntersWith (k : Kind) (settings : Settings) (g : Graph) (h : Nat) (name : String) (c : k.Value) : Prop :=
  ¬ g.LeavesOverwriting k h name ∧ (∃ p, h ∈ g.targets p ∧ g.WayInto h p) ∧
    ∀ p, h ∈ g.targets p → g.WayInto h p →
      ((Walk.of k settings g).endAt p).get? name = some (.resolved c)

/-- Whether a constant that some block of a loop starts with holds at the end of every way into the loop. -/
def CarriedAgree (k : Kind) (settings : Settings) (g : Graph) (h : Nat) (name : String) : Prop :=
  ∀ i, g.Connected h i → ∀ c, ((Walk.of k settings g).startAt i).get? name = some (.resolved c) →
    ∀ p, g.WayInto h p → ((Walk.of k settings g).endAt p).get? name = some (.resolved c)

theorem LoopSpares.forfeits_iff (hspares : g.LoopSpares k h name) :
    g.Forfeits k settings h name ↔ g.LeavesOverwriting k h name := by
  constructor
  · rintro (⟨-, hloop⟩ | hleft | ⟨-, -, b, hb, hname⟩)
    · exact absurd hloop hspares.not_loopOverwrites
    · exact hleft
    · exact absurd hname (hspares h b (Linked.refl h) hb).1
  · intro hleft
    exact Or.inr (Or.inl hleft)

theorem LoopSpares.startAt_first_iff (hspares : g.LoopSpares k h name) (hg : g.Sound) (hsym : g.Symmetric)
    (hreach : g.Reachable h) (hfirst : g.IsFirst h) {c : k.Value} :
    ((Walk.of k settings g).startAt h).get? name = some (.resolved c) ↔ g.EntersWith k settings h name c := by
  rw [hg.startAt_resolved_iff hsym hreach.lt_size, hspares.forfeits_iff, EntersWith]
  refine and_congr_right fun _ => and_congr ?_ ?_
  · exact exists_congr fun p => and_congr_right fun hedge => hfirst.earlier_iff hreach hedge
  · exact forall_congr' fun p => forall_congr' fun hedge => imp_congr_left (hfirst.earlier_iff hreach hedge)

/-- A constant that a loop leaves alone agrees with every way into the loop exactly if, whenever the ways into the
block walked first agree on a constant, the ways into the other blocks agree on it too. This is so if the loop is
entered at one block only. -/
theorem carriedAgree_iff (hfault : g.fault? = none) (hsym : g.Symmetric) (hreach : g.Reachable h)
    (hfirst : g.IsFirst h) (hspares : g.LoopSpares k h name) :
    (g.CarriedAgree k settings h name ↔
      ∀ c, g.EntersWith k settings h name c → ∀ p, g.WayInto h p →
        ((Walk.of k settings g).endAt p).get? name = some (.resolved c)) ∧
    (g.OneWayIn h → g.CarriedAgree k settings h name) := by
  have hg := sound_of_fault? hfault
  have hiff : g.CarriedAgree k settings h name ↔
      ∀ c, g.EntersWith k settings h name c → ∀ p, g.WayInto h p →
        ((Walk.of k settings g).endAt p).get? name = some (.resolved c) := by
    constructor
    · intro hagree c hc
      exact hagree h (Linked.refl h) c ((hspares.startAt_first_iff hg hsym hreach hfirst).2 hc)
    · intro hways i hi c hres
      have hstart := hspares.startAt_first hg hsym (hreach.of_connected hi) hi hfirst hres
      exact hways c ((hspares.startAt_first_iff hg hsym hreach hfirst).1 hstart)
  refine ⟨hiff, fun hone => hiff.2 ?_⟩
  intro c hc p hway
  obtain ⟨j, hedge, hj⟩ := hway.2.2
  -- The block that the way leads to is the one walked first, as both are entered.
  have hjh : j = h := hone j (lt_size_of_mem_targets hedge) h hreach.lt_size hj (Linked.refl h)
    (hway.entered hedge hj) (hfirst.entered hreach)
  exact hc.2.2 p (hjh ▸ hedge) hway

/-- A loop of two blocks, each entered by a way of its own; the ways leave different constants. -/
def crossed : Graph := build "f"
  [.block [.other ⟨1, 1, 0⟩],
    .block [.assign ⟨"v", .integer⟩ (.int 5) ⟨2, 1, 0⟩],
    .block [.assign ⟨"v", .integer⟩ (.int 7) ⟨3, 1, 0⟩],
    .block [.call "use" [⟨.read ⟨"v", .integer⟩, ⟨4, 5, 0⟩, false⟩] ⟨4, 1, 0⟩ ⟨4, 7, 0⟩],
    .block [.call "use" [⟨.read ⟨"v", .integer⟩, ⟨5, 5, 0⟩, false⟩] ⟨5, 1, 0⟩ ⟨5, 7, 0⟩],
    .edge ⟨0⟩ ⟨1⟩, .edge ⟨0⟩ ⟨2⟩, .edge ⟨1⟩ ⟨3⟩, .edge ⟨2⟩ ⟨4⟩, .edge ⟨3⟩ ⟨4⟩, .edge ⟨4⟩ ⟨3⟩]

theorem carriedAgree_iff_crossed :
    (crossed.fault? = none ∧ crossed.Symmetric ∧ crossed.Reachable 3 ∧ crossed.IsFirst 3 ∧
      crossed.LoopSpares .integer 3 "v") ∧
    (crossed.CarriedAgree .integer {} 3 "v" ↔
      ∀ c, crossed.EntersWith .integer {} 3 "v" c → ∀ p, crossed.WayInto 3 p →
        ((Walk.of .integer {} crossed).endAt p).get? "v" = some (.resolved c)) :=
  ⟨by decide +kernel,
    (carriedAgree_iff (by decide +kernel) (by decide +kernel) (by decide +kernel) (by decide +kernel)
      (by decide +kernel)).1⟩

/-- One block of the loop of `crossed` starts with the constant of one way in, though the other way ends with
another constant. -/
theorem not_carriedAgree_crossed :
    crossed.fault? = none ∧ crossed.Symmetric ∧ crossed.Reachable 3 ∧ crossed.Connected 3 4 ∧
      crossed.LoopSpares .integer 3 "v" ∧
      ((Walk.of .integer {} crossed).startAt 3).get? "v" = some (.resolved 5) ∧
      crossed.WayInto 3 2 ∧ ((Walk.of .integer {} crossed).endAt 2).get? "v" = some (.resolved 7) ∧
      ¬ crossed.CarriedAgree .integer {} 3 "v" := by
  have hstart : ((Walk.of .integer {} crossed).startAt 3).get? "v" = some (.resolved 5) := by decide +kernel
  have hway : crossed.WayInto 3 2 := by decide +kernel
  have hend : ((Walk.of .integer {} crossed).endAt 2).get? "v" = some (.resolved 7) := by decide +kernel
  refine ⟨by decide +kernel, by decide +kernel, by decide +kernel, by decide +kernel, by decide +kernel, hstart,
    hway, hend, fun hagree => ?_⟩
  have hfive := hagree 3 (Linked.refl 3) 5 hstart 2 hway
  rw [hend] at hfive
  exact absurd hfive (by decide)

end ConstantFlow.Graph
