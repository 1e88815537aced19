import ConstantFlow.Proofs.Execution
import ConstantFlow.Proofs.LoopEntry

/-! Soundness of the walk: a constant that it knows at a point of a block is the value of the variable there, in every
execution. The walk goes over each block once, so an execution that comes back along an edge meets a start state that
was made without it. Two facts carry the induction over executions: the start state holds, and a constant with which a
loop was first entered still holds wherever the loop leaves its variable alone. -/

namespace ConstantFlow.Graph
variable {k : Kind} {settings : Settings} {g : Graph} {name : String} {c : k.Value}

def settable (g : Graph) : List Variable := g.blocks.flatMap fun b => b.statements.flatMap Statement.settable

/-- What soundness asks of a function: each name has one type, tracked variables are declared with constants and
outside of loops, and each loop is entered at one block. -/
structure WellBehaved (k : Kind) (g : Graph) : Prop where
  one_type : ∀ u ∈ g.settable, ∀ v ∈ g.settable, u.name = v.name → u.type = v.type
  folds : ∀ b ∈ g.blocks, ∀ st ∈ b.statements, st.initializes k = true → st.initialFolds k = true
  outside : ∀ b ∈ g.blocks, (∃ st ∈ b.statements, st.initializes k = true) →
    b.id.index ∉ g.targets b.id.index ∧ ∀ j < g.size, g.Connected b.id.index j → j = b.id.index
  one_way : ∀ h < g.size, g.OneWayIn h

theorem mem_settable {b : Block} (hb : b ∈ g.blocks) {st : Statement} (hst : st ∈ b.statements) {v : Variable}
    (hv : v ∈ st.settable) : v ∈ g.settable :=
  List.mem_flatMap.2 ⟨b, hb, List.mem_flatMap.2 ⟨st, hst, hv⟩⟩

theorem WellBehaved.disciplined (hw : g.WellBehaved k) {b : Block} (hb : b ∈ g.blocks) {statements : List Statement}
    (hsub : ∀ st ∈ statements, st ∈ b.statements) : Disciplined k g.settable statements :=
  ⟨hw.one_type, fun st hst _ hv => mem_settable hb (hsub st hst) hv, fun st hst => hw.folds b hb st (hsub st hst)⟩

/-- A block that declares no tracked variable leaves alone what it does not overwrite. -/
theorem WellBehaved.spares (hw : g.WellBehaved k) {b : Block} (hb : b ∈ g.blocks)
    (hnone : ¬ ∃ st ∈ b.statements, st.initializes k = true) (hname : TrackedName k g.settable name)
    (hnot : name ∉ overwritten k b.statements) : Spares k name b.statements := by
  refine ⟨hnot, fun st hst heq => hnone ⟨st, hst, ?_⟩⟩
  obtain ⟨v, hv, rfl⟩ := Option.map_eq_some_iff.1 heq
  have hset := Statement.mem_settable_of_initialized hv
  obtain ⟨u, hu, huname, hutracks⟩ := hname
  rw [Statement.initializes, hv, Option.any_some, hw.one_type v (mem_settable hb hst hset) u hu huname.symm]
  exact hutracks

theorem WellBehaved.loopSpares (hw : g.WellBehaved k) (hg : g.Sound) {i j : Nat} (hij : j ≠ i)
    (hconn : g.Connected i j) (hname : TrackedName k g.settable name) (hnot : ¬ g.LoopOverwrites k i name) :
    g.LoopSpares k i name := by
  intro q b hq hb
  have hbmem := List.mem_of_getElem? hb
  refine hw.spares hbmem (fun hinit => ?_) hname fun hmem => hnot ⟨q, b, hq, hb, hmem⟩
  -- A declaring block is connected with no other, but both `i` and `j` are connected with this one.
  have halone := (hw.outside b hbmem hinit).2
  rw [hg.placed hb] at halone
  have hqsize := lt_size_of_getElem? hb
  have hqi : g.Connected q i := hq.symm
  have hqj : g.Connected q j := hqi.trans hconn
  have hi := halone i (hqi.lt_size hqsize) hqi
  have hj := halone j (hqj.lt_size hqsize) hqj
  exact hij (hj.trans hi.symm)

/-! ### Tracked names -/

theorem Sound.startAt_trackedIn (hg : g.Sound) (hsym : g.Symmetric) (hw : g.WellBehaved k) {i : Nat} (hi : i < g.size) :
    State.TrackedIn ((Walk.of k settings g).startAt i) g.settable := by
  generalize hn : g.rank i = n
  induction n using Nat.strong_induction_on generalizing i with
  | _ n ih =>
      intro name c hres
      obtain ⟨-, ⟨p, hedge, hlt⟩, hall⟩ := (hg.startAt_resolved_iff hsym hi).1 hres
      have hp := source_lt_size_of_mem_targets hedge
      obtain ⟨b, hb⟩ := exists_getElem? hp
      have hend := hall p hedge hlt
      rw [Walk.endAt_eq _ hb] at hend
      have htracked := ih (g.rank p) (hn ▸ hlt) hp rfl
      exact htracked.run (hw.disciplined (List.mem_of_getElem? hb) fun _ h => h) name c hend

/-! ### The invariant of executions -/

/-- What holds of every execution that comes to a position. -/
structure Invariant (k : Kind) (settings : Settings) (g : Graph) (i : Nat) (σ : Store k) : Prop where
  holds : State.Holds ((Walk.of k settings g).startAt i) σ
  carried : ∀ h, g.Connected h i → g.IsFirst h → ∀ name c, g.LoopSpares k h name →
    ((Walk.of k settings g).startAt h).get? name = some (.resolved c) → σ name = c

theorem Sound.not_resolved_entry (hg : g.Sound) (hsym : g.Symmetric) {e : Nat} (he : g.entryIndex? = some e) :
    ((Walk.of k settings g).startAt e).get? name ≠ some (.resolved c) := by
  intro hres
  obtain ⟨-, ⟨p, -, hlt⟩, -⟩ := (hg.startAt_resolved_iff hsym (entryIndex?_lt he)).1 hres
  obtain ⟨below, hreached, -⟩ := reached_eq he
  have hsplit : g.reached = [] ++ e :: below := hreached
  exact absurd ((reached_rank_lt_iff_mem hsplit p).1 hlt) List.not_mem_nil

theorem WellBehaved.invariant_entry (hw : g.WellBehaved k) (hg : g.Sound) (hsym : g.Symmetric) {e : Nat}
    (he : g.entryIndex? = some e) (σ : Store k) : g.Invariant k settings e σ := by
  have hreach : g.Reachable e := ⟨e, he, Leads.refl e⟩
  refine ⟨fun name c hres => absurd hres (hg.not_resolved_entry hsym he), ?_⟩
  intro h hconn hfirst name c _ hres
  have hh : g.Reachable h := hreach.of_connected hconn.symm
  have heq : h = e := hw.one_way e hreach.lt_size h hh.lt_size e hreach.lt_size hconn.symm (Linked.refl e)
    (hfirst.entered hh) (Or.inl he)
  rw [heq] at hres
  exact absurd hres (hg.not_resolved_entry hsym he)

section Edge
variable {i j : Nat} {b : Block} {σ τ : Store k}

/-- The start state of a block holds after each edge into it. -/
theorem WellBehaved.holds_edge (hw : g.WellBehaved k) (hg : g.Sound) (hsym : g.Symmetric)
    (hself : settings.invalidateSelfLoops = true) (hi : g.Reachable i) (hinv : g.Invariant k settings i σ)
    (hb : g.blocks[i]? = some b) (hruns : Runs k b.statements σ τ) (hedge : j ∈ g.targets i) :
    State.Holds ((Walk.of k settings g).startAt j) τ := by
  intro name c hres
  have hbmem := List.mem_of_getElem? hb
  have hd : Disciplined k g.settable b.statements := hw.disciplined hbmem fun _ h => h
  have hj : g.Reachable j := hi.trans (Leads.single hedge)
  have hname := hg.startAt_trackedIn hsym hw hj.lt_size name c hres
  obtain ⟨hkept, -, hall⟩ := (hg.startAt_resolved_iff hsym hj.lt_size).1 hres
  by_cases hlt : g.rank i < g.rank j
  · -- The edge was counted where states met.
    have hend := hall i hedge hlt
    rw [Walk.endAt_eq _ hb] at hend
    exact hinv.holds.run hd (hg.startAt_trackedIn hsym hw hi.lt_size) hruns name c hend
  · by_cases hij : i = j
    · -- The block branches to itself, and what it overwrites was given up.
      subst hij
      have hnot : name ∉ overwritten k b.statements := fun hmem =>
        hkept (Or.inr (Or.inr ⟨hself, hedge, b, hb, hmem⟩))
      have hnone : ¬ ∃ st ∈ b.statements, st.initializes k = true := fun hinit =>
        (hw.outside b hbmem hinit).1 (by rw [hg.placed hb]; exact hedge)
      rw [(hw.spares hbmem hnone hname hnot).value_eq hd hname hruns]
      exact hinv.holds name c hres
    · -- Control comes back inside a loop, and what the loop overwrites was given up.
      have hconn : g.Connected j i := ⟨reaches_of_retreating hi hedge hlt, Leads.single hedge⟩
      have hnot : ¬ g.LoopOverwrites k j name := fun hmem =>
        hkept (Or.inl ⟨⟨i, hij, hedge, hlt, hconn.symm⟩, hmem⟩)
      have hspares := hw.loopSpares hg hij hconn hname hnot
      obtain ⟨h, hjh, hfirst⟩ := g.exists_first j
      have hstart := (hspares.of_connected hjh).startAt_first hg hsym hj hjh.symm hfirst hres
      rw [(hspares i b hconn hb).value_eq hd hname hruns]
      exact hinv.carried h (hjh.symm.trans hconn) hfirst name c (hspares.of_connected hjh) hstart

theorem WellBehaved.invariant_edge (hw : g.WellBehaved k) (hg : g.Sound) (hsym : g.Symmetric)
    (hself : settings.invalidateSelfLoops = true) (hi : g.Reachable i) (hinv : g.Invariant k settings i σ)
    (hb : g.blocks[i]? = some b) (hruns : Runs k b.statements σ τ) (hedge : j ∈ g.targets i) :
    g.Invariant k settings j τ := by
  have hholds := hw.holds_edge hg hsym hself hi hinv hb hruns hedge
  refine ⟨hholds, ?_⟩
  intro h hconn hfirst name c hspares hres
  have hj : g.Reachable j := hi.trans (Leads.single hedge)
  have hh : g.Reachable h := hj.of_connected hconn.symm
  by_cases hhi : g.Connected h i
  · have hd : Disciplined k g.settable b.statements := hw.disciplined (List.mem_of_getElem? hb) fun _ h => h
    have hname := hg.startAt_trackedIn hsym hw hh.lt_size name c hres
    rw [(hspares i b hhi hb).value_eq hd hname hruns]
    exact hinv.carried h hhi hfirst name c hspares hres
  · -- The loop is entered here, so this is the block of it that is walked first.
    have hentered : g.Entered j := Or.inr ⟨i, hi.lt_size, hedge, hi, fun hji => hhi (hconn.trans hji)⟩
    have heq : h = j := hw.one_way h hh.lt_size h hh.lt_size j hj.lt_size (Linked.refl h) hconn
      (hfirst.entered hh) hentered
    rw [heq] at hres
    exact hholds name c hres

end Edge

theorem WellBehaved.invariant_of_arrives (hw : g.WellBehaved k) (hg : g.Sound) (hsym : g.Symmetric)
    (hself : settings.invalidateSelfLoops = true) {i : Nat} {σ : Store k} (harrives : g.Arrives k i σ) :
    g.Invariant k settings i σ := by
  induction harrives with
  | entry he => exact hw.invariant_entry hg hsym he _
  | edge harrives hb hruns hedge ih => exact hw.invariant_edge hg hsym hself harrives.reachable ih hb hruns hedge

/-- Wherever an execution stands inside a block, a constant of the state there is the value of the variable. -/
theorem value_eq_of_resolved (hself : settings.invalidateSelfLoops = true) (hfault : g.fault? = none)
    (hsym : g.Symmetric) (hw : g.WellBehaved k) {i : Nat} {σ : Store k} (harrives : g.Arrives k i σ) {b : Block}
    (hb : g.blocks[i]? = some b) {before after : List Statement} (hsplit : b.statements = before ++ after)
    {τ : Store k} (hruns : Runs k before σ τ)
    (hres : (((Walk.of k settings g).startAt i).run before).get? name = some (.resolved c)) : τ name = c := by
  have hg := sound_of_fault? hfault
  have hinv := hw.invariant_of_arrives hg hsym hself harrives
  have hd : Disciplined k g.settable before := hw.disciplined (List.mem_of_getElem? hb) fun st hst => by
    rw [hsplit]
    exact List.mem_append_left _ hst
  exact hinv.holds.run hd (hg.startAt_trackedIn hsym hw harrives.reachable.lt_size) hruns name c hres

/-- A loop that changes `v` and leaves `n` alone. -/
def counting : Graph := build "f"
  [.block [.declare ⟨"n", .integer⟩ (some (.int 3)) ⟨1, 1, 0⟩, .assign ⟨"v", .integer⟩ (.int 5) ⟨2, 1, 0⟩],
    .block [.combine ⟨"v", .integer⟩ .add (.int 1) ⟨3, 1, 0⟩],
    .block [.call "set" [⟨.address ⟨"v", .integer⟩, ⟨4, 5, 0⟩, false⟩] ⟨4, 1, 0⟩ ⟨4, 7, 0⟩],
    .edge ⟨0⟩ ⟨1⟩, .edge ⟨1⟩ ⟨2⟩, .edge ⟨2⟩ ⟨1⟩]

def storing (n v : Int64) : Store .integer := fun name => if name = "n" then n else if name = "v" then v else 0

theorem counting_arrives : counting.Arrives .integer 1 (storing 3 9) := by
  have hfirst : Runs .integer
      [.declare ⟨"n", .integer⟩ (some (.int 3)) ⟨1, 1, 0⟩, .assign ⟨"v", .integer⟩ (.int 5) ⟨2, 1, 0⟩]
      (storing 0 0) (storing 3 5) := by
    refine ⟨storing 3 0, ⟨?_, ?_⟩, storing 3 5, ⟨?_, ?_⟩, rfl⟩ <;> simp +contextual [Store.Changes, storing]
  have hadd : Runs .integer [.combine ⟨"v", .integer⟩ .add (.int 1) ⟨3, 1, 0⟩] (storing 3 5) (storing 3 6) := by
    refine ⟨storing 3 6, ⟨?_, ?_⟩, rfl⟩
    · simp +contextual [Store.Changes, storing]
    · intro c hc _
      exact Option.some.inj (Eq.trans (by decide +kernel) hc)
  have hset : Runs .integer [.call "set" [⟨.address ⟨"v", .integer⟩, ⟨4, 5, 0⟩, false⟩] ⟨4, 1, 0⟩ ⟨4, 7, 0⟩]
      (storing 3 6) (storing 3 9) := by
    refine ⟨storing 3 9, ?_, rfl⟩
    intro name hname
    have hne : name ≠ "v" := by
      rintro rfl
      exact hname (by decide)
    simp [storing, hne]
  have hzero : counting.Arrives .integer 0 (storing 0 0) := .entry (by decide +kernel)
  have hone : counting.Arrives .integer 1 (storing 3 5) := hzero.edge rfl hfirst (by decide +kernel)
  have htwo : counting.Arrives .integer 2 (storing 3 6) := hone.edge rfl hadd (by decide +kernel)
  exact htwo.edge rfl hset (by decide +kernel)

/-- Once around the loop of `counting`, `n` has the constant that the walk knows. -/
theorem value_eq_of_resolved_counting :
    (counting.fault? = none ∧ counting.Symmetric ∧ counting.WellBehaved .integer) ∧
      counting.Arrives .integer 1 (storing 3 9) ∧
      ((Walk.of .integer {} counting).startAt 1).get? "n" = some (.resolved 3) ∧ storing 3 9 "n" = 3 := by
  have hfault : counting.fault? = none := by decide +kernel
  have hsym : counting.Symmetric := by decide +kernel
  have hw : counting.WellBehaved .integer :=
    ⟨by decide +kernel, by decide +kernel, by decide +kernel, by decide +kernel⟩
  have hres : ((Walk.of .integer {} counting).startAt 1).get? "n" = some (.resolved 3) := by decide +kernel
  exact ⟨⟨hfault, hsym, hw⟩, counting_arrives, hres,
    value_eq_of_resolved rfl hfault hsym hw counting_arrives rfl (List.nil_append _).symm rfl hres⟩

end ConstantFlow.Graph
