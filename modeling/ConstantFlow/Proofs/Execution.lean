import ConstantFlow.Proofs.BlockStates
import ConstantFlow.Proofs.Reachability

/-! Execution of statements and graphs on stores. A right-hand side that folds stores its constant; any other one may
change the variables whose address it hands to a call, and then its target, in any way. A state describes a store if
its constants are the values there. Running statements in step on a state and on a store keeps the one describing the
other, provided that every name has one type and that tracked variables are declared with constants. -/

namespace ConstantFlow

/-- The values of all variables. -/
abbrev Store (k : Kind) := String → k.Value

namespace Store
variable {k : Kind}

/-- Whether one store comes out of another by changing the named variables at most. -/
def Changes (σ τ : Store k) (names : List String) : Prop := ∀ name, name ∉ names → τ name = σ name

/-- Whether one store comes out of another by setting a variable: to the given value if the variable is tracked, and
to any value if none is given. -/
def Sets (σ τ : Store k) (target : Variable) (value : Option k.Value) : Prop :=
  σ.Changes τ [target.name] ∧ ∀ c, value = some c → k.tracks target.type = true → τ target.name = c

end Store

namespace Statement
variable {k : Kind} {st : Statement} {σ τ : Store k}

/-- Whether executing a statement on one store may leave another. -/
def Executes (k : Kind) (σ τ : Store k) : Statement → Prop
  | .declare _ none _ | .other _ => τ = σ
  | .declare target (some e) _ | .assign target e _ =>
    match k.fold e with
    | some c => σ.Sets τ target (some c)
    | none => σ.Changes τ (target.name :: e.escaping.map Variable.name)
  | .combine target op e _ =>
    match k.fold e with
    | some operand => σ.Sets τ target (k.combine op (σ target.name) operand)
    | none => σ.Changes τ (target.name :: e.escaping.map Variable.name)
  | .call _ arguments _ _ => σ.Changes τ ((arguments.flatMap Argument.writable).map Variable.name)

def settable : Statement → List Variable
  | .declare target (some e) _ | .assign target e _ | .combine target _ e _ => target :: e.escaping
  | .call _ arguments _ _ => arguments.flatMap Argument.writable
  | _ => []

/-- Whether a statement gives a tracked variable its initial value. -/
def initializes (k : Kind) (st : Statement) : Bool := st.initialized?.any fun v => k.tracks v.type

/-- Whether the initial value of a declaration, if it has one, is a constant. -/
def initialFolds (k : Kind) : Statement → Bool
  | .declare _ (some e) _ => (k.fold e).isSome
  | _ => true

theorem Executes.changes_settable (h : st.Executes k σ τ) : σ.Changes τ (st.settable.map Variable.name) := by
  have htarget : ∀ {target : Variable} {rest : List Variable} {value : Option k.Value}, σ.Sets τ target value →
      σ.Changes τ ((target :: rest).map Variable.name) := by
    intro target rest value hsets name hname
    rw [List.map_cons, List.mem_cons, not_or] at hname
    exact hsets.1 name (by simpa using hname.1)
  cases st with
  | declare target initial l =>
      cases initial with
      | none => exact fun name _ => congrFun h name
      | some e =>
          simp only [Executes] at h
          split at h
          · exact htarget h
          · exact h
  | assign target e l =>
      simp only [Executes] at h
      split at h
      · exact htarget h
      · exact h
  | combine target op e l =>
      simp only [Executes] at h
      split at h
      · exact htarget h
      · exact h
  | call callee arguments l finish => exact h
  | other l => exact fun name _ => congrFun h name

theorem mem_settable_of_initialized {v : Variable} (hv : st.initialized? = some v) : v ∈ st.settable := by
  cases st with
  | declare target initial l =>
      cases initial with
      | none => cases hv
      | some e =>
          obtain rfl := Option.some.inj hv
          exact List.mem_cons_self
  | assign target e l => cases hv
  | combine target op e l => cases hv
  | call callee arguments l finish => cases hv
  | other l => cases hv

theorem mem_settable_of_lost {v : Variable} (hv : v ∈ st.lost k) :
    v ∈ st.settable ∧ k.tracks v.type = true := by
  have hescaping : ∀ {target : Variable} {e : Expr},
      v ∈ (e.escaping.filter fun v => k.tracks v.type && v.name ≠ target.name) →
        v ∈ target :: e.escaping ∧ k.tracks v.type = true := by
    intro target e hmem
    rw [List.mem_filter, Bool.and_eq_true] at hmem
    exact ⟨List.mem_cons_of_mem _ hmem.1, hmem.2.1⟩
  cases st with
  | declare target initial l =>
      cases initial with
      | none => cases hv
      | some e => exact hescaping hv
  | assign target e l => exact hescaping hv
  | combine target op e l => exact hescaping hv
  | call callee arguments l finish => exact List.mem_filter.1 hv
  | other l => cases hv

theorem exists_settable_of_update {s : State k} {u : Update k} (hu : u ∈ st.updates k s) :
    ∃ v ∈ st.settable, v.name = u.name ∧ k.tracks v.type = true := by
  rcases mem_updates.1 hu with ⟨v, hv, rfl⟩ | hwritten
  · obtain ⟨hset, htracks⟩ := mem_settable_of_lost hv
    exact ⟨v, hset, rfl, htracks⟩
  · obtain ⟨_, _, _, _, rfl, htracks, -, rfl⟩ | ⟨_, _, _, rfl, htracks, rfl⟩ | ⟨_, _, _, _, rfl, htracks, rfl⟩ :=
      written_cases hwritten <;> exact ⟨_, List.mem_cons_self, rfl, htracks⟩

/-- A tracked variable that a statement may set is updated by it, if the statement names it with one type and does
not declare it with an unknown value. -/
theorem exists_update_of_settable {v : Variable} (s : State k) (hv : v ∈ st.settable)
    (htracks : k.tracks v.type = true) (htype : ∀ u ∈ st.settable, u.name = v.name → u.type = v.type)
    (hfolds : st.initializes k = true → st.initialFolds k = true) : ∃ u ∈ st.updates k s, u.name = v.name := by
  -- Either the statement sets a variable of this name, or the variable escapes under a name of its own.
  have htarget : ∀ {target : Variable} {e : Expr}, st.settable = target :: e.escaping →
      st.lost k = (e.escaping.filter fun v => k.tracks v.type && v.name ≠ target.name) →
      (k.tracks target.type = true → ∃ u, st.written k s = some u ∧ u.name = target.name) →
      ∃ u ∈ st.updates k s, u.name = v.name := by
    intro target e hsettable hlost hwritten
    by_cases hname : target.name = v.name
    · have hsame : target.type = v.type := htype target (by rw [hsettable]; exact List.mem_cons_self) hname
      obtain ⟨u, hu, huname⟩ := hwritten (by rw [hsame]; exact htracks)
      exact ⟨u, mem_updates.2 (Or.inr hu), huname.trans hname⟩
    · rw [hsettable, List.mem_cons] at hv
      have hescapes := hv.resolve_left fun heq => hname (by rw [heq])
      have hmem : v ∈ st.lost k := by
        rw [hlost, List.mem_filter, htracks]
        exact ⟨hescapes, by simpa using fun heq => hname heq.symm⟩
      exact ⟨loses st.updateLocation v, mem_updates.2 (Or.inl ⟨v, hmem, rfl⟩), rfl⟩
  cases st with
  | declare target initial l =>
      cases initial with
      | none => cases hv
      | some e =>
          refine htarget rfl rfl fun ht => ?_
          obtain ⟨value, hvalue⟩ := Option.isSome_iff_exists.1 (hfolds ht)
          exact ⟨⟨target.name, .resolved value, l, true⟩, by simp [written, ht, hvalue], rfl⟩
  | assign target e l => exact htarget rfl rfl fun ht => ⟨_, if_pos ht, rfl⟩
  | combine target op e l => exact htarget rfl rfl fun ht => ⟨_, if_pos ht, rfl⟩
  | call callee arguments l finish =>
      exact ⟨loses finish v, mem_updates.2 (Or.inl ⟨v, List.mem_filter.2 ⟨hv, htracks⟩, rfl⟩), rfl⟩
  | other l => cases hv

/-- Where a statement leaves its target with a constant, every execution stores that constant. -/
theorem Executes.written_resolved (h : st.Executes k σ τ) {s : State k} {u : Update k} {c : k.Value}
    (hholds : ∀ name c, s.get? name = some (.resolved c) → σ name = c) (hu : st.written k s = some u)
    (hfact : u.fact = .resolved c) : τ u.name = c := by
  obtain ⟨target, e, l, value, rfl, htracks, hfold, rfl⟩ | ⟨target, e, l, rfl, htracks, rfl⟩ |
    ⟨target, op, e, l, rfl, htracks, rfl⟩ := written_cases hu
  · simp only [Executes, hfold] at h
    exact h.2 c (congrArg some (Fact.resolved.inj hfact)) htracks
  · cases hfold : k.fold e with
    | none => simp [hfold, Fact.ofOption] at hfact
    | some value =>
        simp only [Executes, hfold] at h
        simp only [hfold, Fact.ofOption] at hfact
        exact h.2 c (congrArg some (Fact.resolved.inj hfact)) htracks
  · cases hcombined : combined k s target op e with
    | none => simp [hcombined, Fact.ofOption] at hfact
    | some value =>
        simp only [hcombined, Fact.ofOption, Fact.resolved.injEq] at hfact
        obtain ⟨current, operand, hcurrent, hoperand, hvalue⟩ := combined_eq_some hcombined
        simp only [Executes, hoperand, hholds _ _ hcurrent, hvalue] at h
        exact h.2 c (congrArg some hfact) htracks

end Statement

/-! ### Runs of statements -/

/-- Whether executing statements in turn on one store may leave another. -/
def Runs (k : Kind) : List Statement → Store k → Store k → Prop
  | [], σ, τ => τ = σ
  | st :: rest, σ, τ => ∃ μ, st.Executes k σ μ ∧ Runs k rest μ τ

/-- Whether the constants of a state are the values of a store. -/
def State.Holds {k : Kind} (s : State k) (σ : Store k) : Prop :=
  ∀ name c, s.get? name = some (.resolved c) → σ name = c

/-- Whether a name belongs to a tracked variable of a list. -/
def TrackedName (k : Kind) (vs : List Variable) (name : String) : Prop :=
  ∃ v ∈ vs, v.name = name ∧ k.tracks v.type = true

/-- Whether the constants of a state belong to tracked variables of a list. -/
def State.TrackedIn {k : Kind} (s : State k) (vs : List Variable) : Prop :=
  ∀ name c, s.get? name = some (.resolved c) → TrackedName k vs name

/-- Statements that set variables of a list only, each name with one type, and that declare tracked variables with
constants only. -/
structure Disciplined (k : Kind) (vs : List Variable) (statements : List Statement) : Prop where
  one_type : ∀ u ∈ vs, ∀ v ∈ vs, u.name = v.name → u.type = v.type
  settable : ∀ st ∈ statements, ∀ v ∈ st.settable, v ∈ vs
  folds : ∀ st ∈ statements, st.initializes k = true → st.initialFolds k = true

section Run
variable {k : Kind} {vs : List Variable} {statements : List Statement} {s : State k} {σ τ : Store k}

/-- A statement that does not update a tracked variable does not change its value. -/
theorem Disciplined.value_eq (hd : Disciplined k vs statements) {st : Statement} (hst : st ∈ statements)
    {name : String} (hname : TrackedName k vs name) (hnone : ∀ u ∈ st.updates k s, u.name ≠ name)
    (hexec : st.Executes k σ τ) : τ name = σ name := by
  apply hexec.changes_settable name
  intro hmem
  obtain ⟨v, hv, rfl⟩ := List.mem_map.1 hmem
  obtain ⟨w, hw, hwname, hwtracks⟩ := hname
  have hvtracks : k.tracks v.type = true := by
    rw [hd.one_type v (hd.settable st hst v hv) w hw hwname.symm]
    exact hwtracks
  have htype : ∀ u ∈ st.settable, u.name = v.name → u.type = v.type := fun u hu =>
    hd.one_type u (hd.settable st hst u hu) v (hd.settable st hst v hv)
  obtain ⟨u, hu, huname⟩ := Statement.exists_update_of_settable s hv hvtracks htype (hd.folds st hst)
  exact hnone u hu huname

theorem State.TrackedIn.step (hd : Disciplined k vs statements) {st : Statement} (hst : st ∈ statements)
    (htracked : s.TrackedIn vs) : State.TrackedIn (s.apply (st.updates k s)) vs := by
  intro name c hres
  by_cases hupdate : ∃ u ∈ st.updates k s, u.name = name
  · obtain ⟨u, hu, rfl⟩ := hupdate
    obtain ⟨v, hv, hvname, htracks⟩ := Statement.exists_settable_of_update hu
    exact ⟨v, hd.settable st hst v hv, hvname, htracks⟩
  · rw [State.get?_apply_of_ne s fun u hu heq => hupdate ⟨u, hu, heq⟩] at hres
    exact htracked name c hres

/-- Executing a statement keeps a state true of the store. -/
theorem State.Holds.step (hd : Disciplined k vs statements) {st : Statement} (hst : st ∈ statements)
    (htracked : s.TrackedIn vs) (hholds : s.Holds σ) (hexec : st.Executes k σ τ) :
    State.Holds (s.apply (st.updates k s)) τ := by
  intro name c hres
  by_cases hupdate : ∃ u ∈ st.updates k s, u.name = name
  · obtain ⟨u, hu, rfl⟩ := hupdate
    rw [Statement.get?_apply_updates_of_mem hu, Option.some.injEq] at hres
    rcases Statement.mem_updates.1 hu with ⟨v, -, rfl⟩ | hwritten
    · cases hres
    · exact hexec.written_resolved hholds hwritten hres
  · have hnone : ∀ u ∈ st.updates k s, u.name ≠ name := fun u hu heq => hupdate ⟨u, hu, heq⟩
    rw [State.get?_apply_of_ne s hnone] at hres
    rw [hd.value_eq hst (htracked name c hres) hnone hexec]
    exact hholds name c hres

theorem Disciplined.tail {st : Statement} {rest : List Statement} (hd : Disciplined k vs (st :: rest)) :
    Disciplined k vs rest :=
  ⟨hd.one_type, fun st' h => hd.settable st' (List.mem_cons_of_mem _ h),
    fun st' h => hd.folds st' (List.mem_cons_of_mem _ h)⟩

theorem State.TrackedIn.run (hd : Disciplined k vs statements) (htracked : s.TrackedIn vs) :
    State.TrackedIn (s.run statements) vs := by
  induction statements generalizing s with
  | nil => exact htracked
  | cons st rest ih =>
      rw [State.run_cons]
      exact ih hd.tail (htracked.step hd List.mem_cons_self)

/-- Running statements keeps a state true of the store. -/
theorem State.Holds.run (hd : Disciplined k vs statements) (htracked : s.TrackedIn vs) (hholds : s.Holds σ)
    (hruns : Runs k statements σ τ) : State.Holds (s.run statements) τ := by
  induction statements generalizing s σ with
  | nil =>
      obtain rfl : τ = σ := hruns
      exact hholds
  | cons st rest ih =>
      obtain ⟨μ, hexec, hrest⟩ := hruns
      rw [State.run_cons]
      exact ih hd.tail (htracked.step hd List.mem_cons_self)
        (hholds.step hd List.mem_cons_self htracked hexec) hrest

/-- Statements that leave a tracked variable alone do not change its value. -/
theorem Spares.value_eq {name : String} (hspares : Spares k name statements) (hd : Disciplined k vs statements)
    (hname : TrackedName k vs name) (hruns : Runs k statements σ τ) : τ name = σ name := by
  have hkeep : ∀ st ∈ statements, ∀ {μ ν : Store k}, st.Executes k μ ν → ν name = μ name :=
    fun st hst _ _ hexec => hd.value_eq (s := Table.empty) hst hname (fun _ hu => hspares.update_name_ne hst hu) hexec
  -- What is left to show no longer depends on which statements they are.
  clear hspares hd
  induction statements generalizing σ with
  | nil =>
      obtain rfl : τ = σ := hruns
      rfl
  | cons st rest ih =>
      obtain ⟨μ, hexec, hrest⟩ := hruns
      rw [ih hrest fun st' h => hkeep st' (List.mem_cons_of_mem _ h)]
      exact hkeep st List.mem_cons_self hexec

end Run

namespace Graph

/-- Whether an execution from the entry, begun on any store, may come to a position with a store. -/
inductive Arrives (k : Kind) (g : Graph) : Nat → Store k → Prop where
  | entry {e : Nat} {σ : Store k} (he : g.entryIndex? = some e) : Arrives k g e σ
  | edge {i j : Nat} {b : Block} {σ τ : Store k} (harrives : Arrives k g i σ) (hb : g.blocks[i]? = some b)
      (hruns : Runs k b.statements σ τ) (hedge : j ∈ g.targets i) : Arrives k g j τ

theorem Arrives.reachable {k : Kind} {g : Graph} {i : Nat} {σ : Store k} (h : g.Arrives k i σ) : g.Reachable i := by
  induction h with
  | entry he => exact ⟨_, he, Leads.refl _⟩
  | edge _ _ _ hedge ih => exact ih.trans (Leads.single hedge)

end Graph
end ConstantFlow
