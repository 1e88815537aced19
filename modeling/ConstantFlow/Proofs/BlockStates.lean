import ConstantFlow.Update
import Mathlib.Data.List.Basic

/-! What merging, giving up and running do to the fact of one variable. A merged state holds a constant exactly if all
merged states do; statements change only the variables that they overwrite or initialize, and which ones these are
does not depend on the state. -/

namespace ConstantFlow

namespace Table
variable {α : Type}

theorem mem_toList {t : Table α} {name : String} {value : α} :
    (name, value) ∈ t.toList ↔ t.get? name = some value := by
  obtain ⟨l, hl⟩ := t
  show (name, value) ∈ l ↔ valueOf? name l = some value
  induction l with
  | nil => simp [valueOf?]
  | cons p rest ih =>
      obtain ⟨hp, hrest⟩ := List.pairwise_cons.1 hl
      rw [List.mem_cons, valueOf?, ih hrest]
      split
      · rename_i heq
        have hnone : valueOf? name rest = none := valueOf?_eq_none fun q hq => heq ▸ hp q hq
        rw [hnone, ← heq]
        constructor
        · rintro (h | h)
          · rw [← h]
          · cases h
        · intro h
          exact Or.inl (Prod.ext rfl (Option.some.inj h).symm)
      · rename_i hne
        constructor
        · rintro (h | h)
          · exact absurd (congrArg Prod.fst h).symm hne
          · exact h
        · exact Or.inr

end Table

theorem mem_sortNames {names : List String} {name : String} : name ∈ sortNames names ↔ name ∈ names := by
  rw [sortNames, Table.mem_names]
  by_cases h : name ∈ names <;> simp [h]

theorem sortNames_ext {names names' : List String} (h : ∀ name, name ∈ sortNames names ↔ name ∈ sortNames names') :
    sortNames names = sortNames names' := by
  have htable : Table.ofNames names (fun _ => ()) = Table.ofNames names' fun _ => () := by
    apply Table.ext_get?
    intro name
    have hname := h name
    rw [mem_sortNames, mem_sortNames] at hname
    simp only [Table.get?_ofNames, hname]
  rw [sortNames, htable, sortNames]

theorem Fact.eq_of_resolved_iff {α : Type} {f f' : Fact α} (h : ∀ c, f = .resolved c ↔ f' = .resolved c) : f = f' := by
  cases f with
  | resolved c => exact ((h c).1 rfl).symm
  | unresolved =>
      cases f' with
      | unresolved => rfl
      | resolved c => exact (h c).2 rfl

namespace State
variable {k : Kind}

theorem get?_forget (s : State k) (names : List String) (name : String) :
    (s.forget names).get? name = if name ∈ names then some .unresolved else s.get? name := by
  rw [forget]
  exact Table.get?_foldl_insert names (fun _ => Fact.unresolved) s name

theorem get?_merge (states : List (State k)) (name : String) :
    (merge states).get? name =
      if name ∈ states.flatMap Table.names then some (meet states name) else none := by
  rw [merge, Table.get?_ofNames]

theorem mem_names_merge {states : List (State k)} {name : String} :
    name ∈ (merge states).names ↔ ∃ s ∈ states, name ∈ s.names := by
  rw [Table.mem_names, get?_merge, ← List.mem_flatMap]
  by_cases hmem : name ∈ states.flatMap Table.names <;> simp [hmem]

theorem meet_eq_resolved_iff {states : List (State k)} {name : String} {c : k.Value} :
    meet states name = .resolved c ↔ states ≠ [] ∧ ∀ s ∈ states, s.get? name = some (.resolved c) := by
  cases states with
  | nil => simp [meet]
  | cons first rest =>
      rw [meet]
      cases hfirst : first.get? name with
      | none => simp [hfirst]
      | some fact =>
          dsimp only
          by_cases hall : rest.all (·.get? name = some fact) = true
          · rw [if_pos hall]
            simp only [List.all_eq_true, decide_eq_true_eq] at hall
            constructor
            · rintro rfl
              refine ⟨List.cons_ne_nil _ _, fun s hs => ?_⟩
              rcases List.mem_cons.1 hs with rfl | hs
              · exact hfirst
              · exact hall s hs
            · rintro ⟨-, h⟩
              exact Option.some.inj (hfirst.symm.trans (h first List.mem_cons_self))
          · rw [if_neg hall]
            refine ⟨fun h => (by cases h), ?_⟩
            rintro ⟨-, h⟩
            refine absurd ?_ hall
            have hfact := Option.some.inj (hfirst.symm.trans (h first List.mem_cons_self))
            simp only [List.all_eq_true, decide_eq_true_eq]
            exact fun s hs => hfact ▸ h s (List.mem_cons_of_mem _ hs)

/-- Where states meet, a variable has a constant exactly if it has that constant in every one of them. -/
theorem get?_merge_eq_resolved_iff {states : List (State k)} {name : String} {c : k.Value} :
    (merge states).get? name = some (.resolved c) ↔
      states ≠ [] ∧ ∀ s ∈ states, s.get? name = some (.resolved c) := by
  rw [get?_merge]
  split
  · rw [Option.some.injEq, meet_eq_resolved_iff]
  · rename_i hnone
    refine ⟨fun h => (by cases h), ?_⟩
    rintro ⟨hne, h⟩
    obtain ⟨s, hs⟩ := List.exists_mem_of_ne_nil states hne
    exact absurd (List.mem_flatMap.2 ⟨s, hs, Table.mem_names.2 ⟨_, h s hs⟩⟩) hnone

/-- What states leave where they meet depends only on which states they are. -/
theorem merge_congr {states states' : List (State k)} (h : ∀ s, s ∈ states ↔ s ∈ states') :
    merge states = merge states' := by
  have hmeet : meet states = meet states' := by
    funext name
    apply Fact.eq_of_resolved_iff
    intro c
    simp only [meet_eq_resolved_iff, ne_eq, List.eq_nil_iff_forall_not_mem, h]
  apply Table.ext_get?
  intro name
  simp only [get?_merge, List.mem_flatMap, h, hmeet]

theorem forget_congr (s : State k) {names names' : List String} (h : ∀ name, name ∈ names ↔ name ∈ names') :
    s.forget names = s.forget names' := by
  apply Table.ext_get?
  intro name
  simp only [get?_forget, h]

/-! ### Updates and runs -/

theorem apply_append (s : State k) (us vs : List (Update k)) : s.apply (us ++ vs) = (s.apply us).apply vs :=
  List.foldl_append

/-- After updates, a variable has the fact of the last one that names it, and without one what it had before. -/
theorem get?_apply (s : State k) (us : List (Update k)) (name : String) :
    (s.apply us).get? name = ((us.reverse.find? (·.name = name)).map Update.fact).or (s.get? name) := by
  induction us generalizing s with
  | nil => rfl
  | cons u rest ih =>
      rw [List.reverse_cons, List.find?_append]
      show (State.apply (s.insert u.name u.fact) rest).get? name = _
      rw [ih, Table.get?_insert]
      cases rest.reverse.find? (·.name = name) with
      | some v => rfl
      | none =>
          by_cases hu : u.name = name
          · simp [hu]
          · simp [hu, Ne.symm hu]

theorem get?_apply_of_ne (s : State k) {us : List (Update k)} {name : String} (h : ∀ u ∈ us, u.name ≠ name) :
    (s.apply us).get? name = s.get? name := by
  have hnone : us.reverse.find? (·.name = name) = none := List.find?_eq_none.2 fun u hu => by
    simpa using h u (List.mem_reverse.1 hu)
  rw [get?_apply, hnone]
  rfl

/-- If all updates of a variable in a list say the same, that is what holds after them. -/
theorem get?_apply_of_forall (s : State k) {us : List (Update k)} {name : String} {fact : Fact k.Value}
    (hmem : ∃ u ∈ us, u.name = name) (h : ∀ u ∈ us, u.name = name → u.fact = fact) :
    (s.apply us).get? name = some fact := by
  rw [get?_apply]
  cases hlast : us.reverse.find? (·.name = name) with
  | none =>
      obtain ⟨u, hu, hname⟩ := hmem
      exact absurd hname (by simpa using List.find?_eq_none.1 hlast u (List.mem_reverse.2 hu))
  | some u =>
      have hname : u.name = name := by simpa using List.find?_some hlast
      rw [Option.map_some, Option.some_or, h u (List.mem_reverse.1 (List.mem_of_find?_eq_some hlast)) hname]

@[simp] theorem run_nil (s : State k) : s.run [] = s := rfl

theorem run_cons (s : State k) (st : Statement) (rest : List Statement) :
    s.run (st :: rest) = (s.apply (st.updates k s)).run rest :=
  apply_append s (st.updates k s) (trace (s.apply (st.updates k s)) rest)

theorem trace_append (s : State k) (before after : List Statement) :
    s.trace (before ++ after) = s.trace before ++ (s.run before).trace after := by
  induction before generalizing s with
  | nil => rfl
  | cons st rest ih =>
      rw [List.cons_append, trace, trace, ih, run_cons, List.append_assoc]

theorem run_append (s : State k) (before after : List Statement) :
    s.run (before ++ after) = (s.run before).run after := by
  rw [run, trace_append, apply_append]
  rfl

/-- Each statement is read in the state that the statements before it leave. -/
theorem trace_split (s : State k) (before : List Statement) (st : Statement) (after : List Statement) :
    s.trace (before ++ st :: after) =
      s.trace before ++ st.updates k (s.run before) ++ (s.run (before ++ [st])).trace after := by
  rw [trace_append, trace, run_append, run_cons, run_nil, List.append_assoc]

/-- The entries that statements make by code are their updates. -/
theorem filter_entries (s : State k) (statements : List Statement) :
    (s.entries statements).filter (·.2.origin = .code) =
      (s.trace statements).map fun u => (u.name, ⟨u.location, .code, u.fact⟩) := by
  cases statements with
  | nil => rfl
  | cons first rest => simp [entries, List.filter_map, Function.comp_def]

theorem exists_of_mem_trace {s : State k} {statements : List Statement} {u : Update k}
    (hu : u ∈ s.trace statements) : ∃ st ∈ statements, ∃ t, u ∈ st.updates k t := by
  induction statements generalizing s with
  | nil => simp [trace] at hu
  | cons st rest ih =>
      rw [trace, List.mem_append] at hu
      rcases hu with hu | hu
      · exact ⟨st, List.mem_cons_self, s, hu⟩
      · obtain ⟨st', hst', t, ht⟩ := ih hu
        exact ⟨st', List.mem_cons_of_mem _ hst', t, ht⟩

end State

namespace Statement
variable {k : Kind}

/-- The tracked variables that a statement makes lose their constant. -/
def lost (k : Kind) : Statement → List Variable
  | .declare target (some e) _ | .assign target e _ | .combine target _ e _ =>
    e.escaping.filter fun v => k.tracks v.type && v.name ≠ target.name
  | .call _ arguments _ _ => (arguments.flatMap Argument.writable).filter fun v => k.tracks v.type
  | _ => []

/-- The update of the variable that a statement sets, if it is tracked. -/
def written (k : Kind) (s : State k) : Statement → Option (Update k)
  | .declare target (some e) l =>
    if k.tracks target.type then (k.fold e).map fun value => ⟨target.name, .resolved value, l, true⟩ else none
  | .assign target e l =>
    if k.tracks target.type then some ⟨target.name, .ofOption (k.fold e), l, false⟩ else none
  | .combine target op e l =>
    if k.tracks target.type then some ⟨target.name, .ofOption (combined k s target op e), l, false⟩ else none
  | _ => none

theorem updates_eq (s : State k) (st : Statement) :
    st.updates k s = (st.lost k).map (loses st.updateLocation) ++ (st.written k s).toList := by
  cases st with
  | declare target initial l =>
      cases initial with
      | none => rfl
      | some e =>
          rw [updates, written]
          congr 1
          split
          · cases k.fold e <;> rfl
          · rfl
  | assign target e l =>
      rw [updates, written]
      congr 1
      split <;> rfl
  | combine target op e l =>
      rw [updates, written]
      congr 1
      split <;> rfl
  | call callee arguments l finish => exact (List.append_nil _).symm
  | other l => rfl

theorem mem_updates {s : State k} {st : Statement} {u : Update k} :
    u ∈ st.updates k s ↔ (∃ v ∈ st.lost k, loses st.updateLocation v = u) ∨ st.written k s = some u := by
  rw [updates_eq, List.mem_append, List.mem_map, Option.mem_toList]

theorem written_cases {s : State k} {st : Statement} {u : Update k} (h : st.written k s = some u) :
    (∃ target e l value, st = .declare target (some e) l ∧ k.tracks target.type = true ∧ k.fold e = some value ∧
      u = ⟨target.name, .resolved value, l, true⟩) ∨
    (∃ target e l, st = .assign target e l ∧ k.tracks target.type = true ∧
      u = ⟨target.name, .ofOption (k.fold e), l, false⟩) ∨
    ∃ target op e l, st = .combine target op e l ∧ k.tracks target.type = true ∧
      u = ⟨target.name, .ofOption (combined k s target op e), l, false⟩ := by
  cases st with
  | declare target initial l =>
      cases initial with
      | none => simp [written] at h
      | some e =>
          simp only [written, Option.ite_none_right_eq_some, Option.map_eq_some_iff] at h
          obtain ⟨htracks, value, hfold, rfl⟩ := h
          exact Or.inl ⟨target, e, l, value, rfl, htracks, hfold, rfl⟩
  | assign target e l =>
      simp only [written, Option.ite_none_right_eq_some, Option.some.injEq] at h
      exact Or.inr (Or.inl ⟨target, e, l, rfl, h.1, h.2.symm⟩)
  | combine target op e l =>
      simp only [written, Option.ite_none_right_eq_some, Option.some.injEq] at h
      exact Or.inr (Or.inr ⟨target, op, e, l, rfl, h.1, h.2.symm⟩)
  | call callee arguments l finish => simp [written] at h
  | other l => simp [written] at h

theorem combined_eq_some {s : State k} {target : Variable} {op : CompoundOp} {e : Expr} {value : k.Value}
    (h : combined k s target op e = some value) :
    ∃ current operand, s.get? target.name = some (.resolved current) ∧ k.fold e = some operand ∧
      k.combine op current operand = some value := by
  rw [combined] at h
  split at h
  · rename_i current hcurrent
    obtain ⟨operand, hoperand, hvalue⟩ := Option.bind_eq_some_iff.1 h
    exact ⟨current, operand, hcurrent, hoperand, hvalue⟩
  · cases h

theorem updates_location {s : State k} {st : Statement} {u : Update k} (h : u ∈ st.updates k s) :
    u.location = st.updateLocation := by
  rcases mem_updates.1 h with ⟨v, -, rfl⟩ | h
  · rfl
  · obtain ⟨_, _, _, _, rfl, -, -, rfl⟩ | ⟨_, _, _, rfl, -, rfl⟩ | ⟨_, _, _, _, rfl, -, rfl⟩ := written_cases h <;>
      rfl

theorem lost_name_ne_written {s : State k} {st : Statement} {u : Update k} (h : st.written k s = some u) :
    ∀ v ∈ st.lost k, v.name ≠ u.name := by
  intro v hv
  obtain ⟨_, _, _, _, rfl, -, -, rfl⟩ | ⟨_, _, _, rfl, -, rfl⟩ | ⟨_, _, _, _, rfl, -, rfl⟩ := written_cases h <;>
    simp only [lost, List.mem_filter, Bool.and_eq_true, decide_eq_true_eq] at hv <;> exact hv.2.2

/-- The updates that one statement makes to one variable agree. -/
theorem updates_fact_unique {s : State k} {st : Statement} {u v : Update k} (hu : u ∈ st.updates k s)
    (hv : v ∈ st.updates k s) (hname : u.name = v.name) : u.fact = v.fact := by
  rcases mem_updates.1 hu with ⟨x, hx, rfl⟩ | hu
  · rcases mem_updates.1 hv with ⟨y, -, rfl⟩ | hv
    · rfl
    · exact absurd hname (lost_name_ne_written hv x hx)
  · rcases mem_updates.1 hv with ⟨y, hy, rfl⟩ | hv
    · exact absurd hname.symm (lost_name_ne_written hu y hy)
    · rw [hu, Option.some.injEq] at hv
      rw [hv]

theorem get?_apply_updates_of_mem {s : State k} {st : Statement} {u : Update k} (hu : u ∈ st.updates k s) :
    (s.apply (st.updates k s)).get? u.name = some u.fact :=
  State.get?_apply_of_forall s ⟨u, hu, rfl⟩ fun _ hv hname => updates_fact_unique hv hu hname

/-- A statement sets the same variable in every state. -/
theorem written_independent {s : State k} {st : Statement} {u : Update k} (h : st.written k s = some u)
    (t : State k) : ∃ v, st.written k t = some v ∧ v.name = u.name ∧ v.declares = u.declares := by
  obtain ⟨_, _, _, _, rfl, htracks, hfold, rfl⟩ | ⟨_, _, _, rfl, htracks, rfl⟩ | ⟨_, _, _, _, rfl, htracks, rfl⟩ :=
    written_cases h
  · exact ⟨_, by simp [written, htracks, hfold], rfl, rfl⟩
  · exact ⟨_, by simp [written, htracks], rfl, rfl⟩
  · exact ⟨_, if_pos htracks, rfl, rfl⟩

/-- The variable that a declaration gives an initial value. -/
def initialized? : Statement → Option Variable
  | .declare target (some _) _ => some target
  | _ => none

/-- Whether a statement declares a tracked variable of a name with a constant. -/
def declaresConstant (k : Kind) (name : String) : Statement → Bool
  | .declare target (some e) _ => target.name = name && k.tracks target.type && (k.fold e).isSome
  | _ => false

theorem declaresConstant_of_declares {s : State k} {st : Statement} {u : Update k} (hu : u ∈ st.updates k s)
    (hdeclares : u.declares = true) : st.declaresConstant k u.name = true := by
  rcases mem_updates.1 hu with ⟨v, -, rfl⟩ | hwritten
  · cases hdeclares
  · obtain ⟨_, _, _, _, rfl, htracks, hfold, rfl⟩ | ⟨_, _, _, -, -, rfl⟩ | ⟨_, _, _, _, -, -, rfl⟩ :=
      written_cases hwritten
    · simp [declaresConstant, htracks, hfold]
    · cases hdeclares
    · cases hdeclares

theorem initialized?_of_declaresConstant {st : Statement} {name : String} (h : st.declaresConstant k name = true) :
    st.initialized?.map Variable.name = some name := by
  unfold declaresConstant at h
  split at h
  · simp only [Bool.and_eq_true, decide_eq_true_eq] at h
    rw [initialized?, Option.map_some, h.1.1]
  · cases h

/-- The names that a statement overwrites are the same in every state, in the same order. -/
theorem overwriting_independent (st : Statement) (s t : State k) :
    ((st.updates k s).filter fun u => !u.declares).map (·.name) =
      ((st.updates k t).filter fun u => !u.declares).map (·.name) := by
  simp only [updates_eq, List.filter_append, List.map_append]
  congr 1
  cases st with
  | declare target initial l => cases initial <;> rfl
  | assign target e l => rfl
  | combine target op e l =>
      -- The state decides between a constant and none, not whether there is an update.
      simp only [written]
      split <;> rfl
  | call callee arguments l finish => rfl
  | other l => rfl

end Statement

section Overwriting
variable {k : Kind} {name : String} {statements : List Statement}

theorem mem_overwritten_of_update {st : Statement} (hst : st ∈ statements) {s : State k} {u : Update k}
    (hu : u ∈ st.updates k s) (hdeclares : u.declares = false) : u.name ∈ overwritten k statements := by
  have hhere : u.name ∈ ((st.updates k s).filter fun u => !u.declares).map (·.name) :=
    List.mem_map.2 ⟨u, List.mem_filter.2 ⟨hu, by simp [hdeclares]⟩, rfl⟩
  rw [st.overwriting_independent s Table.empty, List.mem_map] at hhere
  obtain ⟨v, hv, hname⟩ := hhere
  exact List.mem_map.2 ⟨v, List.mem_flatMap.2 ⟨st, hst, hv⟩, hname⟩

theorem update_name_ne (hnot : name ∉ overwritten k statements)
    (hdeclared : ∀ st ∈ statements, st.declaresConstant k name = false) {st : Statement} (hst : st ∈ statements)
    {s : State k} {u : Update k} (hu : u ∈ st.updates k s) : u.name ≠ name := by
  rintro rfl
  cases hdeclares : u.declares with
  | false => exact hnot (mem_overwritten_of_update hst hu hdeclares)
  | true =>
      have htrue := Statement.declaresConstant_of_declares hu hdeclares
      exact Bool.false_ne_true ((hdeclared st hst).symm.trans htrue)

theorem State.get?_run_of_not_overwritten (s : State k) (hnot : name ∉ overwritten k statements)
    (hdeclared : ∀ st ∈ statements, st.declaresConstant k name = false) :
    (s.run statements).get? name = s.get? name := by
  rw [State.run]
  apply State.get?_apply_of_ne
  intro u hu
  obtain ⟨st, hst, t, ht⟩ := State.exists_of_mem_trace hu
  exact update_name_ne hnot hdeclared hst ht

theorem State.overwriting_trace (s : State k) (statements : List Statement) :
    ((s.trace statements).filter fun u => !u.declares).map (·.name) = overwritten k statements := by
  induction statements generalizing s with
  | nil => rfl
  | cons st rest ih =>
      rw [trace, List.filter_append, List.map_append, ih, st.overwriting_independent s Table.empty, overwritten,
        overwritten, List.flatMap_cons, List.map_append]

/-- Running statements from a state makes their updates in turn, each statement's in the state that the ones before it
leave. These updates are what the run applies, so that a variable ends with the fact of its last update, and they are
what it records as made by code. From every state they overwrite the names that are read off the statements without a
state, in the same order, and a variable that is neither among these nor declared with a constant keeps what is known
of it. -/
theorem State.run_overwrites (s : State k) (statements : List Statement) :
    (∀ before st after, statements = before ++ st :: after → s.trace statements =
      s.trace before ++ st.updates k (s.run before) ++ (s.run (before ++ [st])).trace after) ∧
    s.run statements = s.apply (s.trace statements) ∧
    (∀ name, (s.run statements).get? name =
      (((s.trace statements).reverse.find? (·.name = name)).map Update.fact).or (s.get? name)) ∧
    (s.entries statements).filter (·.2.origin = .code) =
      (s.trace statements).map (fun u => (u.name, ⟨u.location, .code, u.fact⟩)) ∧
    ((s.trace statements).filter fun u => !u.declares).map (·.name) = overwritten k statements ∧
    ∀ name, name ∉ overwritten k statements → (∀ st ∈ statements, st.declaresConstant k name = false) →
      (s.run statements).get? name = s.get? name := by
  refine ⟨?_, rfl, s.get?_apply _, s.filter_entries statements, s.overwriting_trace statements, ?_⟩
  · rintro before st after rfl
    exact s.trace_split before st after
  · intro name hnot hdeclared
    exact s.get?_run_of_not_overwritten hnot hdeclared

/-- A variable set by a choice that hands two addresses to a call it does not make, and one that is declared and then
counted on. -/
def choosing : List Statement :=
  [.declare ⟨"n", .integer⟩ (some (.int 2)) ⟨1, 1, 0⟩,
    .assign ⟨"v", .integer⟩ (.choice (.int 0) (.call "swap" [.address ⟨"v", .integer⟩, .address ⟨"w", .integer⟩])
      (.int 4)) ⟨2, 1, 0⟩,
    .combine ⟨"n", .integer⟩ .add (.int 1) ⟨3, 1, 0⟩]

/-- A state with two constants. -/
def twoSevens : State .integer := Table.ofNames ["w", "x"] fun _ => .resolved 7

theorem run_overwrites_choosing :
    ((twoSevens.trace choosing).filter fun u => !u.declares).map (·.name) = ["w", "v", "n"] ∧
      (twoSevens.run choosing).get? "v" = some (.resolved 4) ∧ (twoSevens.run choosing).get? "n" = some (.resolved 3) ∧
      (twoSevens.run choosing).get? "w" = some .unresolved ∧
      ("w", ⟨⟨2, 1, 0⟩, .code, .unresolved⟩) ∈ (twoSevens.entries choosing).filter (·.2.origin = .code) ∧
      "x" ∉ overwritten .integer choosing ∧ (twoSevens.run choosing).get? "x" = some (.resolved 7) := by
  obtain ⟨-, -, hlast, hentries, hnames, hkept⟩ := State.run_overwrites twoSevens choosing
  have hnot : "x" ∉ overwritten .integer choosing := by decide
  refine ⟨hnames.trans (by decide), (hlast "v").trans (by decide), (hlast "n").trans (by decide),
    (hlast "w").trans (by decide), ?_, hnot, (hkept "x" hnot (by decide)).trans (by decide)⟩
  rw [hentries]
  decide

/-- Whether statements leave a variable alone: they neither overwrite nor initialize it. -/
def Spares (k : Kind) (name : String) (statements : List Statement) : Prop :=
  name ∉ overwritten k statements ∧ ∀ st ∈ statements, st.initialized?.map Variable.name ≠ some name

instance : Decidable (Spares k name statements) := by
  unfold Spares
  infer_instance

theorem Spares.not_declared (h : Spares k name statements) :
    ∀ st ∈ statements, st.declaresConstant k name = false := by
  intro st hst
  rw [Bool.eq_false_iff]
  exact fun hdeclares => h.2 st hst (Statement.initialized?_of_declaresConstant hdeclares)

theorem Spares.update_name_ne (h : Spares k name statements) {st : Statement} (hst : st ∈ statements) {s : State k}
    {u : Update k} (hu : u ∈ st.updates k s) : u.name ≠ name :=
  ConstantFlow.update_name_ne h.1 h.not_declared hst hu

/-- Statements that leave a variable alone keep its fact. -/
theorem Spares.get?_run (h : Spares k name statements) (s : State k) :
    (s.run statements).get? name = s.get? name := s.get?_run_of_not_overwritten h.1 h.not_declared

end Overwriting
end ConstantFlow
