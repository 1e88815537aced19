import ConstantFlow.Graph.Builder
import ConstantFlow.Proofs.HistoryLookup
import ConstantFlow.Proofs.Sessions

/-! Settings that no answer shows. If the source always gives the same for a function, a session has the same answers
whether analyses are reused or made anew each time; and whether histories are squashed shows in none of the requests
for facts. In both cases two sessions run side by side, and one relation between them holds after every request. -/

namespace ConstantFlow

namespace Table
variable {α β : Type}

theorem get?_empty_ne_some {name : String} {value : α} : (empty : Table α).get? name ≠ some value := by
  intro h
  cases h

theorem insert_of_get? {t : Table α} {name : String} {value : α} (h : t.get? name = some value) :
    t.insert name value = t := by
  apply ext_get?
  intro other
  rw [get?_insert]
  split
  · rename_i heq
    rw [heq, h]
  · rfl

theorem map_insert (f : α → β) (t : Table α) (name : String) (value : α) :
    (t.insert name value).map f = (t.map f).insert name (f value) := by
  apply ext_get?
  intro other
  rw [get?_map, get?_insert, get?_insert, get?_map]
  split <;> rfl

theorem contains_map (f : α → β) (t : Table α) (name : String) : (t.map f).contains name = t.contains name := by
  rw [contains, get?_map, Option.isSome_map, contains]

end Table

/-! ### Sources without memory -/

/-- Whether a source, from a state on and whatever it is asked in between, gives one thing for each function. -/
def Source.Steady {σ : Type} (source : Source σ) (s : σ) (given : String → Except AnalysisError Graph) : Prop :=
  ∀ (asked : List String) (f : String), (source (asked.foldl (fun s f => (source s f).2) s) f).1 = given f

theorem Source.Steady.answer {σ : Type} {source : Source σ} {s : σ} {given : String → Except AnalysisError Graph}
    (h : source.Steady s given) (f : String) : (source s f).1 = given f := h [] f

theorem Source.Steady.next {σ : Type} {source : Source σ} {s : σ} {given : String → Except AnalysisError Graph}
    (h : source.Steady s given) (f : String) : source.Steady (source s f).2 given :=
  fun asked => h (f :: asked)

/-- A store at hand gives one thing for each function: asking changes only its count of requests. -/
theorem GraphStore.steady (s : GraphStore) : GraphStore.source.Steady s s.answer := by
  intro asked f
  induction asked generalizing s with
  | nil => rfl
  | cons g rest ih => exact ih _

/-! ### Reusing analyses -/

namespace Analyzer
variable {k : Kind}

theorem outcome_enableCache (settings : Settings) (b : Bool) (f : String) (g : Except AnalysisError Graph) :
    outcome k { settings with enableCache := b } f g = outcome k settings f g := by
  cases g with
  | error e => rfl
  | ok g => rfl

end Analyzer

namespace Session
variable {k : Kind} {σ : Type} {source : Source σ} {given : String → Except AnalysisError Graph} {settings : Settings}
  {x y : Session k σ} {r : Request}

theorem transcript_step (x : Session k σ) (r : Request) :
    (x.step source r).transcript = x.transcript ++ [(r, (x.next source r).answer)] := by
  rw [transcript, step, List.map_append, transcript]
  rfl

theorem transcript_step_congr (h : x.transcript = y.transcript)
    (hanswer : (x.next source r).answer = (y.next source r).answer) :
    (x.step source r).transcript = (y.step source r).transcript := by
  rw [transcript_step, transcript_step, h, hanswer]

/-- What holds between a session that reuses analyses and one that does not, after the same requests. -/
structure SameButReuse (source : Source σ) (given : String → Except AnalysisError Graph) (settings : Settings)
    (x y : Session k σ) : Prop where
  reuses : x.analyzer.settings = { settings with enableCache := true }
  repeats : y.analyzer.settings = { settings with enableCache := false }
  analyses : x.analyzer.analyses = y.analyzer.analyses
  /-- What is kept is what another look at the source would give. -/
  current : ∀ f analysis, x.analyzer.analyses.get? f = some analysis →
    Analyzer.outcome k settings f (given f) = .ok analysis
  steady : source.Steady x.source given
  steady' : source.Steady y.source given
  transcript : x.transcript = y.transcript

theorem SameButReuse.step (h : SameButReuse source given settings x y) (r : Request) :
    SameButReuse source given settings (x.step source r) (y.step source r) := by
  cases hneeds : r.needs? k with
  | none =>
      obtain ⟨hnext, hstep⟩ := x.step_of_needs_none source hneeds
      obtain ⟨hnext', hstep'⟩ := y.step_of_needs_none source hneeds
      have hanswer : x.analyzer.atHand r = y.analyzer.atHand r := by
        cases r <;> simp [Analyzer.atHand, Analyzer.dumpAll, h.analyses]
      have htranscript : (x.step source r).transcript = (y.step source r).transcript := by
        apply transcript_step_congr h.transcript
        rw [hnext, hnext', hanswer]
      rw [hstep, hstep'] at htranscript ⊢
      by_cases hclear : r = .clear
      · subst hclear
        refine ⟨h.reuses, h.repeats, rfl, ?_, h.steady, h.steady', htranscript⟩
        intro f analysis hheld
        exact absurd hheld Table.get?_empty_ne_some
      · rw [Analyzer.cleared_of_ne _ hclear, Analyzer.cleared_of_ne _ hclear] at htranscript ⊢
        exact ⟨h.reuses, h.repeats, h.analyses, h.current, h.steady, h.steady', htranscript⟩
  | some f =>
      have hrepeat : y.analyzer.kept? f = none := by simp [Analyzer.kept?, h.repeats]
      obtain ⟨hnext', hstep'⟩ := y.step_of_not_kept source hneeds hrepeat
      rw [h.repeats, Analyzer.outcome_enableCache, h.steady'.answer f] at hnext' hstep'
      cases hget : x.analyzer.analyses.get? f with
      | some analysis =>
          -- One session reuses the analysis, the other makes it again and puts it in its own place.
          have hkept : x.analyzer.kept? f = some analysis := by simp [Analyzer.kept?, h.reuses, hget]
          obtain ⟨hnext, hstep⟩ := x.step_of_kept source hneeds hkept
          rw [h.current f analysis hget] at hnext' hstep'
          have hsame : y.analyzer.analyses.insert f analysis = y.analyzer.analyses :=
            Table.insert_of_get? (h.analyses ▸ hget)
          have htranscript : (x.step source r).transcript = (y.step source r).transcript := by
            apply transcript_step_congr h.transcript
            rw [hnext, hnext']
            rfl
          rw [hstep, hstep'] at htranscript ⊢
          exact ⟨h.reuses, h.repeats, h.analyses.trans hsame.symm, h.current, h.steady, h.steady'.next f, htranscript⟩
      | none =>
          have hkept : x.analyzer.kept? f = none := by simp [Analyzer.kept?, h.reuses, hget]
          obtain ⟨hnext, hstep⟩ := x.step_of_not_kept source hneeds hkept
          rw [h.reuses, Analyzer.outcome_enableCache, h.steady.answer f] at hnext hstep
          have htranscript : (x.step source r).transcript = (y.step source r).transcript := by
            apply transcript_step_congr h.transcript
            rw [hnext, hnext']
          rw [hstep, hstep'] at htranscript ⊢
          cases hout : Analyzer.outcome k settings f (given f) with
          | error e =>
              rw [hout] at htranscript
              exact ⟨h.reuses, h.repeats, h.analyses, h.current, h.steady.next f, h.steady'.next f, htranscript⟩
          | ok analysis =>
              rw [hout] at htranscript
              refine ⟨h.reuses, h.repeats, ?_, ?_, h.steady.next f, h.steady'.next f, htranscript⟩
              · exact congrArg (·.insert f analysis) h.analyses
              · intro f' found hfound
                simp only [Analyzer.keep, Table.get?_insert] at hfound
                split at hfound
                · rename_i heq
                  rw [heq, hout, Option.some.inj hfound]
                · exact h.current f' found hfound

end Session

/-! ### Squashing histories -/

def Analysis.squashed {k : Kind} (a : Analysis k) : Analysis k := { a with history := a.history.squash }

namespace Analyzer
variable {k : Kind}

theorem outcome_squashHistory (settings : Settings) (f : String) (g : Except AnalysisError Graph) :
    outcome k { settings with squashHistory := true } f g =
      (outcome k { settings with squashHistory := false } f g).map Analysis.squashed := by
  cases g with
  | error e => rfl
  | ok g =>
      have hrefusal : refusal? { settings with squashHistory := true } f g =
          refusal? { settings with squashHistory := false } f g := rfl
      simp only [outcome, hrefusal]
      cases refusal? { settings with squashHistory := false } f g <;> rfl

end Analyzer

/-- Whether a request asks for facts or names, and not for histories. -/
def Request.asksFacts : Request → Bool
  | .query .. | .resolve .. | .isCached _ | .cachedFunctions => true
  | .analyze _ | .dump _ | .dumpAll | .exportJson _ | .clear => false

namespace Session
variable {k : Kind} {σ : Type} {source : Source σ} {settings : Settings} {x y : Session k σ} {r : Request}

/-- The requests of a session for facts, with their answers, in order. -/
def facts (x : Session k σ) : List (Request × Except AnalysisError (Answer k)) :=
  x.transcript.filter (·.1.asksFacts)

theorem facts_step_congr (h : x.facts = y.facts)
    (hanswer : r.asksFacts = true → (x.next source r).answer = (y.next source r).answer) :
    (x.step source r).facts = (y.step source r).facts := by
  rw [facts, facts, transcript_step, transcript_step, List.filter_append, List.filter_append]
  refine congrArg₂ _ h ?_
  cases hr : r.asksFacts with
  | false => simp [hr]
  | true => simp [hr, hanswer hr]

theorem read_squashed {f : String} (hneeds : r.needs? k = some f) (hasks : r.asksFacts = true)
    (analysis : Analysis k) : r.read analysis.squashed = r.read analysis := by
  cases r with
  | query f' name l => simp only [Request.read, Analysis.squashed, History.lookup_squash]
  | resolve f' argument => simp only [Request.read, Analysis.squashed, History.lookup_squash]
  | analyze f' => cases hasks
  | dump f' => cases hasks
  | dumpAll => cases hasks
  | exportJson f' => cases hasks
  | isCached f' => cases hneeds
  | cachedFunctions => cases hneeds
  | clear => cases hasks

/-- What holds between a session that squashes histories and one that does not, after the same requests. -/
structure SameButSquashing (settings : Settings) (x y : Session k σ) : Prop where
  squashes : x.analyzer.settings = { settings with squashHistory := true }
  records : y.analyzer.settings = { settings with squashHistory := false }
  analyses : x.analyzer.analyses = y.analyzer.analyses.map Analysis.squashed
  source : x.source = y.source
  facts : x.facts = y.facts

theorem SameButSquashing.step (h : SameButSquashing settings x y) (r : Request) :
    SameButSquashing settings (x.step source r) (y.step source r) := by
  cases hneeds : r.needs? k with
  | none =>
      obtain ⟨hnext, hstep⟩ := x.step_of_needs_none source hneeds
      obtain ⟨hnext', hstep'⟩ := y.step_of_needs_none source hneeds
      have hfacts : (x.step source r).facts = (y.step source r).facts := by
        apply facts_step_congr h.facts
        intro hasks
        rw [hnext, hnext']
        cases r <;> simp_all [Request.asksFacts, Analyzer.atHand, Table.contains_map, Table.names_map, h.analyses]
      rw [hstep, hstep'] at hfacts ⊢
      by_cases hclear : r = .clear
      · subst hclear
        exact ⟨h.squashes, h.records, rfl, h.source, hfacts⟩
      · rw [Analyzer.cleared_of_ne _ hclear, Analyzer.cleared_of_ne _ hclear] at hfacts ⊢
        exact ⟨h.squashes, h.records, h.analyses, h.source, hfacts⟩
  | some f =>
      have hkept : x.analyzer.kept? f = (y.analyzer.kept? f).map Analysis.squashed := by
        simp only [Analyzer.kept?, h.squashes, h.records, h.analyses, Table.get?_map]
        split <;> rfl
      cases hfound : y.analyzer.kept? f with
      | some analysis =>
          rw [hfound] at hkept
          obtain ⟨hnext, hstep⟩ := x.step_of_kept source hneeds hkept
          obtain ⟨hnext', hstep'⟩ := y.step_of_kept source hneeds hfound
          have hfacts : (x.step source r).facts = (y.step source r).facts := by
            apply facts_step_congr h.facts
            intro hasks
            rw [hnext, hnext', read_squashed hneeds hasks]
          rw [hstep, hstep'] at hfacts ⊢
          exact ⟨h.squashes, h.records, h.analyses, h.source, hfacts⟩
      | none =>
          rw [hfound] at hkept
          obtain ⟨hnext, hstep⟩ := x.step_of_not_kept source hneeds hkept
          obtain ⟨hnext', hstep'⟩ := y.step_of_not_kept source hneeds hfound
          rw [h.squashes, h.source, Analyzer.outcome_squashHistory] at hnext hstep
          rw [h.records] at hnext' hstep'
          have hfacts : (x.step source r).facts = (y.step source r).facts := by
            apply facts_step_congr h.facts
            intro hasks
            rw [hnext, hnext']
            cases Analyzer.outcome k { settings with squashHistory := false } f (source y.source f).1 with
            | error e => rfl
            | ok analysis => exact congrArg Except.ok (read_squashed hneeds hasks analysis)
          rw [hstep, hstep'] at hfacts ⊢
          cases hout : Analyzer.outcome k { settings with squashHistory := false } f (source y.source f).1 with
          | error e =>
              rw [hout] at hfacts
              exact ⟨h.squashes, h.records, h.analyses, rfl, hfacts⟩
          | ok analysis =>
              rw [hout] at hfacts
              refine ⟨h.squashes, h.records, ?_, rfl, hfacts⟩
              show x.analyzer.analyses.insert f analysis.squashed = (y.analyzer.analyses.insert f analysis).map _
              rw [Table.map_insert, h.analyses]

end Session

namespace Analyzer
variable {k : Kind} {σ : Type}

theorem map_new_congr {α : Type} {settings settings' : Settings} (hlimit : settings.maxBlocks = settings'.maxBlocks)
    {f : Analyzer k → α} (h : f ⟨settings, Table.empty⟩ = f ⟨settings', Table.empty⟩) :
    (new k settings).map f = (new k settings').map f := by
  have hfault : settings.fault? = settings'.fault? := by rw [Settings.fault?, hlimit, Settings.fault?]
  rw [new, new, hfault]
  cases settings'.fault? with
  | some fault => rfl
  | none => exact congrArg Except.ok h

/-- With a source that always gives the same for a function, whether analyses are reused shows in no answer, and
whether histories are squashed shows in no answer to a request for facts. -/
theorem session_hides_settings {source : Source σ} {s : σ} {given : String → Except AnalysisError Graph}
    (hsteady : source.Steady s given) (k : Kind) (settings : Settings) (requests : List Request) :
    (new k { settings with enableCache := true }).map (fun a => (a.session source s requests).transcript) =
        (new k { settings with enableCache := false }).map (fun a => (a.session source s requests).transcript) ∧
      (new k { settings with squashHistory := true }).map (fun a => (a.session source s requests).facts) =
        (new k { settings with squashHistory := false }).map (fun a => (a.session source s requests).facts) := by
  constructor
  · apply map_new_congr
    · rfl
    · have hstart : Session.SameButReuse source given settings
          ⟨⟨{ settings with enableCache := true }, Table.empty⟩, s, []⟩
          ⟨(⟨{ settings with enableCache := false }, Table.empty⟩ : Analyzer k), s, []⟩ :=
        ⟨rfl, rfl, rfl, fun f analysis hnone => absurd hnone Table.get?_empty_ne_some, hsteady, hsteady, rfl⟩
      exact (List.foldl_rel hstart fun r _ x y h => h.step r).transcript
  · apply map_new_congr
    · rfl
    · have hstart : Session.SameButSquashing settings
          ⟨⟨{ settings with squashHistory := true }, Table.empty⟩, s, []⟩
          ⟨(⟨{ settings with squashHistory := false }, Table.empty⟩ : Analyzer k), s, []⟩ :=
        ⟨rfl, rfl, rfl, rfl, rfl⟩
      exact (List.foldl_rel hstart fun r _ x y h => h.step r).facts

/-- A store that has one function and fails on another. -/
def smallStore : GraphStore :=
  (GraphStore.ofList [Graph.build "f" [.block [.assign ⟨"v", .integer⟩ (.int 1) ⟨1, 1, 0⟩, .other ⟨2, 1, 0⟩],
    .edge ⟨0⟩ ⟨0⟩]]).fail "g" "offline"

/-- Requests that need an analysis twice, fail, and forget. -/
def smallRequests : List Request :=
  [.query "f" "v" ⟨2, 1, 0⟩, .dump "f", .query "g" "v" ⟨1, 1, 0⟩, .isCached "f", .clear, .cachedFunctions,
    .analyze "f", .dumpAll]

/-- The two ways of working do differ: in how often the store is asked. -/
theorem session_hides_settings_smallStore :
    (((⟨{ enableCache := true }, Table.empty⟩ : Analyzer .integer).session GraphStore.source smallStore
        smallRequests).source.asked = 3 ∧
      ((⟨{ enableCache := false }, Table.empty⟩ : Analyzer .integer).session GraphStore.source smallStore
        smallRequests).source.asked = 4) ∧
    (new .integer { enableCache := true }).map
        (fun a => (a.session GraphStore.source smallStore smallRequests).transcript) =
      (new .integer { enableCache := false }).map
        (fun a => (a.session GraphStore.source smallStore smallRequests).transcript) ∧
    (new .integer { squashHistory := true }).map
        (fun a => (a.session GraphStore.source smallStore smallRequests).facts) =
      (new .integer { squashHistory := false }).map
        (fun a => (a.session GraphStore.source smallStore smallRequests).facts) :=
  ⟨⟨by decide +kernel, by decide +kernel⟩,
    session_hides_settings smallStore.steady .integer {} smallRequests⟩

end Analyzer
end ConstantFlow
