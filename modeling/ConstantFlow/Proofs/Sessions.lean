import ConstantFlow.Analyzer
import Mathlib.Data.List.Basic

/-! Sessions: requests made of an analyzer one after another. A request either needs the analysis of one function, and
then all it does is to find or make that analysis and read its answer off it, or it needs none and is answered from
what the analyzer holds. The calls that a request makes of the source are those that a source sees which writes its
calls down. -/

namespace ConstantFlow

/-! ### What requests need and read -/

/-- The function whose analysis a request needs. An argument that folds, and one that is no tracked variable, need
none. -/
def Request.needs? (k : Kind) : Request → Option String
  | .query f _ _ | .analyze f | .dump f | .exportJson f => some f
  | .resolve f argument =>
    match k.fold argument.value with
    | some _ => none
    | none =>
      match argument.value with
      | .read v => if k.tracks v.type then some f else none
      | _ => none
  | .dumpAll | .isCached _ | .cachedFunctions | .clear => none

/-- What a request reads off the analysis that it needs. -/
def Request.read {k : Kind} (analysis : Analysis k) : Request → Answer k
  | .query _ name location => .fact (analysis.history.lookup name location)
  | .resolve _ argument =>
    match argument.value with
    | .read v => .fact (analysis.history.lookup v.name argument.location)
    | _ => .fact none
  | .dump f => .text (analysis.history.dump f)
  | .exportJson f => .text ((analysis.toJson f).pretty 0)
  | _ => .analysis analysis

namespace Analyzer
variable {k : Kind} {σ : Type}

/-- The answer to a request that needs no analysis. -/
def atHand (a : Analyzer k) : Request → Answer k
  | .resolve _ argument => .fact ((k.fold argument.value).map .resolved)
  | .dumpAll => .text a.dumpAll
  | .isCached f => .truth (a.analyses.contains f)
  | .cachedFunctions => .names a.analyses.names
  | _ => .done

/-- What is left of an analyzer by a request that needs no analysis. -/
def cleared (a : Analyzer k) : Request → Analyzer k
  | .clear => { a with analyses := Table.empty }
  | _ => a

theorem cleared_of_ne (a : Analyzer k) {r : Request} (h : r ≠ .clear) : a.cleared r = a := by
  cases r with
  | clear => exact absurd rfl h
  | _ => rfl

/-- The analysis of the graph that the source gave for a function, or why there is none. -/
def outcome (k : Kind) (settings : Settings) (functionId : String) (given : Except AnalysisError Graph) :
    Except AnalysisError (Analysis k) :=
  match given with
  | .error e => .error e
  | .ok g =>
    match refusal? settings functionId g with
    | some e => .error e
    | none => .ok (g.analyze k settings)

/-- Keeps the analysis of a function, if there is one. -/
def keep (a : Analyzer k) (functionId : String) : Except AnalysisError (Analysis k) → Analyzer k
  | .error _ => a
  | .ok analysis => { a with analyses := a.analyses.insert functionId analysis }

theorem outcome_eq_ok {settings : Settings} {f : String} {given : Except AnalysisError Graph} {analysis : Analysis k}
    (h : outcome k settings f given = .ok analysis) : ∃ g, given = .ok g ∧ analysis = g.analyze k settings := by
  cases given with
  | error e => cases h
  | ok g =>
      simp only [outcome] at h
      split at h
      · cases h
      · exact ⟨g, rfl, (Except.ok.inj h).symm⟩

theorem map_build (settings : Settings) (f : String) (given : Except AnalysisError Graph) :
    (build k settings f given).map Prod.fst = outcome k settings f given := by
  cases given with
  | error e => rfl
  | ok g =>
      simp only [build, outcome]
      cases refusal? settings f g <;> rfl

theorem kept?_of_enableCache {a : Analyzer k} (h : a.settings.enableCache = true) (f : String) :
    a.kept? f = a.analyses.get? f := by
  rw [kept?, h, if_pos rfl]

section Perform
variable (source : Source σ) (a : Analyzer k) (s : σ) {r : Request} {f : String}

theorem analyze_of_kept {analysis : Analysis k} (h : a.kept? f = some analysis) :
    a.analyze source s f = ⟨.ok analysis, a, s, [.cacheHit f]⟩ := by
  rw [analyze, h]

theorem analyze_of_not_kept (h : a.kept? f = none) :
    (a.analyze source s f).answer = outcome k a.settings f (source s f).1 ∧
      (a.analyze source s f).analyzer = a.keep f (outcome k a.settings f (source s f).1) ∧
      (a.analyze source s f).source = (source s f).2 := by
  rw [analyze, h, ← map_build]
  cases hbuild : build k a.settings f (source s f).1 with
  | error e =>
      simp only [hbuild]
      exact ⟨rfl, rfl, trivial⟩
  | ok found =>
      simp only [hbuild]
      exact ⟨rfl, rfl, trivial⟩

theorem perform_of_needs (h : r.needs? k = some f) : a.perform source s r = a.answerFrom source s f r.read := by
  cases r with
  | query f' name l =>
      cases h
      rfl
  | resolve f' argument =>
      cases hfold : k.fold argument.value with
      | some value => simp [Request.needs?, hfold] at h
      | none =>
          simp only [Request.needs?, hfold] at h
          split at h
          · rename_i v hvalue
            obtain ⟨htracks, hf⟩ := Option.ite_none_right_eq_some.1 h
            obtain rfl := Option.some.inj hf
            rw [hvalue] at hfold
            simp only [perform, hvalue, hfold, htracks, if_true, Request.read]
          · cases h
  | analyze f' =>
      cases h
      rfl
  | dump f' =>
      cases h
      rfl
  | dumpAll => cases h
  | exportJson f' =>
      cases h
      rfl
  | isCached f' => cases h
  | cachedFunctions => cases h
  | clear => cases h

theorem perform_of_needs_none (h : r.needs? k = none) :
    a.perform source s r = ⟨.ok (a.atHand r), a.cleared r, s, []⟩ := by
  cases r with
  | query f' name l => cases h
  | resolve f' argument =>
      cases hfold : k.fold argument.value with
      | some value => simp only [perform, hfold, atHand, cleared, Option.map_some]
      | none =>
          simp only [Request.needs?, hfold] at h
          simp only [perform, hfold, atHand, cleared, Option.map_none]
          split
          · rename_i v hvalue
            simp only [hvalue] at h
            split
            · rename_i htracks
              simp [htracks] at h
            · rfl
          · rfl
  | analyze f' => cases h
  | dump f' => cases h
  | dumpAll => rfl
  | exportJson f' => cases h
  | isCached f' => rfl
  | cachedFunctions => rfl
  | clear => rfl

end Perform

/-! ### Sessions -/

end Analyzer

/-- A call of a source: the function asked for, and what the source gave. -/
structure Call where
  functionId : String
  given : Except AnalysisError Graph

/-- The source that also writes down the calls made of it. -/
def Source.logged {σ : Type} (source : Source σ) : Source (σ × List Call) := fun s f =>
  ((source s.1 f).1, (source s.1 f).2, s.2 ++ [⟨f, (source s.1 f).1⟩])

/-- Writing the calls down changes nothing else. -/
theorem Analyzer.perform_logged {k : Kind} {σ : Type} (source : Source σ) (a : Analyzer k) (s : σ) (log : List Call)
    (r : Request) :
    (a.perform source.logged (s, log) r).answer = (a.perform source s r).answer ∧
      (a.perform source.logged (s, log) r).analyzer = (a.perform source s r).analyzer ∧
      (a.perform source.logged (s, log) r).source.1 = (a.perform source s r).source := by
  cases hneeds : r.needs? k with
  | none =>
      rw [perform_of_needs_none _ _ _ hneeds, perform_of_needs_none _ _ _ hneeds]
      exact ⟨rfl, rfl, rfl⟩
  | some f =>
      rw [perform_of_needs _ _ _ hneeds, perform_of_needs _ _ _ hneeds, answerFrom, answerFrom]
      cases hkept : a.kept? f with
      | some analysis =>
          rw [analyze_of_kept _ _ _ hkept, analyze_of_kept _ _ _ hkept]
          exact ⟨rfl, rfl, rfl⟩
      | none =>
          obtain ⟨hanswer, hanalyzer, hsource⟩ := a.analyze_of_not_kept source s hkept
          obtain ⟨hanswer', hanalyzer', hsource'⟩ := a.analyze_of_not_kept source.logged (s, log) hkept
          simp only [hanswer, hanswer', hanalyzer, hanalyzer', hsource, hsource', Source.logged, and_self]

/-- One request of a session, with its answer and the calls that it made of the source. -/
structure Event (k : Kind) where
  request : Request
  answer : Except AnalysisError (Answer k)
  calls : List Call

/-- How far a session has come. -/
structure Session (k : Kind) (σ : Type) where
  analyzer : Analyzer k
  /-- The state of the source. -/
  source : σ
  /-- What has happened, in order. -/
  past : List (Event k) := []

namespace Session
variable {k : Kind} {σ : Type}

/-- What happens on the next request. -/
def next (source : Source σ) (x : Session k σ) (r : Request) : Event k where
  request := r
  answer := (x.analyzer.perform source x.source r).answer
  calls := (x.analyzer.perform source.logged (x.source, []) r).source.2

def step (source : Source σ) (x : Session k σ) (r : Request) : Session k σ where
  analyzer := (x.analyzer.perform source x.source r).analyzer
  source := (x.analyzer.perform source x.source r).source
  past := x.past ++ [x.next source r]

/-- The requests of a session with their answers, in order. -/
def transcript (x : Session k σ) : List (Request × Except AnalysisError (Answer k)) :=
  x.past.map fun e => (e.request, e.answer)

end Session

/-- The session of some requests, made in turn of an analyzer and a source. -/
def Analyzer.session {k : Kind} {σ : Type} (source : Source σ) (a : Analyzer k) (s : σ) (requests : List Request) :
    Session k σ :=
  requests.foldl (Session.step source) ⟨a, s, []⟩

namespace Session
variable {k : Kind} {σ : Type} (source : Source σ) (x : Session k σ) {r : Request} {f : String}

/-- A request that needs no analysis. -/
theorem step_of_needs_none (h : r.needs? k = none) :
    x.next source r = ⟨r, .ok (x.analyzer.atHand r), []⟩ ∧
      x.step source r = ⟨x.analyzer.cleared r, x.source, x.past ++ [x.next source r]⟩ := by
  simp only [next, step, Analyzer.perform_of_needs_none _ _ _ h, and_self]

/-- A request that is answered from an analysis kept. -/
theorem step_of_kept {analysis : Analysis k} (h : r.needs? k = some f) (hkept : x.analyzer.kept? f = some analysis) :
    x.next source r = ⟨r, .ok (r.read analysis), []⟩ ∧
      x.step source r = ⟨x.analyzer, x.source, x.past ++ [x.next source r]⟩ := by
  simp only [next, step, Analyzer.perform_of_needs _ _ _ h, Analyzer.answerFrom, Analyzer.analyze_of_kept _ _ _ hkept,
    Except.map, and_self]

/-- A request that needs an analysis which is not kept. -/
theorem step_of_not_kept (h : r.needs? k = some f) (hkept : x.analyzer.kept? f = none) :
    x.next source r =
        ⟨r, (Analyzer.outcome k x.analyzer.settings f (source x.source f).1).map r.read,
          [⟨f, (source x.source f).1⟩]⟩ ∧
      x.step source r =
        ⟨x.analyzer.keep f (Analyzer.outcome k x.analyzer.settings f (source x.source f).1), (source x.source f).2,
          x.past ++ [x.next source r]⟩ := by
  obtain ⟨hanswer, hanalyzer, hsource⟩ := x.analyzer.analyze_of_not_kept source x.source hkept
  obtain ⟨-, -, hlogged⟩ := x.analyzer.analyze_of_not_kept source.logged (x.source, []) hkept
  simp only [next, step, Analyzer.perform_of_needs _ _ _ h, Analyzer.answerFrom, hanswer, hanalyzer, hsource, hlogged,
    Source.logged, List.nil_append, and_self]

variable {source x}

/-- A call of the source is for the function that the request needs, and no analysis of it is kept. -/
theorem needs_of_mem_calls {c : Call} (h : c ∈ (x.next source r).calls) :
    r.needs? k = some c.functionId ∧ x.analyzer.kept? c.functionId = none := by
  cases hneeds : r.needs? k with
  | none =>
      rw [(x.step_of_needs_none source hneeds).1] at h
      cases h
  | some f =>
      cases hkept : x.analyzer.kept? f with
      | some analysis =>
          rw [(x.step_of_kept source hneeds hkept).1] at h
          cases h
      | none =>
          rw [(x.step_of_not_kept source hneeds hkept).1] at h
          rw [List.mem_singleton.1 h]
          exact ⟨rfl, hkept⟩

/-- A request that fails leaves the analyzer as it was. -/
theorem analyzer_step_of_error {e : AnalysisError} (h : (x.next source r).answer = .error e) :
    (x.step source r).analyzer = x.analyzer := by
  cases hneeds : r.needs? k with
  | none =>
      rw [(x.step_of_needs_none source hneeds).1] at h
      cases h
  | some f =>
      cases hkept : x.analyzer.kept? f with
      | some analysis => rw [(x.step_of_kept source hneeds hkept).2]
      | none =>
          obtain ⟨hnext, hstep⟩ := x.step_of_not_kept source hneeds hkept
          rw [hnext] at h
          rw [hstep]
          cases hout : Analyzer.outcome k x.analyzer.settings f (source x.source f).1 with
          | error e' => rfl
          | ok analysis =>
              rw [hout] at h
              cases h

end Session
end ConstantFlow
