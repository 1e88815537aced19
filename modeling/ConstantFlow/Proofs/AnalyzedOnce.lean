import ConstantFlow.Graph.Builder
import ConstantFlow.Proofs.Sessions
import Mathlib.Data.List.Induction

/-! An analyzer that keeps its analyses makes each of them once. What it holds can be read off the past of a session:
the functions analyzed since the last time it was cleared, each with the analysis of the first graph that the source
gave for it. The source may answer as it likes. -/

namespace ConstantFlow

/-! ### Reading the past -/

/-- Whether the analysis of a function was needed, and there was one. -/
def Event.Analyzes {k : Kind} (f : String) (e : Event k) : Prop :=
  e.request.needs? k = some f ∧ ∃ answer, e.answer = .ok answer

/-- Whether there is an event, with a property that may look at what came before it, after which nothing was
cleared. -/
def SinceClear {k : Kind} (P : List (Event k) → Event k → Prop) (past : List (Event k)) : Prop :=
  ∃ earlier e later, past = earlier ++ e :: later ∧ P earlier e ∧ ∀ x ∈ later, x.request ≠ .clear

/-- Whether a function has been analyzed since the last clearing. -/
def AnalyzedSince {k : Kind} (f : String) (past : List (Event k)) : Prop :=
  SinceClear (fun _ e => e.Analyzes f) past

/-- Whether the function has been analyzed since the last clearing, and from this graph the first time. -/
def FirstGraph {k : Kind} (f : String) (g : Graph) (past : List (Event k)) : Prop :=
  SinceClear (fun earlier e => ¬ AnalyzedSince f earlier ∧ e.Analyzes f ∧ e.calls = [⟨f, .ok g⟩]) past

section Past
variable {k : Kind} {P : List (Event k) → Event k → Prop} {past : List (Event k)} {e : Event k}

theorem not_sinceClear_nil : ¬ SinceClear P [] := by
  intro h
  obtain ⟨earlier, e, later, hpast, -⟩ := h
  simp at hpast

theorem sinceClear_snoc :
    SinceClear P (past ++ [e]) ↔ P past e ∨ (SinceClear P past ∧ e.request ≠ .clear) := by
  constructor
  · intro h
    obtain ⟨earlier, found, later, hpast, hfound, hlater⟩ := h
    cases later using List.reverseRecOn with
    | nil =>
        obtain ⟨rfl, hsingle⟩ := List.append_inj' hpast rfl
        obtain rfl := List.singleton_inj.1 hsingle
        exact .inl hfound
    | append_singleton later last =>
        rw [← List.cons_append, ← List.append_assoc] at hpast
        obtain ⟨rfl, hsingle⟩ := List.append_inj' hpast rfl
        obtain rfl := List.singleton_inj.1 hsingle
        exact .inr ⟨⟨earlier, found, later, rfl, hfound, fun x hx => hlater x (List.mem_append_left _ hx)⟩,
          hlater e (List.mem_append_right _ List.mem_cons_self)⟩
  · intro h
    cases h with
    | inl hnow => exact ⟨past, e, [], rfl, hnow, fun x hx => (nomatch hx)⟩
    | inr hbefore =>
        obtain ⟨⟨earlier, found, later, rfl, hfound, hlater⟩, hclear⟩ := hbefore
        refine ⟨earlier, found, later ++ [e], by simp, hfound, ?_⟩
        intro x hx
        cases List.mem_append.1 hx with
        | inl hx => exact hlater x hx
        | inr hx => exact List.mem_singleton.1 hx ▸ hclear

theorem FirstGraph.analyzedSince {f : String} {g : Graph} (h : FirstGraph f g past) : AnalyzedSince f past := by
  obtain ⟨earlier, e, later, hpast, hfirst, hlater⟩ := h
  exact ⟨earlier, e, later, hpast, hfirst.2.1, hlater⟩

theorem FirstGraph.unique {f : String} {g g' : Graph} (h : FirstGraph f g past) (h' : FirstGraph f g' past) :
    g = g' := by
  induction past using List.reverseRecOn with
  | nil => exact absurd h not_sinceClear_nil
  | append_singleton past e ih =>
      -- The first analysis is the last event in both readings or in neither.
      cases sinceClear_snoc.1 h with
      | inl hnow =>
          cases sinceClear_snoc.1 h' with
          | inl hnow' =>
              have hcalls := hnow.2.2.symm.trans hnow'.2.2
              simpa using hcalls
          | inr hbefore' => exact absurd (FirstGraph.analyzedSince hbefore'.1) hnow.1
      | inr hbefore =>
          cases sinceClear_snoc.1 h' with
          | inl hnow' => exact absurd (FirstGraph.analyzedSince hbefore.1) hnow'.1
          | inr hbefore' => exact ih hbefore.1 hbefore'.1

theorem Request.ne_clear_of_needs {r : Request} {f : String} (h : r.needs? k = some f) : r ≠ .clear := by
  intro hclear
  subst hclear
  cases h

end Past

/-! ### What a session remembers -/

namespace Session
variable {k : Kind} {σ : Type} {settings : Settings} {x y : Session k σ} {f : String} {r : Request}

/-- What is held of a function agrees with the past. -/
structure Remembers (settings : Settings) (x : Session k σ) (f : String) : Prop where
  absent : ¬ AnalyzedSince f x.past → x.analyzer.analyses.get? f = none
  present : AnalyzedSince f x.past →
    ∃ g, FirstGraph f g x.past ∧ x.analyzer.analyses.get? f = some (g.analyze k settings)

theorem Remembers.isSome_iff (h : Remembers settings x f) :
    (x.analyzer.analyses.get? f).isSome ↔ AnalyzedSince f x.past := by
  constructor
  · intro hsome
    by_contra hnot
    rw [h.absent hnot] at hsome
    cases hsome
  · intro hsince
    obtain ⟨g, -, hget⟩ := h.present hsince
    rw [hget]
    rfl

/-- An event that neither clears nor analyzes the function for the first time leaves it as it was. -/
theorem Remembers.frame (h : Remembers settings x f) {e : Event k} (hpast : y.past = x.past ++ [e])
    (hclear : e.request ≠ .clear) (hold : e.Analyzes f → AnalyzedSince f x.past)
    (hsame : y.analyzer.analyses.get? f = x.analyzer.analyses.get? f) : Remembers settings y f := by
  have hiff : AnalyzedSince f y.past ↔ AnalyzedSince f x.past := by
    rw [hpast, AnalyzedSince, sinceClear_snoc]
    exact ⟨fun hor => hor.elim hold And.left, fun hsince => .inr ⟨hsince, hclear⟩⟩
  constructor
  · intro hnot
    rw [hsame, h.absent (hiff.not.1 hnot)]
  · intro hsince
    obtain ⟨g, hfirst, hget⟩ := h.present (hiff.1 hsince)
    refine ⟨g, ?_, hsame.trans hget⟩
    rw [hpast]
    exact sinceClear_snoc.2 (.inr ⟨hfirst, hclear⟩)

theorem Remembers.step (source : Source σ) (hsettings : x.analyzer.settings = settings)
    (hcache : settings.enableCache = true) (h : ∀ f, Remembers settings x f) (r : Request) :
    (x.step source r).analyzer.settings = settings ∧ ∀ f, Remembers settings (x.step source r) f := by
  have hkept := Analyzer.kept?_of_enableCache (hsettings ▸ hcache)
  cases hneeds : r.needs? k with
  | none =>
      obtain ⟨hnext, hstep⟩ := x.step_of_needs_none source hneeds
      have hnever : ∀ f, ¬ (x.next source r).Analyzes f := by
        intro f hanalyzes
        rw [hnext, Event.Analyzes, hneeds] at hanalyzes
        cases hanalyzes.1
      rw [hstep]
      by_cases hclear : r = .clear
      · subst hclear
        refine ⟨hsettings, fun f => ⟨fun _ => rfl, fun hsince => ?_⟩⟩
        cases sinceClear_snoc.1 hsince with
        | inl hnow => exact absurd hnow (hnever f)
        | inr hbefore => exact absurd rfl hbefore.2
      · rw [Analyzer.cleared_of_ne _ hclear]
        exact ⟨hsettings, fun f => (h f).frame rfl hclear (fun hnow => absurd hnow (hnever f)) rfl⟩
  | some needed =>
      have hclear := Request.ne_clear_of_needs hneeds
      have honly : ∀ f, (x.next source r).Analyzes f → f = needed := by
        intro f hanalyzes
        exact Option.some.inj (hanalyzes.1.symm.trans hneeds)
      cases hget : x.analyzer.analyses.get? needed with
      | some analysis =>
          obtain ⟨-, hstep⟩ := x.step_of_kept source hneeds ((hkept needed).trans hget)
          rw [hstep]
          refine ⟨hsettings, fun f => (h f).frame rfl hclear ?_ rfl⟩
          intro hnow
          rw [honly f hnow, ← (h needed).isSome_iff, hget]
          rfl
      | none =>
          obtain ⟨hnext, hstep⟩ := x.step_of_not_kept source hneeds ((hkept needed).trans hget)
          rw [hstep]
          cases hout : Analyzer.outcome k x.analyzer.settings needed (source x.source needed).1 with
          | error error =>
              refine ⟨hsettings, fun f => (h f).frame rfl hclear ?_ rfl⟩
              intro hnow
              obtain ⟨-, answer, hanswer⟩ := hnow
              rw [hnext, hout] at hanswer
              cases hanswer
          | ok analysis =>
              refine ⟨hsettings, fun f => ?_⟩
              by_cases hf : f = needed
              · -- The first analysis of the function: the past now ends with it.
                subst hf
                rw [hsettings] at hout
                obtain ⟨g, hgiven, hanalysis⟩ := Analyzer.outcome_eq_ok hout
                have hfresh : ¬ AnalyzedSince f x.past := by
                  rw [← (h f).isSome_iff, hget]
                  simp
                have hnow : (x.next source r).Analyzes f := by
                  refine ⟨hneeds, r.read analysis, ?_⟩
                  rw [hnext, hsettings, hout]
                  rfl
                have hfirst : FirstGraph f g (x.past ++ [x.next source r]) := by
                  refine sinceClear_snoc.2 (.inl ⟨hfresh, hnow, ?_⟩)
                  rw [hnext, hgiven]
                refine ⟨fun hnot => absurd (sinceClear_snoc.2 (.inl hnow)) hnot, fun _ => ⟨g, hfirst, ?_⟩⟩
                show (x.analyzer.analyses.insert f analysis).get? f = _
                rw [Table.get?_insert, if_pos rfl, hanalysis]
              · refine (h f).frame rfl hclear (fun hnow => absurd (honly f hnow) hf) ?_
                show (x.analyzer.analyses.insert needed analysis).get? f = _
                rw [Table.get?_insert, if_neg hf]

end Session

namespace Analyzer
variable {k : Kind} {σ : Type} {settings : Settings} {a : Analyzer k}

theorem remembers_session (hnew : new k settings = .ok a) (hcache : settings.enableCache = true) (source : Source σ)
    (s : σ) (requests : List Request) :
    (a.session source s requests).analyzer.settings = settings ∧
      ∀ f, Session.Remembers settings (a.session source s requests) f := by
  induction requests using List.reverseRecOn with
  | nil =>
      simp only [new] at hnew
      split at hnew
      · cases hnew
      · cases hnew
        exact ⟨rfl, fun f => ⟨fun _ => rfl, fun hsince => absurd hsince not_sinceClear_nil⟩⟩
  | append_singleton requests r ih =>
      rw [session, List.foldl_append]
      exact Session.Remembers.step source ih.1 hcache ih.2 r

/-- After any requests to an analyzer that keeps its analyses, and for any next request: a function analyzed since the
last clearing is not asked for again, and answered from the graph of its first analysis; one that is needed and was
not analyzed is asked for once; a request that needs no analysis asks for nothing; one that fails changes nothing; and
the functions held are those analyzed since the last clearing. -/
theorem session_analyzes_once (hnew : new k settings = .ok a) (hcache : settings.enableCache = true)
    (source : Source σ) (s : σ) (requests : List Request) (r : Request) :
    let x := a.session source s requests
    (∀ f, AnalyzedSince f x.past →
      (∀ c ∈ (x.next source r).calls, c.functionId ≠ f) ∧
        ∃ g, (∀ g', FirstGraph f g' x.past ↔ g' = g) ∧
          (r.needs? k = some f → (x.next source r).answer = .ok (r.read (g.analyze k settings)))) ∧
    (∀ f, r.needs? k = some f → ¬ AnalyzedSince f x.past → ∃ given, (x.next source r).calls = [⟨f, given⟩]) ∧
    (r.needs? k = none → (x.next source r).calls = []) ∧
    (∀ error, (x.next source r).answer = .error error → (x.step source r).analyzer = x.analyzer) ∧
    (∀ f, ∃ held, (x.next source (.isCached f)).answer = .ok (.truth held) ∧
      (held = true ↔ AnalyzedSince f x.past)) := by
  obtain ⟨hsettings, hremembers⟩ := remembers_session hnew hcache source s requests
  intro x
  have hkept := kept?_of_enableCache (a := x.analyzer) (hsettings ▸ hcache)
  refine ⟨?_, ?_, ?_, fun error => Session.analyzer_step_of_error, ?_⟩
  · intro f hsince
    obtain ⟨g, hfirst, hget⟩ := (hremembers f).present hsince
    have hfound : x.analyzer.kept? f = some (g.analyze k settings) := (hkept f).trans hget
    refine ⟨?_, g, fun g' => ⟨fun hfirst' => hfirst'.unique hfirst, fun heq => heq ▸ hfirst⟩, ?_⟩
    · intro c hc hf
      have hnone := (Session.needs_of_mem_calls hc).2
      rw [hf, hfound] at hnone
      cases hnone
    · intro hneeds
      rw [(x.step_of_kept source hneeds hfound).1]
  · intro f hneeds hnot
    have hnone : x.analyzer.kept? f = none := (hkept f).trans ((hremembers f).absent hnot)
    exact ⟨_, congrArg Event.calls (x.step_of_not_kept source hneeds hnone).1⟩
  · intro hneeds
    rw [(x.step_of_needs_none source hneeds).1]
  · intro f
    exact ⟨x.analyzer.analyses.contains f, rfl, (hremembers f).isSome_iff⟩

/-- A source that fails at first and then gives another graph each time. -/
def waveringSource : Source Nat := fun n f =>
  if n = 0 then (.error (.sourceFailed f "busy"), 1)
  else (.ok (Graph.build f [.block [.assign ⟨"v", .integer⟩ (.int (.ofNat n)) ⟨1, 1, 0⟩, .other ⟨2, 1, 0⟩]]), n + 1)

/-- The same question three times: the source fails, then gives a graph, and is not asked again. -/
theorem session_analyzes_once_waveringSource :
    let ask := Request.query "f" "v" ⟨2, 1, 0⟩
    let x := (⟨{}, Table.empty⟩ : Analyzer .integer).session waveringSource 0 [ask, ask]
    x.past.map (fun e => e.calls.length) = [1, 1] ∧ AnalyzedSince "f" x.past ∧
      ∀ c ∈ (x.next waveringSource ask).calls, c.functionId ≠ "f" := by
  intro ask x
  have hsince : AnalyzedSince "f" x.past :=
    ⟨x.past.take 1, x.past[1], [], rfl, ⟨rfl, _, rfl⟩, fun y hy => (nomatch hy)⟩
  have hnew : new .integer {} = .ok ⟨{}, Table.empty⟩ := by decide
  exact ⟨by decide +kernel, hsince,
    ((session_analyzes_once hnew rfl waveringSource 0 [ask, ask] ask).1 "f" hsince).1⟩

end Analyzer
end ConstantFlow
