import ConstantFlow.Proofs.HistoryLookup
import Mathlib.Data.Prod.Lex
import Mathlib.Order.WithBot

/-! The order of recording. Blocks are recorded as they are walked, not as they stand in the source, so entries come in
any order and may come again. A history keeps no trace of that: it lists the entries of each variable once, ascending,
and a lookup answers with the greatest of those recorded before the location. The order of entries is given here by
keys, compared lexicographically. -/

namespace ConstantFlow

/-- What positions are compared by: line, column and index. -/
def Location.key (l : Location) : UInt32 ×ₗ UInt32 ×ₗ UInt32 := toLex (l.line, toLex (l.column, l.index))

/-- What facts are compared by: the constant, with less than any constant where there is none. -/
def Fact.key {α : Type} : Fact α → WithBot α
  | .unresolved => ⊥
  | .resolved value => value

/-- What entries are compared by: location, origin and fact. -/
def Entry.key {k : Kind} (e : Entry k) : (UInt32 ×ₗ UInt32 ×ₗ UInt32) ×ₗ Nat ×ₗ WithBot k.Value :=
  toLex (e.location.key, toLex (e.origin.rank, e.fact.key))

theorem Location.key_injective {a b : Location} (h : a.key = b.key) : a = b := by
  cases a
  cases b
  cases h
  rfl

theorem Location.key_lt_key {a b : Location} : a.key < b.key ↔ a < b := by
  rw [key, key, Prod.Lex.toLex_lt_toLex, Prod.Lex.toLex_lt_toLex, lt_iff]

theorem Fact.key_lt_key {k : Kind} {f g : Fact k.Value} : f.key < g.key ↔ f < g := by
  cases f with
  | unresolved =>
      cases g with
      | unresolved => simp [key, not_lt_unresolved]
      | resolved d => simp [key, unresolved_lt_resolved]
  | resolved c =>
      cases g with
      | unresolved => simp [key, not_lt_unresolved]
      | resolved d => simp [key, resolved_lt_resolved]

theorem Entry.key_lt_key {k : Kind} {e f : Entry k} : e.key < f.key ↔ e < f := by
  have hlocation : e.location.key = f.location.key ↔ e.location = f.location :=
    ⟨Location.key_injective, congrArg Location.key⟩
  have horigin : e.origin.rank = f.origin.rank ↔ e.origin = f.origin :=
    ⟨Origin.rank_injective, congrArg Origin.rank⟩
  rw [key, key, Prod.Lex.toLex_lt_toLex, Prod.Lex.toLex_lt_toLex, lt_iff, Location.key_lt_key, Fact.key_lt_key,
    hlocation, horigin]

namespace History
variable {k : Kind} {calls : List (String × Entry k)} {name : String} {l : Location}

/-- Whether an entry is the greatest of those recorded for a variable before a location. -/
structure LastBefore (calls : List (String × Entry k)) (name : String) (l : Location) (e : Entry k) : Prop where
  recorded : (name, e) ∈ calls
  before : e.location.key < l.key
  greatest : ∀ f, (name, f) ∈ calls → f.location.key < l.key → f = e ∨ f.key < e.key

theorem lookup_recorded_eq_some_iff {fact : Fact k.Value} :
    (empty.recordAll calls).lookup name l = some fact ↔ ∃ e, LastBefore calls name l e ∧ e.fact = fact := by
  have hascending := (empty.recordAll calls).entries_ascending name
  rw [lookup_eq_answer]
  constructor
  · intro h
    rcases Entry.answer_cases l hascending with ⟨hnone, -⟩ | ⟨m, hm, hlt, hsome, hall⟩
    · rw [hnone] at h
      cases h
    · refine ⟨m, ⟨mem_entries_recorded.1 hm, Location.key_lt_key.2 hlt, fun f hf hfl => ?_⟩, ?_⟩
      · rw [Entry.key_lt_key]
        exact hall f (mem_entries_recorded.2 hf) (Location.key_lt_key.1 hfl)
      · exact Option.some.inj (hsome.symm.trans h)
  · rintro ⟨e, he, rfl⟩
    refine Entry.answer_eq_some hascending (mem_entries_recorded.2 he.recorded) (Location.key_lt_key.1 he.before) ?_
    intro f hf hfl
    rcases he.greatest f (mem_entries_recorded.1 hf) (Location.key_lt_key.2 hfl) with rfl | hlt
    · exact Or.inr rfl
    · exact Or.inl (Entry.key_lt_key.1 hlt)

theorem lookup_recorded_eq_none_iff :
    (empty.recordAll calls).lookup name l = none ↔ ∀ e, (name, e) ∈ calls → ¬ e.location.key < l.key := by
  simp only [Location.key_lt_key, ← mem_entries_recorded (l := calls)]
  rw [lookup_eq_answer]
  have hascending := (empty.recordAll calls).entries_ascending name
  rcases Entry.answer_cases l hascending with ⟨hnone, hall⟩ | ⟨m, hm, hlt, hsome, -⟩
  · exact ⟨fun _ => hall, fun _ => hnone⟩
  · rw [hsome]
    exact ⟨fun h => (nomatch h), fun h => absurd hlt (h m hm)⟩

/-- A history depends on what was recorded and not on when or how often. Each variable lists its own entries in strictly
ascending order, and a lookup answers with the fact of the greatest one recorded before the location, if there is
one. -/
theorem recordAll_forgets_order {calls' : List (String × Entry k)} (hsame : ∀ p, p ∈ calls' ↔ p ∈ calls) :
    empty.recordAll calls' = empty.recordAll calls ∧
      (∀ name, ((empty.recordAll calls).entries name).Pairwise (fun e f => e.key < f.key) ∧
        ∀ e, e ∈ (empty.recordAll calls).entries name ↔ (name, e) ∈ calls) ∧
      ∀ name l,
        (∀ fact, (empty.recordAll calls).lookup name l = some fact ↔
          ∃ e, LastBefore calls name l e ∧ e.fact = fact) ∧
        ((empty.recordAll calls).lookup name l = none ↔
          ∀ e, (name, e) ∈ calls → ¬ e.location.key < l.key) := by
  refine ⟨?_, fun name => ⟨?_, fun e => mem_entries_recorded⟩,
    fun name l => ⟨fun fact => lookup_recorded_eq_some_iff, lookup_recorded_eq_none_iff⟩⟩
  · apply ext_entries
    intro name e
    rw [mem_entries_recorded, mem_entries_recorded, hsame]
  · exact (entries_ascending _ name).imp Entry.key_lt_key.2

/-- Entries of two variables as a walk may come to them. Three share a location, and the one that code made is neither
the first nor the last of them. -/
def shuffled : List (String × Entry .integer) :=
  [("v", ⟨⟨7, 1, 0⟩, .code, .resolved 4⟩), ("v", ⟨⟨3, 1, 0⟩, .merge, .resolved 9⟩),
    ("v", ⟨⟨3, 1, 0⟩, .code, .resolved 2⟩), ("n", ⟨⟨1, 1, 0⟩, .code, .resolved 5⟩),
    ("v", ⟨⟨3, 1, 0⟩, .merge, .unresolved⟩)]

theorem recordAll_forgets_order_shuffled :
    empty.recordAll (shuffled.reverse ++ shuffled) = empty.recordAll shuffled ∧
      (empty.recordAll shuffled).lookup "v" ⟨3, 1, 1⟩ = some (.resolved 2) ∧
      (∃ e, LastBefore shuffled "v" ⟨3, 1, 1⟩ e ∧ e.fact = .resolved 2) ∧
      (empty.recordAll shuffled).lookup "v" ⟨3, 1, 0⟩ = none ∧
      ∀ e, ("v", e) ∈ shuffled → ¬ e.location.key < (⟨3, 1, 0⟩ : Location).key := by
  have hsame : ∀ p, p ∈ shuffled.reverse ++ shuffled ↔ p ∈ shuffled := by simp
  obtain ⟨hequal, -, hlookup⟩ := recordAll_forgets_order hsame
  have hsome : (empty.recordAll shuffled).lookup "v" ⟨3, 1, 1⟩ = some (.resolved 2) := by decide
  have hnone : (empty.recordAll shuffled).lookup "v" ⟨3, 1, 0⟩ = none := by decide
  exact ⟨hequal, hsome, ((hlookup _ _).1 _).1 hsome, hnone, (hlookup _ _).2.1 hnone⟩

end History
end ConstantFlow
