import ConstantFlow.Location
import ConstantFlow.State

/-! The facts found about each variable along a function, by location. The entries of a variable form an ascending
list without repeats, so the order of recording leaves no trace, and what is known at a location is the last entry
before it. -/

namespace ConstantFlow

/-- Why an entry is there. -/
inductive Origin where
  /-- States met at the start of a block. -/
  | merge
  /-- A statement changed the variable. -/
  | code
deriving DecidableEq, Repr

namespace Origin

/-- The name of an origin in listings and exports. -/
def name : Origin → String
  | .merge => "ControlFlowMerge"
  | .code => "ChangedByCode"

def ofName? (name : String) : Option Origin :=
  if name = Origin.merge.name then some .merge
  else if name = Origin.code.name then some .code
  else none

/-- The place of an origin among the entries of one location: what code changed comes last, and so holds. -/
def rank : Origin → Nat
  | .merge => 0
  | .code => 1

theorem rank_injective {a b : Origin} (h : a.rank = b.rank) : a = b := by
  cases a <;> cases b <;> simp [rank] at h ⊢

end Origin

/-- A fact about a variable from a location on. -/
structure Entry (k : Kind) where
  location : Location
  origin : Origin
  fact : Fact k.Value
deriving DecidableEq

namespace Entry
variable {k : Kind}

/-- Entries are ordered by location, then origin, then fact. -/
instance : LT (Entry k) where
  lt a b := a.location < b.location ∨
    a.location = b.location ∧ (a.origin.rank < b.origin.rank ∨ a.origin = b.origin ∧ a.fact < b.fact)

instance : DecidableLT (Entry k) := fun a b =>
  inferInstanceAs (Decidable (a.location < b.location ∨
    a.location = b.location ∧ (a.origin.rank < b.origin.rank ∨ a.origin = b.origin ∧ a.fact < b.fact)))

theorem lt_iff {a b : Entry k} : a < b ↔ a.location < b.location ∨
    a.location = b.location ∧ (a.origin.rank < b.origin.rank ∨ a.origin = b.origin ∧ a.fact < b.fact) :=
  Iff.rfl

theorem fact_lt_trans {a b c : Fact k.Value} (hab : a < b) (hbc : b < c) : a < c := by
  cases b with
  | unresolved => exact absurd hab (Fact.not_lt_unresolved a)
  | resolved y =>
      cases c with
      | unresolved => exact absurd hbc (Fact.not_lt_unresolved _)
      | resolved z =>
          cases a with
          | unresolved => exact Fact.unresolved_lt_resolved z
          | resolved x => exact Kind.lt_trans (a := x) (b := y) hab hbc

theorem fact_lt_trichotomy (a b : Fact k.Value) : a < b ∨ a = b ∨ b < a := by
  cases a with
  | unresolved =>
      cases b with
      | unresolved => exact .inr (.inl rfl)
      | resolved y => exact .inl (Fact.unresolved_lt_resolved y)
  | resolved x =>
      cases b with
      | unresolved => exact .inr (.inr (Fact.unresolved_lt_resolved x))
      | resolved y =>
          rcases Kind.lt_trichotomy x y with h | h | h
          · exact .inl h
          · exact .inr (.inl (congrArg _ h))
          · exact .inr (.inr h)

theorem lt_trans {a b c : Entry k} (hab : a < b) (hbc : b < c) : a < c := by
  cases hab with
  | inl hab =>
      cases hbc with
      | inl hbc => exact .inl (Location.lt_trans hab hbc)
      | inr hbc => exact .inl (hbc.1 ▸ hab)
  | inr hab =>
      cases hbc with
      | inl hbc => exact .inl (hab.1 ▸ hbc)
      | inr hbc =>
          refine .inr ⟨hab.1.trans hbc.1, ?_⟩
          cases hab.2 with
          | inl ho =>
              cases hbc.2 with
              | inl ho' => exact .inl (Nat.lt_trans ho ho')
              | inr ho' => exact .inl (ho'.1 ▸ ho)
          | inr ho =>
              cases hbc.2 with
              | inl ho' => exact .inl (ho.1 ▸ ho')
              | inr ho' => exact .inr ⟨ho.1.trans ho'.1, fact_lt_trans ho.2 ho'.2⟩

theorem lt_trichotomy (a b : Entry k) : a < b ∨ a = b ∨ b < a := by
  rcases Location.lt_trichotomy a.location b.location with hl | hl | hl
  · exact .inl (.inl hl)
  · rcases Nat.lt_trichotomy a.origin.rank b.origin.rank with ho | ho | ho
    · exact .inl (.inr ⟨hl, .inl ho⟩)
    · have ho := Origin.rank_injective ho
      rcases fact_lt_trichotomy a.fact b.fact with hf | hf | hf
      · exact .inl (.inr ⟨hl, .inr ⟨ho, hf⟩⟩)
      · cases a
        cases b
        cases hl
        cases ho
        cases hf
        exact .inr (.inl rfl)
      · exact .inr (.inr (.inr ⟨hl.symm, .inr ⟨ho.symm, hf⟩⟩))
    · exact .inr (.inr (.inr ⟨hl.symm, .inl ho⟩))
  · exact .inr (.inr (.inl hl))

/-- Puts an entry at its place in an ascending list, unless it is there. -/
def place (e : Entry k) : List (Entry k) → List (Entry k)
  | [] => [e]
  | f :: rest =>
    if e < f then e :: f :: rest
    else if f < e then f :: place e rest
    else f :: rest

theorem mem_place {e f : Entry k} {l : List (Entry k)} (h : f ∈ place e l) : f = e ∨ f ∈ l := by
  induction l with
  | nil => simpa [place] using h
  | cons g rest ih =>
      simp only [place] at h
      split at h
      · simpa using h
      · split at h
        · cases List.mem_cons.1 h with
          | inl heq => exact .inr (heq ▸ List.mem_cons_self)
          | inr hrest =>
              cases ih hrest with
              | inl heq => exact .inl heq
              | inr hmem => exact .inr (List.mem_cons_of_mem _ hmem)
        · exact .inr h

theorem ascending_place (e : Entry k) {l : List (Entry k)} (h : l.Pairwise (· < ·)) :
    (place e l).Pairwise (· < ·) := by
  induction l with
  | nil => simp [place]
  | cons f rest ih =>
      obtain ⟨hf, hrest⟩ := List.pairwise_cons.1 h
      simp only [place]
      split
      · rename_i hlt
        refine List.pairwise_cons.2 ⟨fun g hg => ?_, h⟩
        cases List.mem_cons.1 hg with
        | inl heq => exact heq ▸ hlt
        | inr hmem => exact lt_trans hlt (hf g hmem)
      · split
        · rename_i hgt
          refine List.pairwise_cons.2 ⟨fun g hg => ?_, ih hrest⟩
          cases mem_place hg with
          | inl heq => exact heq ▸ hgt
          | inr hmem => exact hf g hmem
        · exact h

theorem place_ne_nil (e : Entry k) (l : List (Entry k)) : place e l ≠ [] := by
  cases l with
  | nil => simp [place]
  | cons f rest =>
      simp only [place]
      split
      · simp
      · split <;> simp

/-- Entries in ascending order, with repeats kept. -/
def sort (entries : List (Entry k)) : List (Entry k) := entries.mergeSort fun a b => !decide (b < a)

end Entry

/-- The entries of one variable: at least one, ascending, without repeats. -/
structure Track (k : Kind) where
  entries : List (Entry k)
  ascending : entries.Pairwise (· < ·)
  nonempty : entries ≠ []
deriving DecidableEq

namespace Track
variable {k : Kind}

def single (e : Entry k) : Track k := ⟨[e], List.pairwise_singleton _ e, List.cons_ne_nil _ _⟩

/-- Adds an entry; one that is there already is not added twice. -/
def record (t : Track k) (e : Entry k) : Track k :=
  ⟨Entry.place e t.entries, Entry.ascending_place e t.ascending, Entry.place_ne_nil e t.entries⟩

/-- The fact of the last entry strictly before a location. -/
def lookup (t : Track k) (location : Location) : Option (Fact k.Value) :=
  (t.entries.reverse.find? fun e => e.location < location).map (·.fact)

end Track

/-- The entries of every variable, by name. -/
structure History (k : Kind) where
  tracks : Table (Track k)
deriving DecidableEq

namespace History
variable {k : Kind}

def empty : History k := ⟨Table.empty⟩

def record (h : History k) (name : String) (e : Entry k) : History k :=
  match h.tracks.get? name with
  | none => ⟨h.tracks.insert name (Track.single e)⟩
  | some track => ⟨h.tracks.insert name (track.record e)⟩

def recordAll (h : History k) (entries : List (String × Entry k)) : History k :=
  entries.foldl (fun h p => h.record p.1 p.2) h

/-- What is known about a variable at a location: the fact of its last entry strictly before it. There is no answer
where nothing was recorded before. -/
def lookup (h : History k) (name : String) (location : Location) : Option (Fact k.Value) :=
  (h.tracks.get? name).bind (·.lookup location)

/-- The variables with entries, in name order. -/
def names (h : History k) : List String := h.tracks.names

/-- The entries of a variable, ascending. -/
def entries (h : History k) (name : String) : List (Entry k) :=
  match h.tracks.get? name with
  | none => []
  | some track => track.entries

/-- The number of entries of all variables together. -/
def size (h : History k) : Nat := (h.tracks.values.flatMap Track.entries).length

def isEmpty (h : History k) : Bool := h.tracks.isEmpty

end History
end ConstantFlow
