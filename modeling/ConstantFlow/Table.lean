/-! Finite tables from names to values. A table lists its names in strictly ascending code point order, so
two tables that answer every name alike are the same table, and every listing of one is in name order. -/

namespace ConstantFlow

/-- The value of the first pair with a name. -/
def valueOf? {α : Type} (name : String) : List (String × α) → Option α
  | [] => none
  | p :: rest => if p.1 = name then some p.2 else valueOf? name rest

/-- Values by name, each name at most once, in ascending name order. -/
structure Table (α : Type) where
  /-- The pairs of the table, in name order. -/
  toList : List (String × α)
  ascending : toList.Pairwise (fun p q => p.1 < q.1)
deriving DecidableEq

namespace Table
variable {α β : Type}

/-- Puts a pair at its place in an ascending list, replacing a pair of the same name. -/
def place (name : String) (value : α) : List (String × α) → List (String × α)
  | [] => [(name, value)]
  | p :: rest =>
    if name < p.1 then (name, value) :: p :: rest
    else if p.1 < name then p :: place name value rest
    else (name, value) :: rest

theorem mem_place {name : String} {value : α} {l : List (String × α)} {p : String × α}
    (h : p ∈ place name value l) : p = (name, value) ∨ p ∈ l := by
  induction l with
  | nil => simpa [place] using h
  | cons q rest ih =>
      simp only [place] at h
      split at h
      · simpa using h
      · split at h
        · cases List.mem_cons.1 h with
          | inl heq => exact .inr (heq ▸ List.mem_cons_self)
          | inr hrest =>
              cases ih hrest with
              | inl heq => exact .inl heq
              | inr hmem => exact .inr (List.mem_cons_of_mem _ hmem)
        · cases List.mem_cons.1 h with
          | inl heq => exact .inl heq
          | inr hmem => exact .inr (List.mem_cons_of_mem _ hmem)

theorem ascending_place (name : String) (value : α) {l : List (String × α)}
    (h : l.Pairwise (fun p q => p.1 < q.1)) : (place name value l).Pairwise (fun p q => p.1 < q.1) := by
  induction l with
  | nil => simp [place]
  | cons q rest ih =>
      obtain ⟨hq, hrest⟩ := List.pairwise_cons.1 h
      simp only [place]
      split
      · rename_i hlt
        refine List.pairwise_cons.2 ⟨fun p hp => ?_, h⟩
        cases List.mem_cons.1 hp with
        | inl heq => exact heq ▸ hlt
        | inr hmem => exact String.lt_trans hlt (hq p hmem)
      · rename_i hnlt
        split
        · rename_i hgt
          refine List.pairwise_cons.2 ⟨fun p hp => ?_, ih hrest⟩
          cases mem_place hp with
          | inl heq => exact heq ▸ hgt
          | inr hmem => exact hq p hmem
        · rename_i hngt
          have heq : name = q.1 := by
            rcases Std.lt_trichotomy name q.1 with h | h | h
            · exact absurd h hnlt
            · exact h
            · exact absurd h hngt
          exact List.pairwise_cons.2 ⟨fun p hp => heq ▸ hq p hp, hrest⟩

def empty : Table α := ⟨[], List.Pairwise.nil⟩

instance : EmptyCollection (Table α) := ⟨empty⟩

def get? (t : Table α) (name : String) : Option α := valueOf? name t.toList

/-- The table with `name` holding `value`, whatever it held before. -/
def insert (t : Table α) (name : String) (value : α) : Table α :=
  ⟨place name value t.toList, ascending_place name value t.ascending⟩

/-- The names of the table, ascending. -/
def names (t : Table α) : List String := t.toList.map (·.1)

/-- The values of the table, in the order of their names. -/
def values (t : Table α) : List α := t.toList.map (·.2)

def size (t : Table α) : Nat := t.toList.length

def isEmpty (t : Table α) : Bool := t.toList.isEmpty

def contains (t : Table α) (name : String) : Bool := (t.get? name).isSome

/-- Changes every value and keeps the names. -/
def map (f : α → β) (t : Table α) : Table β :=
  ⟨t.toList.map fun p => (p.1, f p.2), List.pairwise_map.2 t.ascending⟩

/-- The table of a list of pairs; a later pair replaces an earlier one of its name. -/
def ofList (pairs : List (String × α)) : Table α :=
  pairs.foldl (fun t p => t.insert p.1 p.2) empty

/-- The table that gives each listed name its value under `f`. -/
def ofNames (names : List String) (f : String → α) : Table α :=
  names.foldl (fun t name => t.insert name (f name)) empty

/-! ### What a table answers -/

@[simp] theorem get?_empty (name : String) : (empty : Table α).get? name = none := rfl

theorem valueOf?_place (name : String) (value : α) (l : List (String × α)) (other : String) :
    valueOf? other (place name value l) = if other = name then some value else valueOf? other l := by
  induction l with
  | nil => simp [place, valueOf?, eq_comm]
  | cons p rest ih =>
      simp only [place]
      split
      · simp [valueOf?, eq_comm]
      · rename_i hnlt
        split
        · rename_i hgt
          have hne : p.1 ≠ name := fun h => String.lt_irrefl name (h ▸ hgt)
          by_cases hp : p.1 = other
          · simp [valueOf?, hp, hp ▸ hne]
          · simp [valueOf?, hp, ih]
        · rename_i hngt
          have heq : name = p.1 := by
            rcases Std.lt_trichotomy name p.1 with h | h | h
            · exact absurd h hnlt
            · exact h
            · exact absurd h hngt
          by_cases hn : name = other
          · simp [valueOf?, hn]
          · simp [valueOf?, hn, Ne.symm hn, ← heq]

/-- An insertion changes the answer for its own name only. -/
@[simp] theorem get?_insert (t : Table α) (name : String) (value : α) (other : String) :
    (t.insert name value).get? other = if other = name then some value else t.get? other :=
  valueOf?_place name value t.toList other

theorem valueOf?_eq_none {l : List (String × α)} {name : String} (h : ∀ p ∈ l, name < p.1) :
    valueOf? name l = none := by
  induction l with
  | nil => rfl
  | cons p rest ih =>
      have hne : p.1 ≠ name := fun heq => String.lt_irrefl name (heq ▸ h p List.mem_cons_self)
      rw [valueOf?, if_neg hne]
      exact ih fun q hq => h q (List.mem_cons_of_mem _ hq)

theorem valueOf?_cons_eq_none {p : String × α} {l : List (String × α)} {name : String} (hlt : name < p.1)
    (h : ∀ q ∈ l, p.1 < q.1) : valueOf? name (p :: l) = none := by
  refine valueOf?_eq_none fun q hq => ?_
  cases List.mem_cons.1 hq with
  | inl heq => exact heq ▸ hlt
  | inr hmem => exact String.lt_trans hlt (h q hmem)

theorem eq_of_valueOf?_eq {l m : List (String × α)} (hl : l.Pairwise (fun p q => p.1 < q.1))
    (hm : m.Pairwise (fun p q => p.1 < q.1)) (h : ∀ name, valueOf? name l = valueOf? name m) : l = m := by
  induction l generalizing m with
  | nil =>
      cases m with
      | nil => rfl
      | cons q rest => simpa [valueOf?] using h q.1
  | cons p ps ih =>
      cases m with
      | nil => simpa [valueOf?] using h p.1
      | cons q qs =>
          obtain ⟨hp, hps⟩ := List.pairwise_cons.1 hl
          obtain ⟨hq, hqs⟩ := List.pairwise_cons.1 hm
          have hname : p.1 = q.1 := by
            rcases Std.lt_trichotomy p.1 q.1 with hlt | heq | hgt
            · have hp := h p.1
              rw [valueOf?_cons_eq_none hlt hq] at hp
              simp [valueOf?] at hp
            · exact heq
            · have hq := h q.1
              rw [valueOf?_cons_eq_none hgt hp] at hq
              simp [valueOf?] at hq
          have hvalue : p.2 = q.2 := by simpa [valueOf?, hname] using h p.1
          have hrest : ps = qs := by
            refine ih hps hqs fun name => ?_
            by_cases hn : p.1 = name
            · rw [← hn, valueOf?_eq_none hp, valueOf?_eq_none (hname ▸ hq)]
            · simpa [valueOf?, hn, hname ▸ hn] using h name
          rw [hrest, Prod.ext hname hvalue]

/-- Tables that answer every name alike are the same table. -/
theorem ext_get? {t u : Table α} (h : ∀ name, t.get? name = u.get? name) : t = u := by
  cases t with
  | mk l hl =>
      cases u with
      | mk m hm =>
          cases eq_of_valueOf?_eq hl hm h
          rfl

theorem get?_foldl_insert (names : List String) (f : String → α) (t : Table α) (name : String) :
    (names.foldl (fun t n => t.insert n (f n)) t).get? name
      = if name ∈ names then some (f name) else t.get? name := by
  induction names generalizing t with
  | nil => simp
  | cons n rest ih =>
      rw [List.foldl_cons, ih, get?_insert]
      by_cases hr : name ∈ rest
      · simp [hr]
      · by_cases hn : name = n <;> simp [hr, hn]

@[simp] theorem get?_ofNames (names : List String) (f : String → α) (name : String) :
    (ofNames names f).get? name = if name ∈ names then some (f name) else none := by
  simp [ofNames, get?_foldl_insert]

theorem valueOf?_isSome_iff {name : String} {l : List (String × α)} :
    (valueOf? name l).isSome = true ↔ name ∈ l.map (·.1) := by
  induction l with
  | nil => simp [valueOf?]
  | cons p rest ih =>
      rw [valueOf?, List.map_cons, List.mem_cons]
      split
      · rename_i heq
        simp [heq]
      · rename_i hne
        rw [ih]
        exact ⟨Or.inr, fun h => h.resolve_left fun heq => hne heq.symm⟩

theorem mem_names {t : Table α} {name : String} : name ∈ t.names ↔ ∃ value, t.get? name = some value := by
  rw [names, ← valueOf?_isSome_iff, ← Option.isSome_iff_exists]
  rfl

end Table

/-- Names without repeats, ascending. -/
def sortNames (names : List String) : List String := (Table.ofNames names fun _ => ()).names

end ConstantFlow
