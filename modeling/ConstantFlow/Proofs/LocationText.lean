import ConstantFlow.Location
import Mathlib.Data.Nat.Digits.Defs

/-! Positions and their written forms. A written position is two decimal numbers or three, with marks between them that
no number contains, so that a text can be taken apart in one way only. Reading accepts exactly the texts that can be
taken apart so, and the form in which a position is written is one of them. -/

namespace ConstantFlow.Location

/-! ### Numbers -/

/-- Whether a text consists of decimal digits, at least one, that stand for a number, the greatest place first. -/
structure Decimal (digits : List Char) (n : Nat) : Prop where
  nonempty : digits ≠ []
  digit : ∀ d ∈ digits, d.isDigit = true
  value : Nat.ofDigits 10 (digits.reverse.map fun d => d.toNat - '0'.toNat) = n

/-- Whether a text writes a 32-bit number: decimal digits, after at most one plus sign. -/
def Numeral (text : List Char) (n : UInt32) : Prop :=
  Decimal text n.toNat ∨ ∃ digits, text = '+' :: digits ∧ Decimal digits n.toNat

section Numbers
variable {text digits : List Char} {n : UInt32}

theorem digitsValue_eq_ofDigits (digits : List Char) :
    digitsValue digits = Nat.ofDigits 10 (digits.reverse.map fun d => d.toNat - '0'.toNat) := by
  rw [Nat.ofDigits_eq_foldr, List.foldr_map, digitsValue, List.foldl_eq_foldr_reverse]
  simp [Nat.add_comm]

theorem decimal_toDigits (n : Nat) : Decimal (Nat.toDigits 10 n) n := by
  refine ⟨Nat.toDigits_ne_nil, fun d hd => Nat.isDigit_of_mem_toDigits (by omega) (by omega) hd, ?_⟩
  rw [← digitsValue_eq_ofDigits]
  exact Nat.ofDigitChars_toDigits (by omega) (by omega)

/-- A mark that is neither a digit nor a sign does not stand in a number. -/
theorem Numeral.not_mem (h : Numeral text n) {mark : Char} (hdigit : mark.isDigit = false) (hplus : mark ≠ '+') :
    mark ∉ text := by
  have hnone : ∀ {digits}, Decimal digits n.toNat → mark ∉ digits := by
    intro digits hdecimal hmem
    rw [hdecimal.digit mark hmem] at hdigit
    cases hdigit
  rcases h with h | ⟨digits, rfl, h⟩
  · exact hnone h
  · rw [List.mem_cons, not_or]
    exact ⟨hplus, hnone h⟩

/-- Digits are read as the number they stand for, if it is a 32-bit number. -/
theorem readDigits_eq_some_iff :
    (if digits.isEmpty || !digits.all Char.isDigit then none
      else if digitsValue digits < UInt32.size then some (digitsValue digits).toUInt32 else none) = some n ↔
      Decimal digits n.toNat := by
  have hdigits : ¬ (digits.isEmpty || !digits.all Char.isDigit) = true ↔
      digits ≠ [] ∧ ∀ d ∈ digits, d.isDigit = true := by simp
  rw [Option.ite_none_left_eq_some, Option.ite_none_right_eq_some, Option.some.injEq, hdigits,
    digitsValue_eq_ofDigits]
  constructor
  · rintro ⟨⟨hne, hall⟩, hlt, rfl⟩
    exact ⟨hne, hall, (UInt32.toNat_ofNat_of_lt hlt).symm⟩
  · rintro ⟨hne, hall, hvalue⟩
    rw [hvalue]
    exact ⟨⟨hne, hall⟩, n.toNat_lt_size, UInt32.ofNat_toNat⟩

theorem readNumber?_eq_some_iff : readNumber? text = some n ↔ Numeral text n := by
  unfold readNumber?
  split
  · rename_i rest
    refine readDigits_eq_some_iff.trans ⟨fun h => Or.inr ⟨rest, rfl, h⟩, ?_⟩
    rintro (h | ⟨digits, heq, h⟩)
    · exact absurd (h.digit '+' List.mem_cons_self) (by decide)
    · cases heq
      exact h
  · rename_i hplus
    refine readDigits_eq_some_iff.trans ⟨Or.inl, ?_⟩
    rintro (h | ⟨digits, rfl, -⟩)
    · exact h
    · exact absurd rfl (hplus digits)

end Numbers

/-! ### Marks between numbers -/

theorem cut?_append {mark : Char} {before : List Char} (h : mark ∉ before) (after : List Char) :
    cut? mark (before ++ mark :: after) = some (before, after) := by
  induction before with
  | nil => simp [cut?]
  | cons c rest ih =>
      rw [List.mem_cons, not_or] at h
      rw [List.cons_append, cut?, if_neg (Ne.symm h.1), ih h.2]
      rfl

theorem eq_append_of_cut? {mark : Char} {text before after : List Char} (h : cut? mark text = some (before, after)) :
    text = before ++ mark :: after := by
  induction text generalizing before with
  | nil => simp [cut?] at h
  | cons c rest ih =>
      rw [cut?] at h
      split at h
      · rename_i heq
        cases h
        rw [heq, List.nil_append]
      · obtain ⟨p, hp, heq⟩ := Option.map_eq_some_iff.1 h
        cases heq
        rw [ih hp, List.cons_append]

theorem cut?_eq_none_iff {mark : Char} {text : List Char} : cut? mark text = none ↔ mark ∉ text := by
  induction text with
  | nil => simp [cut?]
  | cons c rest ih =>
      rw [cut?]
      split
      · rename_i heq
        simp [heq]
      · rename_i hne
        rw [Option.map_eq_none_iff, ih, List.mem_cons, not_or]
        exact ⟨fun h => ⟨Ne.symm hne, h⟩, fun h => h.2⟩

/-! ### Positions -/

/-- Whether a text writes the line and the column of a position. -/
def SpellsPlace (text : List Char) (l : Location) : Prop :=
  ∃ line column, text = line ++ ':' :: column ∧ Numeral line l.line ∧ Numeral column l.column

/-- Whether a text writes a position: line and column, and the index after them unless it is 0. An index of 0 may be
written too. -/
def Spells (text : List Char) (l : Location) : Prop :=
  (SpellsPlace text l ∧ l.index = 0) ∨
    ∃ place index, text = place ++ '#' :: index ∧ SpellsPlace place l ∧ Numeral index l.index

section Positions
variable {text : List Char} {l : Location}

theorem SpellsPlace.not_mem_hash (h : SpellsPlace text l) : '#' ∉ text := by
  obtain ⟨line, column, rfl, hline, hcolumn⟩ := h
  rw [List.mem_append, List.mem_cons]
  rintro (h | h | h)
  · exact hline.not_mem rfl (by decide) h
  · cases h
  · exact hcolumn.not_mem rfl (by decide) h

theorem readPosition?_eq_some_iff {index : UInt32} :
    readPosition? text index = some l ↔ SpellsPlace text l ∧ l.index = index := by
  rw [readPosition?]
  constructor
  · intro h
    obtain ⟨⟨line, column⟩, hcut, h⟩ := Option.bind_eq_some_iff.1 h
    obtain ⟨m, hline, h⟩ := Option.bind_eq_some_iff.1 h
    obtain ⟨n, hcolumn, h⟩ := Option.bind_eq_some_iff.1 h
    cases h
    exact ⟨⟨line, column, eq_append_of_cut? hcut, readNumber?_eq_some_iff.1 hline,
      readNumber?_eq_some_iff.1 hcolumn⟩, rfl⟩
  · rintro ⟨⟨line, column, rfl, hline, hcolumn⟩, rfl⟩
    have hcolon : ':' ∉ line := hline.not_mem rfl (by decide)
    simp [cut?_append hcolon, readNumber?_eq_some_iff.2 hline, readNumber?_eq_some_iff.2 hcolumn]

theorem spells_of_read {s : String} (h : read s = .ok l) : Spells s.toList l := by
  rw [read] at h
  split at h
  · rename_i found hfound
    cases h
    split at hfound
    · exact Or.inl (readPosition?_eq_some_iff.1 hfound)
    · rename_i place index hcut
      obtain ⟨n, hindex, hrest⟩ := Option.bind_eq_some_iff.1 hfound
      obtain ⟨hplace, rfl⟩ := readPosition?_eq_some_iff.1 hrest
      exact Or.inr ⟨place, index, eq_append_of_cut? hcut, hplace, readNumber?_eq_some_iff.1 hindex⟩
  · cases h

theorem read_of_spells {s : String} (h : Spells s.toList l) : read s = .ok l := by
  rw [read]
  rcases h with h | ⟨place, index, heq, hplace, hindex⟩
  · rw [cut?_eq_none_iff.2 h.1.not_mem_hash]
    simp only [readPosition?_eq_some_iff.2 h]
  · rw [heq, cut?_append hplace.not_mem_hash]
    simp only [readNumber?_eq_some_iff.2 hindex, Option.bind_some, readPosition?_eq_some_iff.2 ⟨hplace, rfl⟩]

theorem eq_of_read_error {s : String} {m : Malformed} (h : read s = .error m) : m = ⟨s⟩ := by
  rw [read] at h
  split at h
  · cases h
  · cases h
    rfl

end Positions

/-! ### The written form -/

theorem toList_text (l : Location) :
    l.text.toList = (Nat.toDigits 10 l.line.toNat ++ ':' :: Nat.toDigits 10 l.column.toNat) ++
      if l.inExpansion then '#' :: Nat.toDigits 10 l.index.toNat else [] := by
  rw [text]
  split <;> simp

theorem spells_text (l : Location) : Spells l.text.toList l := by
  have hnumber : ∀ n : UInt32, Numeral (Nat.toDigits 10 n.toNat) n := fun n => Or.inl (decimal_toDigits n.toNat)
  have hplace : SpellsPlace (Nat.toDigits 10 l.line.toNat ++ ':' :: Nat.toDigits 10 l.column.toNat) l :=
    ⟨_, _, rfl, hnumber l.line, hnumber l.column⟩
  rw [toList_text]
  split
  · exact Or.inr ⟨_, _, rfl, hplace, hnumber l.index⟩
  · rename_i hindex
    rw [List.append_nil]
    refine Or.inl ⟨hplace, ?_⟩
    simpa [inExpansion, UInt32.not_lt] using hindex

theorem mem_text {l : Location} {c : Char} (h : c ∈ l.text.toList) : c.isDigit = true ∨ c = ':' ∨ c = '#' := by
  have hdigit : ∀ n : Nat, c ∈ Nat.toDigits 10 n → c.isDigit = true := fun n => (decimal_toDigits n).digit c
  rw [toList_text, List.mem_append, List.mem_append, List.mem_cons] at h
  rcases h with (h | h | h) | h
  · exact Or.inl (hdigit _ h)
  · exact Or.inr (Or.inl h)
  · exact Or.inl (hdigit _ h)
  · split at h
    · rcases List.mem_cons.1 h with h | h
      · exact Or.inr (Or.inr h)
      · exact Or.inl (hdigit _ h)
    · cases h

/-- Reading the written form of a position gives the position back. -/
theorem read_text (l : Location) : read l.text = .ok l := read_of_spells (spells_text l)

/-- Reading accepts exactly the written positions and gives the position that is written; any other text is reported as
it stands. What a position is written as is read as that position. -/
theorem read_accepts_spelled :
    (∀ (s : String) (l : Location), read s = .ok l ↔ Spells s.toList l) ∧
      (∀ (s : String) (m : Malformed), read s = .error m ↔ m.text = s ∧ ∀ l, ¬ Spells s.toList l) ∧
      ∀ l : Location, read l.text = .ok l := by
  refine ⟨fun s l => ⟨spells_of_read, read_of_spells⟩, ?_, read_text⟩
  intro s m
  constructor
  · intro h
    refine ⟨congrArg Malformed.text (eq_of_read_error h), fun l hl => ?_⟩
    rw [read_of_spells hl] at h
    cases h
  · rintro ⟨rfl, hnone⟩
    cases hread : read m.text with
    | ok l => exact absurd (spells_of_read hread) (hnone l)
    | error e => rw [eq_of_read_error hread]

-- A sign, leading zeros and a written index of 0 are read; a number past 32 bits or a mark out of place is not.
example : read "+07:12#0" = .ok ⟨7, 12, 0⟩ ∧ read "7:4294967296" = .error ⟨"7:4294967296"⟩ ∧
    read "7#1:2" = .error ⟨"7#1:2"⟩ := by decide +kernel

end ConstantFlow.Location
