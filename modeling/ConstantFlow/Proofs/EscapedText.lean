import ConstantFlow.Escape
import Mathlib.Data.List.Basic

/-! Escaped text and what it stands for. Each character is escaped on its own, and its escaped form says where it ends,
so that escaped text is read back character by character. No control character is left in it. -/

namespace ConstantFlow

namespace Yaml

theorem digit?_digitChar : ∀ d < 16, digit? 16 d.digitChar = some d := by decide

theorem digits?_toDigits (n : Nat) : digits? 16 (Nat.toDigits 16 n) = some n := by
  have hne : (Nat.toDigits 16 n).isEmpty = false := List.isEmpty_eq_false_iff.2 Nat.toDigits_ne_nil
  rw [digits?, hne, if_neg (by decide)]
  clear hne
  -- The last digit is split off, and the digits before it are those of the quotient.
  induction n using Nat.strongRecOn with
  | _ n ih =>
      rw [Nat.toDigits_eq_if (by omega)]
      split
      · rename_i hlt
        simp [digit?_digitChar n hlt]
      · rw [List.foldlM_append, ih (n / 16) (by omega)]
        simp [digit?_digitChar (n % 16) (by omega)]
        omega

end Yaml

namespace Escape

theorem exists_of_mem_toDigits {n : Nat} {c : Char} (h : c ∈ Nat.toDigits 16 n) : ∃ d < 16, d.digitChar = c := by
  induction n using Nat.strongRecOn with
  | _ n ih =>
      rw [Nat.toDigits_eq_if (by omega)] at h
      split at h
      · rename_i hlt
        exact ⟨n, hlt, (List.mem_singleton.1 h).symm⟩
      · rcases List.mem_append.1 h with h | h
        · exact ih (n / 16) (by omega) h
        · exact ⟨n % 16, by omega, (List.mem_singleton.1 h).symm⟩

theorem code?_toDigits (c : Char) : code? (Nat.toDigits 16 c.toNat) = some c := by
  unfold code?
  split
  · rename_i rest heq
    have hmem : '+' ∈ Nat.toDigits 16 c.toNat := heq ▸ List.mem_cons_self
    obtain ⟨d, -, hd⟩ := exists_of_mem_toDigits hmem
    exact absurd hd (Nat.digitChar_ne '+' rfl)
  · have hvalid : c.toNat.isValidChar := c.valid
    simp [Yaml.digits?_toDigits, hvalid]

theorem read?_plain {c : Char} (hc : c ≠ '\\') (rest : List Char) :
    read? (c :: rest) = (read? rest).map (c :: ·) := by
  rw [read?.eq_def]
  simp [hc]

theorem read?_letter {c : Char} (hc : c ≠ 'u') (rest : List Char) :
    read? ('\\' :: c :: rest) = (read? rest).map (letter c :: ·) := by
  rw [read?.eq_def]
  simp [hc]

theorem read?_code (c : Char) (rest : List Char) :
    read? ('\\' :: 'u' :: '\x7b' :: (Nat.toDigits 16 c.toNat ++ '\x7d' :: rest)) = (read? rest).map (c :: ·) := by
  have hdigits : (Nat.toDigits 16 c.toNat ++ '\x7d' :: rest).takeWhile (· ≠ '\x7d') = Nat.toDigits 16 c.toNat := by
    rw [List.takeWhile_append_of_pos]
    · simp
    · intro x hx
      obtain ⟨d, -, rfl⟩ := exists_of_mem_toDigits hx
      exact decide_eq_true (Nat.digitChar_ne '\x7d' rfl)
  have hrest : ('\x7b' :: (Nat.toDigits 16 c.toNat ++ '\x7d' :: rest)).drop ((Nat.toDigits 16 c.toNat).length + 2) =
      rest := by
    simp
  rw [read?.eq_def]
  simp only [ne_eq, not_true_eq_false, if_false, List.drop_one, List.tail_cons, hdigits, hrest, code?_toDigits]
  cases read? rest <;> rfl

/-- A character is escaped by a letter after a backslash, by itself, or by its code point. -/
theorem char_cases (c : Char) :
    (∃ d, char c = ['\\', d] ∧ d ≠ 'u' ∧ letter d = c ∧ 0x20 ≤ d.toNat) ∨
    (char c = [c] ∧ c ≠ '\\' ∧ 0x20 ≤ c.toNat) ∨
    char c = '\\' :: 'u' :: '\x7b' :: (Nat.toDigits 16 c.toNat ++ ['\x7d']) := by
  unfold char
  split
  · rename_i hc
    exact Or.inl ⟨'t', rfl, by decide, hc.symm, by decide⟩
  split
  · rename_i hc
    exact Or.inl ⟨'r', rfl, by decide, hc.symm, by decide⟩
  split
  · rename_i hc
    exact Or.inl ⟨'n', rfl, by decide, hc.symm, by decide⟩
  split
  · rename_i hc
    refine Or.inl ⟨c, rfl, ?_⟩
    rcases hc with rfl | rfl | rfl <;> decide
  split
  · rename_i hc hprintable
    exact Or.inr (Or.inl ⟨rfl, fun heq => hc (Or.inr (Or.inr heq)), hprintable.1⟩)
  · exact Or.inr (Or.inr rfl)

/-- The escaped form of a character is read back as the character, whatever follows it. -/
theorem read?_char_append (c : Char) (rest : List Char) : read? (char c ++ rest) = (read? rest).map (c :: ·) := by
  rcases char_cases c with ⟨d, hchar, hd, hletter, -⟩ | ⟨hchar, hc, -⟩ | hchar
  · rw [hchar, List.cons_append, List.singleton_append, read?_letter hd, hletter]
  · rw [hchar, List.singleton_append, read?_plain hc]
  · rw [hchar, List.cons_append, List.cons_append, List.cons_append, List.append_assoc, List.singleton_append,
      read?_code]

theorem read?_flatMap_char (s : List Char) : read? (s.flatMap char) = some s := by
  induction s with
  | nil => rw [List.flatMap_nil, read?]
  | cons c rest ih => rw [List.flatMap_cons, read?_char_append, ih, Option.map_some]

theorem read?_text (s : String) : read? (text s).toList = some s.toList := by
  rw [text, String.toList_ofList, read?_flatMap_char]

theorem le_toNat_digitChar : ∀ d < 16, 0x20 ≤ d.digitChar.toNat := by decide

theorem le_toNat_of_mem_char {c x : Char} (h : x ∈ char c) : 0x20 ≤ x.toNat := by
  rcases char_cases c with ⟨d, hchar, -, -, hd⟩ | ⟨hchar, -, hc⟩ | hchar
  · rw [hchar, List.mem_cons, List.mem_singleton] at h
    rcases h with rfl | rfl
    · decide
    · exact hd
  · rw [hchar, List.mem_singleton] at h
    rwa [h]
  · rw [hchar, List.mem_cons, List.mem_cons, List.mem_cons, List.mem_append, List.mem_singleton] at h
    rcases h with rfl | rfl | rfl | h | rfl
    · decide
    · decide
    · decide
    · obtain ⟨d, hd, rfl⟩ := exists_of_mem_toDigits h
      exact le_toNat_digitChar d hd
    · decide

theorem le_toNat_of_mem_text {s : String} {x : Char} (h : x ∈ (text s).toList) : 0x20 ≤ x.toNat := by
  rw [text, String.toList_ofList, List.mem_flatMap] at h
  obtain ⟨c, -, hx⟩ := h
  exact le_toNat_of_mem_char hx

end Escape
end ConstantFlow
