import ConstantFlow.Proofs.SquashedForm
import Mathlib.Data.List.Sort

/-! What a squashed history owes to its answers. The answers for a variable change between a location and the next one
exactly if a squashed history has an entry there, so that histories with the same answers come out of squashing with
the same facts at the same locations. No location follows the greatest one: an entry there is never seen. -/

namespace ConstantFlow

namespace Location

/-- The greatest location. -/
def last : Location := ⟨4294967295, 4294967295, 4294967295⟩

/-- The least of the locations after one that is not the greatest. -/
def next (l : Location) : Location :=
  if l.index < 4294967295 then ⟨l.line, l.column, l.index + 1⟩
  else if l.column < 4294967295 then ⟨l.line, l.column + 1, 0⟩
  else ⟨l.line + 1, 0, 0⟩

theorem lt_next_iff {l m : Location} (hl : l ≠ last) : m < l.next ↔ m < l ∨ m = l := by
  obtain ⟨line, column, index⟩ := l
  obtain ⟨line', column', index'⟩ := m
  have hline := line.toNat_lt
  have hcolumn := column.toNat_lt
  have hindex := index.toNat_lt
  have hcolumn' := column'.toNat_lt
  have hindex' := index'.toNat_lt
  simp only [last, ne_eq, mk.injEq, ← UInt32.toNat_inj, UInt32.reduceToNat] at hl
  -- One number grows by one, and the numbers behind it start again.
  unfold next
  split_ifs
  all_goals
    simp only [lt_iff, mk.injEq, UInt32.lt_iff_toNat_lt, ← UInt32.toNat_inj, UInt32.toNat_add,
      UInt32.reduceToNat] at *
    omega

theorem lt_next {l : Location} (hl : l ≠ last) : l < l.next := (lt_next_iff hl).2 (Or.inr rfl)

end Location

namespace Entry
variable {k : Kind} {l : Location} {e : Entry k} {entries entries' : List (Entry k)}

/-- What lookups can tell of an entry. -/
def seen (e : Entry k) : Location × Fact k.Value := (e.location, e.fact)

theorem answer_eq_none (h : ∀ f ∈ entries, ¬ f.location < l) : answer l entries = none := by
  simpa [answer] using h

/-- An answer depends on what is seen of the entries only. -/
theorem answer_eq_of_seen (h : entries.map seen = entries'.map seen) : answer l entries = answer l entries' := by
  have hseen : ∀ es : List (Entry k),
      answer l es = ((es.map seen).reverse.find? fun p => p.1 < l).map (·.2) := by
    intro es
    rw [answer, ← List.map_reverse, List.find?_map, Option.map_map]
    rfl
  rw [hseen, hseen, h]

theorem Squashed.eq_of_location_eq (hform : Squashed entries) {f : Entry k} (he : e ∈ entries) (hf : f ∈ entries)
    (hlocation : f.location = e.location) : f = e := by
  have hnodup : (entries.map (·.location)).Nodup := by
    apply List.pairwise_map.2
    apply hform.ascending.imp
    intro a b hlt heq
    exact Location.lt_irrefl _ (heq ▸ hlt)
  exact List.inj_on_of_nodup_map hnodup hf he hlocation

/-- Right behind an entry its fact is the answer. -/
theorem Squashed.answer_next (hform : Squashed entries) (he : e ∈ entries) (hlast : e.location ≠ .last) :
    answer e.location.next entries = some e.fact := by
  apply answer_eq_some (hform.ascending.imp Or.inl) he (Location.lt_next hlast)
  intro f hf hlt
  rcases (Location.lt_next_iff hlast).1 hlt with hlt | heq
  · exact Or.inl (Or.inl hlt)
  · exact Or.inr (congrArg fact (hform.eq_of_location_eq he hf heq))

/-- At the location of an entry the answer is another fact still, or there is none. -/
theorem Squashed.answer_ne (hform : Squashed entries) (he : e ∈ entries) : answer e.location entries ≠ some e.fact := by
  obtain ⟨before, after, rfl⟩ := List.append_of_mem he
  obtain ⟨hasc, hchange⟩ := hform
  have hafter : answer e.location (e :: after) = none := by
    apply answer_eq_none
    intro f hf hlt
    rcases List.mem_cons.1 hf with rfl | hf
    · exact Location.lt_irrefl _ hlt
    · have hgt := (List.pairwise_cons.1 (List.pairwise_append.1 hasc).2.1).1 f hf
      exact Location.lt_irrefl _ (Location.lt_trans hgt hlt)
  rw [answer_append, hafter, Option.none_or]
  rcases List.eq_nil_or_concat before with rfl | ⟨front, p, rfl⟩
  · simp [answer]
  · rw [List.concat_eq_append] at *
    have hlt : p.location < e.location := (List.pairwise_append.1 hasc).2.2 p (by simp) e List.mem_cons_self
    have hfact : p.fact ≠ e.fact := (List.isChain_append.1 hchange).2.2 p (by simp) e rfl
    rw [answer_append, answer_cons, if_pos hlt]
    simpa [answer] using hfact

/-- Entries of squashed form stand where the answer changes, with the fact that it changes to. -/
theorem Squashed.mem_seen_iff (hform : Squashed entries) (hlast : ∀ e ∈ entries, e.location ≠ .last)
    {p : Location × Fact k.Value} :
    p ∈ entries.map seen ↔ p.1 ≠ .last ∧ answer p.1.next entries = some p.2 ∧ answer p.1 entries ≠ some p.2 := by
  constructor
  · intro hp
    obtain ⟨e, he, rfl⟩ := List.mem_map.1 hp
    exact ⟨hlast e he, hform.answer_next he (hlast e he), hform.answer_ne he⟩
  · rintro ⟨hl, hnext, hchange⟩
    by_cases hat : ∃ e ∈ entries, e.location = p.1
    · obtain ⟨e, he, heq⟩ := hat
      rw [← heq, hform.answer_next he (hlast e he), Option.some.injEq] at hnext
      exact List.mem_map.2 ⟨e, he, Prod.ext heq hnext⟩
    · -- Without an entry at the location, the one behind it has the same entries before it.
      have hsame : answer p.1.next entries = answer p.1 entries := by
        apply answer_congr
        intro f hf
        rw [Location.lt_next_iff hl, or_iff_left fun heq => hat ⟨f, hf, heq⟩]
      exact absurd (hsame ▸ hnext) hchange

theorem Squashed.seen_eq (hform : Squashed entries) (hform' : Squashed entries')
    (hlast : ∀ e ∈ entries, e.location ≠ .last) (hlast' : ∀ e ∈ entries', e.location ≠ .last)
    (h : ∀ l, answer l entries = answer l entries') : entries.map seen = entries'.map seen := by
  have : Std.Irrefl fun p q : Location × Fact k.Value => p.1 < q.1 := ⟨fun p => Location.lt_irrefl p.1⟩
  have : Std.Antisymm fun p q : Location × Fact k.Value => p.1 < q.1 :=
    ⟨fun p q hpq hqp => absurd (Location.lt_trans hpq hqp) (Location.lt_irrefl p.1)⟩
  have hascending : ∀ {es : List (Entry k)}, Squashed es → (es.map seen).Pairwise fun p q => p.1 < q.1 :=
    fun hes => List.pairwise_map.2 hes.ascending
  apply (hascending hform).eq_of_mem_iff (hascending hform')
  intro p
  rw [hform.mem_seen_iff hlast, hform'.mem_seen_iff hlast', h, h]

end Entry

namespace History
variable {k : Kind} {a b : History k}

theorem squashed_entries (h : History k) (name : String) : Entry.Squashed (h.squash.entries name) := by
  rcases h.entries_squash_cases name with ⟨hafter, -⟩ | ⟨t, hafter, -⟩
  · rw [hafter]
    exact ⟨List.Pairwise.nil, List.isChain_nil⟩
  · rw [hafter]
    exact t.squashed_squash

theorem mem_entries_of_squash {h : History k} {name : String} {e : Entry k} (he : e ∈ h.squash.entries name) :
    e ∈ h.entries name := by
  rcases h.entries_squash_cases name with ⟨hafter, -⟩ | ⟨t, hafter, hbefore⟩
  · rw [hafter] at he
    cases he
  · rw [hafter] at he
    rw [hbefore]
    exact t.squash_sublist.subset he

theorem answer_squash (h : History k) (name : String) (l : Location) :
    Entry.answer l (h.squash.entries name) = h.lookup name l := by
  rw [← lookup_eq_answer, lookup_squash]

theorem names_eq_of_entries (h : ∀ name, a.entries name = [] ↔ b.entries name = []) : a.names = b.names := by
  have hnamed : a.tracks.map (fun _ => ()) = b.tracks.map fun _ => () := by
    apply Table.ext_get?
    intro name
    have hname := h name
    rw [entries_eq_nil_iff, entries_eq_nil_iff] at hname
    rw [Table.get?_map, Table.get?_map]
    cases ha : a.tracks.get? name <;> cases hb : b.tracks.get? name <;> simp_all
  rw [names, names, ← Table.names_map fun _ => (), hnamed, Table.names_map]

/-- Histories without entries at the greatest location answer alike exactly if squashing leaves the same variables
and, for each, the same facts at the same locations. -/
theorem squash_canonical (ha : ∀ name, ∀ e ∈ a.entries name, e.location ≠ .last)
    (hb : ∀ name, ∀ e ∈ b.entries name, e.location ≠ .last) :
    (∀ name l, a.lookup name l = b.lookup name l) ↔
      a.squash.names = b.squash.names ∧
        ∀ name, (a.squash.entries name).map Entry.seen = (b.squash.entries name).map Entry.seen := by
  constructor
  · intro hlookup
    have hseen : ∀ name, (a.squash.entries name).map Entry.seen = (b.squash.entries name).map Entry.seen := by
      intro name
      apply (a.squashed_entries name).seen_eq (b.squashed_entries name)
      · exact fun e he => ha name e (mem_entries_of_squash he)
      · exact fun e he => hb name e (mem_entries_of_squash he)
      · intro l
        rw [answer_squash, answer_squash, hlookup]
    refine ⟨names_eq_of_entries fun name => ?_, hseen⟩
    rw [← List.map_eq_nil_iff (f := Entry.seen), hseen, List.map_eq_nil_iff]
  · rintro ⟨-, hseen⟩ name l
    rw [← answer_squash, ← answer_squash, Entry.answer_eq_of_seen (hseen name)]

/-- A constant that overrides what came in, and is told again at the next line. -/
def retold : History .integer := empty.recordAll [("v", ⟨⟨1, 1, 0⟩, .merge, .unresolved⟩),
  ("v", ⟨⟨1, 1, 0⟩, .code, .resolved 4⟩), ("v", ⟨⟨2, 1, 0⟩, .merge, .resolved 4⟩)]

/-- The same constant, told once and by another cause. -/
def toldOnce : History .integer := empty.recordAll [("v", ⟨⟨1, 1, 0⟩, .merge, .resolved 4⟩)]

theorem lookup_retold (name : String) (l : Location) : retold.lookup name l = toldOnce.lookup name l := by
  rw [lookup_eq_answer, lookup_eq_answer]
  by_cases hname : name = "v"
  · subst hname
    have hretold : retold.entries "v" = [⟨⟨1, 1, 0⟩, .merge, .unresolved⟩, ⟨⟨1, 1, 0⟩, .code, .resolved 4⟩,
        ⟨⟨2, 1, 0⟩, .merge, .resolved 4⟩] := by decide
    have honce : toldOnce.entries "v" = [⟨⟨1, 1, 0⟩, .merge, .resolved 4⟩] := by decide
    rw [hretold, honce]
    by_cases hfirst : (⟨1, 1, 0⟩ : Location) < l
    · by_cases hsecond : (⟨2, 1, 0⟩ : Location) < l <;> simp [Entry.answer, hfirst, hsecond]
    · have hsecond : ¬ (⟨2, 1, 0⟩ : Location) < l := fun h => hfirst (Location.lt_trans (by decide) h)
      simp [Entry.answer, hfirst, hsecond]
  · have hnone : ∀ e, e ∉ retold.entries name ∧ e ∉ toldOnce.entries name := by
      intro e
      simp [retold, toldOnce, mem_entries_recorded, hname]
    rw [Entry.answer_eq_none fun e he => absurd he (hnone e).1, Entry.answer_eq_none fun e he => absurd he (hnone e).2]

theorem squash_canonical_retold :
    retold ≠ toldOnce ∧ (∀ name l, retold.lookup name l = toldOnce.lookup name l) ∧
      retold.squash.names = toldOnce.squash.names ∧
      ∀ name, (retold.squash.entries name).map Entry.seen = (toldOnce.squash.entries name).map Entry.seen := by
  have hretold : ∀ name, ∀ e ∈ retold.entries name, e.location ≠ .last := by
    intro name e he
    simp only [retold, mem_entries_recorded, List.mem_cons, Prod.mk.injEq, List.not_mem_nil, or_false] at he
    rcases he with ⟨-, rfl⟩ | ⟨-, rfl⟩ | ⟨-, rfl⟩ <;> decide
  have honce : ∀ name, ∀ e ∈ toldOnce.entries name, e.location ≠ .last := by
    intro name e he
    simp only [toldOnce, mem_entries_recorded, List.mem_singleton, Prod.mk.injEq] at he
    exact he.2 ▸ by decide
  exact ⟨by decide, lookup_retold, (squash_canonical hretold honce).1 lookup_retold⟩

end History
end ConstantFlow
