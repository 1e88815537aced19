import ConstantFlow.History.Squash
import Mathlib.Data.List.Basic

/-! What a history answers. A history holds, for each variable, exactly the entries that were recorded for it, and a
lookup answers with the greatest entry before the location. Squashing drops entries that repeat the fact before them
and entries overridden at their own location, neither of which any lookup can see. -/

namespace ConstantFlow

theorem Location.lt_of_lt_of_not_lt {a b c : Location} (hab : a < b) (hbc : ¬ c < b) : a < c := by
  rcases Location.lt_trichotomy b c with h | h | h
  · exact Location.lt_trans hab h
  · exact h ▸ hab
  · exact absurd h hbc

theorem Location.lt_of_not_lt_of_lt {a b c : Location} (hab : ¬ b < a) (hbc : b < c) : a < c := by
  rcases Location.lt_trichotomy a b with h | h | h
  · exact Location.lt_trans h hbc
  · exact h ▸ hbc
  · exact absurd h hab

theorem Table.get?_map {α β : Type} (f : α → β) (t : Table α) (name : String) :
    (t.map f).get? name = (t.get? name).map f := by
  obtain ⟨l, hl⟩ := t
  show valueOf? name (l.map fun p => (p.1, f p.2)) = (valueOf? name l).map f
  clear hl
  induction l with
  | nil => rfl
  | cons p rest ih =>
      rw [List.map_cons, valueOf?, valueOf?]
      split
      · rfl
      · exact ih

theorem Table.names_map {α β : Type} (f : α → β) (t : Table α) : (t.map f).names = t.names := by
  rw [names, map, names, List.map_map]
  rfl

namespace Entry
variable {k : Kind} {l : Location} {e p : Entry k} {before after entries : List (Entry k)}

/-- The fact of the last of some entries strictly before a location. -/
def answer (l : Location) (entries : List (Entry k)) : Option (Fact k.Value) :=
  (entries.reverse.find? fun e => e.location < l).map (·.fact)

theorem answer_append (l : Location) (before after : List (Entry k)) :
    answer l (before ++ after) = (answer l after).or (answer l before) := by
  rw [answer, List.reverse_append, List.find?_append, Option.map_or]
  rfl

theorem answer_cons (l : Location) (e : Entry k) (after : List (Entry k)) :
    answer l (e :: after) = (answer l after).or (if e.location < l then some e.fact else none) := by
  rw [← List.singleton_append, answer_append]
  congr 1
  by_cases h : e.location < l <;> simp [answer, h]

theorem location_not_lt (h : p < e) : ¬ e.location < p.location := by
  intro hlt
  rcases h with h | ⟨heq, -⟩
  · exact Location.lt_irrefl _ (Location.lt_trans h hlt)
  · exact Location.lt_irrefl _ (heq ▸ hlt)

/-- An entry that repeats the fact before it is not seen. -/
theorem answer_repeat (hlt : p < e) (hfact : e.fact = p.fact) :
    answer l (before ++ p :: e :: after) = answer l (before ++ p :: after) := by
  rw [answer_append, answer_append, answer_cons, answer_cons, answer_cons]
  congr 1
  rw [Option.or_assoc]
  congr 1
  by_cases he : e.location < l
  · rw [if_pos he, if_pos (Location.lt_of_not_lt_of_lt (location_not_lt hlt) he), hfact]
    rfl
  · rw [if_neg he, Option.none_or]

/-- Of two entries at one location the first is not seen. -/
theorem answer_overridden (hlocation : e.location = p.location) :
    answer l (before ++ p :: e :: after) = answer l (before ++ e :: after) := by
  rw [answer_append, answer_append, answer_cons, answer_cons, hlocation]
  congr 1
  rw [Option.or_assoc]
  congr 1
  by_cases hp : p.location < l
  · rw [if_pos hp, if_pos hp]
    rfl
  · rw [if_neg hp, if_neg hp]
    rfl

theorem lt_irrefl (e : Entry k) : ¬ e < e := by
  rintro (h | ⟨-, h | ⟨-, h⟩⟩)
  · exact Location.lt_irrefl _ h
  · exact Nat.lt_irrefl _ h
  · cases hfact : e.fact with
    | unresolved =>
        rw [hfact] at h
        exact Fact.not_lt_unresolved _ h
    | resolved c =>
        rw [hfact] at h
        exact Kind.lt_irrefl c h

/-- An answer is the fact of the greatest entry before the location, if there is one. -/
theorem answer_cases (l : Location) (hascending : entries.Pairwise (· < ·)) :
    (answer l entries = none ∧ ∀ f ∈ entries, ¬ f.location < l) ∨
      ∃ m ∈ entries, m.location < l ∧ answer l entries = some m.fact ∧
        ∀ f ∈ entries, f.location < l → f = m ∨ f < m := by
  induction entries with
  | nil => exact Or.inl ⟨rfl, fun f hf => (nomatch hf)⟩
  | cons e rest ih =>
      obtain ⟨he, hrest⟩ := List.pairwise_cons.1 hascending
      rw [answer_cons]
      rcases ih hrest with ⟨hnone, hall⟩ | ⟨m, hm, hml, hsome, hall⟩
      · rw [hnone, Option.none_or]
        by_cases hl : e.location < l
        · refine Or.inr ⟨e, List.mem_cons_self, hl, if_pos hl, ?_⟩
          intro f hf hfl
          rcases List.mem_cons.1 hf with rfl | hf
          · exact Or.inl rfl
          · exact absurd hfl (hall f hf)
        · refine Or.inl ⟨if_neg hl, ?_⟩
          intro f hf
          rcases List.mem_cons.1 hf with rfl | hf
          · exact hl
          · exact hall f hf
      · rw [hsome, Option.some_or]
        refine Or.inr ⟨m, List.mem_cons_of_mem _ hm, hml, rfl, ?_⟩
        intro f hf hfl
        rcases List.mem_cons.1 hf with rfl | hf
        · exact Or.inr (he m hm)
        · exact hall f hf hfl

/-- The answer is the fact of any entry that the greater ones before the location agree with. -/
theorem answer_eq_some (hascending : entries.Pairwise (· < ·)) (he : e ∈ entries) (hl : e.location < l)
    (h : ∀ f ∈ entries, f.location < l → f < e ∨ f.fact = e.fact) : answer l entries = some e.fact := by
  rcases answer_cases l hascending with ⟨-, hnone⟩ | ⟨m, hm, hml, hsome, hall⟩
  · exact absurd hl (hnone e he)
  · rw [hsome]
    rcases h m hm hml with hlt | hfact
    · rcases hall e he hl with rfl | hgt
      · rfl
      · exact absurd (lt_trans hlt hgt) (lt_irrefl m)
    · rw [hfact]

/-- Two locations with the same entries before them get the same answer. -/
theorem answer_congr {l' : Location} (h : ∀ f ∈ entries, f.location < l ↔ f.location < l') :
    answer l entries = answer l' entries := by
  induction entries with
  | nil => rfl
  | cons e rest ih =>
      rw [answer_cons, answer_cons, ih fun f hf => h f (List.mem_cons_of_mem _ hf)]
      simp only [h e List.mem_cons_self]

end Entry

/-! ### Squashing -/

namespace Track
variable {k : Kind}

theorem answer_squashFrom (l : Location) {kept : List (Entry k)} {pending : Entry k} {rest : List (Entry k)}
    (hascending : (kept.reverse ++ pending :: rest).Pairwise (· < ·)) :
    Entry.answer l (squashFrom kept pending rest) = Entry.answer l (kept.reverse ++ pending :: rest) := by
  induction rest generalizing kept pending with
  | nil => rw [squashFrom, List.reverse_cons]
  | cons e rest ih =>
      have hlt : pending < e := by
        have htail := (List.pairwise_append.1 hascending).2.1
        exact (List.pairwise_cons.1 htail).1 e List.mem_cons_self
      simp only [squashFrom]
      split
      · -- The next entry repeats the pending one.
        rename_i hfact
        rw [Entry.answer_repeat hlt hfact]
        apply ih
        exact hascending.sublist (List.Sublist.append_left ((List.sublist_cons_self _ _).cons_cons _) _)
      · split
        · have hsame : kept.reverse ++ pending :: e :: rest = (pending :: kept).reverse ++ e :: rest := by simp
          rw [hsame] at hascending ⊢
          exact ih hascending
        · -- The next entry overrides the pending one, and may then repeat the last one kept.
          rename_i hlocation
          rw [Entry.answer_overridden (not_not.1 hlocation)]
          have hdrop : (kept.reverse ++ e :: rest).Pairwise (· < ·) :=
            hascending.sublist (List.Sublist.append_left (List.sublist_cons_self _ _) _)
          cases kept with
          | nil => exact ih hdrop
          | cons last earlier =>
              dsimp only
              have hsame : (last :: earlier).reverse ++ e :: rest = earlier.reverse ++ last :: e :: rest := by simp
              split
              · rename_i hfact
                rw [hsame] at hdrop ⊢
                have hlast : last < e := by
                  have htail := (List.pairwise_append.1 hdrop).2.1
                  exact (List.pairwise_cons.1 htail).1 e List.mem_cons_self
                rw [Entry.answer_repeat hlast hfact.symm]
                apply ih
                exact hdrop.sublist (List.Sublist.append_left ((List.sublist_cons_self _ _).cons_cons _) _)
              · exact ih hdrop

theorem lookup_squash (t : Track k) (l : Location) : t.squash.lookup l = t.lookup l := by
  obtain ⟨entries, hascending, hne⟩ := t
  cases entries with
  | nil => exact absurd rfl hne
  | cons first rest =>
      have hstart : (([] : List (Entry k)).reverse ++ first :: rest).Pairwise (· < ·) := hascending
      exact answer_squashFrom l hstart

end Track

/-! ### Recording -/

namespace Entry
variable {k : Kind}

theorem mem_place_iff {e f : Entry k} {l : List (Entry k)} : f ∈ place e l ↔ f = e ∨ f ∈ l := by
  refine ⟨mem_place, ?_⟩
  induction l with
  | nil => simp [place]
  | cons g rest ih =>
      intro h
      rw [place]
      split
      · exact List.mem_cons.2 h
      · rename_i hnlt
        split
        · rcases h with rfl | h
          · exact List.mem_cons_of_mem _ (ih (Or.inl rfl))
          · rcases List.mem_cons.1 h with rfl | h
            · exact List.mem_cons_self
            · exact List.mem_cons_of_mem _ (ih (Or.inr h))
        · rename_i hngt
          rcases h with rfl | h
          · rcases lt_trichotomy f g with hlt | heq | hgt
            · exact absurd hlt hnlt
            · exact heq ▸ List.mem_cons_self
            · exact absurd hgt hngt
          · exact h

end Entry

namespace History
variable {k : Kind} {name : String} {e : Entry k}

theorem entries_ascending (h : History k) (name : String) : (h.entries name).Pairwise (· < ·) := by
  rw [entries]
  split
  · exact List.Pairwise.nil
  · rename_i track _
    exact track.ascending

theorem lookup_eq_answer (h : History k) (name : String) (l : Location) :
    h.lookup name l = Entry.answer l (h.entries name) := by
  rw [lookup, entries]
  cases h.tracks.get? name with
  | none => rfl
  | some track => rfl

/-- Squashing changes no lookup. -/
theorem lookup_squash (h : History k) (name : String) (l : Location) :
    h.squash.lookup name l = h.lookup name l := by
  rw [lookup, lookup, squash, Table.get?_map]
  cases h.tracks.get? name with
  | none => rfl
  | some track => exact track.lookup_squash l

/-- Squashing changes no answer and no variable. -/
theorem squash_keeps_answers (h : History k) :
    (∀ name l, h.squash.lookup name l = h.lookup name l) ∧ h.squash.names = h.names := by
  refine ⟨h.lookup_squash, ?_⟩
  rw [names, names, squash, Table.names_map]

theorem mem_entries_record (h : History k) (other : String) (f : Entry k) :
    e ∈ (h.record other f).entries name ↔ (name = other ∧ e = f) ∨ e ∈ h.entries name := by
  rw [record]
  by_cases hname : name = other
  · subst hname
    cases htrack : h.tracks.get? name with
    | none => simp [entries, htrack, Track.single]
    | some track => simp [entries, htrack, Track.record, Entry.mem_place_iff]
  · cases h.tracks.get? other with
    | none => simp [entries, hname]
    | some track => simp [entries, hname]

theorem mem_entries_recordAll (h : History k) (l : List (String × Entry k)) :
    e ∈ (h.recordAll l).entries name ↔ (name, e) ∈ l ∨ e ∈ h.entries name := by
  induction l generalizing h with
  | nil => simp [recordAll]
  | cons p rest ih =>
      have hstep : h.recordAll (p :: rest) = (h.record p.1 p.2).recordAll rest := rfl
      rw [hstep, ih, mem_entries_record, List.mem_cons, Prod.ext_iff]
      tauto

theorem mem_entries_recorded {l : List (String × Entry k)} :
    e ∈ (empty.recordAll l).entries name ↔ (name, e) ∈ l := by
  rw [mem_entries_recordAll]
  exact or_iff_left List.not_mem_nil

theorem entries_eq_nil_iff {h : History k} : h.entries name = [] ↔ h.tracks.get? name = none := by
  rw [entries]
  cases h.tracks.get? name with
  | none => simp
  | some track => simpa using track.nonempty

/-- Histories with the same entries for every variable are the same. -/
theorem ext_entries {h h' : History k} (hentries : ∀ name e, e ∈ h.entries name ↔ e ∈ h'.entries name) : h = h' := by
  have hlist : ∀ name, h.entries name = h'.entries name := by
    intro name
    have hnodup : ∀ h : History k, (h.entries name).Nodup := by
      intro h
      apply (h.entries_ascending name).imp
      rintro a b hlt rfl
      exact Entry.lt_irrefl a hlt
    apply ((List.perm_ext_iff_of_nodup (hnodup h) (hnodup h')).2 (hentries name)).eq_of_pairwise
    · intro a b _ _ hab hba
      exact absurd (Entry.lt_trans hab hba) (Entry.lt_irrefl a)
    · exact h.entries_ascending name
    · exact h'.entries_ascending name
  have htracks : h.tracks = h'.tracks := by
    apply Table.ext_get?
    intro name
    have hname := hlist name
    cases ht : h.tracks.get? name with
    | none =>
        rw [entries_eq_nil_iff.2 ht] at hname
        exact (entries_eq_nil_iff.1 hname.symm).symm
    | some track =>
        cases ht' : h'.tracks.get? name with
        | none =>
            rw [entries_eq_nil_iff.2 ht', entries_eq_nil_iff, ht] at hname
            cases hname
        | some track' =>
            simp only [entries, ht, ht'] at hname
            cases track
            cases track'
            cases hname
            rfl
  cases h
  cases h'
  cases htracks
  rfl

end History
end ConstantFlow
