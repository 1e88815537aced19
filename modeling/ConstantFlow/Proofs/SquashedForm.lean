import ConstantFlow.Proofs.HistoryLookup
import Mathlib.Data.List.Chain

/-! The form of squashed histories. What the scan has kept so far, followed by the pending entry, is at every time a
list at ascending locations in which no entry repeats the fact before it: each step changes that list at its end only.
Entries of this form are all kept, so that squashing twice is squashing once. -/

namespace ConstantFlow

namespace Entry
variable {k : Kind}

/-- Whether entries stand at ascending locations, one at each, and none repeats the fact before it. -/
structure Squashed (entries : List (Entry k)) : Prop where
  ascending : entries.Pairwise fun a b => a.location < b.location
  changing : entries.IsChain fun a b => a.fact ≠ b.fact

theorem squashed_singleton (e : Entry k) : Squashed [e] :=
  ⟨List.pairwise_singleton _ e, List.isChain_singleton e⟩

/-- What the last entry has to fulfil is settled against the one before it. -/
theorem squashed_snoc {front : List (Entry k)} {p e : Entry k} :
    Squashed (front ++ [p, e]) ↔ Squashed (front ++ [p]) ∧ p.location < e.location ∧ p.fact ≠ e.fact := by
  have hsplit : front ++ [p, e] = (front ++ [p]) ++ [e] := by simp
  constructor
  · rintro ⟨hasc, hchange⟩
    rw [hsplit] at hasc hchange
    obtain ⟨hfront, -, hlast⟩ := List.pairwise_append.1 hasc
    obtain ⟨hchain, -, hfact⟩ := List.isChain_append.1 hchange
    have hp : p ∈ front ++ [p] := List.mem_append_right _ List.mem_cons_self
    exact ⟨⟨hfront, hchain⟩, hlast p hp e List.mem_cons_self, hfact p (by simp) e rfl⟩
  · rintro ⟨⟨hasc, hchange⟩, hlocation, hfact⟩
    rw [hsplit]
    refine ⟨List.pairwise_append.2 ⟨hasc, List.pairwise_singleton _ e, ?_⟩,
      List.isChain_append.2 ⟨hchange, List.isChain_singleton e, ?_⟩⟩
    · intro a ha b hb
      obtain rfl : b = e := List.mem_singleton.1 hb
      rcases List.mem_append.1 ha with ha | ha
      · exact Location.lt_trans ((List.pairwise_append.1 hasc).2.2 a ha p List.mem_cons_self) hlocation
      · exact List.mem_singleton.1 ha ▸ hlocation
    · simpa using hfact

end Entry

namespace Track
variable {k : Kind} {kept rest : List (Entry k)} {pending : Entry k}

/-- The scan keeps the form of what it has kept, if no entry still to come stands before the pending one. -/
theorem squashed_squashFrom (hlater : (pending :: rest).Pairwise fun a b => ¬ b.location < a.location)
    (hform : Entry.Squashed (kept.reverse ++ [pending])) : Entry.Squashed (squashFrom kept pending rest) := by
  fun_induction squashFrom kept pending rest with
  | case1 kept pending => simpa using hform
  | case2 kept pending e rest hsame ih =>
      exact ih (hlater.sublist ((List.sublist_cons_self e rest).cons_cons pending)) hform
  | case3 kept pending e rest hfact hlocation ih =>
      obtain ⟨hfirst, hrest⟩ := List.pairwise_cons.1 hlater
      have hlt : pending.location < e.location := by
        rcases Location.lt_trichotomy pending.location e.location with h | h | h
        · exact h
        · exact absurd h.symm hlocation
        · exact absurd h (hfirst e List.mem_cons_self)
      apply ih hrest
      rw [List.reverse_cons, List.append_assoc]
      exact Entry.squashed_snoc.2 ⟨hform, hlt, Ne.symm hfact⟩
  | case4 pending e rest hfact hlocation ih =>
      exact ih (List.pairwise_cons.1 hlater).2 (Entry.squashed_singleton e)
  | case5 pending e rest hfact hlocation last earlier hrepeat ih =>
      -- The pending entry falls out, and the last one kept is pending again.
      rw [List.reverse_cons, List.append_assoc] at hform
      obtain ⟨hearlier, hlt, -⟩ := Entry.squashed_snoc.1 hform
      obtain ⟨hfirst, hrest⟩ := List.pairwise_cons.1 hlater
      refine ih (List.pairwise_cons.2 ⟨fun f hf hback => ?_, (List.pairwise_cons.1 hrest).2⟩) hearlier
      exact hfirst f (List.mem_cons_of_mem _ hf) (Location.lt_trans hback hlt)
  | case6 pending e rest hfact hlocation last earlier hrepeat ih =>
      rw [List.reverse_cons, List.append_assoc] at hform ih
      obtain ⟨hearlier, hlt, -⟩ := Entry.squashed_snoc.1 hform
      apply ih (List.pairwise_cons.1 hlater).2
      exact Entry.squashed_snoc.2 ⟨hearlier, not_not.1 hlocation ▸ hlt, hrepeat⟩

/-- The first location stays: an entry that is overridden or pending again leaves one at its place or before it. -/
theorem head?_squashFrom (kept : List (Entry k)) (pending : Entry k) (rest : List (Entry k)) :
    (squashFrom kept pending rest).head?.map (·.location) = (kept.reverse ++ [pending]).head?.map (·.location) := by
  fun_induction squashFrom kept pending rest with
  | case1 kept pending => simp
  | case2 kept pending e rest hsame ih => exact ih
  | case3 kept pending e rest hfact hlocation ih => simpa [List.head?_append] using ih
  | case4 pending e rest hfact hlocation ih => simpa [not_not.1 hlocation] using ih
  | case5 pending e rest hfact hlocation last earlier hrepeat ih => simpa [List.head?_append] using ih
  | case6 pending e rest hfact hlocation last earlier hrepeat ih => simpa [List.head?_append] using ih

theorem squashFrom_of_squashed (hform : Entry.Squashed (kept.reverse ++ pending :: rest)) :
    squashFrom kept pending rest = kept.reverse ++ pending :: rest := by
  induction rest generalizing kept pending with
  | nil => rw [squashFrom, List.reverse_cons]
  | cons e rest ih =>
      have hlt : pending.location < e.location := by
        have hafter := (List.pairwise_append.1 hform.ascending).2.1
        exact (List.pairwise_cons.1 hafter).1 e List.mem_cons_self
      have hfact : pending.fact ≠ e.fact := by
        have hafter := (List.isChain_append.1 hform.changing).2.1
        exact (List.isChain_cons_cons.1 hafter).1
      have hlocation : e.location ≠ pending.location := by
        intro heq
        exact Location.lt_irrefl _ (heq ▸ hlt)
      have hnext : (pending :: kept).reverse ++ e :: rest = kept.reverse ++ pending :: e :: rest := by simp
      simp only [squashFrom, if_neg hfact.symm, if_pos hlocation]
      rw [ih (hnext ▸ hform), hnext]

theorem squash_entries {t : Track k} {first : Entry k} {rest : List (Entry k)} (h : t.entries = first :: rest) :
    t.squash.entries = squashFrom [] first rest := by
  obtain ⟨entries, hascending, hne⟩ := t
  cases h
  rfl

theorem squash_sublist (t : Track k) : t.squash.entries.Sublist t.entries := by
  obtain ⟨first, rest, h⟩ := List.exists_cons_of_ne_nil t.nonempty
  rw [squash_entries h, h]
  exact squashFrom_sublist [] first rest

theorem squashed_squash (t : Track k) : Entry.Squashed t.squash.entries := by
  obtain ⟨first, rest, h⟩ := List.exists_cons_of_ne_nil t.nonempty
  rw [squash_entries h]
  apply squashed_squashFrom
  · rw [← h]
    exact t.ascending.imp Entry.location_not_lt
  · exact Entry.squashed_singleton first

theorem head?_squash (t : Track k) :
    t.squash.entries.head?.map (·.location) = t.entries.head?.map (·.location) := by
  obtain ⟨first, rest, h⟩ := List.exists_cons_of_ne_nil t.nonempty
  rw [squash_entries h, h]
  exact head?_squashFrom [] first rest

theorem eq_of_entries_eq {t u : Track k} (h : t.entries = u.entries) : t = u := by
  cases t
  cases u
  cases h
  rfl

theorem squash_of_squashed {t : Track k} (hform : Entry.Squashed t.entries) : t.squash = t := by
  obtain ⟨first, rest, h⟩ := List.exists_cons_of_ne_nil t.nonempty
  apply eq_of_entries_eq
  rw [squash_entries h, h]
  rw [h] at hform
  have hstart : Entry.Squashed (([] : List (Entry k)).reverse ++ first :: rest) := hform
  exact squashFrom_of_squashed hstart

end Track

namespace History
variable {k : Kind}

theorem entries_squash_cases (h : History k) (name : String) :
    (h.squash.entries name = [] ∧ h.entries name = []) ∨
      ∃ t : Track k, h.squash.entries name = t.squash.entries ∧ h.entries name = t.entries := by
  rw [entries, entries, squash, Table.get?_map]
  cases h.tracks.get? name with
  | none => exact Or.inl ⟨rfl, rfl⟩
  | some t => exact Or.inr ⟨t, rfl, rfl⟩

theorem squash_squash (h : History k) : h.squash.squash = h.squash := by
  have htrack : Track.squash ∘ Track.squash = (Track.squash : Track k → Track k) := by
    funext t
    exact Track.squash_of_squashed t.squashed_squash
  have htracks : h.squash.squash.tracks = h.squash.tracks := by
    apply Table.ext_get?
    intro name
    simp only [squash, Table.get?_map, Option.map_map, htrack]
  exact congrArg History.mk htracks

/-- Squashing brings a history into a form that it leaves as it is: of each variable some entries stay, at ascending
locations from the first one on and each with another fact than the one before it, and every lookup answers as
before. -/
theorem squash_normal_form (h : History k) :
    (∀ name, (h.squash.entries name).Sublist (h.entries name) ∧
      (h.squash.entries name).Pairwise (fun a b => a.location < b.location) ∧
      (h.squash.entries name).IsChain (fun a b => a.fact ≠ b.fact) ∧
      (h.squash.entries name).head?.map (·.location) = (h.entries name).head?.map (·.location) ∧
      ∀ l, h.squash.lookup name l = h.lookup name l) ∧
      h.squash.squash = h.squash := by
  refine ⟨fun name => ?_, h.squash_squash⟩
  rcases h.entries_squash_cases name with ⟨hafter, hbefore⟩ | ⟨t, hafter, hbefore⟩
  · rw [hafter, hbefore]
    exact ⟨List.Sublist.refl _, List.Pairwise.nil, List.isChain_nil, rfl, h.lookup_squash name⟩
  · rw [hafter, hbefore]
    obtain ⟨hascending, hchanging⟩ := t.squashed_squash
    exact ⟨t.squash_sublist, hascending, hchanging, t.head?_squash, h.lookup_squash name⟩

-- At 2:1 the text is given up and set again, so that neither entry there changes what holds from 1:1 on.
example :
    let resets : History .text := empty.recordAll [("v", ⟨⟨1, 1, 0⟩, .code, .resolved "a"⟩),
      ("v", ⟨⟨2, 1, 0⟩, .merge, .unresolved⟩), ("v", ⟨⟨2, 1, 0⟩, .code, .resolved "a"⟩),
      ("v", ⟨⟨3, 1, 0⟩, .code, .resolved "b"⟩)]
    resets.squash.entries "v" =
      [⟨⟨1, 1, 0⟩, .code, .resolved "a"⟩, ⟨⟨3, 1, 0⟩, .code, .resolved "b"⟩] := by
  decide

end History
end ConstantFlow
