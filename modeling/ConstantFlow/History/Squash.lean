import ConstantFlow.History

/-! Squashing a history: of the entries of a variable only those are kept that change what a later lookup finds. An
entry that repeats the fact before it goes, and of several entries at one location the last one counts. -/

namespace ConstantFlow

namespace Track
variable {k : Kind}

/-- Squashes the entries that follow. `kept` holds the entries kept so far, the latest first, and `pending` the one
that the next entry may still override. When an overriding entry repeats the last one kept, that one is pending
again. -/
def squashFrom (kept : List (Entry k)) (pending : Entry k) : List (Entry k) → List (Entry k)
  | [] => (pending :: kept).reverse
  | e :: rest =>
    if e.fact = pending.fact then squashFrom kept pending rest
    else if e.location ≠ pending.location then squashFrom (pending :: kept) e rest
    else match kept with
      | [] => squashFrom [] e rest
      | last :: earlier =>
        if last.fact = e.fact then squashFrom earlier last rest
        else squashFrom (last :: earlier) e rest

theorem squashFrom_sublist (kept : List (Entry k)) (pending : Entry k) (rest : List (Entry k)) :
    (squashFrom kept pending rest).Sublist (kept.reverse ++ pending :: rest) := by
  induction rest generalizing kept pending with
  | nil => simp [squashFrom]
  | cons e rest ih =>
      have drop_pending : (kept.reverse ++ e :: rest).Sublist (kept.reverse ++ pending :: e :: rest) :=
        List.Sublist.append_left (List.sublist_cons_self _ _) _
      have drop_next : (kept.reverse ++ pending :: rest).Sublist (kept.reverse ++ pending :: e :: rest) :=
        List.Sublist.append_left ((List.sublist_cons_self _ _).cons_cons _) _
      simp only [squashFrom]
      split
      · exact (ih kept pending).trans drop_next
      · split
        · have := ih (pending :: kept) e
          simpa using this
        · cases kept with
          | nil => exact (ih [] e).trans drop_pending
          | cons last earlier =>
              simp only
              split
              · refine (ih earlier last).trans (List.Sublist.trans ?_ drop_pending)
                simp only [List.reverse_cons, List.append_assoc, List.singleton_append]
                exact List.Sublist.append_left ((List.sublist_cons_self _ _).cons_cons _) _
              · exact (ih (last :: earlier) e).trans drop_pending

theorem squashFrom_ne_nil (kept : List (Entry k)) (pending : Entry k) (rest : List (Entry k)) :
    squashFrom kept pending rest ≠ [] := by
  induction rest generalizing kept pending with
  | nil => simp [squashFrom]
  | cons e rest ih =>
      simp only [squashFrom]
      split
      · exact ih kept pending
      · split
        · exact ih (pending :: kept) e
        · cases kept with
          | nil => exact ih [] e
          | cons last earlier =>
              simp only
              split
              · exact ih earlier last
              · exact ih (last :: earlier) e

/-- The entries of a track that a lookup can tell apart. -/
def squash (t : Track k) : Track k :=
  match h : t.entries with
  | [] => t
  | first :: rest =>
    { entries := squashFrom [] first rest
      ascending := (h ▸ t.ascending).sublist (squashFrom_sublist [] first rest)
      nonempty := squashFrom_ne_nil [] first rest }

end Track

def History.squash {k : Kind} (h : History k) : History k := ⟨h.tracks.map Track.squash⟩

end ConstantFlow
