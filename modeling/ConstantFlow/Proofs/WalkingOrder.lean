import ConstantFlow.Graph.Order
import ConstantFlow.Proofs.Reachability
import Mathlib.Data.Nat.Find

/-! The walking order as a depth-first forest. Where a vertex is finished, everything that the traversal met below it
stands right behind it, reached through vertices between, and nothing finished earlier leads back into that stretch.
From this one property the order is complete on the vertices that the entry reaches, every one of them but the entry
has an earlier predecessor, and an edge that does not go forward closes a cycle. -/

namespace ConstantFlow
namespace Traversal
variable {targets : Nat → List Nat}

/-- Whether every vertex of a list is a target of `root` or of a vertex before it in the list. -/
def Rooted (targets : Nat → List Nat) (root : Nat) (below : List Nat) : Prop :=
  ∀ front v back, below = front ++ v :: back → ∃ p ∈ root :: front, v ∈ targets p

theorem Rooted.nil (root : Nat) : Rooted targets root [] := by
  intro front v back h
  simp at h

theorem Rooted.leads {root : Nat} {below : List Nat} (h : Rooted targets root below) {front : List Nat} {v : Nat}
    {back : List Nat} (hsplit : below = front ++ v :: back) : Leads targets root v := by
  induction hlen : front.length using Nat.strong_induction_on generalizing front v back with
  | _ len ih =>
      obtain ⟨p, hp, hedge⟩ := h front v back hsplit
      rcases List.mem_cons.1 hp with rfl | hp
      · exact Leads.single hedge
      · obtain ⟨first, middle, rfl⟩ := List.append_of_mem hp
        have hfirst : below = first ++ p :: (middle ++ v :: back) := by simp [hsplit]
        have hlt : first.length < len := by
          rw [← hlen, List.length_append, List.length_cons]
          omega
        exact (ih first.length hlt hfirst rfl).tail hedge

theorem Rooted.leads_of_mem {root : Nat} {below : List Nat} (h : Rooted targets root below) {v : Nat}
    (hv : v ∈ below) : Leads targets root v := by
  obtain ⟨front, back, hsplit⟩ := List.append_of_mem hv
  exact h.leads hsplit

/-- What is met below a target of the root, in front of what was met before. -/
theorem Rooted.append {root child : Nat} {inner below : List Nat} (hchild : child ∈ targets root)
    (hinner : Rooted targets child inner) (hbelow : Rooted targets root below) :
    Rooted targets root (child :: inner ++ below) := by
  intro front v back hsplit
  rcases List.append_eq_append_iff.1 hsplit with ⟨middle, hfront, hrest⟩ | ⟨middle, hfirst, hrest⟩
  · obtain ⟨p, hp, hedge⟩ := hbelow middle v back hrest
    rcases List.mem_cons.1 hp with rfl | hp
    · exact ⟨p, List.mem_cons_self, hedge⟩
    · exact ⟨p, List.mem_cons_of_mem _ (hfront ▸ List.mem_append_right _ hp), hedge⟩
  · cases middle with
    | nil =>
        obtain ⟨p, hp, hedge⟩ := hbelow [] v back (by simpa using hrest.symm)
        rw [List.mem_singleton] at hp
        exact ⟨p, hp ▸ List.mem_cons_self, hedge⟩
    | cons w middle =>
        obtain ⟨rfl, -⟩ := List.cons_eq_cons.1 hrest
        cases front with
        | nil =>
            obtain ⟨rfl, -⟩ := List.cons_eq_cons.1 hfirst
            exact ⟨root, List.mem_cons_self, hchild⟩
        | cons u front =>
            obtain ⟨rfl, hinside⟩ := List.cons_eq_cons.1 hfirst
            obtain ⟨p, hp, hedge⟩ := hinner front v middle hinside
            exact ⟨p, List.mem_cons_of_mem _ hp, hedge⟩

/-- Whether each vertex of a list heads a stretch that is rooted in it and that nothing behind it leads into. -/
def IsForest (targets : Nat → List Nat) (l : List Nat) : Prop :=
  ∀ u ∈ l, ∃ front below back, l = front ++ (u :: below ++ back) ∧ Rooted targets u below ∧
    ∀ v ∈ back, ∀ w ∈ targets v, w ∉ u :: below

theorem IsForest.cons {l : List Nat} (h : IsForest targets l) {v : Nat} {below back : List Nat}
    (hl : l = below ++ back) (hrooted : Rooted targets v below)
    (hback : ∀ y ∈ back, ∀ w ∈ targets y, w ∉ v :: below) : IsForest targets (v :: l) := by
  intro u hu
  rcases List.mem_cons.1 hu with rfl | hu
  · exact ⟨[], below, back, by simp [hl], hrooted, hback⟩
  · obtain ⟨front, inner, behind, rfl, hinner, hbehind⟩ := h u hu
    exact ⟨v :: front, inner, behind, by simp, hinner, hbehind⟩

/-- What holds of a traversal at any time: what is finished has been met, with all its targets, once, and forms a
forest. -/
structure Orderly (targets : Nat → List Nat) (t : Traversal) : Prop where
  finished_seen : ∀ v ∈ t.finished, v ∈ t.seen
  targets_seen : ∀ v ∈ t.finished, ∀ w ∈ targets v, w ∈ t.seen
  nodup : t.finished.Nodup
  forest : IsForest targets t.finished

/-- Whether a traversal has come from another by finishing new vertices, without meeting others. -/
structure Continues (t u : Traversal) (new : List Nat) : Prop where
  finished : u.finished = new ++ t.finished
  seen : ∀ v, v ∈ u.seen ↔ v ∈ new ∨ v ∈ t.seen
  fresh : ∀ v ∈ new, v ∉ t.seen

theorem orderly_empty : Orderly targets ⟨[], []⟩ := by
  refine ⟨?_, ?_, List.nodup_nil, ?_⟩
  · intro v hv
    simp at hv
  · intro v hv
    simp at hv
  · intro u hu
    simp at hu

theorem Continues.refl (t : Traversal) : Continues t t [] := by
  refine ⟨rfl, ?_, ?_⟩
  · intro v
    simp
  · intro v hv
    simp at hv

theorem Continues.trans {t u w : Traversal} {new later : List Nat} (htu : Continues t u new)
    (huw : Continues u w later) : Continues t w (later ++ new) := by
  refine ⟨?_, ?_, ?_⟩
  · rw [huw.finished, htu.finished, List.append_assoc]
  · intro v
    rw [huw.seen, htu.seen, List.mem_append, or_assoc]
  · intro v hv hseen
    rcases List.mem_append.1 hv with hv | hv
    · exact huw.fresh v hv ((htu.seen v).2 (Or.inr hseen))
    · exact htu.fresh v hv hseen

/-- Meeting a vertex keeps a traversal orderly. -/
theorem Orderly.meet {t : Traversal} (h : Orderly targets t) (v : Nat) :
    Orderly targets ⟨v :: t.seen, t.finished⟩ :=
  ⟨fun w hw => List.mem_cons_of_mem _ (h.finished_seen w hw),
    fun w hw x hx => List.mem_cons_of_mem _ (h.targets_seen w hw x hx), h.nodup, h.forest⟩

/-- Finishing a vertex whose targets have all been met keeps a traversal orderly. -/
theorem Orderly.finish {t u : Traversal} {v : Nat} {below : List Nat} (ht : Orderly targets t) (hv : v ∉ t.seen)
    (hu : Orderly targets u) (hcont : Continues ⟨v :: t.seen, t.finished⟩ u below)
    (hrooted : Rooted targets v below) (htargets : ∀ w ∈ targets v, w ∈ u.seen) :
    Orderly targets ⟨u.seen, v :: u.finished⟩ ∧ Continues t ⟨u.seen, v :: u.finished⟩ (v :: below) := by
  have hseen : ∀ w, w ∈ u.seen ↔ w ∈ v :: below ∨ w ∈ t.seen := by
    intro w
    rw [hcont.seen, List.mem_cons, List.mem_cons]
    tauto
  have hfresh : ∀ w ∈ v :: below, w ∉ t.seen := by
    intro w hw hmem
    rcases List.mem_cons.1 hw with rfl | hw
    · exact hv hmem
    · exact hcont.fresh w hw (List.mem_cons_of_mem _ hmem)
  have hfinished : u.finished = below ++ t.finished := hcont.finished
  refine ⟨⟨?_, ?_, ?_, ?_⟩, ⟨?_, hseen, hfresh⟩⟩
  · intro w hw
    rcases List.mem_cons.1 hw with rfl | hw
    · exact (hseen w).2 (Or.inl List.mem_cons_self)
    · exact hu.finished_seen w hw
  · intro w hw
    rcases List.mem_cons.1 hw with rfl | hw
    · exact htargets
    · exact hu.targets_seen w hw
  · refine List.nodup_cons.2 ⟨?_, hu.nodup⟩
    rw [hfinished, List.mem_append]
    rintro (hmem | hmem)
    · exact hcont.fresh v hmem List.mem_cons_self
    · exact hv (ht.finished_seen v hmem)
  · refine hu.forest.cons hfinished hrooted ?_
    intro y hy w hw hmem
    exact hfresh w hmem (ht.targets_seen y hy w hw)
  · show v :: u.finished = v :: below ++ t.finished
    rw [hfinished, List.cons_append]

/-- The step of a visit along one edge. -/
def follow (visit : Nat → Traversal → Traversal) (t : Traversal) (w : Nat) : Traversal :=
  if t.seen.contains w then t else visit w t

theorem follow_of_seen {visit : Nat → Traversal → Traversal} {t : Traversal} {w : Nat} (h : w ∈ t.seen) :
    follow visit t w = t := by
  simp [follow, h]

theorem follow_of_new {visit : Nat → Traversal → Traversal} {t : Traversal} {w : Nat} (h : w ∉ t.seen) :
    follow visit t w = visit w t := by
  simp [follow, h]

theorem visit_succ (fuel v : Nat) (t : Traversal) :
    visit targets (fuel + 1) v t =
      ⟨((targets v).foldl (follow (visit targets fuel)) ⟨v :: t.seen, t.finished⟩).seen,
        v :: ((targets v).foldl (follow (visit targets fuel)) ⟨v :: t.seen, t.finished⟩).finished⟩ := rfl

/-- What a visit promises: it finishes new vertices only, the visited one last, and each through one before it. -/
def VisitSpec (targets : Nat → List Nat) (n : Nat) (visit : Nat → Traversal → Traversal) (room : Nat) : Prop :=
  ∀ v t, v < n → v ∉ t.seen → unmet n t.seen ≤ room → Orderly targets t →
    ∃ below, Orderly targets (visit v t) ∧ Continues t (visit v t) (v :: below) ∧ Rooted targets v below

theorem foldl_follow_spec {n room : Nat} (hn : ∀ v, ∀ w ∈ targets v, w < n)
    {visit : Nat → Traversal → Traversal} (hvisit : VisitSpec targets n visit room) (start : Traversal)
    (hroom : unmet n start.seen ≤ room) {v : Nat} {ws : List Nat} (hws : ∀ w ∈ ws, w ∈ targets v) {t : Traversal}
    {below : List Nat} (ht : Orderly targets t) (hcont : Continues start t below) (hrooted : Rooted targets v below) :
    ∃ below', Orderly targets (ws.foldl (follow visit) t) ∧
      Continues start (ws.foldl (follow visit) t) below' ∧ Rooted targets v below' ∧
      (∀ w ∈ ws, w ∈ (ws.foldl (follow visit) t).seen) ∧
      ∀ w ∈ t.seen, w ∈ (ws.foldl (follow visit) t).seen := by
  induction ws generalizing t below with
  | nil =>
      refine ⟨below, ht, hcont, hrooted, ?_, fun w hw => hw⟩
      intro w hw
      simp at hw
  | cons w rest ih =>
      have hrest : ∀ x ∈ rest, x ∈ targets v := fun x hx => hws x (List.mem_cons_of_mem _ hx)
      have hw : w ∈ targets v := hws w List.mem_cons_self
      -- One edge either changes nothing or visits a new vertex; both keep what the fold carries.
      obtain ⟨below₁, ht₁, hcont₁, hrooted₁, hwseen, hmono⟩ :
          ∃ below₁, Orderly targets (follow visit t w) ∧ Continues start (follow visit t w) below₁ ∧
            Rooted targets v below₁ ∧ w ∈ (follow visit t w).seen ∧
            ∀ x ∈ t.seen, x ∈ (follow visit t w).seen := by
        by_cases hseen : w ∈ t.seen
        · rw [follow_of_seen hseen]
          exact ⟨below, ht, hcont, hrooted, hseen, fun x hx => hx⟩
        · have hmet : ∀ x ∈ start.seen, x ∈ t.seen := fun x hx => (hcont.seen x).2 (Or.inr hx)
          obtain ⟨inner, hord, hcont', hinner⟩ :=
            hvisit w t (hn v w hw) hseen ((unmet_mono hmet).trans hroom) ht
          rw [follow_of_new hseen]
          refine ⟨w :: inner ++ below, hord, hcont.trans hcont', Rooted.append hw hinner hrooted, ?_, ?_⟩
          · exact (hcont'.seen w).2 (Or.inl List.mem_cons_self)
          · exact fun x hx => (hcont'.seen x).2 (Or.inr hx)
      obtain ⟨below₂, hord, hcont₂, hrooted₂, hall, hmono₂⟩ := ih hrest ht₁ hcont₁ hrooted₁
      refine ⟨below₂, hord, hcont₂, hrooted₂, ?_, fun x hx => hmono₂ x (hmono x hx)⟩
      intro x hx
      rcases List.mem_cons.1 hx with rfl | hx
      · exact hmono₂ x hwseen
      · exact hall x hx

theorem visit_spec {n : Nat} (hn : ∀ v, ∀ w ∈ targets v, w < n) (fuel : Nat) :
    VisitSpec targets n (visit targets fuel) fuel := by
  induction fuel with
  | zero =>
      intro v t hv hnew hroom _
      have := unmet_cons_lt hv hnew
      omega
  | succ fuel ih =>
      intro v t hv hnew hroom ht
      have hless : unmet n (v :: t.seen) ≤ fuel := unmet_cons_le hv hnew hroom
      obtain ⟨below, hord, hcont, hrooted, hall, -⟩ :=
        foldl_follow_spec hn ih ⟨v :: t.seen, t.finished⟩ hless (fun _ hw => hw) (ht.meet v)
          (Continues.refl _) (Rooted.nil v)
      obtain ⟨hord', hcont'⟩ := ht.finish hnew hord hcont hrooted hall
      rw [visit_succ]
      exact ⟨below, hord', hcont', hrooted⟩

/-- A traversal that starts with nothing has finished all that it has met. -/
theorem mem_seen_visit_empty {n : Nat} (hn : ∀ v, ∀ w ∈ targets v, w < n) {v : Nat} (hv : v < n) (w : Nat) :
    w ∈ (visit targets n v ⟨[], []⟩).seen ↔ w ∈ (visit targets n v ⟨[], []⟩).finished := by
  obtain ⟨below, -, hcont, -⟩ := visit_spec hn n v ⟨[], []⟩ hv List.not_mem_nil (unmet_le n []) orderly_empty
  rw [hcont.seen, hcont.finished, List.append_nil, or_iff_left List.not_mem_nil]

theorem visit_empty {n : Nat} (hn : ∀ v, ∀ w ∈ targets v, w < n) {v : Nat} (hv : v < n) :
    ∃ below, (visit targets n v ⟨[], []⟩).finished = v :: below ∧ Rooted targets v below ∧
      (v :: below).Nodup ∧ IsForest targets (v :: below) ∧ ∀ u ∈ v :: below, ∀ w ∈ targets u, w ∈ v :: below := by
  obtain ⟨below, hord, hcont, hrooted⟩ :=
    visit_spec hn n v ⟨[], []⟩ hv List.not_mem_nil (unmet_le n []) orderly_empty
  have hfinished : (visit targets n v ⟨[], []⟩).finished = v :: below := by
    rw [hcont.finished, List.append_nil]
  refine ⟨below, hfinished, hrooted, hfinished ▸ hord.nodup, hfinished ▸ hord.forest, ?_⟩
  intro u hu w hw
  have hseen := hord.targets_seen u (hfinished ▸ hu) w hw
  exact hfinished ▸ (mem_seen_visit_empty hn hv w).1 hseen

/-- A traversal from a vertex finishes what the vertex leads to, and nothing else. -/
theorem mem_visit_empty {n : Nat} (hn : ∀ v, ∀ w ∈ targets v, w < n) {v : Nat} (hv : v < n) (w : Nat) :
    w ∈ (visit targets n v ⟨[], []⟩).finished ↔ Leads targets v w := by
  obtain ⟨below, hfinished, hrooted, -, -, hclosed⟩ := visit_empty hn hv
  rw [hfinished]
  constructor
  · intro hw
    rcases List.mem_cons.1 hw with rfl | hw
    · exact Leads.refl w
    · exact hrooted.leads_of_mem hw
  · intro h
    exact h.preserves (P := fun u => u ∈ v :: below) hclosed List.mem_cons_self

end Traversal

namespace Graph
variable {g : Graph}

instance (g : Graph) (i j : Nat) : Decidable (g.Reaches i j) :=
  if hi : i < g.size then
    decidable_of_iff (j ∈ (Traversal.visit g.targets g.size i ⟨[], []⟩).finished)
      (Traversal.mem_visit_empty g.targets_lt hi j)
  else
    decidable_of_iff (i = j) (by
      constructor
      · rintro rfl
        exact Leads.refl i
      · intro h
        rcases Relation.ReflTransGen.cases_head h with heq | ⟨k, hedge, -⟩
        · exact heq
        · exact absurd (source_lt_size_of_mem_targets hedge) hi)

instance (g : Graph) (i j : Nat) : Decidable (g.Connected i j) :=
  inferInstanceAs (Decidable (g.Reaches i j ∧ g.Reaches j i))

instance (g : Graph) (i : Nat) : Decidable (g.Reachable i) :=
  match he : g.entryIndex? with
  | none => isFalse (by
      rintro ⟨e, he', -⟩
      rw [he] at he'
      cases he')
  | some e => decidable_of_iff (g.Reaches e i) (by
      constructor
      · intro h
        exact ⟨e, he, h⟩
      · rintro ⟨e', he', h⟩
        rw [he] at he'
        cases he'
        exact h)

theorem reached_eq {e : Nat} (he : g.entryIndex? = some e) :
    ∃ below, g.reached = e :: below ∧ Traversal.Rooted g.targets e below ∧ g.reached.Nodup ∧
      Traversal.IsForest g.targets g.reached := by
  obtain ⟨below, hfinished, hrooted, hnodup, hforest, -⟩ :=
    Traversal.visit_empty g.targets_lt (entryIndex?_lt he)
  have hreached : g.reached = e :: below := by
    rw [reached, he]
    exact hfinished
  exact ⟨below, hreached, hrooted, hreached ▸ hnodup, hreached ▸ hforest⟩

theorem mem_reached {i : Nat} : i ∈ g.reached ↔ g.Reachable i := by
  cases he : g.entryIndex? with
  | none => simp [reached, Reachable, he]
  | some e =>
      have hmem := Traversal.mem_visit_empty g.targets_lt (entryIndex?_lt he) i
      rw [reached, he, Reachable]
      constructor
      · intro hi
        exact ⟨e, he, hmem.1 hi⟩
      · rintro ⟨e', he', hreach⟩
        rw [he] at he'
        cases he'
        exact hmem.2 hreach

theorem reached_nodup : g.reached.Nodup := by
  cases he : g.entryIndex? with
  | none => simp [reached, he]
  | some e =>
      obtain ⟨-, -, -, hnodup, -⟩ := reached_eq he
      exact hnodup

theorem order_nodup : g.order.Nodup := by
  rw [order]
  refine List.nodup_append.2 ⟨reached_nodup, List.nodup_range.filter _, ?_⟩
  intro a ha b hb
  rw [List.mem_filter] at hb
  rintro rfl
  simp [ha] at hb

theorem mem_order {i : Nat} : i ∈ g.order ↔ i < g.size := by
  rw [order, List.mem_append, List.mem_filter, List.mem_range]
  constructor
  · rintro (hi | hi)
    · exact (mem_reached.1 hi).lt_size
    · exact hi.1
  · intro hi
    by_cases hmem : i ∈ g.reached
    · exact Or.inl hmem
    · exact Or.inr ⟨hi, by simp [hmem]⟩

/-- The number of positions walked before a position. -/
def rank (g : Graph) (i : Nat) : Nat := g.order.idxOf i

theorem rank_lt_iff_mem {front back : List Nat} {j : Nat} (hsplit : g.order = front ++ j :: back) (i : Nat) :
    g.rank i < g.rank j ↔ i ∈ front := by
  have hj : j ∉ front := by
    intro hmem
    have hnodup := g.order_nodup
    rw [hsplit, List.nodup_append] at hnodup
    exact hnodup.2.2 j hmem j List.mem_cons_self rfl
  have hrank : g.rank j = front.length := by
    rw [rank, hsplit, List.idxOf_append_of_notMem hj, List.idxOf_cons_self, Nat.add_zero]
  rw [hrank, rank, hsplit]
  by_cases hi : i ∈ front
  · rw [List.idxOf_append_of_mem hi]
    exact ⟨fun _ => hi, fun _ => List.idxOf_lt_length_of_mem hi⟩
  · rw [List.idxOf_append_of_notMem hi]
    constructor
    · intro hlt
      omega
    · intro hmem
      exact absurd hmem hi

theorem order_split {i : Nat} (hi : i < g.size) : ∃ front back, g.order = front ++ i :: back :=
  List.append_of_mem (mem_order.2 hi)

theorem reached_rank_lt_iff_mem {front back : List Nat} {j : Nat} (hsplit : g.reached = front ++ j :: back)
    (i : Nat) : g.rank i < g.rank j ↔ i ∈ front := by
  have horder : g.order =
      front ++ j :: (back ++ (List.range g.size).filter fun i => !g.reached.contains i) := by
    rw [order]
    simp only [hsplit, List.append_assoc, List.cons_append]
  exact rank_lt_iff_mem horder i

/-- What the entry reaches is walked before what it does not reach. -/
theorem rank_lt_of_not_reachable {i j : Nat} (hi : g.Reachable i) (hj : ¬ g.Reachable j) :
    g.rank i < g.rank j := by
  have hi' := mem_reached.2 hi
  have hj' : j ∉ g.reached := fun h => hj (mem_reached.1 h)
  rw [rank, rank, order, List.idxOf_append_of_mem hi', List.idxOf_append_of_notMem hj']
  have := List.idxOf_lt_length_of_mem hi'
  omega

/-- What the entry does not reach is walked by position. -/
theorem rank_lt_iff_of_not_reachable {i j : Nat} (hi : i < g.size) (hireach : ¬ g.Reachable i) (hj : j < g.size)
    (hjreach : ¬ g.Reachable j) : g.rank i < g.rank j ↔ i < j := by
  have hrest : ∀ {v : Nat}, v < g.size → ¬ g.Reachable v →
      v ∈ (List.range g.size).filter fun i => !g.reached.contains i := by
    intro v hv hnot
    rw [← mem_reached] at hnot
    exact List.mem_filter.2 ⟨List.mem_range.2 hv, by simpa using hnot⟩
  have hsorted : ((List.range g.size).filter fun i => !g.reached.contains i).Pairwise (· < ·) :=
    List.pairwise_lt_range.filter _
  obtain ⟨front, back, hsplit⟩ := List.append_of_mem (hrest hj hjreach)
  have horder : g.order = (g.reached ++ front) ++ j :: back := by
    rw [order, List.append_assoc]
    exact congrArg (g.reached ++ ·) hsplit
  have himem := hrest hi hireach
  rw [hsplit] at hsorted himem
  obtain ⟨-, hback, hfront⟩ := List.pairwise_append.1 hsorted
  rw [rank_lt_iff_mem horder, List.mem_append, mem_reached]
  constructor
  · intro hmem
    exact hfront i (hmem.resolve_left hireach) j List.mem_cons_self
  · intro hlt
    refine Or.inr ((List.mem_append.1 himem).resolve_right fun hmem => ?_)
    rcases List.mem_cons.1 hmem with rfl | hmem
    · exact Nat.lt_irrefl _ hlt
    · exact Nat.lt_asymm hlt ((List.pairwise_cons.1 hback).1 i hmem)

/-- The positions that control can pass to from a position and that are walked after it. -/
def onward (g : Graph) (i : Nat) : List Nat := (g.targets i).filter (g.rank i < g.rank ·)

theorem mem_onward {i j : Nat} : j ∈ g.onward i ↔ j ∈ g.targets i ∧ g.rank i < g.rank j := by
  rw [onward, List.mem_filter, decide_eq_true_eq]

/-- A stretch of the order that is rooted in the position before it is so by edges in walking order. -/
theorem rooted_onward {front below back : List Nat} {u : Nat} (hsplit : g.reached = front ++ (u :: below ++ back))
    (hrooted : Traversal.Rooted g.targets u below) : Traversal.Rooted g.onward u below := by
  intro before v after hbelow
  obtain ⟨p, hp, hedge⟩ := hrooted before v after hbelow
  have hall : g.reached = (front ++ u :: before) ++ v :: (after ++ back) := by
    rw [hsplit, hbelow]
    simp
  exact ⟨p, hp, mem_onward.2 ⟨hedge, (reached_rank_lt_iff_mem hall p).2 (List.mem_append_right _ hp)⟩⟩

/-- An edge that does not lead forward goes back to a position from which its source is reached in walking order. -/
theorem leads_onward_of_retreating {i j : Nat} (hi : g.Reachable i) (hedge : j ∈ g.targets i)
    (hback : ¬ g.rank i < g.rank j) : Leads g.onward j i := by
  obtain ⟨e, he, -⟩ := id hi
  obtain ⟨-, -, -, -, hforest⟩ := reached_eq he
  have hj : j ∈ g.reached := mem_reached.2 (hi.trans (Leads.single hedge))
  obtain ⟨front, below, back, hsplit, hrooted, hclosed⟩ := hforest j hj
  have hmem := mem_reached.2 hi
  rw [hsplit, List.mem_append, List.mem_append] at hmem
  rcases hmem with hfront | hbelow | hbehind
  · exact absurd ((reached_rank_lt_iff_mem hsplit i).2 hfront) hback
  · rcases List.mem_cons.1 hbelow with rfl | hbelow
    · exact Leads.refl i
    · exact (rooted_onward hsplit hrooted).leads_of_mem hbelow
  · exact absurd List.mem_cons_self (hclosed i hbehind j hedge)

/-- An edge that does not lead forward closes a cycle. -/
theorem reaches_of_retreating {i j : Nat} (hi : g.Reachable i) (hedge : j ∈ g.targets i)
    (hback : ¬ g.rank i < g.rank j) : g.Reaches j i :=
  (leads_onward_of_retreating hi hedge hback).mono fun _ _ hnext => (mem_onward.1 hnext).1

theorem rank_lt_of_not_reaches {i j : Nat} (hi : g.Reachable i) (hedge : j ∈ g.targets i)
    (hne : ¬ g.Reaches j i) : g.rank i < g.rank j := by
  by_contra hback
  exact hne (reaches_of_retreating hi hedge hback)

/-- Every position that the entry reaches, other than the entry, is entered from an earlier one. -/
theorem exists_earlier_source {e i : Nat} (he : g.entryIndex? = some e) (hi : g.Reachable i) (hne : i ≠ e) :
    ∃ p, i ∈ g.targets p ∧ g.rank p < g.rank i ∧ g.Reachable p := by
  obtain ⟨below, hreached, hrooted, -, -⟩ := reached_eq he
  have hmem := mem_reached.2 hi
  rw [hreached, List.mem_cons] at hmem
  obtain ⟨front, back, hsplit⟩ := List.append_of_mem (hmem.resolve_left hne)
  obtain ⟨p, hp, hedge⟩ := hrooted front i back hsplit
  have hall : g.reached = (e :: front) ++ i :: back := by
    rw [hreached, hsplit, List.cons_append]
  refine ⟨p, hedge, (reached_rank_lt_iff_mem hall p).2 hp, mem_reached.1 ?_⟩
  rw [hall]
  exact List.mem_append_left _ hp

/-- Whether a position is walked before all others that are connected with it. -/
def IsFirst (g : Graph) (h : Nat) : Prop := ∀ j, g.Connected h j → g.rank h ≤ g.rank j

instance (g : Graph) (h : Nat) : Decidable (g.IsFirst h) :=
  decidable_of_iff (∀ j < g.size, g.Connected h j → g.rank h ≤ g.rank j) (by
    refine ⟨fun hfirst j hj => ?_, fun hfirst j _ hj => hfirst j hj⟩
    by_cases hh : h < g.size
    · exact hfirst j (hj.lt_size hh) hj
    · have hnil : ∀ v, v = h → ∀ w ∈ g.targets v, w = h :=
        fun v hv w hw => absurd (hv ▸ source_lt_size_of_mem_targets hw) hh
      rw [Leads.preserves (P := fun v => v = h) hnil hj.1 rfl])

theorem exists_first (g : Graph) (i : Nat) : ∃ h, g.Connected i h ∧ g.IsFirst h := by
  classical
  have hex : ∃ n, ∃ j, g.Connected i j ∧ g.rank j = n := ⟨g.rank i, i, Linked.refl i, rfl⟩
  obtain ⟨h, hconn, hrank⟩ := Nat.find_spec hex
  refine ⟨h, hconn, fun j hj => ?_⟩
  rw [hrank]
  exact Nat.find_min' hex ⟨j, Linked.trans hconn hj, rfl⟩

/-- A position is entered from an earlier one that it is connected with, unless it is the first of these. -/
theorem exists_earlier_connected {h i : Nat} (hi : g.Reachable i) (hconn : g.Connected h i) (hfirst : g.IsFirst h)
    (hne : i ≠ h) : ∃ p, i ∈ g.targets p ∧ g.rank p < g.rank i ∧ g.Connected h p := by
  obtain ⟨e, he, -⟩ := id hi
  obtain ⟨-, -, -, hnodup, hforest⟩ := reached_eq he
  have hh : g.Reachable h := hi.of_connected hconn.symm
  obtain ⟨front, below, back, hsplit, hrooted, hclosed⟩ := hforest h (mem_reached.2 hh)
  have hfront : ∀ j ∈ front, ¬ g.Connected h j := by
    intro j hj hcj
    have hlt := (reached_rank_lt_iff_mem hsplit j).2 hj
    have hle := hfirst j hcj
    omega
  -- A path from behind the stretch of `h` back to `h` would have to enter it, or pass a vertex before it.
  have hbehind : ∀ j, g.Reaches j h → g.Reaches h j → j ∉ back := by
    intro j hjh
    induction hjh using Relation.ReflTransGen.head_induction_on with
    | refl =>
        intro _ hmem
        rw [hsplit, List.nodup_append] at hnodup
        exact (List.nodup_cons.1 (List.cons_append ▸ hnodup.2.1)).1 (List.mem_append_right _ hmem)
    | @head a c hedge hch ih =>
        intro hha hmem
        have hhc : g.Reaches h c := Leads.tail hha hedge
        have hc := mem_reached.2 (hh.trans hhc)
        rw [hsplit, List.mem_append, List.mem_append] at hc
        rcases hc with hc | hc | hc
        · exact hfront c hc ⟨hhc, hch⟩
        · exact hclosed a hmem c hedge hc
        · exact ih hhc hc
  have hmem := mem_reached.2 hi
  rw [hsplit, List.mem_append, List.mem_append] at hmem
  rcases hmem with hmem | hmem | hmem
  · exact absurd hconn (hfront i hmem)
  · obtain ⟨before, after, hbelow⟩ := List.append_of_mem ((List.mem_cons.1 hmem).resolve_left hne)
    obtain ⟨p, hp, hnext⟩ := rooted_onward hsplit hrooted before i after hbelow
    obtain ⟨hedge, hlt⟩ := mem_onward.1 hnext
    have hlead : g.Reaches h p := by
      rcases List.mem_cons.1 hp with rfl | hp
      · exact Leads.refl p
      · refine hrooted.leads_of_mem ?_
        rw [hbelow]
        exact List.mem_append_left _ hp
    refine ⟨p, hedge, hlt, ?_⟩
    exact Linked.of_between hconn hlead (Leads.single hedge)
  · exact absurd hmem (hbehind i hconn.2 hconn.1)

/-- Whether a list of positions is a reverse post-order of a graph: the positions that the entry reaches, in an order
that goes against an edge only to close a cycle, then the others. -/
structure IsReversePostOrder (g : Graph) (l : List Nat) : Prop where
  perm : l.Perm (List.range g.size)
  entry_first : ∀ e, g.entryIndex? = some e → l.head? = some e
  -- The positions that the entry reaches form the front, and the rest is ascending.
  reached_first : ∃ front rest, l = front ++ rest ∧ (∀ i, i ∈ front ↔ g.Reachable i) ∧ rest.Pairwise (· < ·)
  entered : ∀ i, g.Reachable i → g.entryIndex? ≠ some i → ∃ p, i ∈ g.targets p ∧ l.idxOf p < l.idxOf i
  retreating : ∀ i, g.Reachable i → ∀ j ∈ g.targets i, ¬ l.idxOf i < l.idxOf j → g.Connected i j

theorem order_perm (g : Graph) : g.order.Perm (List.range g.size) := by
  rw [List.perm_ext_iff_of_nodup order_nodup List.nodup_range]
  intro i
  rw [mem_order, List.mem_range]

/-- The walking order is a reverse post-order, whatever is wrong with the graph. -/
theorem order_isReversePostOrder (g : Graph) : g.IsReversePostOrder g.order := by
  refine ⟨g.order_perm, ?_, ?_, ?_, ?_⟩
  · intro e he
    obtain ⟨below, hreached, -⟩ := reached_eq he
    rw [order]
    simp [hreached]
  · exact ⟨g.reached, (List.range g.size).filter fun i => !g.reached.contains i, rfl, fun _ => mem_reached,
      List.pairwise_lt_range.filter _⟩
  · intro i hi hne
    obtain ⟨e, he, -⟩ := id hi
    obtain ⟨p, hedge, hlt, -⟩ := exists_earlier_source he hi fun heq => hne (heq ▸ he)
    exact ⟨p, hedge, hlt⟩
  · intro i hi j hedge hback
    exact ⟨Leads.single hedge, reaches_of_retreating hi hedge hback⟩

end Graph
end ConstantFlow
