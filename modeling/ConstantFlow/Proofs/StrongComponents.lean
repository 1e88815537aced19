import ConstantFlow.Components
import ConstantFlow.Proofs.Reachability
import Mathlib.Data.List.Perm.Basic

/-! Correctness of the search for components. While the search follows a path, every open vertex leads to a vertex of
that path at or below it on the stack, and every vertex of the stack leads to those above it. A component closes when
no edge leaves it for the rest of the stack, and then it is exactly a class of linked vertices, all of whose other
targets have been closed before. -/

namespace ConstantFlow
namespace Components
variable {targets : Nat → List Nat}

def met (s : Components) : List Nat := s.stack ++ s.closed.flatten

theorem isClosed_iff {s : Components} {v : Nat} : s.isClosed v = true ↔ v ∈ s.closed.flatten := by
  simp [isClosed]

theorem found_iff {s : Components} {v : Nat} : s.found v = true ↔ v ∈ s.met := by
  simp [found, met, isClosed]

theorem mem_met {s : Components} {v : Nat} : v ∈ s.met ↔ v ∈ s.stack ∨ v ∈ s.closed.flatten := List.mem_append

/-- Closing the top of the stack as a component loses nothing. -/
theorem met_close {s : Components} {c below : List Nat} (hstack : s.stack = c ++ below) :
    (⟨below, c :: s.closed⟩ : Components).met.Perm s.met := by
  rw [met, met, hstack, List.flatten_cons, ← List.append_assoc]
  exact List.perm_append_comm.append_right _

/-! ### Stack depths -/

theorem depth?_eq_none_iff {v : Nat} {stack : List Nat} : depth? v stack = none ↔ v ∉ stack := by
  induction stack with
  | nil => simp [depth?]
  | cons w rest ih =>
      rw [depth?]
      split
      · rename_i heq
        simp [heq]
      · rename_i hne
        rw [ih, List.mem_cons, not_or]
        exact ⟨fun h => ⟨fun heq => hne heq.symm, h⟩, fun h => h.2⟩

/-- The vertex at a depth of the stack. -/
theorem getElem?_of_depth? {v d : Nat} {stack : List Nat} (h : depth? v stack = some d) :
    stack.reverse[d]? = some v := by
  induction stack with
  | nil => simp [depth?] at h
  | cons w rest ih =>
      rw [depth?] at h
      rw [List.reverse_cons]
      split at h
      · rename_i heq
        cases h
        rw [← List.length_reverse, List.getElem?_concat_length, heq]
      · have hd := ih h
        rw [List.getElem?_append_left (List.getElem?_eq_some_iff.1 hd).1]
        exact hd

theorem getElem?_reverse_append {d : Nat} {new stack : List Nat} (hd : d < stack.length) :
    (new ++ stack).reverse[d]? = stack.reverse[d]? := by
  rw [List.reverse_append, List.getElem?_append_left (by simpa using hd)]

theorem lt_length_of_getElem? {d u : Nat} {stack : List Nat} (h : stack.reverse[d]? = some u) :
    d < stack.length := by
  simpa using (List.getElem?_eq_some_iff.1 h).1

theorem mem_of_getElem?_reverse {d u : Nat} {stack : List Nat} (h : stack.reverse[d]? = some u) : u ∈ stack :=
  List.mem_reverse.1 (List.mem_of_getElem? h)

/-! ### The invariant -/

/-- What holds while the search follows `path`. -/
structure Following (targets : Nat → List Nat) (path : List Nat) (s : Components) : Prop where
  once : s.met.Nodup
  path_open : ∀ v ∈ path, v ∈ s.stack
  component : ∀ c ∈ s.closed, ∃ v ∈ c, ∀ w, w ∈ c ↔ Linked targets v w
  settled : ∀ later c earlier, s.closed = later ++ c :: earlier →
    ∀ v ∈ c, ∀ w ∈ targets v, w ∈ c ∨ w ∈ earlier.flatten
  targets_met : ∀ v ∈ s.stack, v ∉ path → ∀ w ∈ targets v, w ∈ s.met
  upward : s.stack.Pairwise fun upper lower => Leads targets lower upper
  downward : ∀ above v below, s.stack = above ++ v :: below → ∃ p ∈ v :: below, p ∈ path ∧ Leads targets v p

theorem following_empty : Following targets [] ⟨[], []⟩ := by
  refine ⟨List.nodup_nil, ?_, ?_, ?_, ?_, List.Pairwise.nil, ?_⟩ <;> simp

section Invariant
variable {path : List Nat} {s : Components}

/-- At any time, the targets of what is closed are closed. -/
theorem Following.earlier_targets (h : Following targets path s) {later earlier : List (List Nat)}
    (hsplit : s.closed = later ++ earlier) {v : Nat} (hv : v ∈ earlier.flatten) :
    ∀ w ∈ targets v, w ∈ earlier.flatten := by
  intro w hw
  obtain ⟨c, hc, hvc⟩ := List.mem_flatten.1 hv
  obtain ⟨front, back, rfl⟩ := List.append_of_mem hc
  rw [List.flatten_append, List.flatten_cons]
  rcases h.settled (later ++ front) c back (by rw [hsplit, List.append_assoc]) v hvc w hw with hin | hin
  · exact List.mem_append_right _ (List.mem_append_left _ hin)
  · exact List.mem_append_right _ (List.mem_append_right _ hin)

theorem Following.closed_targets (h : Following targets path s) {v : Nat} (hv : v ∈ s.closed.flatten) :
    ∀ w ∈ targets v, w ∈ s.closed.flatten :=
  h.earlier_targets (List.nil_append _).symm hv

/-- No path leads from a component to one that closes after it. -/
theorem Following.closed_pairwise (h : Following targets path s) :
    s.closed.Pairwise fun later earlier => ∀ v ∈ earlier, ∀ w ∈ later, ¬ Leads targets v w := by
  have hnodup : s.closed.flatten.Nodup := (List.nodup_append.1 h.once).2.1
  -- Induction on what was closed at some time; `later` has been closed since.
  suffices hrest : ∀ rest later, s.closed = later ++ rest →
      rest.Pairwise fun later earlier => ∀ v ∈ earlier, ∀ w ∈ later, ¬ Leads targets v w from
    hrest s.closed [] rfl
  intro rest
  induction rest with
  | nil => exact fun _ _ => List.Pairwise.nil
  | cons c earlier ih =>
      intro later hsplit
      have hsplit' : s.closed = (later ++ [c]) ++ earlier := by rw [hsplit, List.append_assoc, List.singleton_append]
      refine List.pairwise_cons.2 ⟨?_, ih _ hsplit'⟩
      intro d hd v hv w hw hlead
      have hearlier : w ∈ earlier.flatten :=
        hlead.preserves (fun u hu => h.earlier_targets hsplit' hu) (List.mem_flatten.2 ⟨d, hd, hv⟩)
      rw [hsplit, List.flatten_append, List.flatten_cons] at hnodup
      have hapart := (List.nodup_append.1 (List.nodup_append.1 hnodup).2.1).2.2
      exact hapart w hw w hearlier rfl

theorem Following.stack_nodup (h : Following targets path s) : s.stack.Nodup :=
  (List.nodup_append.1 h.once).1

theorem Following.not_closed (h : Following targets path s) {v : Nat} (hv : v ∈ s.stack) :
    v ∉ s.closed.flatten :=
  fun hc => (List.nodup_append.1 h.once).2.2 v hv v hc rfl

/-- Without a path nothing is open. -/
theorem Following.stack_eq_nil (h : Following targets [] s) : s.stack = [] := by
  cases hs : s.stack with
  | nil => rfl
  | cons v below =>
      obtain ⟨p, -, hp, -⟩ := h.downward [] v below hs
      simp at hp

/-- Every open vertex leads to the vertex at the end of the path. -/
theorem Following.leads_last {v : Nat} {new below : List Nat} (h : Following targets (v :: path) s)
    (hstack : s.stack = new ++ v :: below) (hpath : ∀ p ∈ path, p ∈ below) : ∀ u ∈ s.stack, Leads targets u v := by
  have hup := h.upward
  rw [hstack, List.pairwise_append] at hup
  have hbelow : ∀ u ∈ below, Leads targets u v := (List.pairwise_cons.1 hup.2.1).1
  intro u hu
  rw [hstack, List.mem_append, List.mem_cons] at hu
  rcases hu with hu | rfl | hu
  · obtain ⟨front, back, hnew⟩ := List.append_of_mem hu
    obtain ⟨p, -, hp, hlead⟩ := h.downward front u (back ++ v :: below) (by rw [hstack, hnew]; simp)
    rcases List.mem_cons.1 hp with rfl | hp
    · exact hlead
    · exact hlead.trans (hbelow p (hpath p hp))
  · exact Leads.refl u
  · exact hbelow u hu

/-- Starting on a new vertex extends the path. -/
theorem Following.push (h : Following targets path s) {v : Nat} (hnew : v ∉ s.met)
    (hlead : ∀ u ∈ s.stack, Leads targets u v) : Following targets (v :: path) ⟨v :: s.stack, s.closed⟩ := by
  refine ⟨List.nodup_cons.2 ⟨hnew, h.once⟩, ?_, h.component, h.settled, ?_, ?_, ?_⟩
  · intro p hp
    rcases List.mem_cons.1 hp with rfl | hp
    · exact List.mem_cons_self
    · exact List.mem_cons_of_mem _ (h.path_open p hp)
  · intro u hu hpath w hw
    rw [List.mem_cons, not_or] at hpath
    have hstack := (List.mem_cons.1 hu).resolve_left hpath.1
    exact List.mem_cons_of_mem _ (h.targets_met u hstack hpath.2 w hw)
  · exact List.pairwise_cons.2 ⟨hlead, h.upward⟩
  · intro above u below hsplit
    cases above with
    | nil =>
        obtain ⟨rfl, -⟩ := List.cons_eq_cons.1 hsplit
        exact ⟨v, List.mem_cons_self, List.mem_cons_self, Leads.refl v⟩
    | cons a above =>
        obtain ⟨-, hrest⟩ := List.cons_eq_cons.1 hsplit
        obtain ⟨p, hp, hpath, hup⟩ := h.downward above u below hrest
        exact ⟨p, hp, List.mem_cons_of_mem _ hpath, hup⟩

end Invariant

/-! ### The least depth reached -/

/-- Whether no vertex of `ends` stands on the stack below depth `low`, and `v` leads to what stands at that depth. -/
structure Lowest (targets : Nat → List Nat) (stack : List Nat) (v : Nat) (ends : List Nat) (low : Nat) : Prop where
  le_length : low ≤ stack.length
  leads : low < stack.length → ∃ u, stack.reverse[low]? = some u ∧ Leads targets v u
  le_depth : ∀ w ∈ ends, ∀ d, stack.reverse[d]? = some w → low ≤ d

theorem Lowest.add {stack ends more : List Nat} {v low depth : Nat} (h : Lowest targets stack v ends low)
    (hleads : depth < stack.length → ∃ u, stack.reverse[depth]? = some u ∧ Leads targets v u)
    (hdepth : ∀ w ∈ more, ∀ d, stack.reverse[d]? = some w → depth ≤ d) :
    Lowest targets stack v (ends ++ more) (min low depth) := by
  refine ⟨(Nat.min_le_left _ _).trans h.le_length, ?_, ?_⟩
  · intro hlt
    rcases Nat.le_total low depth with hle | hle
    · rw [Nat.min_eq_left hle] at hlt ⊢
      exact h.leads hlt
    · rw [Nat.min_eq_right hle] at hlt ⊢
      exact hleads hlt
  · intro w hw d hd
    rcases List.mem_append.1 hw with hw | hw
    · exact (Nat.min_le_left _ _).trans (h.le_depth w hw d hd)
    · exact (Nat.min_le_right _ _).trans (hdepth w hw d hd)

theorem Lowest.of_subset {stack ends ends' : List Nat} {v low : Nat} (h : Lowest targets stack v ends low)
    (hsub : ∀ w ∈ ends', w ∈ ends) : Lowest targets stack v ends' low :=
  ⟨h.le_length, h.leads, fun w hw => h.le_depth w (hsub w hw)⟩

/-- How far the visit to `v`, which began at `s`, has come: it has looked along the edges to `done`, and `new` stands
on the stack above `v`. -/
structure Progress (targets : Nat → List Nat) (path : List Nat) (s : Components) (v : Nat) (done new : List Nat)
    (r : Components × Nat) : Prop where
  following : Following targets (v :: path) r.1
  stack : r.1.stack = new ++ v :: s.stack
  met_mono : ∀ u ∈ s.met, u ∈ r.1.met
  done_met : ∀ w ∈ done, w ∈ r.1.met
  lowest : Lowest targets s.stack v (new.flatMap targets ++ done) r.2

/-- What a visit promises. -/
def VisitSpec (targets : Nat → List Nat) (n : Nat) (visit : Nat → Components → Components × Nat) (room : Nat) :
    Prop :=
  ∀ path s v, v < n → v ∉ s.met → unmet n s.met ≤ room → Following targets path s →
    (∀ u ∈ s.stack, Leads targets u v) →
    ∃ new, Following targets path (visit v s).1 ∧ (visit v s).1.stack = new ++ s.stack ∧
      (∀ u ∈ s.met, u ∈ (visit v s).1.met) ∧ v ∈ (visit v s).1.met ∧
      Lowest targets s.stack v (new.flatMap targets) (visit v s).2

section Visit
variable {path : List Nat} {s : Components} {v : Nat}

theorem progress_start (h : Following targets path s) (hnew : v ∉ s.met)
    (hlead : ∀ u ∈ s.stack, Leads targets u v) :
    Progress targets path s v [] [] (⟨v :: s.stack, s.closed⟩, s.stack.length) := by
  refine ⟨h.push hnew hlead, rfl, ?_, ?_, ⟨le_rfl, ?_, ?_⟩⟩
  · intro u hu
    exact List.mem_cons_of_mem _ hu
  · intro w hw
    simp at hw
  · intro hlt
    omega
  · intro w hw
    simp at hw

theorem Progress.stack_append {done new : List Nat} {r : Components × Nat}
    (h : Progress targets path s v done new r) : r.1.stack = (new ++ [v]) ++ s.stack := by
  rw [h.stack, List.append_assoc, List.singleton_append]

theorem Progress.getElem?_base {done new : List Nat} {r : Components × Nat}
    (h : Progress targets path s v done new r) {d : Nat} (hd : d < s.stack.length) :
    r.1.stack.reverse[d]? = s.stack.reverse[d]? := by
  rw [h.stack_append, getElem?_reverse_append hd]

/-- An edge to a closed vertex changes nothing. -/
theorem Progress.look_closed {done new : List Nat} {t : Components} {low : Nat}
    (h : Progress targets path s v done new (t, low)) {w : Nat} (hw : w ∈ t.closed.flatten) :
    Progress targets path s v (done ++ [w]) new (t, low) := by
  refine ⟨h.following, h.stack, h.met_mono, ?_, ?_⟩
  · exact List.forall_mem_append.2 ⟨h.done_met, List.forall_mem_singleton.2 (mem_met.2 (Or.inr hw))⟩
  · have hnowhere : ∀ x ∈ [w], ∀ d, s.stack.reverse[d]? = some x → low ≤ d := by
      intro x hx d hd
      rw [List.mem_singleton.1 hx] at hd
      have hopen : w ∈ t.stack := by
        rw [h.stack]
        exact List.mem_append_right _ (List.mem_cons_of_mem _ (mem_of_getElem?_reverse hd))
      exact absurd hw (h.following.not_closed hopen)
    have hlowest := h.lowest.add h.lowest.leads hnowhere
    rw [Nat.min_self, List.append_assoc] at hlowest
    exact hlowest

/-- An edge to an open vertex counts with the depth of the vertex. -/
theorem Progress.look_open {done new : List Nat} {t : Components} {low : Nat}
    (h : Progress targets path s v done new (t, low)) {w depth : Nat} (hw : w ∈ targets v)
    (hdepth : t.stack.reverse[depth]? = some w) :
    Progress targets path s v (done ++ [w]) new (t, min low depth) := by
  have hmet : w ∈ t.met := mem_met.2 (Or.inl (mem_of_getElem?_reverse hdepth))
  refine ⟨h.following, h.stack, h.met_mono, ?_, ?_⟩
  · exact List.forall_mem_append.2 ⟨h.done_met, List.forall_mem_singleton.2 hmet⟩
  · rw [← List.append_assoc]
    refine h.lowest.add ?_ ?_
    · intro hlt
      exact ⟨w, (h.getElem?_base hlt).symm.trans hdepth, Leads.single hw⟩
    · intro x hx d hd
      rw [List.mem_singleton.1 hx, ← h.getElem?_base (lt_length_of_getElem? hd)] at hd
      -- No vertex stands on the stack twice.
      have hlt := (List.getElem?_eq_some_iff.1 hdepth).1
      have hnodup := List.nodup_reverse.2 h.following.stack_nodup
      exact ((List.getElem?_inj hlt hnodup).1 (hdepth.trans hd.symm)).le

/-- An edge to a new vertex counts with what the visit to that vertex reaches. -/
theorem Progress.look_new {n room : Nat} {visit : Nat → Components → Components × Nat}
    (hvisit : VisitSpec targets n visit room) (hpath : ∀ p ∈ path, p ∈ s.stack) {done new : List Nat}
    {t : Components} {low : Nat} (h : Progress targets path s v done new (t, low))
    (hroom : unmet n t.met ≤ room) {w : Nat} (hwn : w < n) (hw : w ∈ targets v) (hwt : w ∉ t.met) :
    ∃ new', Progress targets path s v (done ++ [w]) new' ((visit w t).1, min low (visit w t).2) := by
  have hlead : ∀ u ∈ t.stack, Leads targets u w := fun u hu =>
    (h.following.leads_last h.stack hpath u hu).tail hw
  obtain ⟨inner, hfollow, hstack, hmono, hwmet, hlow⟩ :=
    hvisit (v :: path) t w hwn hwt hroom h.following hlead
  refine ⟨inner ++ new, hfollow, ?_, fun u hu => hmono u (h.met_mono u hu), ?_, ?_⟩
  · show (visit w t).1.stack = inner ++ new ++ v :: s.stack
    rw [hstack, h.stack, List.append_assoc]
  · exact List.forall_mem_append.2
      ⟨fun x hx => hmono x (h.done_met x hx), List.forall_mem_singleton.2 hwmet⟩
  · have hleads : (visit w t).2 < s.stack.length →
        ∃ u, s.stack.reverse[(visit w t).2]? = some u ∧ Leads targets v u := by
      intro hlt
      have hlt' : (visit w t).2 < t.stack.length := by
        rw [h.stack, List.length_append, List.length_cons]
        omega
      obtain ⟨u, hu, hup⟩ := hlow.leads hlt'
      exact ⟨u, (h.getElem?_base hlt).symm.trans hu, (Leads.single hw).trans hup⟩
    have hdepth : ∀ x ∈ inner.flatMap targets ++ [w], ∀ d, s.stack.reverse[d]? = some x → (visit w t).2 ≤ d := by
      intro x hx d hd
      have hd' := (h.getElem?_base (lt_length_of_getElem? hd)).trans hd
      rcases List.mem_append.1 hx with hx | hx
      · exact hlow.le_depth x hx d hd'
      · -- The vertex was not on the stack when the visit to it began.
        rw [List.mem_singleton.1 hx] at hd'
        exact absurd (mem_met.2 (Or.inl (mem_of_getElem?_reverse hd'))) hwt
    refine (h.lowest.add hleads hdepth).of_subset ?_
    intro x hx
    simp only [List.flatMap_append, List.mem_append] at hx ⊢
    tauto

theorem Progress.look {n room : Nat} {visit : Nat → Components → Components × Nat}
    (hvisit : VisitSpec targets n visit room) (hpath : ∀ p ∈ path, p ∈ s.stack) {done new : List Nat}
    {r : Components × Nat} (h : Progress targets path s v done new r) (hroom : unmet n (v :: s.met) ≤ room) {w : Nat}
    (hwn : w < n) (hw : w ∈ targets v) :
    ∃ new', Progress targets path s v (done ++ [w]) new' (look visit r w) := by
  obtain ⟨t, low⟩ := r
  rw [Components.look]
  by_cases hclosed : t.isClosed w = true
  · rw [if_pos hclosed]
    exact ⟨new, h.look_closed (isClosed_iff.1 hclosed)⟩
  · rw [if_neg hclosed]
    cases hdepth : depth? w t.stack with
    | some depth => exact ⟨new, h.look_open hw (getElem?_of_depth? hdepth)⟩
    | none =>
        have hwt : w ∉ t.met := by
          rw [mem_met, ← isClosed_iff]
          exact not_or.2 ⟨depth?_eq_none_iff.1 hdepth, hclosed⟩
        have hmet : ∀ u ∈ v :: s.met, u ∈ t.met := by
          intro u hu
          rcases List.mem_cons.1 hu with rfl | hu
          · exact mem_met.2 (Or.inl (h.following.path_open u List.mem_cons_self))
          · exact h.met_mono u hu
        exact h.look_new hvisit hpath ((unmet_mono hmet).trans hroom) hwn hw hwt

theorem Progress.foldl_look {n room : Nat} (hn : ∀ v, ∀ w ∈ targets v, w < n)
    {visit : Nat → Components → Components × Nat} (hvisit : VisitSpec targets n visit room)
    (hpath : ∀ p ∈ path, p ∈ s.stack) (hroom : unmet n (v :: s.met) ≤ room) {ws : List Nat}
    (hws : ∀ w ∈ ws, w ∈ targets v) {done new : List Nat} {r : Components × Nat}
    (h : Progress targets path s v done new r) :
    ∃ new', Progress targets path s v (done ++ ws) new' (ws.foldl (Components.look visit) r) := by
  induction ws generalizing done new r with
  | nil =>
      rw [List.append_nil]
      exact ⟨new, h⟩
  | cons w rest ih =>
      have hw := hws w List.mem_cons_self
      obtain ⟨new₁, h₁⟩ := h.look hvisit hpath hroom (hn v w hw) hw
      obtain ⟨new₂, h₂⟩ := ih (fun x hx => hws x (List.mem_cons_of_mem _ hx)) h₁
      rw [List.append_assoc, List.singleton_append] at h₂
      exact ⟨new₂, h₂⟩

/-- What closes at the depth where `v` began is `v` and what stands above it. -/
theorem Progress.close_eq {done new : List Nat} {r : Components × Nat} (h : Progress targets path s v done new r) :
    r.1.close s.stack.length = ⟨s.stack, (new ++ [v]) :: r.1.closed⟩ := by
  have hcount : r.1.stack.length - s.stack.length = (new ++ [v]).length := by
    rw [h.stack_append, List.length_append, Nat.add_sub_cancel]
  rw [Components.close, hcount, h.stack_append, List.drop_left, List.take_left]

/-- Once all edges of `v` have been looked along, what stands from `v` upwards leads to closed vertices, to itself, or
to depths from `low` on. -/
theorem Progress.targets_cases {new : List Nat} {r : Components × Nat}
    (hbefore : Following targets path s) (h : Progress targets path s v (targets v) new r) {u : Nat}
    (hu : u ∈ new ++ [v]) {w : Nat} (hw : w ∈ targets u) :
    w ∈ r.1.closed.flatten ∨ w ∈ new ++ [v] ∨ ∃ d, r.2 ≤ d ∧ s.stack.reverse[d]? = some w := by
  have hstack := h.stack_append
  have hnodup := h.following.stack_nodup
  rw [hstack, List.nodup_append] at hnodup
  have hends : w ∈ new.flatMap targets ++ targets v := by
    rcases List.mem_append.1 hu with hu | hu
    · exact List.mem_append_left _ (List.mem_flatMap.2 ⟨u, hu, hw⟩)
    · exact List.mem_append_right _ (List.mem_singleton.1 hu ▸ hw)
  have hmet : w ∈ r.1.met := by
    by_cases huv : u = v
    · exact h.done_met w (huv ▸ hw)
    · refine h.following.targets_met u (hstack ▸ List.mem_append_left _ hu) ?_ w hw
      rw [List.mem_cons, not_or]
      exact ⟨huv, fun hp => hnodup.2.2 u hu u (hbefore.path_open u hp) rfl⟩
  rw [mem_met, hstack, List.mem_append] at hmet
  rcases hmet with (hmem | hmem) | hmem
  · exact Or.inr (Or.inl hmem)
  · obtain ⟨d, hd⟩ := List.getElem?_of_mem (List.mem_reverse.2 hmem)
    exact Or.inr (Or.inr ⟨d, h.lowest.le_depth w hends d hd, hd⟩)
  · exact Or.inl hmem

/-- If nothing below `v` has been reached, what stands from `v` upwards is the class of `v`. -/
theorem Progress.linked_iff {new : List Nat} {r : Components × Nat} (hbefore : Following targets path s)
    (h : Progress targets path s v (targets v) new r) (hlow : r.2 = s.stack.length) (w : Nat) :
    w ∈ new ++ [v] ↔ Linked targets v w := by
  have hstack := h.stack_append
  have hopen : v ∈ r.1.stack := h.following.path_open v List.mem_cons_self
  have hinside : ∀ u, u ∈ new ++ [v] ∨ u ∈ r.1.closed.flatten →
      ∀ w ∈ targets u, w ∈ new ++ [v] ∨ w ∈ r.1.closed.flatten := by
    intro u hu w hw
    rcases hu with hu | hu
    · rcases h.targets_cases hbefore hu hw with hc | hin | ⟨d, hd, hat⟩
      · exact Or.inr hc
      · exact Or.inl hin
      · have := lt_length_of_getElem? hat
        omega
    · exact Or.inr (h.following.closed_targets hu w hw)
  constructor
  · intro hw
    have hup := h.following.upward
    rw [h.stack, List.pairwise_append] at hup
    have hvw : Leads targets v w := by
      rcases List.mem_append.1 hw with hw | hw
      · exact hup.2.2 w hw v List.mem_cons_self
      · rw [List.mem_singleton.1 hw]
        exact Leads.refl v
    exact ⟨hvw, h.following.leads_last h.stack hbefore.path_open w (hstack ▸ List.mem_append_left _ hw)⟩
  · rintro ⟨hvw, hwv⟩
    have hv : v ∈ new ++ [v] ∨ v ∈ r.1.closed.flatten := Or.inl (by simp)
    rcases hvw.preserves hinside hv with hin | hc
    · exact hin
    · have hclosed : v ∈ r.1.closed.flatten := hwv.preserves (fun u hu => h.following.closed_targets hu) hc
      exact absurd hclosed (h.following.not_closed hopen)

/-- Closing a component gives the path back. -/
theorem Progress.close {new : List Nat} {r : Components × Nat} (hbefore : Following targets path s)
    (h : Progress targets path s v (targets v) new r) (hlow : r.2 = s.stack.length) :
    Following targets path ⟨s.stack, (new ++ [v]) :: r.1.closed⟩ := by
  have hstack := h.stack_append
  have hperm := met_close hstack
  have hnodup := h.following.stack_nodup
  rw [hstack, List.nodup_append] at hnodup
  refine ⟨hperm.nodup_iff.2 h.following.once, hbefore.path_open, ?_, ?_, ?_, ?_, ?_⟩
  · intro c hc
    rcases List.mem_cons.1 hc with rfl | hc
    · exact ⟨v, by simp, h.linked_iff hbefore hlow⟩
    · exact h.following.component c hc
  · intro later c earlier hsplit u hu w hw
    cases later with
    | nil =>
        obtain ⟨rfl, rfl⟩ := List.cons_eq_cons.1 hsplit
        rcases h.targets_cases hbefore hu hw with hc | hin | ⟨d, hd, hat⟩
        · exact Or.inr hc
        · exact Or.inl hin
        · have := lt_length_of_getElem? hat
          omega
    | cons _ later =>
        obtain ⟨-, hrest⟩ := List.cons_eq_cons.1 hsplit
        exact h.following.settled later c earlier hrest u hu w hw
  · intro u hu hpath w hw
    refine hperm.mem_iff.2 (h.following.targets_met u (hstack ▸ List.mem_append_right _ hu) ?_ w hw)
    rw [List.mem_cons, not_or]
    exact ⟨fun huv => hnodup.2.2 v (by simp) u hu huv.symm, hpath⟩
  · have hup := h.following.upward
    rw [hstack, List.pairwise_append] at hup
    exact hup.2.1
  · intro above u below hsplit
    obtain ⟨p, hp, hpath, hlead⟩ :=
      h.following.downward ((new ++ [v]) ++ above) u below (by rw [hstack, hsplit]; simp)
    have hps : p ∈ s.stack := hsplit ▸ List.mem_append_right _ hp
    exact ⟨p, hp, (List.mem_cons.1 hpath).resolve_left fun hpv => hnodup.2.2 v (by simp) p hps hpv.symm, hlead⟩

/-- A vertex that leads below itself stays open when it is left. -/
theorem Progress.leave {new : List Nat} {r : Components × Nat} (hbefore : Following targets path s)
    (h : Progress targets path s v (targets v) new r) (hlow : r.2 < s.stack.length) :
    Following targets path r.1 := by
  refine ⟨h.following.once, ?_, h.following.component, h.following.settled, ?_, h.following.upward, ?_⟩
  · intro p hp
    exact h.following.path_open p (List.mem_cons_of_mem _ hp)
  · intro u hu hpath w hw
    by_cases huv : u = v
    · exact h.done_met w (huv ▸ hw)
    · exact h.following.targets_met u hu (by simp [huv, hpath]) w hw
  · intro above u below hsplit
    obtain ⟨p, hp, hpath, hlead⟩ := h.following.downward above u below hsplit
    rcases List.mem_cons.1 hpath with rfl | hpath
    · -- The path vertex found is `v` itself, which goes on to a vertex of the path below it.
      obtain ⟨x, hx, hvx⟩ := h.lowest.leads hlow
      obtain ⟨front, back, hxs⟩ := List.append_of_mem (mem_of_getElem?_reverse hx)
      obtain ⟨q, hq, hqpath, hxq⟩ := hbefore.downward front x back hxs
      refine ⟨q, ?_, hqpath, (hlead.trans hvx).trans hxq⟩
      have hqs : q ∈ s.stack := hxs ▸ List.mem_append_right _ hq
      obtain ⟨first, last, hrest⟩ := List.append_of_mem hp
      have hboth : (above ++ first) ++ p :: last = new ++ p :: s.stack := by
        rw [List.append_assoc, ← hrest, ← hsplit, h.stack]
      have hnodup := h.following.stack_nodup
      rw [h.stack, ← hboth] at hnodup
      rw [List.nodup_append] at hnodup
      have hfront : p ∉ above ++ first := fun hm => hnodup.2.2 p hm p List.mem_cons_self rfl
      have hback : p ∉ last := (List.nodup_cons.1 hnodup.2.1).1
      have hlast : last = s.stack := ((List.append_cons_inj_of_notMem hfront hback).1 hboth).2.2
      rw [hrest, hlast]
      exact List.mem_append_right _ (List.mem_cons_of_mem _ hqs)
    · exact ⟨p, hp, hpath, hlead⟩

end Visit

theorem visit_succ (fuel v : Nat) (s : Components) :
    visit targets (fuel + 1) v s =
      let r := (targets v).foldl (look (visit targets fuel)) (⟨v :: s.stack, s.closed⟩, s.stack.length)
      if r.2 = s.stack.length then (r.1.close s.stack.length, s.stack.length) else r := rfl

theorem visit_spec {n : Nat} (hn : ∀ v, ∀ w ∈ targets v, w < n) (fuel : Nat) :
    VisitSpec targets n (visit targets fuel) fuel := by
  induction fuel with
  | zero =>
      intro path s v hv hnew hroom
      have := unmet_cons_lt hv hnew
      omega
  | succ fuel ih =>
      intro path s v hv hnew hroom hs hlead
      have hless : unmet n (v :: s.met) ≤ fuel := unmet_cons_le hv hnew hroom
      obtain ⟨new, h⟩ := (progress_start hs hnew hlead).foldl_look hn ih hs.path_open hless fun _ hw => hw
      rw [List.nil_append] at h
      rw [visit_succ]
      generalize (targets v).foldl (look (visit targets fuel)) (⟨v :: s.stack, s.closed⟩, s.stack.length) = r at h
      have hvmet : v ∈ r.1.met := mem_met.2 (Or.inl (h.following.path_open v List.mem_cons_self))
      by_cases hlow : r.2 = s.stack.length
      · have hclose := h.close_eq
        have hkept : ∀ u, u ∈ r.1.met → u ∈ (r.1.close s.stack.length).met := fun u hu =>
          hclose ▸ (met_close h.stack_append).mem_iff.2 hu
        simp only [if_pos hlow]
        refine ⟨[], hclose ▸ h.close hs hlow, by rw [hclose]; rfl, ?_, hkept v hvmet, ⟨le_rfl, ?_, ?_⟩⟩
        · exact fun u hu => hkept u (h.met_mono u hu)
        · intro hlt
          omega
        · intro w hw
          simp at hw
      · have hlt : r.2 < s.stack.length := lt_of_le_of_ne h.lowest.le_length hlow
        simp only [if_neg hlow]
        refine ⟨new ++ [v], h.leave hs hlt, h.stack_append, h.met_mono, hvmet, ?_⟩
        refine ⟨h.lowest.le_length, h.lowest.leads, ?_⟩
        rw [List.flatMap_append, List.flatMap_singleton]
        exact h.lowest.le_depth

theorem start_spec {n : Nat} (hn : ∀ v, ∀ w ∈ targets v, w < n) {s : Components} (hs : Following targets [] s)
    {root : Nat} (hroot : root < n) :
    Following targets [] (start targets n s root) ∧ root ∈ (start targets n s root).met ∧
      ∀ v ∈ s.met, v ∈ (start targets n s root).met := by
  rw [start]
  by_cases hfound : s.found root = true
  · rw [if_pos hfound]
    exact ⟨hs, found_iff.1 hfound, fun v hv => hv⟩
  · rw [if_neg hfound]
    have hlead : ∀ u ∈ s.stack, Leads targets u root := by
      rw [hs.stack_eq_nil]
      simp
    obtain ⟨-, hfollow, -, hmono, hmet, -⟩ :=
      visit_spec hn n [] s root hroot (found_iff.not.1 hfound) (unmet_le n _) hs hlead
    exact ⟨hfollow, hmet, hmono⟩

theorem search_spec {n : Nat} (hn : ∀ v, ∀ w ∈ targets v, w < n) {roots : List Nat}
    (hroots : ∀ root ∈ roots, root < n) :
    Following targets [] (search targets n roots) ∧ ∀ root ∈ roots, root ∈ (search targets n roots).met := by
  rw [search]
  have hstart : Following targets [] (⟨[], []⟩ : Components) := following_empty
  generalize (⟨[], []⟩ : Components) = s at hstart
  suffices h : Following targets [] (roots.foldl (start targets n) s) ∧
      (∀ root ∈ roots, root ∈ (roots.foldl (start targets n) s).met) ∧
      ∀ v ∈ s.met, v ∈ (roots.foldl (start targets n) s).met from ⟨h.1, h.2.1⟩
  induction roots generalizing s with
  | nil => exact ⟨hstart, by simp, fun v hv => hv⟩
  | cons root rest ih =>
      obtain ⟨hs, hmet, hmono⟩ := start_spec hn hstart (hroots root List.mem_cons_self)
      obtain ⟨hrest, hall, hmono'⟩ := ih (fun r hr => hroots r (List.mem_cons_of_mem _ hr)) _ hs
      refine ⟨hrest, ?_, fun v hv => hmono' v (hmono v hv)⟩
      intro r hr
      rcases List.mem_cons.1 hr with rfl | hr
      · exact hmono' r hmet
      · exact hall r hr

end Components
end ConstantFlow
