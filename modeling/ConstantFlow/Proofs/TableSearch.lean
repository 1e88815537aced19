import ConstantFlow.Proofs.LoopTables

/-! The search on tables. It takes the same course as the search by recursion on any graph at all: times stand for
depths of the stack, and the frames of the path come back, one after another, with what a visit leaves behind. So no
step fails and the search ends, provided that the graph has fewer blocks than there are numbers for them. -/

namespace ConstantFlow
namespace Tables
variable {n : Nat} {t : Tables} {s : Components}

/-! ### Marks and depths -/

theorem timeOf_congr {t' : Tables} (h : t'.foundAt = t.foundAt) (i : Nat) : t'.timeOf i = t.timeOf i := by
  rw [timeOf, h, timeOf]

/-- Whether the mark of a block is the time of what stands at a depth of the stack. -/
def Marks (t : Tables) (stack : List Nat) (v d : Nat) : Prop := ∃ u, stack.reverse[d]? = some u ∧ t.lowOf v = t.timeOf u

section Depths
variable {d e u w : Nat}

/-- What stands higher was found later. -/
theorem Tracks.timeOf_lt (h : Tracks n t s) (hd : s.stack.reverse[d]? = some u) (he : s.stack.reverse[e]? = some w)
    (hlt : d < e) : t.timeOf u < t.timeOf w := by
  obtain ⟨hd', rfl⟩ := List.getElem?_eq_some_iff.1 hd
  obtain ⟨he', rfl⟩ := List.getElem?_eq_some_iff.1 he
  exact List.pairwise_iff_getElem.1 (List.pairwise_reverse.2 h.times) d e hd' he' hlt

/-- The earlier of two times stands at the lesser of two depths. -/
theorem Tracks.min_timeOf (h : Tracks n t s) (hd : s.stack.reverse[d]? = some u) (he : s.stack.reverse[e]? = some w) :
    ∃ x, s.stack.reverse[min d e]? = some x ∧ min (t.timeOf u) (t.timeOf w) = t.timeOf x := by
  rcases Nat.lt_trichotomy d e with hlt | rfl | hgt
  · exact ⟨u, by rwa [Nat.min_eq_left hlt.le], Nat.min_eq_left (h.timeOf_lt hd he hlt).le⟩
  · rw [hd, Option.some.injEq] at he
    exact ⟨u, by rwa [Nat.min_self], by rw [he, Nat.min_self]⟩
  · exact ⟨w, by rwa [Nat.min_eq_right hgt.le], Nat.min_eq_right (h.timeOf_lt he hd hgt).le⟩

/-- Lowering a mark to the time of what stands at a depth. -/
theorem Marks.lower {t' : Tables} {v time : Nat} (hmark : Marks t s.stack v d) (h : Tracks n t s)
    (he : s.stack.reverse[e]? = some w) (htime : time = t.timeOf w) (hfound : t'.foundAt = t.foundAt)
    (hlow : t'.lowOf v = min (t.lowOf v) time) : Marks t' s.stack v (min d e) := by
  obtain ⟨u, hd, hu⟩ := hmark
  obtain ⟨x, hx, hmin⟩ := h.min_timeOf hd he
  exact ⟨x, hx, by rw [hlow, hu, htime, hmin, timeOf_congr hfound]⟩

end Depths

/-! ### Turns -/

section Turns
variable {g : Graph} {frame : Frame} {path : List Frame} {b : Block}

theorem follow?_of_turn {t' : Tables} {path' : List Frame} (h : turn? g t frame path = some (t', path')) :
    follow? g t (frame :: path) = follow? g t' path' := by
  rw [follow?, h]
  rfl

/-- An edge that is never taken or leads outside the graph is passed over. -/
theorem turn?_pass (hb : g.blocks[frame.block.index]? = some b) {e : Option BlockId}
    (hnext : b.successors[frame.next]? = some e) (he : ∀ w, e = some w → ¬ w.index < g.size) :
    turn? g t frame path = some (t, ⟨frame.block, frame.next + 1⟩ :: path) := by
  cases e with
  | none => simp [turn?, hb, hnext]
  | some w => simp [turn?, hb, hnext, he w rfl]

theorem turn?_inside (hb : g.blocks[frame.block.index]? = some b) {w : BlockId}
    (hnext : b.successors[frame.next]? = some (some w)) (hw : w.index < g.size) :
    turn? g t frame path = t.look? ⟨frame.block, frame.next + 1⟩ path w := by
  simp [turn?, hb, hnext, hw]

theorem turn?_leave (hb : g.blocks[frame.block.index]? = some b) (hnext : b.successors[frame.next]? = none)
    {t' : Tables} (hleave : t.leave? frame.block path = some t') : turn? g t frame path = some (t', path) := by
  simp [turn?, hb, hnext, hleave]

variable {w : BlockId} (frame path)

theorem Tracks.look?_closed (h : Tracks n t s) (hclosed : w.index ∈ s.closed.flatten) (hopen : w.index ∉ s.stack) :
    t.look? frame path w = some (t, frame :: path) := by
  have hmet := Components.mem_met.2 (Or.inr hclosed)
  obtain ⟨time, htime, -⟩ := h.foundAt_of_met hmet
  have hflag := h.isOpen _ (h.met_lt _ hmet)
  rw [decide_eq_false hopen] at hflag
  simp [look?, htime, hflag]

theorem Tracks.look?_open (h : Tracks n t s) (hopen : w.index ∈ s.stack) :
    ∃ time, time.toNat = t.timeOf w.index ∧
      t.look? frame path w = (t.lower? frame.block time).map fun t' => (t', frame :: path) := by
  have hmet := Components.mem_met.2 (Or.inl hopen)
  obtain ⟨time, htime, hval⟩ := h.foundAt_of_met hmet
  have hflag := h.isOpen _ (h.met_lt _ hmet)
  rw [decide_eq_true hopen] at hflag
  refine ⟨time, hval, ?_⟩
  simp only [look?, htime, hflag, Option.map_eq_bind]
  rfl

theorem Tracks.look?_new (h : Tracks n t s) (hw : w.index < n) (hnew : w.index ∉ s.met) :
    t.look? frame path w = (t.discover? w).map fun t' => (t', ⟨w, 0⟩ :: frame :: path) := by
  simp only [look?, (h.found _ hw).2 hnew, Option.map_eq_bind]
  rfl

end Turns

/-! ### Visits -/

section Visits
open Components (visit Following Progress)
variable {g : Graph} {path : List Nat} {frames : List Frame}

/-- How far the search has come with a block, which it began to visit with tables `t` and state `s`. The state `r` by
recursion is described by tables `t'`, and what stood on the stack before is as it was. -/
structure Scanning (g : Graph) (path : List Nat) (s : Components) (t : Tables) (v : Nat) (done new : List Nat)
    (r : Components × Nat) (t' : Tables) : Prop where
  progress : Progress g.targets path s v done new r
  tracks : Tracks g.size t' r.1
  mark : Marks t' r.1.stack v r.2
  time : ∀ u ∈ s.stack, t'.timeOf u = t.timeOf u
  low : ∀ u ∈ s.stack, t'.lowOf u = t.lowOf u

/-- What a visit that reached a depth leaves to the frames below: the first of them has its mark lowered to what stands
there, and nothing else has changed for the blocks that were on the stack. -/
structure Handed (t t' : Tables) (before after : List Nat) (depth : Nat) (frames : List Frame) : Prop where
  time : ∀ u ∈ before, t'.timeOf u = t.timeOf u
  low : ∀ u ∈ before, (∀ parent ∈ frames.head?, parent.block.index ≠ u) → t'.lowOf u = t.lowOf u
  mark : ∀ parent ∈ frames.head?, ∀ d < before.length, Marks t before parent.block.index d →
    Marks t' after parent.block.index (min d depth)

/-- What is promised of visits with some fuel: the search finds the block and comes back to the frames below it with
tables that describe the state after the visit. -/
def Visits (g : Graph) (fuel : Nat) : Prop :=
  ∀ path s t b frames, Following g.targets path s → Tracks g.size t s → b.index < g.size → b.index ∉ s.met →
    unmet g.size s.met ≤ fuel → (∀ u ∈ s.stack, Leads g.targets u b.index) →
    (∀ parent ∈ frames.head?, parent.block.index ∈ s.stack) →
    ∃ t₁ t', t.discover? b = some t₁ ∧ follow? g t₁ (⟨b, 0⟩ :: frames) = follow? g t' frames ∧
      Tracks g.size t' (visit g.targets fuel b.index s).1 ∧
      Handed t t' s.stack (visit g.targets fuel b.index s).1.stack (visit g.targets fuel b.index s).2 frames

variable {t' : Tables} {b : BlockId} {done new : List Nat} {r : Components × Nat}

theorem Scanning.not_mem (h : Scanning g path s t b.index done new r t') : b.index ∉ s.stack := by
  have hnodup := h.progress.following.stack_nodup
  rw [h.progress.stack, List.nodup_append] at hnodup
  exact (List.nodup_cons.1 hnodup.2.1).1

theorem Scanning.mem_stack (h : Scanning g path s t b.index done new r t') {u : Nat} (hu : u ∈ s.stack) :
    u ∈ r.1.stack := by
  rw [h.progress.stack]
  exact List.mem_append_right _ (List.mem_cons_of_mem _ hu)

theorem Scanning.self_met (h : Scanning g path s t b.index done new r t') : b.index ∈ r.1.met :=
  Components.mem_met.2 (Or.inl (h.progress.following.path_open _ List.mem_cons_self))

section Look
variable {w : BlockId} {new' : List Nat} (k : Nat) (frames : List Frame)

/-- Looking at an open block lowers the mark. -/
theorem Scanning.look_open (h : Scanning g path s t b.index done new r t') {depth : Nat}
    (hat : r.1.stack.reverse[depth]? = some w.index)
    (hprogress : Progress g.targets path s b.index (done ++ [w.index]) new' (r.1, min r.2 depth)) :
    ∃ t'', t'.look? ⟨b, k⟩ frames w = some (t'', ⟨b, k⟩ :: frames) ∧
      Scanning g path s t b.index (done ++ [w.index]) new' (r.1, min r.2 depth) t'' := by
  obtain ⟨time, hval, hlook⟩ := h.tracks.look?_open ⟨b, k⟩ frames (Components.mem_of_getElem?_reverse hat)
  obtain ⟨t'', hlower, htracks, hfound, hself, hother⟩ := h.tracks.lower (h.tracks.met_lt _ h.self_met) time
  refine ⟨t'', by rw [hlook, hlower, Option.map_some], hprogress, htracks,
    h.mark.lower h.tracks hat hval hfound hself, fun u hu => ?_, fun u hu => ?_⟩
  · rw [timeOf_congr hfound, h.time u hu]
  · rw [hother u fun heq => h.not_mem (heq ▸ hu), h.low u hu]

/-- Looking at a new block visits it, and the visit hands its mark on. -/
theorem Scanning.look_new {fuel : Nat} (hvisits : Visits g fuel) (hpath : ∀ p ∈ path, p ∈ s.stack)
    (hroom : unmet g.size (b.index :: s.met) ≤ fuel) (h : Scanning g path s t b.index done new r t')
    (hw : w.index ∈ g.targets b.index) (hnew : w.index ∉ r.1.met)
    (hprogress : Progress g.targets path s b.index (done ++ [w.index]) new'
      ((visit g.targets fuel w.index r.1).1, min r.2 (visit g.targets fuel w.index r.1).2)) :
    ∃ t₁ t'', t'.look? ⟨b, k⟩ frames w = some (t₁, ⟨w, 0⟩ :: ⟨b, k⟩ :: frames) ∧
      follow? g t₁ (⟨w, 0⟩ :: ⟨b, k⟩ :: frames) = follow? g t'' (⟨b, k⟩ :: frames) ∧
      Scanning g path s t b.index (done ++ [w.index]) new'
        ((visit g.targets fuel w.index r.1).1, min r.2 (visit g.targets fuel w.index r.1).2) t'' := by
  have hwn := g.targets_lt _ _ hw
  have hmet : ∀ u ∈ b.index :: s.met, u ∈ r.1.met := List.forall_mem_cons.2 ⟨h.self_met, h.progress.met_mono⟩
  have hlead : ∀ u ∈ r.1.stack, Leads g.targets u w.index := fun u hu =>
    (h.progress.following.leads_last h.progress.stack hpath u hu).tail hw
  have hparent : ∀ parent ∈ (⟨b, k⟩ :: frames : List Frame).head?, parent.block.index ∈ r.1.stack := by
    simpa using h.progress.following.path_open _ List.mem_cons_self
  obtain ⟨t₁, t'', hdiscover, hfollow, htracks, hhanded⟩ := hvisits (b.index :: path) r.1 t' w (⟨b, k⟩ :: frames)
    h.progress.following h.tracks hwn hnew ((unmet_mono hmet).trans hroom) hlead hparent
  have hlook : t'.look? ⟨b, k⟩ frames w = some (t₁, ⟨w, 0⟩ :: ⟨b, k⟩ :: frames) := by
    rw [h.tracks.look?_new ⟨b, k⟩ frames hwn hnew, hdiscover, Option.map_some]
  have hdepth : r.2 < r.1.stack.length := by
    have hle := h.progress.lowest.le_length
    rw [h.progress.stack, List.length_append, List.length_cons]
    omega
  refine ⟨t₁, t'', hlook, hfollow, hprogress, htracks, hhanded.mark ⟨b, k⟩ rfl r.2 hdepth h.mark, fun u hu => ?_,
    fun u hu => ?_⟩
  · rw [hhanded.time u (h.mem_stack hu), h.time u hu]
  · have hne : ∀ parent ∈ (⟨b, k⟩ :: frames : List Frame).head?, parent.block.index ≠ u := by
      rintro parent hparent rfl
      cases hparent
      exact h.not_mem hu
    rw [hhanded.low u (h.mem_stack hu) hne, h.low u hu]

/-- Looking at a successor within the graph. -/
theorem Scanning.look {fuel : Nat} (hvisits : Visits g fuel) (hpath : ∀ p ∈ path, p ∈ s.stack)
    (hroom : unmet g.size (b.index :: s.met) ≤ fuel) (h : Scanning g path s t b.index done new r t')
    (hw : w.index ∈ g.targets b.index) :
    ∃ new' turned t'', t'.look? ⟨b, k⟩ frames w = some turned ∧
      follow? g turned.1 turned.2 = follow? g t'' (⟨b, k⟩ :: frames) ∧
      Scanning g path s t b.index (done ++ [w.index]) new' (Components.look (visit g.targets fuel) r w.index) t'' := by
  obtain ⟨new', hprogress⟩ :=
    h.progress.look (Components.visit_spec g.targets_lt fuel) hpath hroom (g.targets_lt _ _ hw) hw
  obtain ⟨S, low⟩ := r
  rw [Components.look] at hprogress ⊢
  by_cases hclosed : S.isClosed w.index = true
  · rw [if_pos hclosed] at hprogress ⊢
    have hmem := Components.isClosed_iff.1 hclosed
    have hlook := h.tracks.look?_closed ⟨b, k⟩ frames hmem fun hopen => h.progress.following.not_closed hopen hmem
    exact ⟨new', _, t', hlook, rfl, hprogress, h.tracks, h.mark, h.time, h.low⟩
  · rw [if_neg hclosed] at hprogress ⊢
    cases hdepth : Components.depth? w.index S.stack with
    | some depth =>
        simp only [hdepth] at hprogress ⊢
        obtain ⟨t'', hlook, hscan⟩ := h.look_open k frames (Components.getElem?_of_depth? hdepth) hprogress
        exact ⟨new', _, t'', hlook, rfl, hscan⟩
    | none =>
        simp only [hdepth] at hprogress ⊢
        have hnew : w.index ∉ S.met := by
          rw [Components.mem_met, ← Components.isClosed_iff]
          exact not_or.2 ⟨Components.depth?_eq_none_iff.1 hdepth, hclosed⟩
        obtain ⟨t₁, t'', hlook, hfollow, hscan⟩ := h.look_new k frames hvisits hpath hroom hw hnew hprogress
        exact ⟨new', _, t'', hlook, hfollow, hscan⟩

end Look

/-- Looking at all successors, one after another. -/
theorem Scanning.scan {fuel : Nat} (hvisits : Visits g fuel) (hpath : ∀ p ∈ path, p ∈ s.stack)
    (hroom : unmet g.size (b.index :: s.met) ≤ fuel) {block : Block} (hblock : g.blocks[b.index]? = some block) :
    Graph.Scan g b block frames (follow? g) (Components.look (visit g.targets fuel))
      fun done t' r => ∃ new, Scanning g path s t b.index done new r t' where
  pass _ _ _ hnext hout := follow?_of_turn (turn?_pass hblock hnext hout)
  step := by
    rintro k w done t' r hnext hw ⟨new, h⟩
    obtain ⟨new', turned, t'', hlook, hback, hscan⟩ := h.look (k + 1) frames hvisits hpath hroom hw
    have hturn : follow? g t' (⟨b, k⟩ :: frames) = follow? g turned.1 turned.2 :=
      follow?_of_turn ((turn?_inside hblock hnext (g.targets_lt _ _ hw)).trans hlook)
    exact ⟨t'', hturn.trans hback, new', hscan⟩

/-- A mark from before the visit still holds. -/
theorem Scanning.marks (h : Scanning g path s t b.index done new r t') {p d : Nat} (hp : p ∈ s.stack)
    (hd : d < s.stack.length) (hmark : Marks t s.stack p d) : Marks t' r.1.stack p d := by
  obtain ⟨u, hu, hlow⟩ := hmark
  refine ⟨u, (h.progress.getElem?_base hd).trans hu, ?_⟩
  rw [h.low p hp, h.time u (Components.mem_of_getElem?_reverse hu), hlow]

/-- The block is marked with its own time exactly if it leads nowhere below itself. -/
theorem Scanning.lowOf_eq_iff (h : Scanning g path s t b.index done new r t') :
    t'.lowOf b.index = t'.timeOf b.index ↔ r.2 = s.stack.length := by
  obtain ⟨u, hu, hlow⟩ := h.mark
  have hself : r.1.stack.reverse[s.stack.length]? = some b.index := by
    rw [h.progress.stack, List.reverse_append, List.reverse_cons, List.append_assoc,
      List.getElem?_append_right (by rw [List.length_reverse]), List.length_reverse, Nat.sub_self]
    rfl
  constructor
  · intro heq
    by_contra hne
    have hlt := h.tracks.timeOf_lt hu hself (lt_of_le_of_ne h.progress.lowest.le_length hne)
    omega
  · intro heq
    rw [heq, hself, Option.some.injEq] at hu
    rw [hlow, hu]

/-- Leaving the block hands its mark on to the frame below. -/
theorem Scanning.handOn (h : Scanning g path s t b.index done new r t')
    (hparent : ∀ parent ∈ frames.head?, parent.block.index ∈ s.stack) :
    ∃ t'', t'.handOn? b frames = some t'' ∧ Tracks g.size t'' r.1 ∧ t''.foundAt = t'.foundAt ∧
      t''.lowOf b.index = t'.lowOf b.index ∧ Handed t t'' s.stack r.1.stack r.2 frames := by
  cases frames with
  | nil => exact ⟨t', rfl, h.tracks, rfl, rfl, h.time, fun u hu _ => h.low u hu, fun parent hparent => by cases hparent⟩
  | cons parent rest =>
      obtain ⟨low, hget, hval⟩ := h.tracks.low_of_lt (h.tracks.met_lt _ h.self_met)
      have hp : parent.block.index ∈ s.stack := hparent parent rfl
      have hpn := h.tracks.met_lt _ (Components.mem_met.2 (Or.inl (h.mem_stack hp)))
      obtain ⟨t'', hlower, htracks, hfound, hself, hother⟩ := h.tracks.lower hpn low
      refine ⟨t'', by simp [handOn?, hget, hlower], htracks, hfound, hother _ fun heq => h.not_mem (heq ▸ hp),
        fun u hu => ?_, fun u hu hne => ?_, fun q hq d hd hmark => ?_⟩
      · rw [timeOf_congr hfound, h.time u hu]
      · rw [hother u fun heq => hne parent rfl heq.symm, h.low u hu]
      · cases hq
        obtain ⟨u, hu, hlow⟩ := h.mark
        exact (h.marks hp hd hmark).lower h.tracks hu (hval.trans hlow) hfound hself

/-- Leaving the block, with its component if that closes. -/
theorem Scanning.leave (hn : g.size < UInt32.size) (h : Scanning g path s t b.index done new r t')
    (hparent : ∀ parent ∈ frames.head?, parent.block.index ∈ s.stack) {out : Components × Nat}
    (hout : out = if r.2 = s.stack.length then (r.1.close s.stack.length, s.stack.length) else r) :
    ∃ t'', t'.leave? b frames = some t'' ∧ Tracks g.size t'' out.1 ∧
      Handed t t'' s.stack out.1.stack out.2 frames := by
  obtain ⟨t₁, hhand, htracks, hfound, hsame, hhanded⟩ := h.handOn hparent
  obtain ⟨low, hget, hval⟩ := htracks.low_of_lt (htracks.met_lt _ h.self_met)
  obtain ⟨time, htime, htimeval⟩ := htracks.foundAt_of_met h.self_met
  have hown : some time = some low ↔ r.2 = s.stack.length := by
    rw [Option.some.injEq, ← UInt32.toNat_inj, htimeval, hval, hsame, timeOf_congr hfound, eq_comm, h.lowOf_eq_iff]
  have hleave : t'.leave? b frames = if some time = some low then t₁.close? b else some t₁ := by
    simp [leave?, hhand, hget, htime]
  rw [hleave]
  by_cases hlow : r.2 = s.stack.length
  · obtain ⟨t₂, hclose, htracks₂, hfound₂, hlow₂⟩ := htracks.close hn h.progress.following.once h.progress.stack
    rw [if_pos hlow, h.progress.close_eq] at hout
    subst hout
    refine ⟨t₂, (if_pos (hown.2 hlow)).trans hclose, htracks₂, fun u hu => ?_, fun u hu hne => ?_,
      fun parent hp d hd hmark => ?_⟩
    · rw [timeOf_congr hfound₂, hhanded.time u hu]
    · rw [lowOf, hlow₂]
      exact hhanded.low u hu hne
    · obtain ⟨u, hu, hval⟩ := hhanded.mark parent hp d hd hmark
      rw [hlow, h.progress.getElem?_base ((Nat.min_le_left _ _).trans_lt hd)] at hu
      refine ⟨u, hu, ?_⟩
      rw [lowOf, hlow₂, timeOf_congr hfound₂]
      exact hval
  · rw [if_neg hlow] at hout
    subst hout
    exact ⟨t₁, if_neg (hown.not.2 hlow), htracks, hhanded⟩

/-- The search runs through visits as recursion does. -/
theorem visits (hn : g.size < UInt32.size) (fuel : Nat) : Visits g fuel := by
  induction fuel with
  | zero =>
      intro path s t b frames _ _ hb hnew hroom
      have := unmet_cons_lt hb hnew
      omega
  | succ fuel ih =>
      intro path s t b frames hs ht hb hnew hroom hlead hparent
      have hless : unmet g.size (b.index :: s.met) ≤ fuel := unmet_cons_le hb hnew hroom
      obtain ⟨t₁, hdiscover, htracks, hown, hother⟩ := ht.discover hn hs.once hb hnew
      have hne : ∀ u ∈ s.stack, u ≠ b.index := fun u hu heq => hnew (Components.mem_met.2 (Or.inl (heq ▸ hu)))
      have hself : (b.index :: s.stack).reverse[s.stack.length]? = some b.index := by
        rw [List.reverse_cons, ← List.length_reverse, List.getElem?_concat_length]
      have hstart : Scanning g path s t b.index [] [] (⟨b.index :: s.stack, s.closed⟩, s.stack.length) t₁ :=
        ⟨Components.progress_start hs hnew hlead, htracks, ⟨b.index, hself, hown⟩,
          fun u hu => (hother u (hne u hu)).1, fun u hu => (hother u (hne u hu)).2⟩
      obtain ⟨block, hblock⟩ := Graph.exists_getElem? hb
      obtain ⟨t₂, hfollow, new, hscan⟩ := (Scanning.scan ih hs.path_open hless hblock).run hblock ⟨[], hstart⟩
      obtain ⟨t₃, hleave, htracks₃, hhanded⟩ := hscan.leave hn hparent (Components.visit_succ fuel b.index s)
      have hend : follow? g t₂ (⟨b, block.successors.length⟩ :: frames) = follow? g t₃ frames :=
        follow?_of_turn (turn?_leave hblock (List.getElem?_eq_none le_rfl) hleave)
      exact ⟨t₁, t₃, hdiscover, hfollow.trans hend, htracks₃, hhanded⟩

/-! ### Roots -/

theorem start?_spec (hn : g.size < UInt32.size) (ht : Tracks g.size t s) (hs : Following g.targets [] s)
    (root : BlockId) :
    ∃ t', start? g t root = some t' ∧
      Tracks g.size t' (([root.index].filter (· < g.size)).foldl (Components.start g.targets g.size) s) := by
  by_cases hroot : root.index < g.size
  · rw [List.filter_cons_of_pos (by simpa using hroot), List.filter_nil, List.foldl_cons, List.foldl_nil,
      Components.start]
    by_cases hmet : root.index ∈ s.met
    · obtain ⟨time, htime, -⟩ := ht.foundAt_of_met hmet
      rw [if_pos (Components.found_iff.2 hmet)]
      exact ⟨t, by simp [start?, Nat.not_le.2 hroot, htime], ht⟩
    · have hlead : ∀ u ∈ s.stack, Leads g.targets u root.index := by
        rw [hs.stack_eq_nil]
        simp
      obtain ⟨t₁, t', hdiscover, hfollow, htracks, -⟩ :=
        visits hn g.size [] s t root [] hs ht hroot hmet (unmet_le _ _) hlead (by simp)
      have hend : follow? g t' [] = some t' := by rw [follow?]
      rw [if_neg (Components.found_iff.not.2 hmet)]
      exact ⟨t', by simp [start?, Nat.not_le.2 hroot, (ht.found _ hroot).2 hmet, hdiscover, hfollow, hend], htracks⟩
  · rw [List.filter_cons_of_neg (by simpa using hroot)]
    exact ⟨t, by simp [start?, Nat.le_of_not_lt hroot], ht⟩

/-- The state of the search by recursion after some roots in turn. -/
def reached (g : Graph) (roots : List BlockId) : Components :=
  Components.search g.targets g.size ((roots.map BlockId.index).filter (· < g.size))

theorem following_reached (g : Graph) (roots : List BlockId) : Following g.targets [] (reached g roots) := by
  refine (Components.search_spec g.targets_lt fun root hroot => ?_).1
  simpa using (List.mem_filter.1 hroot).2

/-- The search on tables from any roots has an outcome, and it is that of the search by recursion. -/
theorem tables?_spec (hn : g.size < UInt32.size) (roots : List BlockId) :
    ∃ t, g.tables? roots = some t ∧ Tracks g.size t (reached g roots) := by
  -- Induction from the last root on, since each one starts with what those before it have left.
  induction roots using List.reverseRecOn with
  | nil => exact ⟨new g.size, rfl, tracks_new g.size⟩
  | append_singleton roots root ih =>
      obtain ⟨t, ht, htracks⟩ := ih
      obtain ⟨t', hstart, htracks'⟩ := start?_spec hn htracks (following_reached g roots) root
      refine ⟨t', ?_, ?_⟩
      · rw [Graph.tables?] at ht ⊢
        rw [List.foldlM_append, ht]
        simpa using hstart
      · rw [reached, Components.search, List.map_append, List.filter_append, List.foldl_append]
        exact htracks'

end Visits

end Tables

namespace Graph
variable {g : Graph}

/-- The search for loops on tables is safe on every graph with fewer blocks than there are numbers, whatever is wrong
with the ids, the entry and the edges: from any roots in turn it never steps outside a table, and it ends. Each time it
has come back from a root, nothing is left open, each block found has gone into exactly one component, and the numbers
given out are those of loops of two or more blocks. From the roots of the graph, the tables come to hold its
components and its loops. -/
theorem tables?_safe (g : Graph) (hsize : g.size < UInt32.size) :
    (∀ roots, ∃ t, g.tables? roots = some t ∧ t.Settled) ∧
      ∃ t, g.tables? g.rootIds = some t ∧ t.popped.map (List.map BlockId.index) = g.components.closed ∧
        t.loopCount.toNat = g.loops.count ∧ t.loopIds.map UInt32.toNat = (List.range g.size).map g.loops.atIndex := by
  constructor
  · intro roots
    obtain ⟨t, ht, htracks⟩ := Tables.tables?_spec hsize roots
    exact ⟨t, ht, htracks.settled (Tables.following_reached g roots)⟩
  · obtain ⟨t, ht, htracks⟩ := Tables.tables?_spec hsize g.rootIds
    exact ⟨t, ht, htracks.popped, htracks.numbers.count, htracks.numbers.map_toNat⟩

/-- Three blocks two of which have the same id and one an id outside the graph, with a missing entry and with edges that
stand at one end only or lead nowhere. The third block is never found. -/
def astray : Graph where
  functionId := "f"
  entry := some ⟨9⟩
  blocks :=
    [⟨⟨1⟩, [], [some ⟨2⟩], [none, some ⟨1⟩, some ⟨7⟩]⟩, ⟨⟨1⟩, [], [], [some ⟨1⟩, some ⟨0⟩]⟩,
      ⟨⟨5⟩, [], [some ⟨8⟩], [some ⟨0⟩, some ⟨2⟩]⟩]

theorem tables?_safe_astray :
    astray.size < UInt32.size ∧ ∃ t, astray.tables? astray.rootIds = some t ∧ t.Settled ∧ t.loopCount.toNat = 1 ∧
      t.loopIds.map UInt32.toNat = [1, 1, 0] ∧ t.popped.map (List.map BlockId.index) = [[0, 1]] := by
  obtain ⟨hsettled, t, ht, hpopped, hcount, hids⟩ := tables?_safe astray (by decide)
  obtain ⟨t', ht', hrest⟩ := hsettled astray.rootIds
  rw [ht, Option.some.injEq] at ht'
  refine ⟨by decide, t, ht, ht' ▸ hrest, hcount.trans ?_, hids.trans ?_, hpopped.trans ?_⟩
  · decide +kernel
  · decide +kernel
  · decide +kernel

end Graph
end ConstantFlow
