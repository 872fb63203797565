/-
  CodeReach.Proofs.Explore.Accept

  What one accepted successor does to the reached and the pending states.

  A reached state either stays or is absorbed, and then a larger state takes its
  place.  From this follow the two facts every later argument starts from: an engine
  stays coherent (`Coherent.accept`), and it grows (`grows_accept`), which means that
  what was covered stays covered and that nothing is reached for the first time
  without being pending as well.
-/
import CodeReach.Proofs.Explore.Containers

namespace CodeReach

namespace Engine

variable {e e' e'' : Engine} {parent : Node} {edge : Edge} {s t m : State}

/-- Some node with this state has been accepted. -/
def IsReached (e : Engine) (s : State) : Prop :=
  e.reached.contains s = true

/-- Some node with this state is still to be expanded. -/
def IsPending (e : Engine) (s : State) : Prop :=
  e.worklist.contains s = true

/-- Some reached state is above this one. -/
def Covers (e : Engine) (s : State) : Prop :=
  ∃ t, e.IsReached t ∧ e.analysis.le s t = true

/-- The reached state `t` stays in its place when `s` is accepted. -/
def Keeps (e : Engine) (s t : State) : Prop :=
  e.IsReached t ∧ e.analysis.merge s t = none

/-- The state `m` takes the place of a reached one when `s` is accepted. -/
def Merges (e : Engine) (s m : State) : Prop :=
  ∃ t, e.IsReached t ∧ e.analysis.merge s t = some m

/-! ## The parts of an acceptance -/

/-- Only the containers, the tree and the counter of identities differ. -/
def Refiled (e e' : Engine) : Prop :=
  ∃ worklist reached tree nextId, e' = { e with worklist, reached, tree, nextId }

theorem Refiled.refl (e : Engine) : e.Refiled e :=
  ⟨_, _, _, _, rfl⟩

theorem Refiled.trans (h : e.Refiled e') (h' : e'.Refiled e'') : e.Refiled e'' := by
  obtain ⟨_, _, _, _, rfl⟩ := h
  obtain ⟨_, _, _, _, rfl⟩ := h'
  exact ⟨_, _, _, _, rfl⟩

theorem Refiled.analysis_eq (h : e.Refiled e') : e'.analysis = e.analysis := by
  obtain ⟨_, _, _, _, rfl⟩ := h
  rfl

theorem Refiled.source_eq (h : e.Refiled e') : e'.source = e.source := by
  obtain ⟨_, _, _, _, rfl⟩ := h
  rfl

theorem refiled_enterMerged : e.Refiled (e.enterMerged parent edge m) := by
  unfold enterMerged
  dsimp only [newNode]
  split
  · exact ⟨_, _, _, _, rfl⟩
  · exact ⟨_, _, _, _, rfl⟩

/-- The engine after the absorbing states were taken out. -/
def discardAll (e : Engine) (absorbers : List (Node × State)) : Engine :=
  absorbers.foldl (fun e (r, _) => e.discard r.state) e

/-- The engine after the merged states were entered. -/
def enterAll (e : Engine) (parent : Node) (edge : Edge) (absorbers : List (Node × State)) :
    Engine :=
  absorbers.foldl (fun e (_, m) => e.enterMerged parent edge m) e

/-- The engine after the successor was put into the reached states, before it is added itself. -/
def absorb (e : Engine) (parent : Node) (edge : Edge) (s : State) : Engine :=
  let e := (e.newNode s).2
  (e.discardAll (e.absorbers s)).enterAll parent edge (e.absorbers s)

theorem accept_eq : e.accept parent edge s =
    if (e.absorb parent edge s).analysis.covers (e.absorb parent edge s).reached s then
      e.absorb parent edge s
    else ((e.absorb parent edge s).enter ⟨e.nextId, s⟩).recordChild parent edge ⟨e.nextId, s⟩ :=
  rfl

theorem refiled_discardAll (as : List (Node × State)) : e.Refiled (e.discardAll as) :=
  List.foldlRecOn (motive := e.Refiled) as _ (.refl e)
    fun _ h _ _ => h.trans ⟨_, _, _, _, rfl⟩

theorem refiled_enterAll (as : List (Node × State)) : e.Refiled (e.enterAll parent edge as) :=
  List.foldlRecOn (motive := e.Refiled) as _ (.refl e) fun _ h _ _ => h.trans refiled_enterMerged

theorem refiled_absorb : e.Refiled (e.absorb parent edge s) :=
  Refiled.trans ⟨_, _, _, _, rfl⟩ ((refiled_discardAll _).trans (refiled_enterAll _))

theorem refiled_accept : e.Refiled (e.accept parent edge s) := by
  rw [accept_eq]
  split
  · exact refiled_absorb
  · exact refiled_absorb.trans ⟨_, _, _, _, rfl⟩

theorem isReached_discardAll (as : List (Node × State)) :
    (e.discardAll as).IsReached t ↔ e.IsReached t ∧ ∀ a ∈ as, t ≠ a.1.state := by
  induction as generalizing e with
  | nil => simp [discardAll]
  | cons a as ih =>
      show ((e.discard a.1.state).discardAll as).IsReached t ↔ _
      rw [ih, IsReached, discard, ReachedSet.contains_erase, List.forall_mem_cons, ← and_assoc]
      exact and_congr_left fun _ => And.comm

theorem isPending_discardAll (as : List (Node × State)) :
    (e.discardAll as).IsPending t ↔ e.IsPending t ∧ ∀ a ∈ as, t ≠ a.1.state := by
  induction as generalizing e with
  | nil => simp [discardAll]
  | cons a as ih =>
      show ((e.discard a.1.state).discardAll as).IsPending t ↔ _
      rw [ih, IsPending, discard, Worklist.contains_erase, List.forall_mem_cons, ← and_assoc]
      exact and_congr_left fun _ => And.comm

theorem isReached_enterMerged :
    (e.enterMerged parent edge m).IsReached t ↔ t = m ∨ e.IsReached t := by
  unfold enterMerged
  dsimp only [newNode]
  split
  · rename_i hm
    constructor
    · exact Or.inr
    · rintro (rfl | ht)
      · exact hm
      · exact ht
  · exact ReachedSet.contains_insert

theorem isPending_enterMerged :
    (e.enterMerged parent edge m).IsPending t ↔ (t = m ∧ ¬ e.IsReached m) ∨ e.IsPending t := by
  unfold enterMerged
  dsimp only [newNode]
  split
  · rename_i hm
    constructor
    · exact Or.inr
    · rintro (⟨-, hnot⟩ | ht)
      · exact absurd hm hnot
      · exact ht
  · rename_i hm
    refine Worklist.contains_insert.trans (or_congr_left ?_)
    exact ⟨fun ht => ⟨ht, hm⟩, And.left⟩

theorem isReached_enterAll (as : List (Node × State)) :
    (e.enterAll parent edge as).IsReached t ↔ (∃ a ∈ as, t = a.2) ∨ e.IsReached t := by
  induction as generalizing e with
  | nil => simp [enterAll]
  | cons a as ih =>
      show ((e.enterMerged parent edge a.2).enterAll parent edge as).IsReached t ↔ _
      rw [ih, isReached_enterMerged]
      simp only [List.mem_cons, exists_eq_or_imp]
      rw [or_left_comm, or_assoc]

/-- A merged state is pending afterwards unless it was reached before. -/
theorem isPending_enterAll (as : List (Node × State)) :
    (e.enterAll parent edge as).IsPending t ↔
      ((∃ a ∈ as, t = a.2) ∧ ¬ e.IsReached t) ∨ e.IsPending t := by
  induction as generalizing e with
  | nil => simp [enterAll]
  | cons a as ih =>
      show ((e.enterMerged parent edge a.2).enterAll parent edge as).IsPending t ↔ _
      rw [ih, isReached_enterMerged, isPending_enterMerged]
      simp only [List.mem_cons, exists_eq_or_imp]
      by_cases hta : t = a.2
      · subst hta
        simp only [true_or, not_true, and_false, false_or, true_and]
      · simp only [hta, false_or, false_and]

/-- The absorbers are the reached states that merge, with what they merge to, in whatever order they
    come. -/
theorem mem_absorbers : (∃ a ∈ e.absorbers s, a.1.state = t ∧ a.2 = m) ↔
    e.IsReached t ∧ e.analysis.merge s t = some m := by
  constructor
  · rintro ⟨⟨n, m⟩, ha, rfl, rfl⟩
    obtain ⟨r, hr, hm⟩ := List.mem_filterMap.1 ha
    obtain ⟨m', hm', heq⟩ := Option.map_eq_some_iff.1 hm
    obtain ⟨rfl, rfl⟩ := Prod.mk.inj heq
    have hr := (e.order.perm _ _).mem_iff.1 hr
    exact ⟨ReachedSet.contains_iff.2 ⟨r, Analysis.location_eq_of_merge hm' ▸ hr, rfl⟩, hm'⟩
  · rintro ⟨ht, hm⟩
    obtain ⟨r, hr, rfl⟩ := ReachedSet.contains_iff.1 ht
    refine ⟨(r, m), List.mem_filterMap.2 ⟨r, ?_, by rw [hm]; rfl⟩, rfl, rfl⟩
    rw [(e.order.perm _ _).mem_iff]
    exact (Analysis.location_eq_of_merge hm).symm ▸ hr

theorem merges_iff : e.Merges s m ↔ ∃ a ∈ e.absorbers s, m = a.2 := by
  constructor
  · rintro ⟨t, ht⟩
    obtain ⟨a, ha, -, rfl⟩ := mem_absorbers.2 ht
    exact ⟨a, ha, rfl⟩
  · rintro ⟨a, ha, rfl⟩
    exact ⟨a.1.state, mem_absorbers.1 ⟨a, ha, rfl, rfl⟩⟩

theorem keeps_iff : e.Keeps s t ↔ e.IsReached t ∧ ∀ a ∈ e.absorbers s, t ≠ a.1.state := by
  refine and_congr_right fun ht => ?_
  constructor
  · rintro hnone a ha rfl
    rw [(mem_absorbers.1 ⟨a, ha, rfl, rfl⟩).2] at hnone
    exact absurd hnone (by simp)
  · intro hall
    refine Option.eq_none_iff_forall_not_mem.2 fun m hm => ?_
    obtain ⟨a, ha, hat, -⟩ := mem_absorbers.2 ⟨ht, hm⟩
    exact hall a ha hat.symm

theorem isReached_absorb :
    (e.absorb parent edge s).IsReached t ↔ e.Merges s t ∨ e.Keeps s t := by
  rw [absorb, isReached_enterAll, isReached_discardAll, ← merges_iff, ← keeps_iff]
  rfl

theorem isPending_absorb (hp : e.IsPending t → e.IsReached t) :
    (e.absorb parent edge s).IsPending t ↔
      (e.Merges s t ∧ ¬ e.Keeps s t) ∨ (e.IsPending t ∧ e.Keeps s t) := by
  have hkeeps : (e.newNode s).2.Keeps s t ↔ _ := keeps_iff
  rw [absorb, isPending_enterAll, isPending_discardAll, isReached_discardAll, ← merges_iff,
    ← hkeeps]
  refine or_congr Iff.rfl ?_
  constructor
  · exact fun ⟨ht, hall⟩ => ⟨ht, hkeeps.2 ⟨hp ht, hall⟩⟩
  · exact fun ⟨ht, hkept⟩ => ⟨ht, (hkeeps.1 hkept).2⟩

/-! ## The whole acceptance -/

/-- Nothing that is reached once `s` has been merged is above it, so `s` is added itself. -/
def Adds (e : Engine) (s : State) : Prop :=
  ¬ ∃ t, (e.Merges s t ∨ e.Keeps s t) ∧ e.analysis.le s t = true

theorem covers_absorb_iff : (e.absorb parent edge s).analysis.covers
    (e.absorb parent edge s).reached s = true ↔ ¬ e.Adds s := by
  rw [Analysis.covers_iff, Adds, not_not, refiled_absorb.analysis_eq]
  exact exists_congr fun t => and_congr_left fun _ => isReached_absorb

theorem isReached_accept : (e.accept parent edge s).IsReached t ↔
    e.Merges s t ∨ e.Keeps s t ∨ (t = s ∧ e.Adds s) := by
  rw [accept_eq, ← or_assoc]
  split
  · rename_i hcov
    have hadds : ¬ e.Adds s := covers_absorb_iff.1 hcov
    rw [isReached_absorb]
    simp only [hadds, and_false, or_false]
  · rename_i hcov
    have hadds : e.Adds s := not_not.1 fun h => hcov (covers_absorb_iff.2 h)
    simp only [hadds, and_true]
    exact ReachedSet.contains_insert.trans (Or.comm.trans (or_congr_left isReached_absorb))

theorem isPending_accept (hp : e.IsPending t → e.IsReached t) :
    (e.accept parent edge s).IsPending t ↔
      (e.Merges s t ∧ ¬ e.Keeps s t) ∨ (e.IsPending t ∧ e.Keeps s t) ∨ (t = s ∧ e.Adds s) := by
  rw [accept_eq, ← or_assoc]
  split
  · rename_i hcov
    have hadds : ¬ e.Adds s := covers_absorb_iff.1 hcov
    rw [isPending_absorb hp]
    simp only [hadds, and_false, or_false]
  · rename_i hcov
    have hadds : e.Adds s := not_not.1 fun h => hcov (covers_absorb_iff.2 h)
    simp only [hadds, and_true]
    exact Worklist.contains_insert.trans (Or.comm.trans (or_congr_left (isPending_absorb hp)))

/-- Whatever is accepted is covered afterwards. -/
theorem covers_accept : (e.accept parent edge s).Covers s := by
  rw [Covers, refiled_accept.analysis_eq]
  by_cases hadds : e.Adds s
  · exact ⟨s, isReached_accept.2 (Or.inr (Or.inr ⟨rfl, hadds⟩)), Analysis.le_refl _ s⟩
  · obtain ⟨t, hm | hk, hle⟩ := not_not.1 hadds
    · exact ⟨t, isReached_accept.2 (Or.inl hm), hle⟩
    · exact ⟨t, isReached_accept.2 (Or.inr (Or.inl hk)), hle⟩

/-! ## Queues -/

/-- No member is missing from the queue, and new identities are not in it. -/
structure Filed (e : Engine) : Prop where
  queued : e.worklist.Queued
  recent : ∀ n ∈ e.worklist.queue, n.id < e.nextId

/-- Entering a node whose identity is not in the queue. -/
theorem Filed.enter (h : e.Filed) {n : Node} (hid : n.id < e.nextId)
    (hnew : ∀ k ∈ e.worklist.queue, k.id ≠ n.id) : (e.enter n).Filed where
  queued := Worklist.queued_insert h.queued fun k hk heq => absurd heq (hnew k hk)
  recent k hk := by
    rcases Worklist.mem_queue_insert (fun k hk heq => absurd heq (hnew k hk)) hk with rfl | hk
    · exact hid
    · exact h.recent k hk

theorem Filed.newNode (h : e.Filed) (s : State) : (e.newNode s).2.Filed where
  queued := h.queued
  recent k hk := Nat.lt_succ_of_lt (h.recent k hk)

theorem Filed.discard (h : e.Filed) (s : State) : (e.discard s).Filed where
  queued := Worklist.queued_erase h.queued s
  recent k hk := h.recent k ((Worklist.queueWithout_sublist _ s).subset hk)

theorem Filed.discardAll (h : e.Filed) (as : List (Node × State)) : (e.discardAll as).Filed :=
  List.foldlRecOn (motive := Filed) as _ h fun _ h _ _ => h.discard _

/-- An identity handed out before and still unused stays unused. -/
theorem Filed.enterMerged (h : e.Filed) {i : Nat} (hi : i < e.nextId)
    (hnew : ∀ k ∈ e.worklist.queue, k.id ≠ i) :
    (e.enterMerged parent edge m).Filed ∧ i < (e.enterMerged parent edge m).nextId ∧
      ∀ k ∈ (e.enterMerged parent edge m).worklist.queue, k.id ≠ i := by
  have hfresh : ∀ k ∈ e.worklist.queue, k.id ≠ e.nextId := fun k hk => Nat.ne_of_lt (h.recent k hk)
  unfold Engine.enterMerged
  dsimp only [Engine.newNode]
  split
  · exact ⟨h.newNode m, Nat.lt_succ_of_lt hi, hnew⟩
  · have hentered := (h.newNode m).enter (n := ⟨e.nextId, m⟩) (Nat.lt_succ_self _) hfresh
    refine ⟨⟨hentered.queued, hentered.recent⟩, Nat.lt_succ_of_lt hi, fun k hk => ?_⟩
    rcases Worklist.mem_queue_insert (fun k hk heq => absurd heq (hfresh k hk)) hk with rfl | hk
    · exact (Nat.ne_of_lt hi).symm
    · exact hnew k hk

theorem discardAll_nextId (as : List (Node × State)) : (e.discardAll as).nextId = e.nextId :=
  List.foldlRecOn (motive := fun x : Engine => x.nextId = e.nextId) as _ rfl fun _ h _ _ => h

theorem discardAll_queue (as : List (Node × State)) :
    (e.discardAll as).worklist.queue ⊆ e.worklist.queue :=
  List.foldlRecOn (motive := fun x : Engine => x.worklist.queue ⊆ e.worklist.queue) as _
    (List.Subset.refl _) fun _ h _ _ _ hk => h ((Worklist.queueWithout_sublist _ _).subset hk)

/-- The identity of the successor is handed out first and used last. -/
theorem Filed.absorb (h : e.Filed) : (e.absorb parent edge s).Filed ∧
    e.nextId < (e.absorb parent edge s).nextId ∧
    ∀ k ∈ (e.absorb parent edge s).worklist.queue, k.id ≠ e.nextId := by
  refine List.foldlRecOn (motive := fun x : Engine => x.Filed ∧ e.nextId < x.nextId ∧
    ∀ k ∈ x.worklist.queue, k.id ≠ e.nextId) _ _ ?_
    fun _ hx _ _ => hx.1.enterMerged hx.2.1 hx.2.2
  refine ⟨(h.newNode s).discardAll _, ?_, ?_⟩
  · rw [discardAll_nextId]
    exact Nat.lt_succ_self _
  · exact fun k hk => Nat.ne_of_lt (h.recent k (discardAll_queue (e := (e.newNode s).2) _ hk))

theorem Filed.accept (h : e.Filed) : (e.accept parent edge s).Filed := by
  obtain ⟨hfiled, hid, hnew⟩ := @Filed.absorb e parent edge s h
  rw [accept_eq]
  split
  · exact hfiled
  · have hentered := hfiled.enter (n := ⟨e.nextId, s⟩) hid hnew
    exact ⟨hentered.queued, hentered.recent⟩

/-! ## Coherence and growth -/

/-- The invariant of the containers: reached states fit the analysis, pending states are reached,
    and the queue knows of all of them. -/
structure Coherent (e : Engine) : Prop extends e.Filed where
  fits : ∀ s, e.IsReached s → e.analysis.Fits s
  reached : ∀ s, e.IsPending s → e.IsReached s

/-- What an engine keeps while it works: the analysis, all that is covered, and the pending states
    that stay reached; a state reached for the first time is pending. -/
structure Grows (e e' : Engine) : Prop where
  analysis : e'.analysis = e.analysis
  covered : ∀ s, e.IsReached s → e'.Covers s
  fresh : ∀ s, e'.IsReached s → e.IsReached s ∨ e'.IsPending s
  kept : ∀ s, e.IsPending s → e'.IsReached s → e'.IsPending s

theorem Grows.refl (e : Engine) : e.Grows e where
  analysis := rfl
  covered s hs := ⟨s, hs, Analysis.le_refl _ s⟩
  fresh _ hs := Or.inl hs
  kept _ hs _ := hs

theorem Grows.covers (h : e.Grows e') (hs : e.Covers s) : e'.Covers s := by
  obtain ⟨t, ht, hle⟩ := hs
  obtain ⟨u, hu, htu⟩ := h.covered t ht
  rw [h.analysis] at htu
  exact ⟨u, hu, h.analysis ▸ Analysis.le_trans hle htu⟩

theorem Grows.trans (h : e.Grows e') (h' : e'.Grows e'') : e.Grows e'' where
  analysis := h'.analysis.trans h.analysis
  covered s hs := h'.covers (h.covered s hs)
  fresh s hs := by
    rcases h'.fresh s hs with hs' | hs'
    · rcases h.fresh s hs' with hs'' | hs''
      · exact Or.inl hs''
      · exact Or.inr (h'.kept s hs'' hs)
    · exact Or.inr hs'
  kept s hs hs'' := by
    rcases h'.fresh s hs'' with hs' | hs'
    · exact h'.kept s (h.kept s hs hs') hs''
    · exact hs'

/-- A state stays pending or becomes pending only where it is reached. -/
theorem isReached_of_isPending_accept (hp : e.IsPending t → e.IsReached t)
    (ht : (e.accept parent edge s).IsPending t) : (e.accept parent edge s).IsReached t := by
  rw [isReached_accept]
  rcases (isPending_accept hp).1 ht with hm | hk | hadd
  · exact Or.inl hm.1
  · exact Or.inr (Or.inl hk.2)
  · exact Or.inr (Or.inr hadd)

theorem grows_accept (hreached : ∀ t, e.IsReached t → e.analysis.Handles t)
    (hpending : ∀ t, e.IsPending t → e.IsReached t) (hs : e.analysis.Handles s) :
    e.Grows (e.accept parent edge s) where
  analysis := refiled_accept.analysis_eq
  covered t ht := by
    rw [Covers, refiled_accept.analysis_eq]
    -- A reached state stays, or a larger one takes its place.
    cases hm : e.analysis.merge s t with
    | none => exact ⟨t, isReached_accept.2 (Or.inr (Or.inl ⟨ht, hm⟩)), Analysis.le_refl _ t⟩
    | some m =>
        obtain ⟨-, htm, -⟩ := Analysis.merge_above hs (hreached t ht) hm
        exact ⟨m, isReached_accept.2 (Or.inl ⟨t, ht, hm⟩), htm⟩
  fresh t ht := by
    rw [isPending_accept (hpending t)]
    by_cases hk : e.Keeps s t
    · exact Or.inl hk.1
    · rcases isReached_accept.1 ht with hm | hk' | hadd
      · exact Or.inr (Or.inl ⟨hm, hk⟩)
      · exact absurd hk' hk
      · exact Or.inr (Or.inr (Or.inr hadd))
  kept t hp ht := by
    rw [isPending_accept (hpending t)]
    -- A pending state that was taken out and came back has been entered again.
    by_cases hk : e.Keeps s t
    · exact Or.inr (Or.inl ⟨hp, hk⟩)
    · rcases isReached_accept.1 ht with hm | hk' | hadd
      · exact Or.inl ⟨hm, hk⟩
      · exact absurd hk' hk
      · exact Or.inr (Or.inr hadd)

theorem Coherent.grows_accept (h : e.Coherent) (hs : e.analysis.Fits s) :
    e.Grows (e.accept parent edge s) :=
  Engine.grows_accept (fun t ht => Analysis.handles_of_fits (h.fits t ht)) h.reached
    (Analysis.handles_of_fits hs)

theorem Coherent.accept (h : e.Coherent) (hs : e.analysis.Fits s) :
    (e.accept parent edge s).Coherent where
  toFiled := h.toFiled.accept
  fits t ht := by
    rw [refiled_accept.analysis_eq]
    rcases isReached_accept.1 ht with ⟨r, hr, hm⟩ | hk | ⟨rfl, -⟩
    · exact (Analysis.merge_bounds hs (h.fits r hr) hm).1
    · exact h.fits t hk.1
    · exact hs
  reached t := isReached_of_isPending_accept (h.reached t)

end Engine

end CodeReach
