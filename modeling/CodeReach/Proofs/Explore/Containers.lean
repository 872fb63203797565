/-
  CodeReach.Proofs.Explore.Containers

  Reached sets and worklists as sets of states.  Membership is by state; each
  operation is opened by what it does to membership, and the indices, identities and
  queues behind it are not looked at again.

  What matters about queues is how they go together with the members (`Worklist.Queued`).
  No member is missing from the queue, so that a worklist with members never fails to pick
  one.  The queue of the priority policy is in order and has entries of members only, so
  that picking the first entry is picking the first live one (`Worklist.pick_eq_pickLive`).
-/
import CodeReach.Explore.Engine
import CodeReach.Proofs.Data.Buckets
import CodeReach.Proofs.Transfer.Order
import Mathlib.Data.List.Nodup
import Mathlib.Data.List.Pairwise

namespace CodeReach

namespace ReachedSet

variable {r : ReachedSet} {n : Node} {s t : State}

/-! ## Reached sets -/

theorem contains_iff : r.contains s = true ↔ ∃ n ∈ r.atLocation s.location, n.state = s := by
  simp [contains, List.any_eq_true]

theorem byLocation_insert (r : ReachedSet) (n : Node) : (r.insert n).byLocation =
    if r.contains n.state then r.byLocation else r.byLocation.push n.location n :=
  rfl

/-- Inserting a node adds its state. -/
theorem contains_insert : (r.insert n).contains s = true ↔ s = n.state ∨ r.contains s = true := by
  rw [contains, atLocation, byLocation_insert]
  split
  · rename_i hn
    constructor
    · exact Or.inr
    · rintro (rfl | hs)
      · exact hn
      · exact hs
  · -- Only the bucket of the node's own location changes.
    rw [contains_iff, Buckets.push, Buckets.get_modify]
    simp only [List.any_eq_true, beq_iff_eq, atLocation]
    split
    · simp only [List.mem_append, List.mem_singleton]
      constructor
      · rintro ⟨m, hm | rfl, rfl⟩
        · exact Or.inr ⟨m, hm, rfl⟩
        · exact Or.inl rfl
      · rintro (rfl | ⟨m, hm, rfl⟩)
        · exact ⟨n, Or.inr rfl, rfl⟩
        · exact ⟨m, Or.inl hm, rfl⟩
    · rename_i hloc
      constructor
      · exact Or.inr
      · rintro (rfl | hs)
        · exact absurd rfl hloc
        · exact hs

/-- Erasing a state takes out that state and no other. -/
theorem contains_erase : (r.erase t).contains s = true ↔ s ≠ t ∧ r.contains s = true := by
  unfold erase
  split
  · rw [contains_iff, contains_iff]
    simp only [atLocation, Buckets.get_prune]
    split
    · simp only [List.mem_filter, bne_iff_ne]
      constructor
      · rintro ⟨m, ⟨hm, hne⟩, rfl⟩
        exact ⟨hne, m, hm, rfl⟩
      · rintro ⟨hne, m, hm, rfl⟩
        exact ⟨m, ⟨hm, hne⟩, rfl⟩
    · rename_i hloc
      constructor
      · exact fun hs => ⟨fun he => hloc (congrArg State.location he.symm), hs⟩
      · exact And.right
  · rename_i ht
    constructor
    · exact fun hs => ⟨fun he => ht (he ▸ hs), hs⟩
    · exact And.right

/-! ## Nodes of reached sets -/

theorem mem_toList_insert {m : Node} (h : m ∈ (r.insert n).toList) : m = n ∨ m ∈ r.toList := by
  rw [toList, byLocation_insert] at h
  split at h
  · exact Or.inr h
  · exact List.mem_cons.1 ((Buckets.perm_push _ _ _).mem_iff.1 h)

theorem toList_erase_subset (r : ReachedSet) (s : State) : (r.erase s).toList ⊆ r.toList := by
  intro m h
  unfold erase at h
  split at h
  · obtain ⟨row, hrow, hm⟩ := List.mem_flatMap.1 h
    obtain ⟨old, hold, -, hsub, -⟩ := Buckets.exists_row_of_mem_pruneRows hrow
    exact List.mem_flatMap.2 ⟨old, hold, hsub hm⟩
  · exact h

end ReachedSet

/-- A state is covered if some reached state is above it. -/
theorem Analysis.covers_iff {a : Analysis} {r : ReachedSet} {s : State} :
    a.covers r s = true ↔ ∃ t, r.contains t = true ∧ a.le s t = true := by
  rw [covers, List.any_eq_true]
  constructor
  · rintro ⟨n, hn, hle⟩
    exact ⟨n.state, ReachedSet.contains_iff.2 ⟨n, location_eq_of_le hle ▸ hn, rfl⟩, hle⟩
  · rintro ⟨t, ht, hle⟩
    obtain ⟨n, hn, rfl⟩ := ReachedSet.contains_iff.1 ht
    exact ⟨n, (location_eq_of_le hle).symm ▸ hn, hle⟩

namespace Policy

/-! ## Queues -/

/-- Two nodes at the same place in the order have the same identity. -/
theorem id_of_priorityCompare {n m : Node} (h : priorityCompare n m = .eq) : m.id = n.id := by
  rw [priorityCompare, Ordering.then_eq_eq] at h
  exact (Nat.compare_eq_eq.1 h.2).symm

theorem priorityCompare_eq_compareLex (a b : Node) : priorityCompare a b =
    compareLex (compareOn Node.location) (compareOn Node.id) a b :=
  rfl

theorem priorityCompare_self (n : Node) : priorityCompare n n = .eq := by
  rw [priorityCompare_eq_compareLex]
  exact Std.ReflCmp.compare_self

theorem priorityCompare_trans {a b c : Node} (hab : priorityCompare a b = .lt)
    (hbc : priorityCompare b c = .lt) : priorityCompare a c = .lt := by
  rw [priorityCompare_eq_compareLex] at *
  exact Std.TransCmp.lt_trans hab hbc

theorem priorityCompare_swap (a b : Node) : priorityCompare a b = (priorityCompare b a).swap := by
  rw [priorityCompare_eq_compareLex, priorityCompare_eq_compareLex]
  exact Std.OrientedCmp.eq_swap

theorem mem_insertByPriority {n m : Node} {queue : List Node}
    (hid : ∀ k ∈ queue, k.id = n.id → k = n) :
    m ∈ insertByPriority n queue ↔ m = n ∨ m ∈ queue := by
  induction queue with
  | nil => simp [insertByPriority]
  | cons k rest ih =>
      have hrest : ∀ j ∈ rest, j.id = n.id → j = n := fun j hj => hid j (List.mem_cons_of_mem _ hj)
      rw [insertByPriority]
      split
      · simp
      · -- The entry that is replaced is the node itself.
        rename_i heq
        obtain rfl := hid k List.mem_cons_self (id_of_priorityCompare heq)
        rw [List.mem_cons]
        exact ⟨Or.inr, fun h => h.elim Or.inl id⟩
      · rw [List.mem_cons, ih hrest, List.mem_cons]
        exact or_left_comm

/-- Each entry is before all that follow it. -/
def InOrder (queue : List Node) : Prop :=
  queue.Pairwise fun a b => priorityCompare a b = .lt

theorem inOrder_insertByPriority {n : Node} {queue : List Node} (h : InOrder queue)
    (hid : ∀ k ∈ queue, k.id = n.id → k = n) : InOrder (insertByPriority n queue) := by
  induction queue with
  | nil => exact List.pairwise_singleton _ _
  | cons m rest ih =>
      obtain ⟨hm, hrest⟩ := List.pairwise_cons.1 h
      have hid' : ∀ k ∈ rest, k.id = n.id → k = n := fun k hk => hid k (List.mem_cons_of_mem _ hk)
      rw [insertByPriority]
      split
      · rename_i hlt
        refine List.pairwise_cons.2 ⟨List.forall_mem_cons.2 ⟨hlt, fun k hk => ?_⟩, h⟩
        exact priorityCompare_trans hlt (hm k hk)
      · rename_i heq
        obtain rfl := hid m List.mem_cons_self (id_of_priorityCompare heq)
        exact h
      · rename_i hgt
        refine List.pairwise_cons.2 ⟨fun k hk => ?_, ih hrest hid'⟩
        rcases (mem_insertByPriority hid').1 hk with rfl | hk
        · rw [priorityCompare_swap, hgt]
          rfl
        · exact hm k hk

/-- In a queue that is in order, each place is taken once. -/
theorem InOrder.eq_of_priorityCompare {queue : List Node} (h : InOrder queue) {a b : Node}
    (ha : a ∈ queue) (hb : b ∈ queue) (hab : priorityCompare a b = .eq) : a = b := by
  have hplaces : queue.Pairwise fun a b => priorityCompare a b ≠ .eq :=
    h.imp fun hlt heq => absurd (hlt.symm.trans heq) (by decide)
  have hsymm : Std.Symm fun a b : Node => priorityCompare a b ≠ .eq := by
    refine ⟨fun a b hne heq => hne ?_⟩
    rw [priorityCompare_swap, heq]
    rfl
  by_contra hne
  exact hplaces.forall ha hb hne hab

theorem InOrder.nodup {queue : List Node} (h : InOrder queue) : queue.Nodup := by
  refine h.imp fun {n m} hlt heq => ?_
  rw [heq, priorityCompare_self] at hlt
  exact absurd hlt (by decide)

theorem InOrder.mem_eraseByPriority {n m : Node} {queue : List Node} (h : InOrder queue)
    (hn : n ∈ queue) : m ∈ eraseByPriority n queue ↔ m ∈ queue ∧ m ≠ n := by
  rw [eraseByPriority, List.mem_filter, bne_iff_ne]
  refine and_congr_right fun hm => not_congr ⟨fun heq => ?_, ?_⟩
  · exact (h.eq_of_priorityCompare hn hm heq).symm
  · rintro rfl
    exact priorityCompare_self m

/-- Under every policy, a node joins the queue and nothing leaves it, as long as an entry with the
    identity of the node is the node. -/
theorem mem_enqueue {p : Policy} {n m : Node} {queue : List Node}
    (hid : ∀ k ∈ queue, k.id = n.id → k = n) : m ∈ p.enqueue n queue ↔ m = n ∨ m ∈ queue := by
  cases p with
  | fifo =>
      simp only [enqueue, List.mem_append, List.mem_singleton]
      exact Or.comm
  | lifo => exact List.mem_cons
  | priority => exact mem_insertByPriority hid

end Policy

namespace Worklist

variable {w rest : Worklist} {n : Node} {s t : State}

/-! ## Worklists -/

theorem contains_iff : w.contains s = true ↔ ∃ n ∈ w.members, n.state = s := by
  simp [contains, List.any_eq_true]

theorem contains_insert : (w.insert n).contains s = true ↔ s = n.state ∨ w.contains s = true := by
  unfold insert
  split
  · rename_i hn
    constructor
    · exact Or.inr
    · rintro (rfl | hs)
      · exact hn
      · exact hs
  · simp only [contains_iff, List.mem_cons]
    constructor
    · rintro ⟨m, rfl | hm, rfl⟩
      · exact Or.inl rfl
      · exact Or.inr ⟨m, hm, rfl⟩
    · rintro (rfl | ⟨m, hm, rfl⟩)
      · exact ⟨n, Or.inl rfl, rfl⟩
      · exact ⟨m, Or.inr hm, rfl⟩

theorem mem_members_insert {m : Node} (h : m ∈ (w.insert n).members) : m = n ∨ m ∈ w.members := by
  unfold insert at h
  split at h
  · exact Or.inr h
  · exact List.mem_cons.1 h

theorem contains_erase : (w.erase t).contains s = true ↔ s ≠ t ∧ w.contains s = true := by
  rw [contains_iff, contains_iff, erase]
  simp only [List.mem_filter, bne_iff_ne]
  constructor
  · rintro ⟨m, ⟨hm, hne⟩, rfl⟩
    exact ⟨hne, m, hm, rfl⟩
  · rintro ⟨hne, m, hm, rfl⟩
    exact ⟨m, ⟨hm, hne⟩, rfl⟩

/-- The queue and the members go together: members have different states, and each of them has an
    entry in the queue.  Under the priority policy the queue is in order and has no other
    entries. -/
structure Queued (w : Worklist) : Prop where
  entry : ∀ n ∈ w.members, n ∈ w.queue
  distinct : (w.members.map Node.state).Nodup
  inOrder : w.policy = .priority → Policy.InOrder w.queue
  live : w.policy = .priority → ∀ n ∈ w.queue, n ∈ w.members

theorem queued_empty (p : Policy) : (empty p).Queued where
  entry _ hn := absurd hn List.not_mem_nil
  distinct := List.nodup_nil
  inOrder _ := List.Pairwise.nil
  live _ _ hn := absurd hn List.not_mem_nil

theorem Queued.eq_of_state (hw : w.Queued) {m : Node} (hm : m ∈ w.members) (hn : n ∈ w.members)
    (hst : m.state = n.state) : m = n :=
  List.inj_on_of_nodup_map hw.distinct hm hn hst

theorem mem_queue_insert (hid : ∀ k ∈ w.queue, k.id = n.id → k = n) {m : Node}
    (h : m ∈ (w.insert n).queue) : m = n ∨ m ∈ w.queue := by
  unfold insert at h
  split at h
  · exact Or.inr h
  · exact (Policy.mem_enqueue hid).1 h

theorem queued_insert (hw : w.Queued) (hid : ∀ k ∈ w.queue, k.id = n.id → k = n) :
    (w.insert n).Queued := by
  unfold insert
  split
  · exact hw
  · rename_i hnew
    refine ⟨fun m hm => ?_, ?_, fun hp => ?_, fun hp m hm => ?_⟩
    · rcases List.mem_cons.1 hm with rfl | hm
      · exact (Policy.mem_enqueue hid).2 (Or.inl rfl)
      · exact (Policy.mem_enqueue hid).2 (Or.inr (hw.entry m hm))
    · refine List.nodup_cons.2 ⟨fun hmem => hnew ?_, hw.distinct⟩
      obtain ⟨m, hm, hst⟩ := List.mem_map.1 hmem
      exact contains_iff.2 ⟨m, hm, hst⟩
    · have hp : w.policy = .priority := hp
      dsimp only
      rw [hp]
      exact Policy.inOrder_insertByPriority (hw.inOrder hp) hid
    · rcases (Policy.mem_enqueue hid).1 hm with rfl | hm
      · exact List.mem_cons_self
      · exact List.mem_cons_of_mem _ (hw.live hp m hm)

theorem queueWithout_of_ne (hp : w.policy ≠ .priority) (s : State) :
    w.queueWithout s = w.queue := by
  unfold queueWithout
  split
  · rename_i hpriority
    exact absurd hpriority hp
  · rfl

theorem queueWithout_sublist (w : Worklist) (s : State) : (w.queueWithout s).Sublist w.queue := by
  unfold queueWithout
  split
  · split
    · exact List.filter_sublist
    · exact List.Sublist.refl _
  · exact List.Sublist.refl _

/-- Under the priority policy, the entry of the node with the state is taken out and no other. -/
theorem Queued.mem_queueWithout (hw : w.Queued) (hp : w.policy = .priority) :
    n ∈ w.queueWithout s ↔ n ∈ w.queue ∧ n.state ≠ s := by
  rw [queueWithout, hp]
  dsimp only
  split
  · rename_i m hfind
    have hm : m ∈ w.members := List.mem_of_find?_eq_some hfind
    have hst := List.find?_some hfind
    rw [beq_iff_eq] at hst
    rw [(hw.inOrder hp).mem_eraseByPriority (hw.entry m hm)]
    -- Entries are live, so the state of an entry tells which one it is.
    refine and_congr_right fun hn => not_congr ⟨?_, fun hns => ?_⟩
    · rintro rfl
      exact hst
    · exact hw.eq_of_state (hw.live hp n hn) hm (hns.trans hst.symm)
  · rename_i hfind
    refine ⟨fun hn => ⟨hn, fun hns => ?_⟩, And.left⟩
    exact List.find?_eq_none.1 hfind n (hw.live hp n hn) (beq_iff_eq.2 hns)

theorem queued_erase (hw : w.Queued) (s : State) : (w.erase s).Queued where
  entry m hm := by
    obtain ⟨hm, hne⟩ := List.mem_filter.1 hm
    show m ∈ w.queueWithout s
    -- Only the priority policy takes the entry out at once; elsewhere it is left as a stale one.
    by_cases hp : w.policy = .priority
    · exact (hw.mem_queueWithout hp).2 ⟨hw.entry m hm, bne_iff_ne.1 hne⟩
    · rw [queueWithout_of_ne hp]
      exact hw.entry m hm
  distinct := (List.filter_sublist.map _).nodup hw.distinct
  inOrder hp := (hw.inOrder hp).sublist (w.queueWithout_sublist s)
  live hp m hm := by
    obtain ⟨hm, hne⟩ := (hw.mem_queueWithout hp).1 hm
    exact List.mem_filter.2 ⟨hw.live hp m hm, bne_iff_ne.2 hne⟩

theorem compact_of_priority (hp : w.policy = .priority) : w.compact = w := by
  obtain ⟨policy, queue, members⟩ := w
  obtain rfl : policy = .priority := hp
  rfl

theorem compact_mk {p : Policy} (hp : p ≠ .priority) (queue members : List Node) :
    (⟨p, queue, members⟩ : Worklist).compact = ⟨p, queue.filter (· ∈ members), members⟩ := by
  cases p with
  | fifo => rfl
  | lifo => rfl
  | priority => exact absurd rfl hp

theorem mem_queue_of_mem_compact (h : n ∈ w.compact.queue) : n ∈ w.queue := by
  by_cases hp : w.policy = .priority
  · rwa [compact_of_priority hp] at h
  · have hcompact := compact_mk hp w.queue w.members
    rw [hcompact] at h
    exact (List.mem_filter.1 h).1

theorem queued_compact (hw : w.Queued) : w.compact.Queued := by
  by_cases hp : w.policy = .priority
  · rwa [compact_of_priority hp]
  · have hcompact := compact_mk hp w.queue w.members
    rw [hcompact]
    exact ⟨fun m hm => List.mem_filter.2 ⟨hw.entry m hm, decide_eq_true hm⟩, hw.distinct,
      fun hpriority => absurd hpriority hp, fun hpriority => absurd hpriority hp⟩

/-! ## Picking -/

/-- The entries before the first live one are stale. -/
theorem nextLive_spec (members queue : List Node) :
    (∃ n after, nextLive members queue = (some n, after) ∧ n ∈ members ∧
      (n :: after) <:+ queue ∧ ∀ m ∈ queue, m ∈ members → m = n ∨ m ∈ after) ∨
    (nextLive members queue = (none, []) ∧ ∀ m ∈ queue, m ∉ members) := by
  induction queue with
  | nil => exact Or.inr ⟨rfl, fun m hm => absurd hm List.not_mem_nil⟩
  | cons k queue ih =>
      rw [nextLive]
      split
      · rename_i hk
        refine Or.inl ⟨k, queue, rfl, hk, List.suffix_refl _, ?_⟩
        exact fun m hm _ => List.mem_cons.1 hm
      · -- The first entry is stale, and what the rest gives is the answer.
        rename_i hk
        rcases ih with ⟨n, after, heq, hn, hsuffix, hlive⟩ | ⟨heq, hstale⟩
        · refine Or.inl ⟨n, after, heq, hn, hsuffix.trans (List.suffix_cons k queue), ?_⟩
          intro m hm hmem
          rcases List.mem_cons.1 hm with rfl | hm
          · exact absurd hmem hk
          · exact hlive m hm hmem
        · refine Or.inr ⟨heq, fun m hm => ?_⟩
          rcases List.mem_cons.1 hm with rfl | hm
          · exact hk
          · exact hstale m hm

/-- Where the priority policy has no stale entries, the first entry is the first live one. -/
theorem pick_eq_pickLive (hlive : w.policy = .priority → ∀ n ∈ w.queue, n ∈ w.members) :
    w.pick = w.pickLive := by
  obtain ⟨policy, queue, members⟩ := w
  cases policy with
  | fifo => rfl
  | lifo => rfl
  | priority =>
      cases queue with
      | nil => rfl
      | cons n rest =>
          have hn : n ∈ members := hlive rfl n List.mem_cons_self
          rw [pick, pickFirst, pickLive, nextLive, if_pos hn]

/-- What can come of picking: the first live entry with all that is before it leaves the queue, or
    all entries are stale. -/
theorem pickLive_cases (w : Worklist) :
    (∃ n after, nextLive w.members w.queue = (some n, after) ∧ w.pickLive = (some n,
      { w with queue := after, members := w.members.filter (·.state != n.state) })) ∨
    (nextLive w.members w.queue = (none, []) ∧ w.pickLive = (none, { w with queue := [] })) := by
  unfold pickLive
  rcases nextLive_spec w.members w.queue with ⟨n, after, hnext, -⟩ | ⟨hnext, -⟩
  · exact Or.inl ⟨n, after, hnext, by rw [hnext]⟩
  · exact Or.inr ⟨hnext, by rw [hnext]⟩

theorem Queued.pick_eq (hw : w.Queued) : w.pick = w.pickLive :=
  pick_eq_pickLive hw.live

/-- A picked node was a member, and leaves the worklist; nothing else does. -/
theorem Queued.pick_some (hw : w.Queued) (h : w.pick = (some n, rest)) :
    n ∈ w.members ∧ rest.policy = w.policy ∧
      rest.members = w.members.filter (·.state != n.state) ∧
      (∀ m ∈ rest.queue, m ∈ w.queue) ∧ rest.Queued := by
  rw [hw.pick_eq, pickLive] at h
  rcases nextLive_spec w.members w.queue with ⟨k, after, heq, hk, hsuffix, hlive⟩ | ⟨heq, -⟩
  · rw [heq] at h
    obtain ⟨hn, rfl⟩ := Prod.mk.inj h
    obtain rfl := Option.some.inj hn
    have hsub : ∀ m ∈ after, m ∈ w.queue := fun m hm => hsuffix.mem (List.mem_cons_of_mem _ hm)
    refine ⟨hk, rfl, rfl, hsub, fun m hm => ?_, ?_, fun hp => ?_, fun hp m hm => ?_⟩
    · obtain ⟨hm, hne⟩ := List.mem_filter.1 hm
      rcases hlive m (hw.entry m hm) hm with rfl | hafter
      · exact absurd rfl (bne_iff_ne.1 hne)
      · exact hafter
    · exact (List.filter_sublist.map _).nodup hw.distinct
    · exact ((hw.inOrder hp).sublist hsuffix.sublist).of_cons
    · -- The picked node has no second entry, so the others have other states.
      have hmem := hw.live hp m (hsub m hm)
      refine List.mem_filter.2 ⟨hmem, bne_iff_ne.2 fun hst => ?_⟩
      have hnodup := (hw.inOrder hp).nodup.sublist hsuffix.sublist
      exact (List.nodup_cons.1 hnodup).1 (hw.eq_of_state hmem hk hst ▸ hm)
  · rw [heq] at h
    exact absurd (Prod.mk.inj h).1 (by simp)

/-- A worklist from which nothing can be picked is empty, and is left without stale entries. -/
theorem Queued.pick_none (hw : w.Queued) (h : w.pick = (none, rest)) :
    w.members = [] ∧ rest = empty w.policy := by
  rw [hw.pick_eq, pickLive] at h
  rcases nextLive_spec w.members w.queue with ⟨k, after, heq, -⟩ | ⟨heq, hstale⟩
  · rw [heq] at h
    exact absurd (Prod.mk.inj h).1 (by simp)
  · have hmembers : w.members = [] :=
      List.eq_nil_iff_forall_not_mem.2 fun m hm => hstale m (hw.entry m hm) hm
    rw [heq] at h
    refine ⟨hmembers, ?_⟩
    rw [← (Prod.mk.inj h).2, hmembers]
    rfl

theorem not_contains_of_isEmpty (h : w.isEmpty = true) (s : State) : ¬ w.contains s = true := by
  rw [contains_iff, List.isEmpty_iff.1 h]
  rintro ⟨n, hn, -⟩
  exact absurd hn List.not_mem_nil

end Worklist

end CodeReach
