/-
  CodeReach.Proofs.Explore.PendingSet

  A worklist as a plain set of nodes.  The set is followed beside the worklist through
  any sequence of calls (`Tracked`): it grows and shrinks by itself, and only where a node
  is picked it has to look which one the worklist has chosen.

  For every policy the worklist gives the answers of the set (`Represents`).  The node
  that is picked is the first live entry of the queue (`Queued.pick_eq_head?`), so the order in
  which nodes are picked is a matter of the live part of the queue: under the priority
  policy it is the whole queue and in order, and under the others it lists the insertions
  that have survived, from one end to the other (`InTurn`).  The latter needs that an entry
  is never brought to life again by adding a node that was removed.
-/
import CodeReach.Proofs.Explore.StaleEntries
import Mathlib.Data.List.Nodup

namespace CodeReach

namespace Policy

/-- Nodes are ordered by location first, and by identity at the same location. -/
theorem priorityCompare_eq_lt_iff {n m : Node} : priorityCompare n m = .lt ↔
    compare n.location m.location = .lt ∨ n.location = m.location ∧ n.id < m.id := by
  rw [priorityCompare, Ordering.then_eq_lt, Nat.compare_eq_lt, Std.compare_eq_iff_eq]

end Policy

namespace Worklist

variable {w : Worklist} {p : Policy} {n m : Node} {s : State} {live : List Node}

/-! ## Calls -/

/-- A call on a worklist. -/
inductive Call where
  | add (n : Node)
  | remove (s : State)
  | pick
  | compact

/-- The reply to a call. -/
inductive Reply where
  /-- Whether something was added or removed. -/
  | changed (b : Bool)
  | picked (n : Option Node)
  | done
deriving DecidableEq

/-- The reply to a call, and the worklist after it. -/
def perform (w : Worklist) : Call → Reply × Worklist
  | .add n => (w.add n).map .changed id
  | .remove s => (w.remove s).map .changed id
  | .pick => (.picked w.pick.1, w.pick.2)
  | .compact => (.done, w.compact)

/-- What is picked in the given number of turns, and the worklist after them. -/
def picks : Nat → Worklist → List (Option Node) × Worklist
  | 0, w => ([], w)
  | k + 1, w => (w.pick.1 :: (picks k w.pick.2).1, (picks k w.pick.2).2)

/-- A worklist beside the plain set that it stands for. -/
structure Tracked where
  worklist : Worklist
  /-- The insertions that have survived, the oldest first. -/
  live : List Node
  /-- The nodes that were removed without being picked. -/
  gone : List Node

namespace Tracked

/-- A new worklist beside the empty set. -/
def fresh (p : Policy) : Tracked :=
  ⟨.empty p, [], []⟩

/-- The set changes by itself, except that it takes note of the node that is picked. -/
def next (x : Tracked) (c : Call) : Tracked where
  worklist := (x.worklist.perform c).2
  live :=
    match c with
    | .add n => if ∃ m ∈ x.live, m.state = n.state then x.live else x.live ++ [n]
    | .remove s => x.live.filter (·.state != s)
    | .pick => x.live.filter (x.worklist.pick.1 ≠ some ·)
    | .compact => x.live
  gone :=
    match c with
    | .remove s => x.gone ++ x.live.filter (·.state == s)
    | _ => x.gone

/-- No identity is added again after it was removed. -/
def NoneReturns : Tracked → List Call → Prop
  | _, [] => True
  | x, c :: calls =>
    (∀ n, c = .add n → x.worklist.contains n.state = false → ∀ m ∈ x.gone, m.id ≠ n.id) ∧
      NoneReturns (x.next c) calls

end Tracked

/-- A new worklist beside the empty set, after a sequence of calls. -/
def tracked (p : Policy) (calls : List Call) : Tracked :=
  calls.foldl Tracked.next (.fresh p)

/-! ## The first live entry -/

/-- The entries of the queue that are not stale. -/
def liveQueue (w : Worklist) : List Node :=
  w.queue.filter (· ∈ w.members)

theorem queue_compact (hp : w.policy ≠ .priority) : w.compact.queue = w.liveQueue :=
  congrArg Worklist.queue (compact_mk hp w.queue w.members)

theorem nextLive_eq (members queue : List Node) :
    (nextLive members queue).1 = (queue.filter (· ∈ members)).head? ∧
      (nextLive members queue).2.filter (· ∈ members) = (queue.filter (· ∈ members)).tail := by
  induction queue with
  | nil => exact ⟨rfl, rfl⟩
  | cons k queue ih =>
      rw [nextLive]
      by_cases hk : k ∈ members
      · rw [if_pos hk, List.filter_cons, if_pos (decide_eq_true hk)]
        exact ⟨rfl, rfl⟩
      · rw [if_neg hk, List.filter_cons, if_neg (by simpa using hk)]
        exact ih

theorem pickLive_eq_head? (w : Worklist) : w.pickLive.1 = w.liveQueue.head? := by
  rw [liveQueue, ← (nextLive_eq w.members w.queue).1]
  rcases pickLive_cases w with ⟨n, after, hnext, hpick⟩ | ⟨hnext, hpick⟩
  · rw [hnext, hpick]
  · rw [hnext, hpick]

/-- The live entries that are left are those that followed the one that was picked. -/
theorem filter_queue_pickLive (w : Worklist) :
    w.pickLive.2.queue.filter (· ∈ w.members) = w.liveQueue.tail := by
  rw [liveQueue, ← (nextLive_eq w.members w.queue).2]
  rcases pickLive_cases w with ⟨n, after, hnext, hpick⟩ | ⟨hnext, hpick⟩
  · rw [hnext, hpick]
  · rw [hnext, hpick]

theorem Queued.pick_eq_head? (hw : w.Queued) : w.pick.1 = w.liveQueue.head? := by
  rw [hw.pick_eq, pickLive_eq_head?]

theorem Queued.mem_queue_of_mem_pick (hw : w.Queued) (h : n ∈ w.pick.2.queue) : n ∈ w.queue := by
  cases hpick : w.pick with
  | mk picked rest =>
      rw [hpick] at h
      cases picked with
      | none =>
          rw [(hw.pick_none hpick).2] at h
          exact absurd h List.not_mem_nil
      | some m => exact (hw.pick_some hpick).2.2.2.1 n h

theorem drain_of_some {rest : Worklist} (h : w.pick = (some n, rest)) :
    w.drain = (n :: rest.drain.1, rest.drain.2) := by
  rw [drain]
  split
  · rename_i hpick
    obtain ⟨hn, rfl⟩ := Prod.mk.inj (h.symm.trans hpick)
    rw [Option.some.inj hn]
    rfl
  · rename_i hpick
    exact absurd (Prod.mk.inj (h.symm.trans hpick)).1 (by simp)

theorem drain_of_none {rest : Worklist} (h : w.pick = (none, rest)) : w.drain = ([], rest) := by
  rw [drain]
  split
  · rename_i hpick
    exact absurd (Prod.mk.inj (h.symm.trans hpick)).1 (by simp)
  · rename_i hpick
    rw [(Prod.mk.inj (h.symm.trans hpick)).2]

/-- The queue of the priority policy has one entry for each member. -/
theorem Queued.queue_perm (hw : w.Queued) (hp : w.policy = .priority) :
    w.queue.Perm w.members := by
  have hqueue := (hw.inOrder hp).nodup
  have hmembers := hw.distinct.of_map Node.state
  exact (List.perm_ext_iff_of_nodup hqueue hmembers).2 fun n => ⟨hw.live hp n, hw.entry n⟩

/-! ## Worklists that represent a set -/

section
variable {added : Node → Prop}

/-- Among these nodes each identity stands for one node. -/
def Identified (added : Node → Prop) : Prop :=
  ∀ k n, added k → added n → k.id = n.id → k = n

/-- The worklist represents the set: its members are the nodes of the set, and the queue goes with
    them. -/
structure Represents (added : Node → Prop) (p : Policy) (w : Worklist) (live : List Node) :
    Prop where
  policy : w.policy = p
  members : w.members.Perm live
  queued : w.Queued
  /-- All entries of the queue are nodes that may be added. -/
  added : ∀ n ∈ w.queue, added n

namespace Represents

theorem distinct (h : Represents added p w live) : (live.map Node.state).Nodup :=
  (h.members.map Node.state).nodup h.queued.distinct

theorem nodup (h : Represents added p w live) : live.Nodup :=
  h.distinct.of_map Node.state

theorem eq_of_state (h : Represents added p w live) (hm : m ∈ live) (hn : n ∈ live)
    (hst : m.state = n.state) : m = n :=
  List.inj_on_of_nodup_map h.distinct hm hn hst

theorem contains_iff (h : Represents added p w live) :
    w.contains s = true ↔ ∃ n ∈ live, n.state = s := by
  rw [Worklist.contains_iff]
  exact exists_congr fun n => and_congr_left fun _ => h.members.mem_iff

theorem mem_liveQueue_iff (h : Represents added p w live) : n ∈ w.liveQueue ↔ n ∈ live := by
  rw [liveQueue, List.mem_filter, decide_eq_true_iff, ← h.members.mem_iff]
  exact ⟨And.right, fun hn => ⟨h.queued.entry n hn, hn⟩⟩

theorem toList_perm (h : Represents added p w live) : w.toList.Perm live := by
  unfold toList
  split
  · rename_i hpolicy
    exact (h.queued.queue_perm hpolicy).trans h.members
  · exact h.members

theorem size_eq (h : Represents added p w live) : w.size = live.length :=
  h.members.length_eq

theorem isEmpty_iff (h : Represents added p w live) : w.isEmpty = true ↔ live = [] := by
  rw [isEmpty, List.isEmpty_iff, ← List.length_eq_zero_iff, h.members.length_eq,
    List.length_eq_zero_iff]

/-! ## What one call keeps -/

theorem insert_eq (h : Represents added p w live) (hnew : ¬ ∃ m ∈ live, m.state = n.state) :
    w.insert n = { w with queue := w.policy.enqueue n w.queue, members := n :: w.members } :=
  if_neg fun hcontains => hnew (h.contains_iff.1 hcontains)

/-- Adding a node whose state is not in the set. -/
theorem insert (h : Represents added p w live)
    (hid : Identified added) (hn : added n)
    (hnew : ¬ ∃ m ∈ live, m.state = n.state) : Represents added p (w.insert n) (live ++ [n]) := by
  have hentry : ∀ k ∈ w.queue, k.id = n.id → k = n := fun k hk => hid k n (h.added k hk) hn
  have hqueued := queued_insert h.queued hentry
  have hadded : ∀ k ∈ (w.insert n).queue, added k := by
    intro k hk
    rcases mem_queue_insert hentry hk with rfl | hk
    · exact hn
    · exact h.added k hk
  refine ⟨?_, ?_, hqueued, hadded⟩
  · rw [h.insert_eq hnew]
    exact h.policy
  · rw [h.insert_eq hnew]
    exact (h.members.cons n).trans (List.perm_append_singleton n live).symm

/-- Adding a node whose state is in the set changes nothing. -/
theorem insert_eq_self (h : Represents added p w live) (hold : ∃ m ∈ live, m.state = n.state) :
    w.insert n = w :=
  if_pos (h.contains_iff.2 hold)

theorem erase (h : Represents added p w live) (s : State) :
    Represents added p (w.erase s) (live.filter (·.state != s)) where
  policy := h.policy
  members := h.members.filter _
  queued := queued_erase h.queued s
  added n hn := h.added n ((w.queueWithout_sublist s).subset hn)

theorem compact (h : Represents added p w live) : Represents added p w.compact live where
  policy := h.policy
  members := h.members
  queued := queued_compact h.queued
  added n hn := h.added n (mem_queue_of_mem_compact hn)

/-- The worklist is empty exactly if nothing can be picked. -/
theorem pick_eq_none_iff (h : Represents added p w live) : w.pick.1 = none ↔ live = [] := by
  rw [h.queued.pick_eq_head?, List.head?_eq_none_iff, List.eq_nil_iff_forall_not_mem,
    List.eq_nil_iff_forall_not_mem]
  exact forall_congr' fun n => not_congr h.mem_liveQueue_iff

theorem mem_of_pick (h : Represents added p w live) (hn : w.pick.1 = some n) : n ∈ live := by
  rw [h.queued.pick_eq_head?] at hn
  exact h.mem_liveQueue_iff.1 (List.mem_of_head? hn)

/-- Picking takes out the node that is picked and nothing else. -/
theorem pick (h : Represents added p w live) :
    Represents added p w.pick.2 (live.filter (w.pick.1 ≠ some ·)) := by
  cases hpick : w.pick with
  | mk picked rest =>
      cases picked with
      | none =>
          obtain ⟨hempty, rfl⟩ := h.queued.pick_none hpick
          have hlive : live = [] := List.perm_nil.1 (hempty ▸ h.members).symm
          rw [hlive]
          exact ⟨h.policy, List.Perm.refl _, queued_empty _, fun m hm => absurd hm List.not_mem_nil⟩
      | some n =>
          obtain ⟨hn, hpolicy, hmembers, hqueue, hqueued⟩ := h.queued.pick_some hpick
          -- Another state and another node are the same among the members.
          have hothers : live.filter (·.state != n.state) = live.filter (some n ≠ some ·) := by
            refine List.filter_congr fun m hm => ?_
            rw [Bool.eq_iff_iff, bne_iff_ne, decide_eq_true_iff, ne_eq, ne_eq, Option.some_inj]
            refine not_congr ⟨fun hst => (h.eq_of_state hm (h.members.mem_iff.1 hn) hst).symm, ?_⟩
            rintro rfl
            rfl
          refine ⟨hpolicy.trans h.policy, ?_, hqueued, fun m hm => h.added m (hqueue m hm)⟩
          rw [hmembers]
          exact hothers ▸ h.members.filter _

theorem perm_of_pick (h : Represents added p w live) (hn : w.pick.1 = some n) :
    live.Perm (n :: live.filter (w.pick.1 ≠ some ·)) := by
  have herase : live.filter (w.pick.1 ≠ some ·) = live.erase n := by
    rw [h.nodup.erase_eq_filter, hn]
    refine List.filter_congr fun m _ => ?_
    rw [Bool.eq_iff_iff, decide_eq_true_iff, bne_iff_ne, ne_eq, Option.some_inj]
    exact ne_comm
  rw [herase]
  exact List.perm_cons_erase (h.mem_of_pick hn)

/-- Under the priority policy the node that is picked is before all others. -/
theorem least_of_pick (h : Represents added .priority w live) (hn : w.pick.1 = some n)
    (hm : m ∈ live) (hne : m ≠ n) : Policy.priorityCompare n m = .lt := by
  have horder : Policy.InOrder w.liveQueue := (h.queued.inOrder h.policy).filter _
  have hm := h.mem_liveQueue_iff.2 hm
  rw [h.queued.pick_eq_head?] at hn
  obtain ⟨tail, htail⟩ := List.head?_eq_some_iff.1 hn
  rw [htail] at horder hm
  exact (List.pairwise_cons.1 horder).1 m ((List.mem_cons.1 hm).resolve_left hne)

/-- Picking until nothing is left gives each node of the set once. -/
theorem picks_eq_drain (h : Represents added p w live) :
    w.drain.1.Perm live ∧
      picks (live.length + 1) w = (w.drain.1.map some ++ [none], w.drain.2) := by
  -- Each pick leaves a worklist that represents one node less.
  generalize hk : live.length = k
  induction k generalizing w live with
  | zero =>
      obtain rfl := List.length_eq_zero_iff.1 hk
      have hnone := h.pick_eq_none_iff.2 rfl
      have hpick : w.pick = (none, w.pick.2) := by rw [← hnone]
      rw [drain_of_none hpick, picks, hnone]
      exact ⟨List.Perm.refl _, rfl⟩
  | succ k ih =>
      have hne : live ≠ [] := fun hnil => by simp [hnil] at hk
      obtain ⟨n, hn⟩ := Option.ne_none_iff_exists'.1 (mt h.pick_eq_none_iff.1 hne)
      have hlive := h.perm_of_pick hn
      have hlength : (live.filter (w.pick.1 ≠ some ·)).length = k :=
        Nat.succ.inj (hlive.length_eq.symm.trans hk)
      obtain ⟨hperm, hpicks⟩ := ih h.pick hlength
      have hpick : w.pick = (some n, w.pick.2) := by rw [← hn]
      rw [drain_of_some hpick]
      refine ⟨(hperm.cons n).trans hlive.symm, ?_⟩
      rw [picks, hpicks, hn]
      rfl

end Represents

/-- What is kept by a call that adds at most a node that may be added. -/
theorem Represents.next {x : Tracked} {c : Call}
    (h : Represents added p x.worklist x.live)
    (hid : Identified added) (hc : ∀ n, c = .add n → added n) :
    Represents added p (x.next c).worklist (x.next c).live := by
  cases c with
  | add n =>
      by_cases hold : ∃ m ∈ x.live, m.state = n.state
      · have hlive : (x.next (.add n)).live = x.live := if_pos hold
        have hworklist : (x.next (.add n)).worklist = x.worklist := h.insert_eq_self hold
        rw [hlive, hworklist]
        exact h
      · have hlive : (x.next (.add n)).live = x.live ++ [n] := if_neg hold
        rw [hlive]
        exact h.insert hid (hc n rfl) hold
  | remove s => exact h.erase s
  | pick => exact h.pick
  | compact => exact h.compact

theorem Represents.run {calls : List Call} {x : Tracked}
    (h : Represents added p x.worklist x.live)
    (hid : Identified added)
    (hcalls : ∀ n, .add n ∈ calls → added n) :
    Represents added p (calls.foldl Tracked.next x).worklist (calls.foldl Tracked.next x).live := by
  induction calls generalizing x with
  | nil => exact h
  | cons c calls ih =>
      refine ih (h.next hid ?_) fun n hn => hcalls n (List.mem_cons_of_mem _ hn)
      rintro n rfl
      exact hcalls n List.mem_cons_self

end

end Worklist

/-! ## Taking turns -/

namespace Policy

/-- The order in which insertions, given from the oldest to the newest, are picked if nothing else
    counts. -/
def turns : Policy → List Node → List Node
  | .lifo, live => live.reverse
  | _, live => live

variable {p : Policy} {n : Node} {live : List Node} {keep : Node → Bool}

theorem filter_turns : (p.turns live).filter keep = p.turns (live.filter keep) := by
  cases p with
  | lifo => exact List.filter_reverse
  | fifo => rfl
  | priority => rfl

theorem nodup_turns (h : live.Nodup) : (p.turns live).Nodup := by
  cases p with
  | lifo => exact List.nodup_reverse.2 h
  | fifo => exact h
  | priority => exact h

theorem turns_append_singleton (hp : p ≠ .priority) :
    p.turns (live ++ [n]) = p.enqueue n (p.turns live) := by
  cases p with
  | lifo => exact List.reverse_append
  | fifo => rfl
  | priority => exact absurd rfl hp

end Policy

namespace Worklist

variable {w : Worklist} {p : Policy} {n : Node} {live gone : List Node} {added : Node → Prop}

/-- The live entries of the queue stand in the order of the insertions, and the stale ones are those
    of nodes that were removed. -/
structure InTurn (w : Worklist) (live gone : List Node) : Prop where
  turn : w.queue.filter (· ∈ live) = w.policy.turns live
  stale : ∀ n ∈ w.queue, n ∈ live ∨ n ∈ gone

theorem filter_mem_filter (queue live : List Node) (keep : Node → Bool) :
    queue.filter (· ∈ live.filter keep) = (queue.filter (· ∈ live)).filter keep := by
  rw [List.filter_filter]
  refine List.filter_congr fun n _ => ?_
  rw [Bool.eq_iff_iff, decide_eq_true_iff, List.mem_filter, Bool.and_eq_true, decide_eq_true_iff]
  exact And.comm

theorem Represents.liveQueue_eq (h : Represents added p w live) :
    w.liveQueue = w.queue.filter (· ∈ live) :=
  List.filter_congr fun _ _ => decide_eq_decide.2 h.members.mem_iff

namespace InTurn

theorem insert (h : InTurn w live gone) (hw : Represents added p w live) (hp : p ≠ .priority)
    (hid : Identified added) (hn : added n)
    (hnew : ¬ ∃ m ∈ live, m.state = n.state) (hgone : ∀ m ∈ gone, m.id ≠ n.id) :
    InTurn (w.insert n) (live ++ [n]) gone := by
  have hentry : ∀ k ∈ w.queue, k.id = n.id → k = n := fun k hk => hid k n (hw.added k hk) hn
  have hpolicy : w.policy ≠ .priority := hw.policy ▸ hp
  -- No stale entry comes to life with the new node.
  have hfresh : n ∉ w.queue := by
    intro hqueue
    rcases h.stale n hqueue with hlive | hgone'
    · exact hnew ⟨n, hlive, rfl⟩
    · exact hgone n hgone' rfl
  have hold : w.queue.filter (· ∈ live ++ [n]) = w.queue.filter (· ∈ live) := by
    refine List.filter_congr fun k hk => decide_eq_decide.2 ?_
    rw [List.mem_append, List.mem_singleton]
    exact or_iff_left fun hkn => hfresh (hkn ▸ hk)
  refine ⟨?_, fun m hm => ?_⟩
  · rw [hw.insert_eq hnew]
    show (w.policy.enqueue n w.queue).filter (· ∈ live ++ [n]) = w.policy.turns (live ++ [n])
    rw [Policy.filter_enqueue hpolicy (by simp), hold, h.turn,
      Policy.turns_append_singleton hpolicy]
  · rw [List.mem_append, List.mem_singleton]
    rcases mem_queue_insert hentry hm with rfl | hm
    · exact Or.inl (Or.inr rfl)
    · exact (h.stale m hm).imp_left Or.inl

theorem erase (h : InTurn w live gone) (hp : w.policy ≠ .priority) (s : State) :
    InTurn (w.erase s) (live.filter (·.state != s)) (gone ++ live.filter (·.state == s)) := by
  refine ⟨?_, fun n hn => ?_⟩
  · show (w.queueWithout s).filter (· ∈ live.filter (·.state != s)) = w.policy.turns _
    rw [queueWithout_of_ne hp, filter_mem_filter, h.turn, Policy.filter_turns]
  · have hn := (w.queueWithout_sublist s).subset hn
    rw [List.mem_append, List.mem_filter, List.mem_filter, bne_iff_ne, beq_iff_eq]
    rcases h.stale n hn with hlive | hgone
    · by_cases hs : n.state = s
      · exact Or.inr (Or.inr ⟨hlive, hs⟩)
      · exact Or.inl ⟨hlive, hs⟩
    · exact Or.inr (Or.inl hgone)

theorem compact (h : InTurn w live gone) (hp : w.policy ≠ .priority)
    (hw : Represents added p w live) : InTurn w.compact live gone := by
  have hqueue := queue_compact hp
  refine ⟨?_, fun n hn => Or.inl (hw.mem_liveQueue_iff.1 (hqueue ▸ hn))⟩
  show w.compact.queue.filter (· ∈ live) = w.policy.turns live
  rw [hqueue, List.filter_eq_self.2 fun n hn => decide_eq_true (hw.mem_liveQueue_iff.1 hn),
    hw.liveQueue_eq, h.turn]

theorem pick (h : InTurn w live gone) (hw : Represents added p w live) :
    InTurn w.pick.2 (live.filter (w.pick.1 ≠ some ·)) gone := by
  have hpolicy : w.pick.2.policy = w.policy := hw.pick.policy.trans hw.policy.symm
  have hqueue : w.liveQueue = w.policy.turns live := hw.liveQueue_eq.trans h.turn
  have hhead := hw.queued.pick_eq_head?
  have hrest : w.pick.2.queue.filter (· ∈ live) = (w.policy.turns live).tail := by
    rw [← hqueue, ← filter_queue_pickLive, ← hw.queued.pick_eq]
    exact List.filter_congr fun _ _ => decide_eq_decide.2 hw.members.mem_iff.symm
  have hnodup : (w.policy.turns live).Nodup := Policy.nodup_turns hw.nodup
  rw [hqueue] at hhead
  refine ⟨?_, fun m hm => ?_⟩
  · rw [filter_mem_filter, hrest, hpolicy, ← Policy.filter_turns]
    cases hturns : w.policy.turns live with
    | nil => rfl
    | cons n tail =>
        rw [hturns] at hhead
        rw [List.filter_cons_of_neg (by simp [hhead])]
        rfl
  · refine (h.stale m (hw.queued.mem_queue_of_mem_pick hm)).imp_left fun hlive => ?_
    refine List.mem_filter.2 ⟨hlive, decide_eq_true fun hm' => ?_⟩
    -- The node that was picked has no other entry.
    have htail : m ∈ (w.policy.turns live).tail :=
      hrest ▸ List.mem_filter.2 ⟨hm, decide_eq_true hlive⟩
    obtain ⟨tail, hturns⟩ := List.head?_eq_some_iff.1 (hhead.symm.trans hm')
    rw [hturns] at htail hnodup
    exact (List.nodup_cons.1 hnodup).1 htail

theorem next {x : Tracked} {c : Call} (h : InTurn x.worklist x.live x.gone)
    (hx : Represents added p x.worklist x.live) (hp : p ≠ .priority)
    (hid : Identified added) (hc : ∀ n, c = .add n → added n)
    (hreturns : ∀ n, c = .add n → x.worklist.contains n.state = false →
      ∀ m ∈ x.gone, m.id ≠ n.id) :
    InTurn (x.next c).worklist (x.next c).live (x.next c).gone := by
  have hpolicy : x.worklist.policy ≠ .priority := hx.policy ▸ hp
  cases c with
  | add n =>
      by_cases hold : ∃ m ∈ x.live, m.state = n.state
      · have hlive : (x.next (.add n)).live = x.live := if_pos hold
        have hworklist : (x.next (.add n)).worklist = x.worklist := hx.insert_eq_self hold
        rw [hlive, hworklist]
        exact h
      · have hlive : (x.next (.add n)).live = x.live ++ [n] := if_neg hold
        have hcontains : x.worklist.contains n.state = false := by
          rw [← Bool.not_eq_true, hx.contains_iff]
          exact hold
        rw [hlive]
        exact h.insert hx hp hid (hc n rfl) hold (hreturns n rfl hcontains)
  | remove s => exact h.erase hpolicy s
  | pick => exact h.pick hx
  | compact => exact h.compact hpolicy hx

theorem run {calls : List Call} {x : Tracked} (h : InTurn x.worklist x.live x.gone)
    (hx : Represents added p x.worklist x.live) (hp : p ≠ .priority)
    (hid : Identified added)
    (hcalls : ∀ n, .add n ∈ calls → added n) (hreturns : x.NoneReturns calls) :
    InTurn (calls.foldl Tracked.next x).worklist (calls.foldl Tracked.next x).live
      (calls.foldl Tracked.next x).gone := by
  induction calls generalizing x with
  | nil => exact h
  | cons c calls ih =>
      have hc : ∀ n, c = .add n → added n := by
        rintro n rfl
        exact hcalls n List.mem_cons_self
      exact ih (h.next hx hp hid hc hreturns.1) (hx.next hid hc)
        (fun n hn => hcalls n (List.mem_cons_of_mem _ hn)) hreturns.2

end InTurn

/-! ## Every sequence of calls -/

/-- To all questions the worklist gives the answers of the plain set of these nodes. -/
structure AnswersAs (w : Worklist) (live : List Node) : Prop where
  distinct : (live.map Node.state).Nodup
  contains_iff : ∀ s, w.contains s = true ↔ ∃ n ∈ live, n.state = s
  size_eq : w.size = live.length
  isEmpty_iff : w.isEmpty = true ↔ live = []
  toList_perm : w.toList.Perm live
  add_reply : ∀ n, (w.perform (.add n)).1 = .changed (decide (∀ m ∈ live, m.state ≠ n.state))
  remove_reply : ∀ s, (w.perform (.remove s)).1 = .changed (decide (∃ m ∈ live, m.state = s))
  pick_none_iff : w.pick.1 = none ↔ live = []
  /-- A node is picked with the identity that it was added with, and only it is taken out. -/
  picked : ∀ n, w.pick.1 = some n → n ∈ live ∧ w.pick.2.toList.Perm (live.filter (· ≠ n))
  drain_perm : w.drain.1.Perm live
  /-- Draining is picking until nothing is left. -/
  drain_eq : picks (live.length + 1) w = (w.drain.1.map some ++ [none], w.drain.2)

theorem Represents.answersAs (h : Represents added p w live) : w.AnswersAs live where
  distinct := h.distinct
  contains_iff _ := h.contains_iff
  size_eq := h.size_eq
  isEmpty_iff := h.isEmpty_iff
  toList_perm := h.toList_perm
  add_reply n := by
    have hreply : (!w.contains n.state) = decide (∀ m ∈ live, m.state ≠ n.state) := by
      rw [Bool.eq_iff_iff, Bool.not_eq_true', ← Bool.not_eq_true, h.contains_iff,
        decide_eq_true_iff]
      simp only [not_exists, not_and, ne_eq]
    exact congrArg Reply.changed hreply
  remove_reply s := by
    have hreply : w.contains s = decide (∃ m ∈ live, m.state = s) := by
      rw [Bool.eq_iff_iff, h.contains_iff, decide_eq_true_iff]
    exact congrArg Reply.changed hreply
  pick_none_iff := h.pick_eq_none_iff
  picked n hn := by
    have hothers : live.filter (w.pick.1 ≠ some ·) = live.filter (· ≠ n) := by
      refine List.filter_congr fun m _ => decide_eq_decide.2 ?_
      rw [hn, ne_eq, Option.some_inj]
      exact ne_comm
    exact ⟨h.mem_of_pick hn, hothers ▸ h.pick.toList_perm⟩
  drain_perm := h.picks_eq_drain.1
  drain_eq := h.picks_eq_drain.2

theorem represents_fresh (added : Node → Prop) (p : Policy) :
    Represents added p (Tracked.fresh p).worklist (Tracked.fresh p).live where
  policy := rfl
  members := List.Perm.refl _
  queued := queued_empty p
  added _ hn := absurd hn List.not_mem_nil

theorem inTurn_fresh (p : Policy) :
    InTurn (Tracked.fresh p).worklist (Tracked.fresh p).live (Tracked.fresh p).gone where
  turn := by cases p <;> rfl
  stale _ hn := absurd hn List.not_mem_nil

/-- A worklist is a set with the order of its policy.  After any sequence of calls on a new
    worklist, in which nodes with equal states may have different identities, its queue goes with
    its members, and it gives the answers of the plain set of the insertions that have survived.
    Under the priority policy the queue has one entry for each member and is in order, and the node
    that is picked is the one at the least location, and the oldest there.  Under the other policies
    it is the oldest or the newest of the insertions that have survived, as long as no identity is
    added again after it was removed. -/
theorem pending_set_in_order (p : Policy) (calls : List Call)
    (hid : Identified fun n => .add n ∈ calls) :
    (tracked p calls).worklist.Queued ∧
      (tracked p calls).worklist.AnswersAs (tracked p calls).live ∧
      (p = .priority →
        (tracked p calls).worklist.queue.Perm (tracked p calls).worklist.members ∧
        Policy.InOrder (tracked p calls).worklist.queue ∧
        ∀ n, (tracked p calls).worklist.pick.1 = some n → ∀ m ∈ (tracked p calls).live, m ≠ n →
          compare n.location m.location = .lt ∨ n.location = m.location ∧ n.id < m.id) ∧
      ((Tracked.fresh p).NoneReturns calls →
        (p = .fifo → (tracked p calls).worklist.pick.1 = (tracked p calls).live.head?) ∧
        (p = .lifo → (tracked p calls).worklist.pick.1 = (tracked p calls).live.getLast?)) := by
  have hfresh := represents_fresh (fun n => .add n ∈ calls) p
  have hrepresents := hfresh.run hid fun _ hn => hn
  refine ⟨hrepresents.queued, hrepresents.answersAs, ?_, fun hreturns => ?_⟩
  · rintro rfl
    refine ⟨hrepresents.queued.queue_perm hrepresents.policy,
      hrepresents.queued.inOrder hrepresents.policy, fun n hn m hm hne => ?_⟩
    exact Policy.priorityCompare_eq_lt_iff.1 (hrepresents.least_of_pick hn hm hne)
  · -- The first live entry is the first in turn.
    have hpick : p ≠ .priority →
        (tracked p calls).worklist.pick.1 = (p.turns (tracked p calls).live).head? := by
      intro hp
      have hturn := ((inTurn_fresh p).run hfresh hp hid (fun _ hn => hn) hreturns).turn
      rw [hrepresents.policy, ← hrepresents.liveQueue_eq] at hturn
      exact hrepresents.queued.pick_eq_head?.trans (congrArg List.head? hturn)
    refine ⟨?_, ?_⟩
    · rintro rfl
      exact hpick (by decide)
    · rintro rfl
      exact (hpick (by decide)).trans List.head?_reverse

/-- A node at an address. -/
def pendingAt (id : Nat) (address : Word) : Node :=
  ⟨id, ⟨.plain (.start address), []⟩⟩

/-- The older of two states is removed and an equal one is added, which leaves a stale entry. -/
def comesBack : List Call :=
  [.add (pendingAt 0 1), .add (pendingAt 1 2), .remove (pendingAt 0 1).state, .add (pendingAt 2 1)]

theorem identified_comesBack : Identified fun n => .add n ∈ comesBack := by
  intro k n hk hn
  simp only [comesBack, List.mem_cons, Call.add.injEq, reduceCtorEq, List.not_mem_nil, or_false,
    false_or] at hk hn
  rcases hk with rfl | rfl | rfl <;> rcases hn with rfl | rfl | rfl <;> decide

/-- The stale entry does not count: the state that came back is the newest, and it is picked with
    its new identity. -/
theorem pending_set_in_order_comesBack :
    (Identified fun n => .add n ∈ comesBack) ∧
      (∀ p, (tracked p comesBack).worklist.AnswersAs [pendingAt 1 2, pendingAt 2 1]) ∧
      (tracked .fifo comesBack).worklist.pick.1 = some (pendingAt 1 2) ∧
      (tracked .lifo comesBack).worklist.pick.1 = some (pendingAt 2 1) ∧
      (tracked .priority comesBack).worklist.pick.1 = some (pendingAt 2 1) := by
  have hlive (p : Policy) : (tracked p comesBack).live = [pendingAt 1 2, pendingAt 2 1] := by
    cases p <;> decide
  have hreturns (p : Policy) : (Tracked.fresh p).NoneReturns comesBack := by
    refine ⟨?_, ?_, ?_, ?_, trivial⟩
    · exact fun _ _ _ m hm => absurd hm List.not_mem_nil
    · exact fun _ _ _ m hm => absurd hm List.not_mem_nil
    · exact fun _ hn => absurd hn (by simp)
    · rintro _ ⟨⟩ - m hm
      obtain rfl : m = pendingAt 0 1 := List.mem_singleton.1 hm
      decide
  have hanswers (p : Policy) :
      (tracked p comesBack).worklist.AnswersAs [pendingAt 1 2, pendingAt 2 1] :=
    hlive p ▸ (pending_set_in_order p comesBack identified_comesBack).2.1
  refine ⟨identified_comesBack, hanswers, ?_, ?_, ?_⟩
  · have hturns := (pending_set_in_order .fifo comesBack identified_comesBack).2.2.2
    rw [(hturns (hreturns .fifo)).1 rfl, hlive]
    rfl
  · have hturns := (pending_set_in_order .lifo comesBack identified_comesBack).2.2.2
    rw [(hturns (hreturns .lifo)).2 rfl, hlive]
    rfl
  · have hleast := ((pending_set_in_order .priority comesBack identified_comesBack).2.2.1 rfl).2.2
    rw [hlive] at hleast
    cases hpick : (tracked .priority comesBack).worklist.pick.1 with
    | none => exact absurd ((hanswers .priority).pick_none_iff.1 hpick) (by simp)
    | some n =>
        have hn := ((hanswers .priority).picked n hpick).1
        have hbefore := hleast n hpick (pendingAt 2 1) (by simp)
        rcases List.mem_cons.1 hn with rfl | hn
        · exact absurd (hbefore (by decide)) (by decide)
        · rw [List.mem_singleton.1 hn]

end Worklist

end CodeReach
