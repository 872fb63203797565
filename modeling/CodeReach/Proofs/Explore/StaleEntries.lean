/-
  CodeReach.Proofs.Explore.StaleEntries

  Worklists up to stale entries.  Two worklists are alike if dropping their stale entries
  makes them equal.  Alike worklists pick the same node, and they stay alike whatever is
  done to both: a node is inserted, a state is erased, a node is picked, or one of them is
  compacted and the other is not.

  A node that is inserted has to have an identity that is in neither queue; otherwise a
  stale entry could come to life again in one of them.  Under the priority policy there is
  nothing to drop, and alike worklists are equal.
-/
import CodeReach.Proofs.Explore.Containers

namespace CodeReach

namespace Policy

variable {p : Policy} {n : Node} {queue : List Node} {keep : Node → Bool}

theorem filter_enqueue (hp : p ≠ .priority) (hn : keep n = true) :
    (p.enqueue n queue).filter keep = p.enqueue n (queue.filter keep) := by
  cases p with
  | lifo => exact List.filter_cons_of_pos hn
  | fifo =>
      show (queue ++ [n]).filter keep = queue.filter keep ++ [n]
      rw [List.filter_append, List.filter_cons_of_pos hn]
      rfl
  | priority => exact absurd rfl hp

end Policy

namespace Worklist

variable {w v : Worklist} {n : Node}

/-! ## Dropping stale entries -/

/-- An entry that is live among fewer members was live among all. -/
theorem filter_filter_of_subset {members members' : List Node} (h : members' ⊆ members)
    (queue : List Node) :
    (queue.filter (· ∈ members)).filter (· ∈ members') = queue.filter (· ∈ members') := by
  rw [List.filter_filter]
  refine List.filter_congr fun k _ => ?_
  rw [Bool.and_eq_left_iff_imp]
  exact fun hk => decide_eq_true (h (of_decide_eq_true hk))

theorem compact_compact (w : Worklist) : w.compact.compact = w.compact := by
  by_cases hp : w.policy = .priority
  · rw [compact_of_priority hp, compact_of_priority hp]
  · obtain ⟨policy, queue, members⟩ := w
    rw [compact_mk hp, compact_mk hp, filter_filter_of_subset (List.Subset.refl _)]

theorem compact_eq_self (hlive : ∀ n ∈ w.queue, n ∈ w.members) : w.compact = w := by
  by_cases hp : w.policy = .priority
  · exact compact_of_priority hp
  · obtain ⟨policy, queue, members⟩ := w
    rw [compact_mk hp, List.filter_eq_self.2 fun n hn => decide_eq_true (hlive n hn)]

theorem toList_compact (w : Worklist) : w.compact.toList = w.toList := by
  obtain ⟨policy, queue, members⟩ := w
  cases policy <;> rfl

theorem policy_insert (w : Worklist) (n : Node) : (w.insert n).policy = w.policy := by
  unfold insert
  split <;> rfl

/-- A new node finds its place in the queue with or without stale entries. -/
theorem compact_insert (hnew : ∀ k ∈ w.queue, k.id ≠ n.id) :
    (w.insert n).compact = w.compact.insert n := by
  by_cases hp : w.policy = .priority
  · rw [compact_of_priority hp, compact_of_priority ((policy_insert w n).trans hp)]
  · have hcontains : w.compact.contains n.state = w.contains n.state := rfl
    unfold insert
    rw [hcontains]
    split
    · rfl
    · -- Other entries are live after the insertion if they were before.
      have hlive : w.queue.filter (· ∈ n :: w.members) = w.queue.filter (· ∈ w.members) := by
        refine List.filter_congr fun k hk => decide_eq_decide.2 ?_
        have hkn : k ≠ n := fun hkn => hnew k hk (congrArg Node.id hkn)
        exact List.mem_cons.trans (or_iff_right hkn)
      obtain ⟨policy, queue, members⟩ := w
      rw [compact_mk hp, compact_mk hp,
        Policy.filter_enqueue hp (decide_eq_true List.mem_cons_self), hlive]

theorem erase_mk {p : Policy} (hp : p ≠ .priority) (queue members : List Node) (s : State) :
    (⟨p, queue, members⟩ : Worklist).erase s = ⟨p, queue, members.filter (·.state != s)⟩ := by
  rw [erase, queueWithout_of_ne hp]

theorem compact_erase (w : Worklist) (s : State) :
    (w.compact.erase s).compact = (w.erase s).compact := by
  by_cases hp : w.policy = .priority
  · rw [compact_of_priority hp]
  · obtain ⟨policy, queue, members⟩ := w
    rw [compact_mk hp, erase_mk hp, erase_mk hp, compact_mk hp, compact_mk hp,
      filter_filter_of_subset (List.filter_subset_self _)]

/-- Stale entries are passed over. -/
theorem nextLive_filter (members queue : List Node) :
    nextLive members (queue.filter (· ∈ members)) =
      ((nextLive members queue).1, (nextLive members queue).2.filter (· ∈ members)) := by
  induction queue with
  | nil => rfl
  | cons k queue ih =>
      by_cases hk : k ∈ members
      · rw [List.filter_cons, if_pos (decide_eq_true hk), nextLive, if_pos hk, nextLive, if_pos hk]
      · rw [List.filter_cons, if_neg (by simpa using hk), nextLive, if_neg hk]
        exact ih

theorem pick_of_ne (hp : w.policy ≠ .priority) : w.pick = w.pickLive :=
  pick_eq_pickLive fun hpriority => absurd hpriority hp

/-- The node whose turn it is does not depend on stale entries. -/
theorem pick_compact (w : Worklist) :
    w.compact.pick.1 = w.pick.1 ∧ w.compact.pick.2.compact = w.pick.2.compact := by
  by_cases hp : w.policy = .priority
  · rw [compact_of_priority hp]
    exact ⟨rfl, rfl⟩
  · have hcompact : w.compact.policy ≠ .priority := hp
    rw [pick_of_ne hcompact, pick_of_ne hp]
    obtain ⟨policy, queue, members⟩ := w
    rw [compact_mk hp]
    unfold pickLive
    dsimp only
    rw [nextLive_filter]
    cases nextLive members queue with
    | mk picked rest =>
        cases picked with
        | none =>
            refine ⟨rfl, ?_⟩
            rw [compact_mk hp, compact_mk hp, filter_filter_of_subset (List.Subset.refl _)]
        | some n =>
            refine ⟨rfl, ?_⟩
            rw [compact_mk hp, compact_mk hp,
              filter_filter_of_subset (List.filter_subset_self _)]

/-! ## Alike worklists -/

/-- The worklists differ in stale entries only. -/
def Alike (w v : Worklist) : Prop :=
  w.compact = v.compact

namespace Alike

theorem refl (w : Worklist) : w.Alike w :=
  rfl

theorem members_eq (h : w.Alike v) : w.members = v.members := by
  show w.compact.members = v.compact.members
  rw [h]

theorem isEmpty_eq (h : w.Alike v) : w.isEmpty = v.isEmpty := by
  rw [isEmpty, isEmpty, h.members_eq]

/-- Alike worklists list the same pending nodes in the same order. -/
theorem toList_eq (h : w.Alike v) : w.toList = v.toList := by
  rw [← toList_compact w, ← toList_compact v, h]

theorem compact_left (h : w.Alike v) : w.compact.Alike v :=
  (compact_compact w).trans h

theorem compact_right (h : w.Alike v) : w.Alike v.compact :=
  h.trans (compact_compact v).symm

theorem insert (h : w.Alike v) (hw : ∀ k ∈ w.queue, k.id ≠ n.id)
    (hv : ∀ k ∈ v.queue, k.id ≠ n.id) : (w.insert n).Alike (v.insert n) := by
  rw [Alike, compact_insert hw, compact_insert hv, h]

theorem erase (h : w.Alike v) (s : State) : (w.erase s).Alike (v.erase s) := by
  rw [Alike, ← compact_erase w, ← compact_erase v, h]

/-- Alike worklists pick the same node. -/
theorem pick (h : w.Alike v) : w.pick.1 = v.pick.1 ∧ w.pick.2.Alike v.pick.2 := by
  obtain ⟨hw, hwrest⟩ := pick_compact w
  obtain ⟨hv, hvrest⟩ := pick_compact v
  refine ⟨?_, ?_⟩
  · rw [← hw, ← hv, h]
  · rw [Alike, ← hwrest, ← hvrest, h]

end Alike

end Worklist

end CodeReach
