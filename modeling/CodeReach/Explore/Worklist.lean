/-
  CodeReach.Explore.Worklist

  The nodes that are still to be expanded.  A worklist is a set of nodes with
  different states, beside a queue that says in which order they are picked.

  Where the oldest or the newest is picked first, a node that leaves the set keeps its
  entry in the queue; such entries are stale and are passed over when their turn comes.
  The priority policy keeps its queue in the order of locations and identities, and finds
  the entry of a node that leaves the set and takes it out at once.  It therefore picks the
  first entry as it is, and has nothing to do for compaction.
-/
import CodeReach.Domain.State

namespace CodeReach

/-- The order in which pending nodes are picked. -/
inductive Policy where
  /-- The oldest first. -/
  | fifo
  /-- The newest first. -/
  | lifo
  /-- The one at the least location first, the oldest of several there. -/
  | priority
deriving DecidableEq

namespace Policy

/-- What nodes are ordered by under the priority policy. -/
def priorityCompare (a b : Node) : Ordering :=
  (compare a.location b.location).then (compare a.id b.id)

/-- Puts a node before the first one that has to wait for it; the entry at the place of the node, if
    there is one, is replaced. -/
def insertByPriority (n : Node) : List Node → List Node
  | [] => [n]
  | m :: rest =>
    match priorityCompare n m with
    | .lt => n :: m :: rest
    | .eq => n :: rest
    | .gt => m :: insertByPriority n rest

/-- Takes out the entry at the place of a node. -/
def eraseByPriority (n : Node) (queue : List Node) : List Node :=
  queue.filter (priorityCompare n · != .eq)

/-- Puts a new node into the queue. -/
def enqueue (p : Policy) (n : Node) (queue : List Node) : List Node :=
  match p with
  | .fifo => queue ++ [n]
  | .lifo => n :: queue
  | .priority => insertByPriority n queue

end Policy

/-- The nodes that are still to be expanded. -/
structure Worklist where
  policy : Policy
  /-- Entries in the order in which they are picked; those of nodes that are no members are
      stale. -/
  queue : List Node
  /-- The pending nodes. -/
  members : List Node

namespace Worklist

/-- No node is pending. -/
def empty (policy : Policy) : Worklist :=
  ⟨policy, [], []⟩

/-- Whether a node with this state is pending. -/
def contains (w : Worklist) (s : State) : Bool :=
  w.members.any (·.state == s)

/-- The number of pending nodes. -/
def size (w : Worklist) : Nat :=
  w.members.length

/-- Whether no node is pending. -/
def isEmpty (w : Worklist) : Bool :=
  w.members.isEmpty

/-- The worklist with one more node, unless its state is pending already. -/
def insert (w : Worklist) (n : Node) : Worklist :=
  if w.contains n.state then w
  else { w with queue := w.policy.enqueue n w.queue, members := n :: w.members }

/-- Whether a node is new, and the worklist with it. -/
def add (w : Worklist) (n : Node) : Bool × Worklist :=
  (!w.contains n.state, w.insert n)

/-- The queue when the node of a state leaves the set.  Only under the priority policy its entry
    goes with it. -/
def queueWithout (w : Worklist) (s : State) : List Node :=
  match w.policy with
  | .priority =>
    match w.members.find? (·.state == s) with
    | some n => Policy.eraseByPriority n w.queue
    | none => w.queue
  | _ => w.queue

/-- The worklist without the node of a state. -/
def erase (w : Worklist) (s : State) : Worklist :=
  { w with queue := w.queueWithout s, members := w.members.filter (·.state != s) }

/-- Whether the state is pending, and the worklist without its node. -/
def remove (w : Worklist) (s : State) : Bool × Worklist :=
  (w.contains s, w.erase s)

/-- The first entry that is a member, and what follows it. -/
def nextLive (members : List Node) : List Node → Option Node × List Node
  | [] => (none, [])
  | n :: rest => if n ∈ members then (some n, rest) else nextLive members rest

/-- Picks the first entry that is not stale and drops those before it. -/
def pickLive (w : Worklist) : Option Node × Worklist :=
  match nextLive w.members w.queue with
  | (some n, rest) =>
    (some n, { w with queue := rest, members := w.members.filter (·.state != n.state) })
  | (none, rest) => (none, { w with queue := rest })

/-- Picks the first entry, whether it is stale or not. -/
def pickFirst (w : Worklist) : Option Node × Worklist :=
  match w.queue with
  | [] => (none, w)
  | n :: rest =>
    (some n, { w with queue := rest, members := w.members.filter (·.state != n.state) })

/-- The node whose turn it is, if any is pending, and the worklist without it. -/
def pick (w : Worklist) : Option Node × Worklist :=
  match w.policy with
  | .priority => w.pickFirst
  | _ => w.pickLive

/-- Drops the stale entries of the queue; the priority policy does not look for any. -/
def compact (w : Worklist) : Worklist where
  policy := w.policy
  queue :=
    match w.policy with
    | .priority => w.queue
    | _ => w.queue.filter (· ∈ w.members)
  members := w.members

/-- The pending nodes; under the priority policy in the order in which they are picked. -/
def toList (w : Worklist) : List Node :=
  match w.policy with
  | .priority => w.queue
  | _ => w.members

theorem length_nextLive (members queue : List Node) {n : Node} {rest : List Node}
    (h : nextLive members queue = (some n, rest)) : rest.length < queue.length := by
  induction queue with
  | nil => exact absurd h (by simp [nextLive])
  | cons k queue ih =>
      rw [nextLive] at h
      split at h
      · rw [← (Prod.mk.inj h).2]
        exact Nat.lt_succ_self _
      · exact Nat.lt_succ_of_lt (ih h)

/-- Each pick takes an entry out of the queue. -/
theorem length_queue_of_pick {w rest : Worklist} {n : Node} (h : w.pick = (some n, rest)) :
    rest.queue.length < w.queue.length := by
  unfold pick at h
  split at h
  · unfold pickFirst at h
    split at h
    · exact absurd (Prod.mk.inj h).1 (by simp)
    · rename_i hqueue
      rw [← (Prod.mk.inj h).2, hqueue]
      exact Nat.lt_succ_self _
  · unfold pickLive at h
    split at h
    · rename_i hnext
      rw [← (Prod.mk.inj h).2]
      exact length_nextLive _ _ hnext
    · exact absurd (Prod.mk.inj h).1 (by simp)

/-- The pending nodes in the order in which they are picked one after the other, and the worklist
    after that. -/
def drain (w : Worklist) : List Node × Worklist :=
  match _hpick : w.pick with
  | (some n, rest) => rest.drain.map (n :: ·) id
  | (none, rest) => ([], rest)
termination_by w.queue.length
decreasing_by exact length_queue_of_pick _hpick

end Worklist

end CodeReach
