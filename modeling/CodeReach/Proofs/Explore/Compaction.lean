/-
  CodeReach.Proofs.Explore.Compaction

  What can be seen of compaction.  A worklist is asked for changes and for facts about
  itself, and the answers to a sequence of requests are compared with those to the same
  requests without the compactions among them.

  What a worklist will answer depends on its members and on the order in which their
  first live entries stand in the queue (`upcoming`), and compaction changes neither.  An
  entry that is stale now can matter later all the same, if its node is added again before
  the entry is dropped.  The newest entry of a node then stands before the revived one
  when the newest is picked first, and behind it when the oldest is.  So under the lifo
  policy nothing is ever seen of compaction, and under the fifo policy it is seen by some
  later requests exactly if it drops an entry.
-/
import CodeReach.Proofs.Explore.PendingSet
import CodeReach.Proofs.Flow.Graph
import Mathlib.Data.Fintype.EquivFin

namespace CodeReach

namespace Worklist

/-! ## Requests -/

/-- A call on a worklist, or a question about it. -/
inductive Request where
  | call (c : Call)
  | contains (s : State)
  | size

/-- The answer to a request. -/
inductive Answer where
  | reply (r : Reply)
  | held (b : Bool)
  | count (k : Nat)
deriving DecidableEq

/-- Whether the request asks for compaction. -/
def Request.isCompaction : Request → Bool
  | .call .compact => true
  | _ => false

/-- The requests other than compaction. -/
def withoutCompaction (rs : List Request) : List Request :=
  rs.filter (!·.isCompaction)

/-- The answer to a request; compaction gives none. -/
def answer? (w : Worklist) : Request → Option Answer
  | .call .compact => none
  | .call c => some (.reply (w.perform c).1)
  | .contains s => some (.held (w.contains s))
  | .size => some (.count w.size)

/-- The worklist after a request. -/
def after (w : Worklist) : Request → Worklist
  | .call c => (w.perform c).2
  | _ => w

/-- The worklist after a sequence of requests. -/
def afterAll (w : Worklist) (rs : List Request) : Worklist :=
  rs.foldl after w

/-- The answers to a sequence of requests. -/
def answers : Worklist → List Request → List Answer
  | _, [] => []
  | w, r :: rs => (w.answer? r).toList ++ answers (w.after r) rs

/-- Whether the request adds a node of which a stale entry is still in the queue. -/
def revives (w : Worklist) : Request → Bool
  | .call (.add n) => !w.contains n.state && n ∈ w.queue
  | _ => false

/-- Whether no request of a sequence brings a stale entry back to life. -/
def revivesNone : Worklist → List Request → Bool
  | _, [] => true
  | w, r :: rs => !w.revives r && revivesNone (w.after r) rs

variable {w v : Worklist} {n x y : Node} {r : Request} {rs : List Request}

theorem answers_append (w : Worklist) (rs later : List Request) :
    w.answers (rs ++ later) = w.answers rs ++ (w.afterAll rs).answers later := by
  induction rs generalizing w with
  | nil => rfl
  | cons r rs ih =>
      rw [List.cons_append, answers, answers, ih, List.append_assoc]
      rfl

/-! ## The order in which members come up -/

/-- The members in the order in which they are picked, if nothing else happens. -/
def upcoming (w : Worklist) : List Node :=
  w.liveQueue.eraseDups

theorem pick_eq_head?_upcoming (hp : w.policy ≠ .priority) : w.pick.1 = w.upcoming.head? := by
  rw [pick_of_ne hp, pickLive_eq_head?, upcoming]
  cases w.liveQueue with
  | nil => rfl
  | cons n rest => rw [List.eraseDups_cons, List.head?_cons, List.head?_cons]

theorem upcoming_compact (hp : w.policy ≠ .priority) : w.compact.upcoming = w.upcoming := by
  rw [upcoming, liveQueue, queue_compact hp]
  exact congrArg List.eraseDups (filter_filter_of_subset (List.Subset.refl _) w.queue)

theorem upcoming_erase (hp : w.policy ≠ .priority) (s : State) :
    (w.erase s).upcoming = w.upcoming.filter (·.state != s) := by
  have hlive : (w.erase s).liveQueue = w.liveQueue.filter (·.state != s) := by
    rw [erase, queueWithout_of_ne hp]
    exact filter_mem_filter w.queue w.members _
  rw [upcoming, hlive, eraseDups_filter, upcoming]

/-- Picking is erasing the state that comes up first. -/
theorem upcoming_pickLive (hn : w.pickLive.1 = some n) :
    w.pickLive.2.upcoming = w.upcoming.filter (·.state != n.state) ∧
      w.pickLive.2.members = w.members.filter (·.state != n.state) := by
  have hrest := filter_queue_pickLive w
  have hhead := pickLive_eq_head? w
  rcases pickLive_cases w with ⟨m, after, -, hpick⟩ | ⟨-, hpick⟩
  · rw [hpick] at hn hrest hhead ⊢
    obtain rfl := Option.some.inj hn
    obtain ⟨tail, htail⟩ := List.head?_eq_some_iff.1 hhead.symm
    have hlive : (⟨w.policy, after, w.members.filter (·.state != m.state)⟩ : Worklist).liveQueue =
        w.liveQueue.tail.filter (·.state != m.state) := by
      rw [← hrest]
      exact filter_mem_filter after w.members _
    refine ⟨?_, rfl⟩
    -- The node itself is not kept, so it does not matter that its entry is gone.
    rw [upcoming, hlive, upcoming, ← eraseDups_filter, htail, List.tail_cons,
      List.filter_cons_of_neg (by simp)]
  · rw [hpick] at hn
    exact absurd hn (by simp)

theorem pickLive_of_none (hnone : w.pickLive.1 = none) :
    w.pickLive.2.upcoming = [] ∧ w.pickLive.2.members = w.members := by
  rcases pickLive_cases w with ⟨n, after, -, hpick⟩ | ⟨-, hpick⟩
  · rw [hpick] at hnone
    exact absurd hnone (by simp)
  · rw [hpick]
    exact ⟨rfl, rfl⟩

/-- A new node comes up last or first.  For the first it does not matter whether an entry of the
    node is revived. -/
theorem upcoming_insert (hp : w.policy ≠ .priority) (hnew : w.contains n.state = false)
    (hn : w.policy = .lifo ∨ n ∉ w.queue) :
    (w.insert n).upcoming = w.policy.enqueue n w.upcoming := by
  have hmember : n ∉ w.members := by
    intro hmem
    rw [contains_iff.2 ⟨n, hmem, rfl⟩] at hnew
    exact absurd hnew (by simp)
  -- Up to entries of the node itself, the same entries are live as before.
  have hothers : (w.queue.filter (· ∈ n :: w.members)).filter (!· == n) = w.liveQueue := by
    rw [List.filter_filter]
    refine List.filter_congr fun m _ => ?_
    by_cases hm : m = n
    · simp [hm, hmember]
    · simp [hm]
  have hinsert : w.insert n =
      ⟨w.policy, w.policy.enqueue n w.queue, n :: w.members⟩ := by
    rw [insert, if_neg (by simp [hnew])]
  rw [hinsert]
  show ((w.policy.enqueue n w.queue).filter (· ∈ n :: w.members)).eraseDups = _
  rw [Policy.filter_enqueue hp (by simp)]
  cases hpolicy : w.policy with
  | lifo =>
      show (n :: w.queue.filter (· ∈ n :: w.members)).eraseDups = n :: w.upcoming
      rw [List.eraseDups_cons, hothers, upcoming]
  | fifo =>
      have hqueue : n ∉ w.queue := hn.resolve_left (by rw [hpolicy]; decide)
      have hfilter : n ∉ w.queue.filter (· ∈ n :: w.members) := fun hmem =>
        hqueue (List.mem_filter.1 hmem).1
      have hsame : w.queue.filter (· ∈ n :: w.members) = w.liveQueue := by
        refine Eq.trans (List.filter_eq_self.2 fun m hm => ?_).symm hothers
        have hne : m ≠ n := fun hmn => hfilter (hmn ▸ hm)
        simp [hne]
      show (w.queue.filter (· ∈ n :: w.members) ++ [n]).eraseDups = w.upcoming ++ [n]
      rw [eraseDups_append_singleton, if_neg hfilter, hsame, upcoming]
  | priority => exact absurd hpolicy hp

theorem policy_pick (w : Worklist) : w.pick.2.policy = w.policy := by
  unfold pick
  split
  · unfold pickFirst
    split <;> rfl
  · unfold pickLive
    split <;> rfl

theorem policy_after (w : Worklist) (r : Request) : (w.after r).policy = w.policy := by
  cases r with
  | contains s => rfl
  | size => rfl
  | call c =>
      cases c with
      | add n => exact policy_insert w n
      | remove s => rfl
      | pick => exact policy_pick w
      | compact => rfl

/-! ## Two worklists side by side -/

/-- The worklists have the same members, which come up in the same order, and the queue of the
    first has no entries that the queue of the second has not. -/
structure Trails (v w : Worklist) : Prop where
  policy_eq : v.policy = w.policy
  policy_ne : w.policy ≠ .priority
  members_eq : v.members = w.members
  upcoming_eq : v.upcoming = w.upcoming
  queue : v.queue.Sublist w.queue

/-- What follows the first live entry is an end of the queue. -/
theorem suffix_nextLive (members queue : List Node) : (nextLive members queue).2 <:+ queue := by
  rcases nextLive_spec members queue with ⟨n, after, hnext, -, hsuffix, -⟩ | ⟨hnext, -⟩
  · rw [hnext]
    exact (List.suffix_cons n after).trans hsuffix
  · rw [hnext]
    exact List.nil_suffix

theorem sublist_nextLive {members older queue : List Node} (h : older.Sublist queue) :
    (nextLive members older).2.Sublist (nextLive members queue).2 := by
  induction h with
  | slnil => exact List.Sublist.refl _
  | @cons older queue k h ih =>
      rw [nextLive]
      split
      · exact (suffix_nextLive members older).sublist.trans h
      · exact ih
  | @cons_cons older queue k h ih =>
      rw [nextLive, nextLive]
      split
      · exact h
      · exact ih

namespace Trails

theorem refl (hp : w.policy ≠ .priority) : w.Trails w :=
  ⟨rfl, hp, rfl, rfl, List.Sublist.refl _⟩

theorem policy_ne_left (h : v.Trails w) : v.policy ≠ .priority :=
  h.policy_eq ▸ h.policy_ne

theorem contains_eq (h : v.Trails w) (s : State) : v.contains s = w.contains s := by
  rw [contains, contains, h.members_eq]

theorem compact (h : v.Trails w) : v.compact.Trails w where
  policy_eq := h.policy_eq
  policy_ne := h.policy_ne
  members_eq := h.members_eq
  upcoming_eq := (upcoming_compact h.policy_ne_left).trans h.upcoming_eq
  queue := by
    rw [queue_compact h.policy_ne_left]
    exact List.filter_sublist.trans h.queue

theorem erase (h : v.Trails w) (s : State) : (v.erase s).Trails (w.erase s) where
  policy_eq := h.policy_eq
  policy_ne := h.policy_ne
  members_eq := by
    show v.members.filter (·.state != s) = w.members.filter (·.state != s)
    rw [h.members_eq]
  upcoming_eq := by
    rw [upcoming_erase h.policy_ne_left, upcoming_erase h.policy_ne, h.upcoming_eq]
  queue := by
    show (v.queueWithout s).Sublist (w.queueWithout s)
    rw [queueWithout_of_ne h.policy_ne_left, queueWithout_of_ne h.policy_ne]
    exact h.queue

theorem pick (h : v.Trails w) : v.pick.1 = w.pick.1 ∧ v.pick.2.Trails w.pick.2 := by
  have hpicked : v.pick.1 = w.pick.1 := by
    rw [pick_eq_head?_upcoming h.policy_ne_left, pick_eq_head?_upcoming h.policy_ne, h.upcoming_eq]
  have hpolicy : v.pick.2.policy = w.pick.2.policy := by
    rw [policy_pick, policy_pick, h.policy_eq]
  have hne : w.pick.2.policy ≠ .priority := policy_pick w ▸ h.policy_ne
  -- From here on both picks are the first live entry, which the upcoming members determine.
  rw [pick_of_ne h.policy_ne_left, pick_of_ne h.policy_ne] at hpicked hpolicy ⊢
  rw [pick_of_ne h.policy_ne] at hne
  have hqueue (u : Worklist) : u.pickLive.2.queue = (nextLive u.members u.queue).2 := by
    rcases pickLive_cases u with ⟨n, after, hnext, hpick⟩ | ⟨hnext, hpick⟩
    · rw [hpick, hnext]
    · rw [hpick, hnext]
  have hsublist : v.pickLive.2.queue.Sublist w.pickLive.2.queue := by
    rw [hqueue, hqueue, h.members_eq]
    exact sublist_nextLive h.queue
  have hsame : v.pickLive.2.members = w.pickLive.2.members ∧
      v.pickLive.2.upcoming = w.pickLive.2.upcoming := by
    cases hw : w.pickLive.1 with
    | none =>
        obtain ⟨hvup, hvmembers⟩ := pickLive_of_none (hpicked.trans hw)
        obtain ⟨hwup, hwmembers⟩ := pickLive_of_none hw
        exact ⟨by rw [hvmembers, hwmembers, h.members_eq], by rw [hvup, hwup]⟩
    | some n =>
        obtain ⟨hvup, hvmembers⟩ := upcoming_pickLive (hpicked.trans hw)
        obtain ⟨hwup, hwmembers⟩ := upcoming_pickLive hw
        exact ⟨by rw [hvmembers, hwmembers, h.members_eq], by rw [hvup, hwup, h.upcoming_eq]⟩
  exact ⟨hpicked, hpolicy, hne, hsame.1, hsame.2, hsublist⟩

/-- Adding a node to both, if no stale entry of it comes to life or that does not matter. -/
theorem insert (h : v.Trails w)
    (hn : w.policy = .lifo ∨ w.contains n.state = true ∨ n ∉ w.queue) :
    (v.insert n).Trails (w.insert n) := by
  by_cases hold : w.contains n.state = true
  · have hv : v.insert n = v := if_pos ((h.contains_eq _).trans hold)
    have hw : w.insert n = w := if_pos hold
    rw [hv, hw]
    exact h
  · have hnew : w.contains n.state = false := by simpa using hold
    have hnewv : v.contains n.state = false := (h.contains_eq _).trans hnew
    have hw : w.insert n = ⟨w.policy, w.policy.enqueue n w.queue, n :: w.members⟩ := if_neg hold
    have hv : v.insert n = ⟨v.policy, v.policy.enqueue n v.queue, n :: v.members⟩ :=
      if_neg (by simp [hnewv])
    have hstale : w.policy = .lifo ∨ n ∉ w.queue := hn.imp_right fun hn => hn.resolve_left hold
    have hstalev : v.policy = .lifo ∨ n ∉ v.queue :=
      hstale.imp (h.policy_eq.trans ·) fun hqueue hmem => hqueue (h.queue.subset hmem)
    refine ⟨?_, ?_, ?_, ?_, ?_⟩
    · rw [hv, hw]
      exact h.policy_eq
    · rw [hw]
      exact h.policy_ne
    · rw [hv, hw, h.members_eq]
    · rw [upcoming_insert h.policy_ne_left hnewv hstalev, upcoming_insert h.policy_ne hnew hstale,
        h.policy_eq, h.upcoming_eq]
    · rw [hv, hw, h.policy_eq]
      cases hpolicy : w.policy with
      | lifo => exact h.queue.cons_cons n
      | fifo => exact h.queue.append (List.Sublist.refl [n])
      | priority => exact absurd hpolicy h.policy_ne

/-- The worklists give the same answer. -/
theorem answer?_eq (h : v.Trails w) (r : Request) : v.answer? r = w.answer? r := by
  cases r with
  | contains s => simp only [answer?, h.contains_eq]
  | size => simp only [answer?, size, h.members_eq]
  | call c =>
      cases c with
      | add n => simp only [answer?, perform, add, Prod.map_fst, h.contains_eq]
      | remove s => simp only [answer?, perform, remove, Prod.map_fst, h.contains_eq]
      | pick => simp only [answer?, perform, h.pick.1]
      | compact => rfl

/-- What a request other than compaction does to both. -/
theorem after (h : v.Trails w)
    (hrevives : w.policy = .lifo ∨ w.revives r = false) (hr : r.isCompaction = false) :
    (v.after r).Trails (w.after r) := by
  cases r with
  | contains s => exact h
  | size => exact h
  | call c =>
      cases c with
      | add n =>
          refine h.insert (hrevives.imp_right fun hrevives => ?_)
          cases hold : w.contains n.state with
          | true => exact Or.inl rfl
          | false => exact Or.inr (by simpa [revives, hold] using hrevives)
      | remove s => exact h.erase s
      | pick => exact h.pick.2
      | compact => exact absurd hr (by decide)

/-- The worklist that is compacted on the way answers like the one that is not. -/
theorem answers_eq (h : v.Trails w)
    (hrevives : w.policy = .lifo ∨ w.revivesNone (withoutCompaction rs) = true) :
    v.answers rs = w.answers (withoutCompaction rs) := by
  induction rs generalizing v w with
  | nil => rfl
  | cons r rs ih =>
      cases hr : r.isCompaction with
      | true =>
          have hdropped : withoutCompaction (r :: rs) = withoutCompaction rs :=
            List.filter_cons_of_neg (by simp [hr])
          have hcompact : v.answer? r = none ∧ v.after r = v.compact := by
            unfold Request.isCompaction at hr
            split at hr
            · exact ⟨rfl, rfl⟩
            · exact absurd hr (by decide)
          rw [hdropped] at hrevives ⊢
          rw [answers, hcompact.1, hcompact.2]
          exact ih h.compact hrevives
      | false =>
          have hkept : withoutCompaction (r :: rs) = r :: withoutCompaction rs :=
            List.filter_cons_of_pos (by simp [hr])
          rw [hkept, revivesNone, Bool.and_eq_true, Bool.not_eq_true'] at hrevives
          have hafter := h.after (hrevives.imp_right And.left) hr
          rw [hkept, answers, answers, h.answer?_eq, ih hafter ?_]
          exact hrevives.imp ((policy_after w r).trans ·) And.right

end Trails

/-! ## What shows a stale entry -/

/-- Requests that remove the states of some nodes and then add two others. -/
def refill (members : List Node) (first second : Node) : List Request :=
  members.map (fun m => .call (.remove m.state)) ++ [.call (.add first), .call (.add second)]

theorem afterAll_remove (hp : w.policy ≠ .priority) (nodes : List Node)
    (h : ∀ m ∈ w.members, m ∈ nodes) :
    w.afterAll (nodes.map fun m => .call (.remove m.state)) = { w with members := [] } := by
  induction nodes generalizing w with
  | nil =>
      have hmembers : w.members = [] :=
        List.eq_nil_iff_forall_not_mem.2 fun m hm => List.not_mem_nil (h m hm)
      show w = { w with members := [] }
      rw [← hmembers]
  | cons k nodes ih =>
      have hrest : ∀ m ∈ (w.erase k.state).members, m ∈ nodes := by
        intro m hm
        obtain ⟨hm, hne⟩ := List.mem_filter.1 hm
        refine (List.mem_cons.1 (h m hm)).resolve_left fun hmk => ?_
        simp [hmk] at hne
      have herase : { w.erase k.state with members := [] } = { w with members := [] } := by
        rw [erase, queueWithout_of_ne hp]
      exact (ih (w := w.erase k.state) hp hrest).trans herase

/-- What is left of a worklist whose members make room for two others is its queue. -/
theorem pick_refill (hp : w.policy = .fifo) (hstate : x.state ≠ y.state) :
    (w.afterAll (refill w.members y x)).pick.1 =
      (w.queue.filter (· ∈ [x, y]) ++ [y, x]).head? := by
  have hempty := afterAll_remove (by rw [hp]; decide) w.members fun _ hm => hm
  have hy : (⟨.fifo, w.queue, []⟩ : Worklist).insert y = ⟨.fifo, w.queue ++ [y], [y]⟩ := rfl
  have hx : (⟨.fifo, w.queue ++ [y], [y]⟩ : Worklist).insert x =
      ⟨.fifo, w.queue ++ [y] ++ [x], [x, y]⟩ := by
    rw [insert, if_neg]
    · rfl
    · simp [contains, Ne.symm hstate]
  have hafter : w.afterAll (refill w.members y x) = ⟨.fifo, w.queue ++ [y] ++ [x], [x, y]⟩ := by
    rw [afterAll] at hempty
    rw [refill, afterAll, List.foldl_append, hempty, hp, ← hx, ← hy]
    rfl
  rw [hafter, pick_of_ne (by simp), pickLive_eq_head?, liveQueue]
  simp

/-- There is a node with another state that is not in a queue. -/
theorem exists_other (x : Node) (queue : List Node) : ∃ y, y ∉ queue ∧ x.state ≠ y.state := by
  obtain ⟨id, hid⟩ := Infinite.exists_notMem_finset (queue.map Node.id).toFinset
  refine ⟨⟨id, x.location, .location x.location :: x.state.components⟩, fun hmem => ?_, ?_⟩
  · exact hid (List.mem_toFinset.2 (List.mem_map.2 ⟨_, hmem, rfl⟩))
  · intro hstate
    have hcomponents := congrArg (fun s : State => s.components.length) hstate
    simp at hcomponents

/-- If the oldest is picked first, a stale entry is seen later by some requests: its node, added
    again after another one, is picked before that one. -/
theorem exists_answers_ne (hp : w.policy = .fifo) (hx : x ∈ w.queue) (hstale : x ∉ w.members) :
    ∃ later, w.compact.answers later ≠ w.answers later := by
  obtain ⟨y, hy, hstate⟩ := exists_other x w.queue
  have hyx : y ≠ x := fun h => hstate (congrArg Node.state h.symm)
  -- In the whole queue the stale entry comes first.
  have hrevived : (w.afterAll (refill w.members y x)).pick.1 = some x := by
    rw [pick_refill hp hstate]
    cases hlive : w.queue.filter (· ∈ [x, y]) with
    | nil =>
        have hmem : x ∈ w.queue.filter (· ∈ [x, y]) := List.mem_filter.2 ⟨hx, by simp⟩
        rw [hlive] at hmem
        exact absurd hmem List.not_mem_nil
    | cons k rest =>
        have hk : k ∈ w.queue.filter (· ∈ [x, y]) := hlive ▸ List.mem_cons_self
        obtain ⟨hqueue, hk⟩ := List.mem_filter.1 hk
        have hky : k ≠ y := fun h => hy (h ▸ hqueue)
        have hkx : k = x := by simpa [hky] using hk
        rw [hkx, List.cons_append, List.head?_cons]
  -- Without it the two nodes come up in the order in which they were added.
  have hinTurn : (w.compact.afterAll (refill w.members y x)).pick.1 = some y := by
    have hdropped : w.compact.queue.filter (· ∈ [x, y]) = [] := by
      rw [queue_compact (by rw [hp]; decide)]
      refine List.filter_eq_nil_iff.2 fun k hk => ?_
      obtain ⟨hqueue, hlive⟩ := List.mem_filter.1 hk
      have hky : k ≠ y := fun h => hy (h ▸ hqueue)
      have hkx : k ≠ x := fun h => hstale (h ▸ of_decide_eq_true hlive)
      simp [hky, hkx]
    have hpick := pick_refill (w := w.compact) hp hstate
    rw [hdropped] at hpick
    exact hpick
  by_contra hsame
  have hsame : ∀ later, w.compact.answers later = w.answers later := by
    simpa using hsame
  have hpick := hsame (refill w.members y x ++ [.call .pick])
  rw [answers_append, answers_append, hsame, List.append_cancel_left_eq] at hpick
  simp only [answers, answer?, perform, hrevived, hinTurn] at hpick
  simp [hyx] at hpick

/-! ## Every sequence of requests -/

theorem policy_afterAll (w : Worklist) (rs : List Request) : (w.afterAll rs).policy = w.policy := by
  induction rs generalizing w with
  | nil => rfl
  | cons r rs ih => exact (ih (w.after r)).trans (policy_after w r)

/-- What can be seen of compaction.  If the newest is picked first, compactions at any places among
    the requests to a new worklist change no answer.  If the oldest is picked first, they change
    none as long as no node is added again while a stale entry of it is still in the queue.  Without
    that they can: a compaction goes unnoticed whatever comes later exactly if the queue has no
    stale entry. -/
theorem compaction_unobservable (rs : List Request) :
    (empty .lifo).answers rs = (empty .lifo).answers (withoutCompaction rs) ∧
      ((empty .fifo).revivesNone (withoutCompaction rs) = true →
        (empty .fifo).answers rs = (empty .fifo).answers (withoutCompaction rs)) ∧
      ((∀ later, ((empty .fifo).afterAll rs).compact.answers later =
          ((empty .fifo).afterAll rs).answers later) ↔
        ∀ n ∈ ((empty .fifo).afterAll rs).queue, n ∈ ((empty .fifo).afterAll rs).members) := by
  refine ⟨?_, fun hrevives => ?_, fun hsame n hn => ?_, fun hlive later => ?_⟩
  · exact (Trails.refl (by decide)).answers_eq (Or.inl rfl)
  · exact (Trails.refl (by decide)).answers_eq (Or.inr hrevives)
  · by_contra hstale
    obtain ⟨later, hlater⟩ := exists_answers_ne (policy_afterAll _ rs) hn hstale
    exact hlater (hsame later)
  · rw [compact_eq_self hlive]

/-- The older of two states is removed, and after a compaction an equal one with the given identity
    is added. -/
def comesBackAs (id : Nat) : List Request :=
  [.call (.add (pendingAt 0 1)), .call (.add (pendingAt 1 2)),
    .call (.remove (pendingAt 0 1).state), .call .compact, .call (.add (pendingAt id 1)), .size,
    .contains (pendingAt 0 1).state, .call .pick]

/-- With a new identity the state takes its turn again, compacted or not. -/
theorem compaction_unobservable_comesBackAs :
    (empty .fifo).revivesNone (withoutCompaction (comesBackAs 2)) = true ∧
      (empty .fifo).answers (comesBackAs 2) =
        (empty .fifo).answers (withoutCompaction (comesBackAs 2)) ∧
      .reply (.picked (some (pendingAt 1 2))) ∈ (empty .fifo).answers (comesBackAs 2) := by
  have hrevives : (empty .fifo).revivesNone (withoutCompaction (comesBackAs 2)) = true := by decide
  exact ⟨hrevives, (compaction_unobservable (comesBackAs 2)).2.1 hrevives, by decide⟩

/-- With the identity that was removed, the state that came back is picked last after a compaction
    and first without it. -/
theorem returning_node_keeps_place :
    ((empty .fifo).answers (comesBackAs 0)).getLast? =
        some (.reply (.picked (some (pendingAt 1 2)))) ∧
      ((empty .fifo).answers (withoutCompaction (comesBackAs 0))).getLast? =
        some (.reply (.picked (some (pendingAt 0 1)))) := by
  decide

end Worklist

end CodeReach
