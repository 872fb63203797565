/-
  CodeReach.Proofs.Explore.TreeWalk

  The two walks over a reachability tree: up from an entry to a root, and down from the
  root level by level.  As loops they have no bound of their own.  `Climbs` and `Walks` say
  what such a loop does until it stops, and both stop on every tree that calls can build
  (`Built`): a parent is older than its children, and since an entry has one parent and
  the root has none, no entry comes into the queue twice.

  With one root and without repeated identities the tree is a tree in the usual sense: the
  walk down meets every inserted node once, the shallow ones first, and a path stays what
  it was when its node was inserted.
-/
import CodeReach.Proofs.Explore.Tree
import Mathlib.Data.List.Perm.Subperm

namespace CodeReach

namespace Tree

variable {t : Tree} {entries older : List TreeEntry} {c : TreeEntry} {i j : Nat} {n : Node}
  {e : Edge} {queue out visited : List Nat}

/-! ## Calls -/

/-- A call on a tree. -/
inductive Call where
  | setRoot (n : Node)
  | addChild (parent : Node) (e : Edge) (child : Node)

/-- The node that a call is to insert. -/
def Call.node : Call → Node
  | .setRoot n => n
  | .addChild _ _ child => child

/-- Whether the call is accepted, and the tree after it. -/
def perform (t : Tree) : Call → Bool × Tree
  | .setRoot n => (true, t.setRoot n)
  | .addChild parent e child => (t.addChild parent e child).map Option.isSome id

/-- The tree after a sequence of calls. -/
def after (t : Tree) (calls : List Call) : Tree :=
  calls.foldl (fun t c => (t.perform c).2) t

/-- The nodes that a sequence of calls inserts. -/
def inserted : Tree → List Call → List Node
  | _, [] => []
  | t, c :: calls =>
    if (t.perform c).1 then c.node :: inserted (t.perform c).2 calls
    else inserted (t.perform c).2 calls

theorem attach_entries {child : Node} :
    (t.attach i e child).entries = ⟨child, some (i, e)⟩ :: t.entries :=
  rfl

/-- What a call can do: a new root, a new entry below another one, or nothing at all. -/
theorem perform_cases (t : Tree) (c : Call) :
    (∃ n, c = .setRoot n ∧ t.perform c = (true, t.setRoot n)) ∨
    (∃ parent e child i, c = .addChild parent e child ∧ t.position? parent = some i ∧
      t.perform c = (true, t.attach i e child)) ∨
    (∃ parent e child, c = .addChild parent e child ∧ t.position? parent = none ∧
      t.perform c = (false, t)) := by
  cases c with
  | setRoot n => exact Or.inl ⟨n, rfl, rfl⟩
  | addChild parent e child =>
      cases hparent : t.position? parent with
      | none =>
          have hperform : t.perform (.addChild parent e child) = (false, t) := by
            simp [perform, addChild, hparent]
          exact Or.inr (Or.inr ⟨parent, e, child, rfl, hparent, hperform⟩)
      | some i =>
          have hperform : t.perform (.addChild parent e child) = (true, t.attach i e child) := by
            simp [perform, addChild, hparent]
          exact Or.inr (Or.inl ⟨parent, e, child, i, rfl, hparent, hperform⟩)

/-- A call is rejected if it names a parent that has no entry. -/
theorem perform_eq_false_iff (t : Tree) (call : Call) : (t.perform call).1 = false ↔
    ∃ parent e child, call = .addChild parent e child ∧ t.contains parent = false := by
  rcases perform_cases t call with ⟨n, rfl, h⟩ | ⟨parent, e, child, i, rfl, hi, h⟩ |
    ⟨parent, e, child, rfl, hi, h⟩
  · simp [h]
  · have hparent : t.contains parent = true := by rw [contains, hi, Option.isSome_some]
    rw [h]
    constructor
    · exact fun hfalse => absurd hfalse (by simp)
    · rintro ⟨_, _, _, ⟨⟩, hnone⟩
      exact absurd (hparent.symm.trans hnone) (by simp)
  · have hparent : t.contains parent = false := by rw [contains, hi, Option.isSome_none]
    rw [h]
    exact ⟨fun _ => ⟨parent, e, child, rfl, hparent⟩, fun _ => rfl⟩

theorem perform_of_rejected {call : Call} (h : (t.perform call).1 = false) :
    (t.perform call).2 = t := by
  rcases perform_cases t call with ⟨n, -, hperform⟩ | ⟨_, _, _, _, -, -, hperform⟩ |
    ⟨_, _, _, -, -, hperform⟩
  · rw [hperform] at h
    exact absurd h (by simp)
  · rw [hperform] at h
    exact absurd h (by simp)
  · rw [hperform]

theorem after_append (t : Tree) (before later : List Call) :
    t.after (before ++ later) = (t.after before).after later :=
  List.foldl_append

theorem map_node_after (t : Tree) (calls : List Call) :
    (t.after calls).entries.map TreeEntry.node =
      (t.inserted calls).reverse ++ t.entries.map TreeEntry.node := by
  induction calls generalizing t with
  | nil => rfl
  | cons c calls ih =>
      have hafter : t.after (c :: calls) = (t.perform c).2.after calls := rfl
      rw [hafter, ih, inserted]
      rcases perform_cases t c with ⟨n, rfl, h⟩ | ⟨parent, e, child, i, rfl, -, h⟩ |
        ⟨parent, e, child, rfl, -, h⟩
      · rw [h]
        simp [Call.node, setRoot]
      · rw [h]
        simp [Call.node, attach_entries]
      · rw [h]
        simp

/-! ## Trees that calls build -/

/-- Parents are older than their children, and the root has no parent. -/
structure Built (t : Tree) : Prop where
  linked : t.Linked fun _ _ _ => True
  root : ∀ i, t.root = some i → ∃ c, entryAt? t.entries i = some c ∧ c.parent = none

theorem built_empty : empty.Built where
  linked := by
    intro j c i e hc
    exact absurd hc (by simp [entryAt?, empty])
  root := by
    intro i hi
    exact absurd hi (by simp [empty])

theorem Built.perform (h : t.Built) (c : Call) : (t.perform c).2.Built := by
  rcases perform_cases t c with ⟨n, rfl, hperform⟩ | ⟨parent, e, child, i, rfl, hi, hperform⟩ |
    ⟨parent, e, child, rfl, -, hperform⟩
  · rw [hperform]
    refine ⟨h.linked.cons rfl fun i e hparent => absurd hparent (by simp), fun i hi => ?_⟩
    obtain rfl := Option.some.inj hi
    refine ⟨⟨n, none⟩, ?_, rfl⟩
    show entryAt? (_ :: t.entries) t.entries.length = _
    rw [entryAt?_cons, if_pos rfl]
  · rw [hperform]
    obtain ⟨d, hd, -⟩ := entryAt?_of_position? hi
    refine ⟨h.linked.cons rfl fun k edge hparent => ?_, fun k hk => ?_⟩
    · obtain ⟨rfl, -⟩ := Prod.mk.inj (Option.some.inj hparent)
      exact ⟨d, hd, trivial⟩
    · obtain ⟨c, hc, hnone⟩ := h.root k hk
      exact ⟨c, entryAt?_cons_of_some hc, hnone⟩
  · rw [hperform]
    exact h

theorem Built.after (h : t.Built) (calls : List Call) : (t.after calls).Built :=
  List.foldlRecOn calls _ h fun _ hbuilt c _ => hbuilt.perform c

/-! ## Up to a root -/

/-- From the entry at a position, the way from parent to parent ends at a root, and the edges on it
    are these, the one at the root first. -/
inductive Climbs (t : Tree) : Nat → List Edge → Prop where
  | root {i : Nat} {c : TreeEntry} (hc : entryAt? t.entries i = some c) (hroot : c.parent = none) :
      Climbs t i []
  | step {i k : Nat} {c : TreeEntry} {e : Edge} {path : List Edge}
      (hc : entryAt? t.entries i = some c) (hparent : c.parent = some (k, e))
      (hclimb : Climbs t k path) : Climbs t i (path ++ [e])

theorem Built.pathIn_of_parent {k : Nat} (h : t.Built) (hc : entryAt? t.entries i = some c)
    (hparent : c.parent = some (k, e)) : pathIn t.entries i = pathIn t.entries k ++ [e] := by
  have hpath := pathIn_eq hc fun k e hlink => (h.linked i c k e hc hlink).1
  rw [hparent] at hpath
  exact hpath

theorem Built.pathIn_of_root (h : t.Built) (hc : entryAt? t.entries i = some c)
    (hparent : c.parent = none) : pathIn t.entries i = [] := by
  have hpath := pathIn_eq hc fun k e hlink => (h.linked i c k e hc hlink).1
  rw [hparent] at hpath
  exact hpath

/-- The way up ends, because each parent is older. -/
theorem Built.climbs (h : t.Built) (hc : entryAt? t.entries i = some c) :
    t.Climbs i (pathIn t.entries i) := by
  induction i using Nat.strongRecOn generalizing c with
  | ind i ih =>
      cases hparent : c.parent with
      | none =>
          rw [h.pathIn_of_root hc hparent]
          exact .root hc hparent
      | some link =>
          obtain ⟨k, e⟩ := link
          obtain ⟨hlt, d, hd, -⟩ := h.linked i c k e hc hparent
          rw [h.pathIn_of_parent hc hparent]
          exact .step hc hparent (ih k hlt hd)

/-! ## Down from the root -/

theorem mem_below : j ∈ t.below i ↔
    ∃ c e, entryAt? t.entries j = some c ∧ c.parent = some (i, e) := by
  simp only [below, List.mem_map]
  constructor
  · rintro ⟨⟨e, k⟩, hbranch, rfl⟩
    obtain ⟨c, hc, hparent⟩ := mem_branches.1 hbranch
    exact ⟨c, e, hc, hparent⟩
  · rintro ⟨c, e, hc, hparent⟩
    exact ⟨(e, j), mem_branches.2 ⟨c, hc, hparent⟩, rfl⟩

/-- What was reached from a position is listed in the order in which it was recorded. -/
theorem pairwise_below (t : Tree) (i : Nat) : (t.below i).Pairwise (· < ·) := by
  rw [below, t.branches_eq]
  generalize t.entries = entries
  induction entries with
  | nil => exact List.Pairwise.nil
  | cons c older ih =>
      rw [linksFrom]
      split
      · split
        · rw [List.map_append]
          refine List.pairwise_append.2 ⟨ih, List.pairwise_singleton _ _, fun j hj k hk => ?_⟩
          obtain ⟨⟨e, _⟩, hlink, rfl⟩ := List.mem_map.1 hj
          obtain ⟨d, hd, -⟩ := mem_linksFrom.1 hlink
          rw [List.mem_singleton.1 hk]
          exact lt_of_entryAt? hd
        · exact ih
      · exact ih

theorem nodup_below (t : Tree) (i : Nat) : (t.below i).Nodup :=
  (t.pairwise_below i).imp fun hlt => Nat.ne_of_lt hlt

/-- Taking the first position from the queue and putting those below it at the end, until the queue
    is empty, visits these positions. -/
inductive Walks (t : Tree) : List Nat → List Nat → Prop where
  | done : Walks t [] []
  | visit {i : Nat} {queue out : List Nat} (hrest : Walks t (queue ++ t.below i) out) :
      Walks t (i :: queue) (i :: out)

/-- A walk on its way: no position is visited or queued twice, and the parents of all of them are
    visited. -/
structure Underway (t : Tree) (visited queue : List Nat) : Prop where
  nodup : (visited ++ queue).Nodup
  lt_size : ∀ j ∈ visited ++ queue, j < t.size
  parents : ∀ j ∈ visited ++ queue, ∀ c i e, entryAt? t.entries j = some c →
    c.parent = some (i, e) → i ∈ visited

theorem Built.underway (h : t.Built) : t.Underway [] t.root.toList := by
  cases hroot : t.root with
  | none =>
      exact ⟨List.nodup_nil, fun j hj => absurd hj List.not_mem_nil,
        fun j hj => absurd hj List.not_mem_nil⟩
  | some r =>
      obtain ⟨d, hd, hnone⟩ := h.root r hroot
      refine ⟨List.nodup_singleton r, fun j hj => ?_, fun j hj c i e hc hparent => ?_⟩
      · rw [List.mem_singleton.1 hj]
        exact lt_of_entryAt? hd
      · obtain rfl := List.mem_singleton.1 hj
        rw [Option.some.inj (hd.symm.trans hc), hparent] at hnone
        exact absurd hnone (by simp)

namespace Underway

/-- One visit: what is below the position is new. -/
theorem visit (h : t.Underway visited (i :: queue)) :
    t.Underway (visited ++ [i]) (queue ++ t.below i) := by
  have hsplit : visited ++ [i] ++ (queue ++ t.below i) = visited ++ i :: queue ++ t.below i := by
    simp
  have hfresh : i ∉ visited := fun hi =>
    (List.nodup_append.1 h.nodup).2.2 i hi i List.mem_cons_self rfl
  refine ⟨?_, fun j hj => ?_, fun j hj c k e hc hparent => ?_⟩
  · rw [hsplit]
    refine List.nodup_append.2 ⟨h.nodup, t.nodup_below i, ?_⟩
    rintro j hj _ hbelow rfl
    obtain ⟨c, e, hc, hparent⟩ := mem_below.1 hbelow
    exact hfresh (h.parents j hj c i e hc hparent)
  · rw [hsplit, List.mem_append] at hj
    rcases hj with hj | hj
    · exact h.lt_size j hj
    · obtain ⟨c, -, hc, -⟩ := mem_below.1 hj
      exact lt_of_entryAt? hc
  · rw [hsplit, List.mem_append] at hj
    rw [List.mem_append, List.mem_singleton]
    rcases hj with hj | hj
    · exact Or.inl (h.parents j hj c k e hc hparent)
    · obtain ⟨d, edge, hd, hlink⟩ := mem_below.1 hj
      rw [Option.some.inj (hc.symm.trans hd), hlink] at hparent
      exact Or.inr (Prod.mk.inj (Option.some.inj hparent)).1.symm

theorem length_le (h : t.Underway visited queue) : visited.length + queue.length ≤ t.size := by
  have hsub : visited ++ queue ⊆ List.range t.size := fun j hj => List.mem_range.2 (h.lt_size j hj)
  have hlength := (List.subperm_of_subset h.nodup hsub).length_le
  rw [List.length_append, List.length_range] at hlength
  exact hlength

/-- As many steps as there are entries are enough for the queue to run empty. -/
theorem walks {steps : Nat} (h : t.Underway visited queue)
    (hsteps : t.size ≤ visited.length + steps) : t.Walks queue (t.walk steps queue) := by
  induction steps generalizing visited queue with
  | zero =>
      have hlength := h.length_le
      obtain rfl : queue = [] := List.length_eq_zero_iff.1 (by omega)
      exact .done
  | succ steps ih =>
      cases queue with
      | nil => exact .done
      | cons i queue =>
          refine .visit (ih h.visit ?_)
          rw [List.length_append, List.length_singleton]
          omega

/-- No position is visited twice. -/
theorem nodup_of_walks (h : t.Underway visited queue) (hwalk : t.Walks queue out) :
    (visited ++ out).Nodup ∧ ∀ j ∈ out, j < t.size := by
  induction hwalk generalizing visited with
  | done => exact ⟨h.nodup, fun j hj => absurd hj List.not_mem_nil⟩
  | @visit i queue out _ ih =>
      obtain ⟨hnodup, hlt⟩ := ih h.visit
      rw [List.append_assoc] at hnodup
      refine ⟨hnodup, List.forall_mem_cons.2 ⟨h.lt_size i ?_, hlt⟩⟩
      exact List.mem_append_right _ List.mem_cons_self

end Underway

namespace Walks

/-- The walk visits what is in the queue, and what is below a position that it visits. -/
theorem closed (h : t.Walks queue out) :
    (∀ j ∈ queue, j ∈ out) ∧ ∀ i ∈ out, ∀ j ∈ t.below i, j ∈ out := by
  induction h with
  | done => exact ⟨fun _ hj => hj, fun _ hi => absurd hi List.not_mem_nil⟩
  | @visit i queue out _ ih =>
      obtain ⟨hqueue, hbelow⟩ := ih
      refine ⟨List.forall_mem_cons.2 ⟨List.mem_cons_self, fun j hj => ?_⟩,
        List.forall_mem_cons.2 ⟨fun j hj => ?_, fun k hk j hj => ?_⟩⟩
      · exact List.mem_cons_of_mem _ (hqueue j (List.mem_append_left _ hj))
      · exact List.mem_cons_of_mem _ (hqueue j (List.mem_append_right _ hj))
      · exact List.mem_cons_of_mem _ (hbelow k hk j hj)

end Walks

/-! ## Level by level -/

/-- The number of edges from a root to the entry at a position. -/
def depth (t : Tree) (i : Nat) : Nat :=
  (pathIn t.entries i).length

theorem Built.depth_of_mem_below (h : t.Built) (hj : j ∈ t.below i) :
    t.depth j = t.depth i + 1 := by
  obtain ⟨c, e, hc, hparent⟩ := mem_below.1 hj
  rw [depth, h.pathIn_of_parent hc hparent, List.length_append, List.length_singleton, depth]

/-- The shallow positions come first in the queue, and all are on at most two levels. -/
structure Leveled (t : Tree) (queue : List Nat) : Prop where
  ascending : queue.Pairwise fun i j => t.depth i ≤ t.depth j
  spread : ∀ i ∈ queue, ∀ j ∈ queue, t.depth j ≤ t.depth i + 1

theorem Leveled.visit (h : t.Leveled (i :: queue)) (ht : t.Built) :
    t.Leveled (queue ++ t.below i) := by
  obtain ⟨hfirst, hqueue⟩ := List.pairwise_cons.1 h.ascending
  have hdepth : ∀ j ∈ t.below i, t.depth j = t.depth i + 1 := fun j => ht.depth_of_mem_below
  have hlast : ∀ j ∈ queue, t.depth j ≤ t.depth i + 1 := fun j hj =>
    h.spread i List.mem_cons_self j (List.mem_cons_of_mem _ hj)
  refine ⟨List.pairwise_append.2 ⟨hqueue, ?_, fun j hj k hk => ?_⟩, fun j hj k hk => ?_⟩
  · refine List.pairwise_of_forall_mem_list fun j hj k hk => ?_
    exact Nat.le_of_eq ((hdepth j hj).trans (hdepth k hk).symm)
  · rw [hdepth k hk]
    exact hlast j hj
  · rcases List.mem_append.1 hj with hj | hj <;> rcases List.mem_append.1 hk with hk | hk
    · exact h.spread j (List.mem_cons_of_mem _ hj) k (List.mem_cons_of_mem _ hk)
    · have hle := hfirst j hj
      rw [hdepth k hk]
      omega
    · have hle := hlast k hk
      rw [hdepth j hj]
      omega
    · rw [hdepth j hj, hdepth k hk]
      omega

/-- The walk never gets above the queue. -/
theorem Walks.depth_le {d : Nat} (h : t.Walks queue out) (ht : t.Built)
    (hqueue : ∀ j ∈ queue, d ≤ t.depth j) : ∀ j ∈ out, d ≤ t.depth j := by
  induction h with
  | done => exact hqueue
  | @visit i queue out _ ih =>
      obtain ⟨hfirst, hrest⟩ := List.forall_mem_cons.1 hqueue
      refine List.forall_mem_cons.2 ⟨hfirst, ih fun j hj => ?_⟩
      rcases List.mem_append.1 hj with hj | hj
      · exact hrest j hj
      · have hdepth := ht.depth_of_mem_below hj
        omega

/-- The shallow positions are visited first. -/
theorem Walks.ascending (h : t.Walks queue out) (ht : t.Built) (hqueue : t.Leveled queue) :
    out.Pairwise fun i j => t.depth i ≤ t.depth j := by
  induction h with
  | done => exact List.Pairwise.nil
  | @visit i queue out hrest ih =>
      have hvisit := hqueue.visit ht
      refine List.pairwise_cons.2 ⟨hrest.depth_le ht fun j hj => ?_, ih hvisit⟩
      rcases List.mem_append.1 hj with hj | hj
      · exact (List.pairwise_cons.1 hqueue.ascending).1 j hj
      · have hdepth := ht.depth_of_mem_below hj
        omega

/-! ## Identities -/

theorem Distinct.of_after (calls : List Call) (h : (t.after calls).Distinct) : t.Distinct := by
  have hnodes := congrArg (List.map Node.id) (map_node_after t calls)
  rw [List.map_map, List.map_append] at hnodes
  have hids : ((t.after calls).entries.map (Node.id ∘ TreeEntry.node)).Nodup := h
  rw [hnodes, List.map_map] at hids
  exact (List.nodup_append.1 hids).2.1

/-- An entry whose identity no younger one has is found at its own position. -/
theorem findPosition_of_entryAt? (h : (entries.map fun c => c.node.id).Nodup)
    (hc : entryAt? entries i = some c) : findPosition c.node.id entries = some i := by
  induction entries with
  | nil => exact absurd hc (by simp [entryAt?])
  | cons d older ih =>
      obtain ⟨hd, hrest⟩ := List.nodup_cons.1 h
      rw [entryAt?_cons] at hc
      rw [findPosition]
      split at hc
      · rename_i hi
        obtain rfl := Option.some.inj hc
        rw [if_pos rfl, hi]
      · have hmem : c ∈ older := mem_iff_entryAt?.2 ⟨i, hc⟩
        have hid : d.node.id ≠ c.node.id := fun heq => hd (List.mem_map.2 ⟨c, hmem, heq.symm⟩)
        rw [if_neg hid]
        exact ih hrest hc

theorem Distinct.pathTo?_eq (h : t.Distinct) (hc : entryAt? t.entries i = some c) :
    t.pathTo? c.node = some (pathIn t.entries i) := by
  rw [pathTo?, position?_eq, findPosition_of_entryAt? h hc, Option.map_some]

theorem pathTo?_cons {t' : Tree} (hentries : t'.entries = c :: t.entries)
    (hid : c.node.id ≠ n.id) : t'.pathTo? n = t.pathTo? n := by
  rw [pathTo?, pathTo?, position?_eq, position?_eq, hentries, findPosition, if_neg hid]
  cases hi : findPosition n.id t.entries with
  | none => rfl
  | some i =>
      obtain ⟨d, hd, -⟩ := entryAt?_of_findPosition hi
      have hlt := lt_of_entryAt? hd
      rw [Option.map_some, Option.map_some, pathIn, if_neg (by omega)]

theorem contains_iff : t.contains n = true ↔ ∃ c ∈ t.entries, c.node.id = n.id := by
  rw [contains, position?_eq, findPosition_isSome]

theorem contains_of_pathTo? {path : List Edge} (h : t.pathTo? n = some path) :
    t.contains n = true := by
  rw [contains_iff, ← pathTo?_isSome, h, Option.isSome_some]

theorem contains_perform (h : t.contains n = true) (c : Call) :
    (t.perform c).2.contains n = true := by
  obtain ⟨d, hd, hid⟩ := contains_iff.1 h
  refine contains_iff.2 ⟨d, ?_, hid⟩
  rcases perform_cases t c with ⟨m, rfl, hperform⟩ | ⟨parent, e, child, i, rfl, -, hperform⟩ |
    ⟨parent, e, child, rfl, -, hperform⟩
  · rw [hperform]
    exact List.mem_cons_of_mem _ hd
  · rw [hperform]
    exact List.mem_cons_of_mem _ hd
  · rw [hperform]
    exact hd

/-- A call that repeats no identity leaves the paths as they are. -/
theorem pathTo?_perform {call : Call} (hdistinct : (t.perform call).2.Distinct)
    (hn : t.contains n = true) : (t.perform call).2.pathTo? n = t.pathTo? n := by
  obtain ⟨d, hd, hid⟩ := contains_iff.1 hn
  -- The identity of a new entry is not among the older ones.
  have hnew : ∀ c : TreeEntry, ((c :: t.entries).map fun b => b.node.id).Nodup →
      c.node.id ≠ n.id := by
    intro c h heq
    exact (List.nodup_cons.1 h).1 (List.mem_map.2 ⟨d, hd, hid.trans heq.symm⟩)
  rcases perform_cases t call with ⟨m, rfl, h⟩ | ⟨parent, e, child, i, rfl, -, h⟩ |
    ⟨parent, e, child, rfl, -, h⟩
  · rw [h] at hdistinct ⊢
    exact pathTo?_cons rfl (hnew _ hdistinct)
  · rw [h] at hdistinct ⊢
    exact pathTo?_cons rfl (hnew _ hdistinct)
  · rw [h]

theorem pathTo?_after {calls : List Call} (hdistinct : (t.after calls).Distinct)
    (hn : t.contains n = true) : (t.after calls).pathTo? n = t.pathTo? n := by
  induction calls generalizing t with
  | nil => rfl
  | cons c calls ih =>
      have hperform : (t.perform c).2.Distinct := Distinct.of_after calls hdistinct
      exact (ih hdistinct (contains_perform hn c)).trans (pathTo?_perform hperform hn)

/-- The path to an accepted child goes through its parent. -/
theorem pathTo?_child (ht : t.Built) {parent child : Node}
    (hdistinct : (t.perform (.addChild parent e child)).2.Distinct)
    (haccepted : (t.perform (.addChild parent e child)).1 = true) :
    ∃ path, (t.perform (.addChild parent e child)).2.pathTo? parent = some path ∧
      (t.perform (.addChild parent e child)).2.pathTo? child = some (path ++ [e]) := by
  have hbuilt := ht.perform (.addChild parent e child)
  rcases perform_cases t (.addChild parent e child) with ⟨m, hcall, -⟩ |
    ⟨_, _, _, i, ⟨⟩, hi, h⟩ | ⟨_, _, _, ⟨⟩, -, h⟩
  · exact absurd hcall (by simp)
  · have hparent : t.contains parent = true := by
      rw [contains, hi]
      rfl
    have hold := pathTo?_perform hdistinct hparent
    rw [h] at hdistinct hbuilt hold ⊢
    have hentry : entryAt? (⟨child, some (i, e)⟩ :: t.entries) t.entries.length =
        some ⟨child, some (i, e)⟩ := by rw [entryAt?_cons, if_pos rfl]
    have hpath : t.pathTo? parent = some (pathIn t.entries i) := by
      rw [pathTo?, hi, Option.map_some]
    have hlt : i < t.entries.length := by
      obtain ⟨d, hd, -⟩ := entryAt?_of_position? hi
      exact lt_of_entryAt? hd
    refine ⟨pathIn t.entries i, hold.trans hpath, ?_⟩
    rw [hdistinct.pathTo?_eq hentry, hbuilt.pathIn_of_parent hentry rfl, attach_entries,
      pathIn, if_neg (by omega)]
  · rw [h] at haccepted
    exact absurd haccepted (by simp)

/-! ## One root -/

theorem exists_entryAt? (hi : i < t.size) : ∃ c, entryAt? t.entries i = some c := by
  have hlt : i < t.entries.reverse.length := by rwa [List.length_reverse]
  exact ⟨_, List.getElem?_eq_getElem hlt⟩

/-- The oldest entry is the root, and all others have a parent. -/
structure OneRoot (t : Tree) (root : Node) : Prop where
  built : t.Built
  root_eq : t.root = some 0
  first : entryAt? t.entries 0 = some ⟨root, none⟩
  parent : ∀ i c, entryAt? t.entries i = some c → c.parent = none → i = 0

theorem oneRoot_setRoot (root : Node) : (empty.perform (.setRoot root)).2.OneRoot root where
  built := built_empty.perform _
  root_eq := rfl
  first := rfl
  parent := by
    intro i c hc _
    have hlt : i < 1 := lt_of_entryAt? hc
    omega

theorem OneRoot.perform {root : Node} (h : t.OneRoot root) {call : Call}
    (hcall : ∀ n, call ≠ .setRoot n) : (t.perform call).2.OneRoot root := by
  have hbuilt := h.built.perform call
  rcases perform_cases t call with ⟨m, rfl, -⟩ | ⟨parent, e, child, i, rfl, -, hperform⟩ |
    ⟨parent, e, child, rfl, -, hperform⟩
  · exact absurd rfl (hcall m)
  · rw [hperform] at hbuilt ⊢
    refine ⟨hbuilt, h.root_eq, entryAt?_cons_of_some h.first, fun k c hc hnone => ?_⟩
    rw [attach_entries, entryAt?_cons] at hc
    split at hc
    · rw [← Option.some.inj hc] at hnone
      exact absurd hnone (by simp)
    · exact h.parent k c hc hnone
  · rw [hperform]
    exact h

theorem OneRoot.after {root : Node} (h : t.OneRoot root) {calls : List Call}
    (hcalls : ∀ n, .setRoot n ∉ calls) : (t.after calls).OneRoot root :=
  List.foldlRecOn (motive := fun u : Tree => u.OneRoot root) calls _ h fun _ hone _ hc =>
    hone.perform fun n hcall => hcalls n (hcall ▸ hc)

/-- The walk from the only root visits every position. -/
theorem OneRoot.mem_of_walks {root : Node} (h : t.OneRoot root)
    (hwalk : t.Walks t.root.toList out) (hi : i < t.size) : i ∈ out := by
  obtain ⟨hqueue, hbelow⟩ := hwalk.closed
  induction i using Nat.strongRecOn with
  | ind i ih =>
      obtain ⟨c, hc⟩ := exists_entryAt? hi
      cases hparent : c.parent with
      | none =>
          obtain rfl := h.parent i c hc hparent
          exact hqueue 0 (by simp [h.root_eq])
      | some link =>
          obtain ⟨k, e⟩ := link
          obtain ⟨hlt, -⟩ := h.built.linked i c k e hc hparent
          exact hbelow k (ih k hlt (by omega)) i (mem_below.2 ⟨c, e, hc, hparent⟩)

/-! ## Every sequence of calls -/

theorem nodeAt?_eq (t : Tree) (i : Nat) : t.nodeAt? i = (entryAt? t.entries i).map TreeEntry.node :=
  rfl

/-- The three ways in which a tree says what it holds agree: the parent links, the index of
    identities and the branches. -/
structure Consistent (t : Tree) : Prop where
  /-- A parent is there, and is older than the entry. -/
  parents : ∀ i c k e, entryAt? t.entries i = some c → c.parent = some (k, e) →
    k < i ∧ ∃ d, entryAt? t.entries k = some d
  /-- The index leads to the latest entry with an identity. -/
  index : ∀ id i, t.index[id]? = some i ↔
    (∃ c, entryAt? t.entries i = some c ∧ c.node.id = id) ∧
      ∀ j c, entryAt? t.entries j = some c → c.node.id = id → j ≤ i
  /-- The branches are the parent links, seen from the parent. -/
  branches : ∀ i e j, (e, j) ∈ t.branches.get i ↔
    ∃ c, entryAt? t.entries j = some c ∧ c.parent = some (i, e)
  /-- Each entry is below its parent once, in the order in which they were recorded. -/
  below : ∀ i, (t.below i).Pairwise (· < ·)

/-- Both walks over the tree end. -/
structure Ends (t : Tree) : Prop where
  /-- From an entry the way up ends, and the path is what lies on it. -/
  climbs : ∀ n i, t.position? n = some i → ∃ path, t.Climbs i path ∧ t.pathTo? n = some path
  no_path : ∀ n, t.position? n = none → t.pathTo? n = none
  /-- The way down ends, and the nodes on it are listed. -/
  walks : ∃ out, t.Walks t.root.toList out ∧ out.map t.nodeAt? = t.breadthFirst.map some

/-- The nodes have been inserted into a tree with one root. -/
structure Spans (t : Tree) (root : Node) (nodes : List Node) : Prop where
  breadthFirst_perm : t.breadthFirst.Perm nodes
  paths : ∀ n ∈ nodes, (t.pathTo? n).isSome = true
  /-- The walk down goes level by level. -/
  ascending : t.breadthFirst.Pairwise fun n m =>
    ∀ p ∈ t.pathTo? n, ∀ q ∈ t.pathTo? m, p.length ≤ q.length
  root_path : t.pathTo? root = some []

/-- No younger entry has the identity that is looked for. -/
theorem le_of_findPosition {id : Nat} (hi : findPosition id entries = some i)
    (hc : entryAt? entries j = some c) (hid : c.node.id = id) : j ≤ i := by
  induction entries with
  | nil => exact absurd hi (by simp [findPosition])
  | cons d older ih =>
      have hj := lt_of_entryAt? hc
      rw [List.length_cons] at hj
      rw [findPosition] at hi
      split at hi
      · rw [← Option.some.inj hi]
        omega
      · rename_i hne
        rw [entryAt?_cons] at hc
        split at hc
        · exact absurd (Option.some.inj hc ▸ hid) hne
        · exact ih hi hc

theorem findPosition_eq_some_iff {id : Nat} : findPosition id entries = some i ↔
    (∃ c, entryAt? entries i = some c ∧ c.node.id = id) ∧
      ∀ j c, entryAt? entries j = some c → c.node.id = id → j ≤ i := by
  constructor
  · exact fun hi => ⟨entryAt?_of_findPosition hi, fun _ _ => le_of_findPosition hi⟩
  · rintro ⟨⟨c, hc, hid⟩, hlast⟩
    -- There is an entry with the identity, and both positions are those of the latest.
    obtain ⟨k, hk⟩ := Option.isSome_iff_exists.1
      (findPosition_isSome.2 ⟨c, mem_iff_entryAt?.2 ⟨i, hc⟩, hid⟩)
    obtain ⟨d, hd, hdid⟩ := entryAt?_of_findPosition hk
    rw [hk, Nat.le_antisymm (hlast k d hd hdid) (le_of_findPosition hk hc hid)]

theorem Built.consistent (h : t.Built) : t.Consistent where
  parents i c k e hc hparent := by
    obtain ⟨hlt, d, hd, -⟩ := h.linked i c k e hc hparent
    exact ⟨hlt, d, hd⟩
  index id i := by rw [t.index_eq, findPosition_eq_some_iff]
  branches i e j := mem_branches
  below := t.pairwise_below

theorem Built.walks_breadthFirst (h : t.Built) :
    t.Walks t.root.toList (t.walk t.size t.root.toList) :=
  h.underway.walks (by simp)

theorem Built.ends (h : t.Built) : t.Ends where
  climbs n i hi := by
    obtain ⟨c, hc, -⟩ := entryAt?_of_position? hi
    exact ⟨pathIn t.entries i, h.climbs hc, by rw [pathTo?, hi, Option.map_some]⟩
  no_path n hn := by rw [pathTo?, hn, Option.map_none]
  walks := by
    have hwalk := h.walks_breadthFirst
    obtain ⟨-, hlt⟩ := h.underway.nodup_of_walks hwalk
    refine ⟨_, hwalk, ?_⟩
    rw [breadthFirst]
    generalize t.walk t.size t.root.toList = out at hlt
    induction out with
    | nil => rfl
    | cons i out ih =>
        obtain ⟨hi, hrest⟩ := List.forall_mem_cons.1 hlt
        obtain ⟨c, hc⟩ := exists_entryAt? hi
        have hnode : t.nodeAt? i = some c.node := by rw [nodeAt?_eq, hc, Option.map_some]
        rw [List.filterMap_cons_some hnode, List.map_cons, List.map_cons, ih hrest, hnode]

theorem filterMap_nodeAt? (t : Tree) :
    (List.range t.size).filterMap t.nodeAt? = t.entries.reverse.map TreeEntry.node := by
  have hall := filterMap_getElem?_range (t.entries.reverse.map TreeEntry.node)
  rw [List.length_map, List.length_reverse] at hall
  rw [← hall]
  refine List.filterMap_congr fun i _ => ?_
  rw [List.getElem?_map]
  rfl

theorem OneRoot.spans {root : Node} (h : t.OneRoot root) (hdistinct : t.Distinct) :
    t.Spans root (t.entries.reverse.map TreeEntry.node) := by
  have hwalk := h.built.walks_breadthFirst
  obtain ⟨hnodup, hlt⟩ := h.built.underway.nodup_of_walks hwalk
  have hpositions : (t.walk t.size t.root.toList).Perm (List.range t.size) := by
    refine (List.perm_ext_iff_of_nodup hnodup List.nodup_range).2 fun i => ?_
    rw [List.mem_range]
    exact ⟨hlt i, h.mem_of_walks hwalk⟩
  have hleveled : t.Leveled t.root.toList := by
    rw [h.root_eq]
    refine ⟨List.pairwise_singleton _ _, fun i hi j hj => ?_⟩
    rw [List.mem_singleton.1 hi, List.mem_singleton.1 hj]
    omega
  -- A node has the path that ends at the position where it is met.
  have hpath : ∀ i n, t.nodeAt? i = some n → t.pathTo? n = some (pathIn t.entries i) := by
    intro i n hn
    obtain ⟨c, hc, rfl⟩ := Option.map_eq_some_iff.1 hn
    exact hdistinct.pathTo?_eq hc
  refine ⟨?_, fun n hn => ?_, ?_, ?_⟩
  · rw [← filterMap_nodeAt?]
    exact hpositions.filterMap _
  · obtain ⟨c, hc, rfl⟩ := List.mem_map.1 hn
    exact pathTo?_isSome.2 ⟨c, List.mem_reverse.1 hc, rfl⟩
  · refine (hwalk.ascending h.built hleveled).filterMap _ fun i j hle n hn m hm p hp q hq => ?_
    rw [hpath i n hn, Option.mem_some_iff] at hp
    rw [hpath j m hm, Option.mem_some_iff] at hq
    rw [← hp, ← hq]
    exact hle
  · rw [hdistinct.pathTo?_eq h.first, h.built.pathIn_of_root h.first rfl]

theorem distinct_iff_inserted (calls : List Call) :
    (empty.after calls).Distinct ↔ ((empty.inserted calls).map Node.id).Nodup := by
  have hnodes := congrArg (List.map Node.id) (map_node_after empty calls)
  rw [List.map_map] at hnodes
  show ((empty.after calls).entries.map (Node.id ∘ TreeEntry.node)).Nodup ↔ _
  rw [hnodes]
  simp [empty]

/-- The reachability tree is a tree.  After any sequence of calls, with repeated identities and
    roots and unknown parents, the parent links, the branches and the index of identities agree,
    both walks over it end, and a call is rejected exactly if it names a parent that has no entry,
    which changes nothing.  If no identity is inserted twice, then the path to an accepted child is
    that to its parent and the edge from there, and no later call changes a path.  If besides the
    first call is the only one for a root, the walk down meets every inserted node once, the shallow
    ones first. -/
theorem grows_as_tree (calls : List Call) :
    (empty.after calls).Consistent ∧ (empty.after calls).Ends ∧
      (∀ c, (((empty.after calls).perform c).1 = false ↔ ∃ parent e child,
          c = .addChild parent e child ∧ (empty.after calls).contains parent = false) ∧
        (((empty.after calls).perform c).1 = false →
          ((empty.after calls).perform c).2 = empty.after calls)) ∧
      (((empty.inserted calls).map Node.id).Nodup →
        (∀ root adds, calls = .setRoot root :: adds → (∀ n, .setRoot n ∉ adds) →
            (empty.after calls).Spans root (empty.inserted calls)) ∧
          (∀ before parent e child later, calls = before ++ .addChild parent e child :: later →
            ((empty.after before).perform (.addChild parent e child)).1 = true →
            ∃ path, (empty.after calls).pathTo? parent = some path ∧
              (empty.after calls).pathTo? child = some (path ++ [e])) ∧
          ∀ before later n, calls = before ++ later → (empty.after before).contains n = true →
            (empty.after calls).pathTo? n = (empty.after before).pathTo? n) := by
  refine ⟨(built_empty.after calls).consistent, (built_empty.after calls).ends,
    fun c => ⟨perform_eq_false_iff _ c, perform_of_rejected⟩, fun hnodup => ?_⟩
  have hdistinct := (distinct_iff_inserted _).2 hnodup
  refine ⟨?_, ?_, ?_⟩
  · rintro root adds rfl hadds
    have hone : (empty.after (.setRoot root :: adds)).OneRoot root :=
      (oneRoot_setRoot root).after hadds
    have hnodes := congrArg List.reverse (map_node_after empty (.setRoot root :: adds))
    rw [← List.map_reverse] at hnodes
    have hspans := hone.spans hdistinct
    rw [hnodes] at hspans
    simpa [empty] using hspans
  · intro before parent e child later hcalls haccepted
    have hsplit : empty.after (before ++ .addChild parent e child :: later) =
        ((empty.after before).perform (.addChild parent e child)).2.after later :=
      after_append empty before _
    rw [hcalls, hsplit] at hdistinct ⊢
    have hchild : ((empty.after before).perform (.addChild parent e child)).2.Distinct :=
      Distinct.of_after later hdistinct
    obtain ⟨path, hparent, hpath⟩ :=
      pathTo?_child (built_empty.after before) hchild haccepted
    refine ⟨path, ?_, ?_⟩
    · exact (pathTo?_after hdistinct (contains_of_pathTo? hparent)).trans hparent
    · exact (pathTo?_after hdistinct (contains_of_pathTo? hpath)).trans hpath
  · intro before later n hcalls hn
    rw [hcalls, after_append] at hdistinct ⊢
    exact pathTo?_after hdistinct hn

/-- A node at an address, which is also its identity. -/
def placedAt (address : Nat) : Node :=
  ⟨address, .plain (.start (.ofNat 64 address)), []⟩

/-- A step from one address to another. -/
def stepTo (source target : Nat) : Edge :=
  .must (.start (.ofNat 64 source)) (.start (.ofNat 64 target)) .skip

/-- A root with two children and a grandchild.  The first call for the second child names a parent
    that is not there. -/
def forked : List Call :=
  [.addChild (placedAt 0) (stepTo 0 1) (placedAt 1),
    .addChild (placedAt 9) (stepTo 9 2) (placedAt 2),
    .addChild (placedAt 1) (stepTo 1 3) (placedAt 3),
    .addChild (placedAt 0) (stepTo 0 2) (placedAt 2)]

/-- The walk down gives both children before the grandchild, which has a path of two edges. -/
theorem grows_as_tree_forked :
    (∀ n, .setRoot n ∉ forked) ∧
      ((empty.inserted (.setRoot (placedAt 0) :: forked)).map Node.id).Nodup ∧
      (empty.after (.setRoot (placedAt 0) :: forked)).Spans (placedAt 0)
        [placedAt 0, placedAt 1, placedAt 3, placedAt 2] ∧
      (empty.after (.setRoot (placedAt 0) :: forked)).breadthFirst =
        [placedAt 0, placedAt 1, placedAt 2, placedAt 3] ∧
      ∃ path, (empty.after (.setRoot (placedAt 0) :: forked)).pathTo? (placedAt 1) = some path ∧
        (empty.after (.setRoot (placedAt 0) :: forked)).pathTo? (placedAt 3) =
          some (path ++ [stepTo 1 3]) := by
  have hadds : ∀ n, .setRoot n ∉ forked := by simp [forked]
  have hnodup : ((empty.inserted (.setRoot (placedAt 0) :: forked)).map Node.id).Nodup := by decide
  obtain ⟨hspans, hchild, -⟩ :=
    (grows_as_tree (.setRoot (placedAt 0) :: forked)).2.2.2 hnodup
  refine ⟨hadds, hnodup, hspans _ _ rfl hadds, by decide, ?_⟩
  exact hchild (.setRoot (placedAt 0) :: forked.take 2) _ _ _ (forked.drop 3) rfl (by decide)

end Tree

end CodeReach
