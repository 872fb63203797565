/-
  CodeReach.Proofs.Explore.ReachedSet

  Reached sets as tables of nodes.  A table is in order (`Tabled`) if each node stands in
  the row of its location, no two nodes have the same state, and the size is the number of
  nodes.  Then the nodes are those that the set contains, a new state adds one node and
  moves no other, and a state that leaves takes one node with it.

  The two tables and the size are changed separately, and each table decides on its own
  whether a node is new to it.  They are followed through any sequence of calls beside a
  plain list of nodes (`Stores`), in which each bucket of either table is found again as
  the nodes that belong under its key, and no bucket is kept once it is empty.  So the set
  gives the answers of the plain list, and it does not matter in which table it looks them
  up.
-/
import CodeReach.Proofs.Data.Buckets
import CodeReach.Proofs.Explore.Containers
import Mathlib.Data.List.Nodup

namespace CodeReach

namespace ReachedSet

variable {r : ReachedSet} {n : Node} {s : State}

/-- Each node in the row of its location, and one node for each state. -/
structure Tabled (r : ReachedSet) : Prop where
  keyed : r.byLocation.Keyed Node.location
  states : (r.toList.map Node.state).Nodup
  size : r.size = r.toList.length

theorem tabled_empty (index : Option Nat) : (empty index).Tabled :=
  ⟨fun _ h => absurd h List.not_mem_nil, List.nodup_nil, rfl⟩

/-- The nodes of a table are those that it contains. -/
theorem Tabled.contains_iff_mem (h : r.Tabled) :
    r.contains s = true ↔ ∃ n ∈ r.toList, n.state = s := by
  rw [contains_iff]
  constructor
  · rintro ⟨n, hn, hs⟩
    exact ⟨n, Buckets.mem_values_of_mem_find hn, hs⟩
  · rintro ⟨n, hn, rfl⟩
    exact ⟨n, h.keyed.mem_get hn, rfl⟩

theorem perm_insert (hnew : ¬ r.contains n.state = true) :
    (r.insert n).toList.Perm (n :: r.toList) := by
  rw [toList, byLocation_insert, if_neg hnew]
  exact Buckets.perm_push _ _ _

theorem Tabled.insert (h : r.Tabled) (hnew : ¬ r.contains n.state = true) :
    (r.insert n).Tabled := by
  have hperm := perm_insert hnew
  refine ⟨?_, ?_, ?_⟩
  · rw [byLocation_insert, if_neg hnew]
    exact h.keyed.push n
  · rw [(hperm.map Node.state).nodup_iff, List.map_cons, List.nodup_cons]
    refine ⟨fun hmem => hnew (h.contains_iff_mem.2 ?_), h.states⟩
    exact List.mem_map.1 hmem
  · rw [hperm.length_eq, List.length_cons, ← h.size]
    exact if_neg hnew

theorem erase_of_contains (hs : r.contains s = true) : r.erase s =
    { r with
      byLocation := r.byLocation.prune s.location (·.state != s)
      byComponent :=
        match r.indexKey? s with
        | some c => r.byComponent.prune c (·.state != s)
        | none => r.byComponent
      size := r.size - 1 } :=
  if_pos hs

theorem Tabled.toList_erase (h : r.Tabled) (hs : r.contains s = true) :
    (r.erase s).toList = r.toList.filter (·.state != s) := by
  rw [erase_of_contains hs]
  refine h.keyed.values_prune fun n hn => ?_
  have hstate : n.state = s := by simpa using hn
  rw [Node.location, hstate]

/-- Of the nodes of a table one goes with its state. -/
theorem Tabled.length_erase (h : r.Tabled) (hs : r.contains s = true) :
    (r.toList.filter (·.state != s)).length + 1 = r.toList.length := by
  obtain ⟨n, hn, rfl⟩ := h.contains_iff_mem.1 hs
  have herase : r.toList.filter (·.state != n.state) = r.toList.erase n := by
    rw [(h.states.of_map Node.state).erase_eq_filter]
    refine List.filter_congr fun m hm => ?_
    rw [Bool.eq_iff_iff, bne_iff_ne, bne_iff_ne]
    refine not_congr ⟨List.inj_on_of_nodup_map h.states hm hn, ?_⟩
    rintro rfl
    rfl
  have hpos := List.length_pos_of_mem hn
  rw [herase, List.length_erase_of_mem hn]
  omega

theorem Tabled.erase (h : r.Tabled) (hs : r.contains s = true) : (r.erase s).Tabled where
  keyed := by
    rw [erase_of_contains hs]
    exact h.keyed.prune _ _
  states := by
    rw [h.toList_erase hs]
    exact (List.filter_sublist.map _).nodup h.states
  size := by
    have hsize : (r.erase s).size = r.size - 1 := by rw [erase_of_contains hs]
    have hlength := h.length_erase hs
    rw [hsize, h.size, h.toList_erase hs]
    omega

/-! ## Calls -/

/-- A change to a reached set. -/
inductive Call where
  | add (n : Node)
  | remove (s : State)

/-- Whether the call changes anything, and the set after it. -/
def perform (r : ReachedSet) : Call → Bool × ReachedSet
  | .add n => r.add n
  | .remove s => r.remove s

/-- A reached set after a sequence of calls, with an index if a position is given. -/
def after (index : Option Nat) (calls : List Call) : ReachedSet :=
  calls.foldl (fun r c => (r.perform c).2) (.empty index)

/-- What a call does to a plain list of nodes with different states: of several nodes with the same
    state the first is kept. -/
def Call.onList (plain : List Node) : Call → List Node
  | .add n => if ∃ m ∈ plain, m.state = n.state then plain else plain ++ [n]
  | .remove s => plain.filter (·.state != s)

/-- The plain list after a sequence of calls. -/
def listed (calls : List Call) : List Node :=
  calls.foldl Call.onList []

/-! ## The tables beside a plain list -/

variable {plain : List Node}

/-- Both tables have the nodes of the list, each where it belongs, and no empty rows. -/
structure Stores (r : ReachedSet) (plain : List Node) : Prop where
  tabled : r.Tabled
  perm : r.toList.Perm plain
  located : r.byLocation.Files (fun n => some n.location) plain
  indexed : r.byComponent.Files (fun n => r.indexKey? n.state) plain
  filled : r.byLocation.Filled ∧ r.byComponent.Filled

theorem stores_empty (index : Option Nat) : (empty index).Stores [] where
  tabled := tabled_empty index
  perm := List.Perm.refl _
  located := .empty _
  indexed := .empty _
  filled := ⟨Buckets.filled_empty, Buckets.filled_empty⟩

namespace Stores

theorem contains_iff (h : r.Stores plain) : r.contains s = true ↔ ∃ n ∈ plain, n.state = s := by
  rw [h.tabled.contains_iff_mem]
  exact exists_congr fun n => and_congr_left fun _ => h.perm.mem_iff

/-- The table by component finds a state in its bucket exactly if the set contains it. -/
theorem file_byComponent (h : r.Stores plain) {c : Component}
    (hkey : r.indexKey? n.state = some c) : file r.byComponent c n =
      if r.contains n.state then r.byComponent else r.byComponent.push c n := by
  have hbucket : (r.byComponent.get c).any (·.state == n.state) = r.contains n.state := by
    rw [Bool.eq_iff_iff, h.contains_iff, h.indexed c]
    simp only [List.any_eq_true, List.mem_filter, decide_eq_true_iff, beq_iff_eq]
    constructor
    · rintro ⟨m, ⟨hm, -⟩, hstate⟩
      exact ⟨m, hm, hstate⟩
    · rintro ⟨m, hm, hstate⟩
      exact ⟨m, ⟨hm, by rw [hstate, hkey]⟩, hstate⟩
  rw [file, hbucket]

theorem byComponent_insert (h : r.Stores plain) (n : Node) : (r.insert n).byComponent =
    if r.contains n.state then r.byComponent
    else
      match r.indexKey? n.state with
      | some c => r.byComponent.push c n
      | none => r.byComponent := by
  rw [ReachedSet.insert]
  cases hkey : r.indexKey? n.state with
  | some c => exact h.file_byComponent hkey
  | none => exact (ite_self _).symm

theorem insert_of_contains (h : r.Stores plain) (hold : r.contains n.state = true) :
    r.insert n = r := by
  have hlocation := byLocation_insert r n
  have hcomponent := h.byComponent_insert n
  have hsize : (r.insert n).size = r.size := if_pos hold
  rw [if_pos hold] at hlocation hcomponent
  calc r.insert n
      = ⟨r.index, (r.insert n).byLocation, (r.insert n).byComponent, (r.insert n).size⟩ := rfl
    _ = r := by rw [hlocation, hcomponent, hsize]

theorem insert (h : r.Stores plain) (hnew : ¬ r.contains n.state = true) :
    (r.insert n).Stores (plain ++ [n]) where
  tabled := h.tabled.insert hnew
  perm := ((perm_insert hnew).trans (h.perm.cons n)).trans (List.perm_append_singleton n plain).symm
  located := by
    rw [byLocation_insert, if_neg hnew]
    exact h.located.push rfl
  indexed := by
    rw [h.byComponent_insert, if_neg hnew]
    show Buckets.Files (fun m : Node => r.indexKey? m.state) _ _
    cases hkey : r.indexKey? n.state with
    | some c => exact h.indexed.push hkey
    | none => exact h.indexed.append_of_none hkey
  filled := by
    rw [byLocation_insert, if_neg hnew, h.byComponent_insert, if_neg hnew]
    refine ⟨h.filled.1.push _ _, ?_⟩
    split
    · exact h.filled.2.push _ _
    · exact h.filled.2

theorem erase (h : r.Stores plain) (hs : r.contains s = true) :
    (r.erase s).Stores (plain.filter (·.state != s)) := by
  have hstate : ∀ n ∈ plain, (n.state != s) = false → n.state = s := by simp
  refine ⟨h.tabled.erase hs, ?_, ?_, ?_, ?_⟩
  · rw [h.tabled.toList_erase hs]
    exact h.perm.filter _
  · rw [erase_of_contains hs]
    exact h.located.discard fun n hn hns => by rw [Node.location, hstate n hn hns]
  · rw [erase_of_contains hs]
    show Buckets.Files (fun m : Node => r.indexKey? m.state) _ _
    cases hkey : r.indexKey? s with
    | some c => exact h.indexed.discard fun n hn hns => by rw [hstate n hn hns, hkey]
    | none => exact h.indexed.discard_of_none fun n hn hns => by rw [hstate n hn hns, hkey]
  · rw [erase_of_contains hs]
    refine ⟨h.filled.1.prune _ _, ?_⟩
    show Buckets.Filled (match r.indexKey? s with
      | some c => r.byComponent.prune c (·.state != s)
      | none => r.byComponent)
    split
    · exact h.filled.2.prune _ _
    · exact h.filled.2

/-- What one call keeps. -/
theorem perform (h : r.Stores plain) (c : Call) : (r.perform c).2.Stores (c.onList plain) := by
  cases c with
  | add n =>
      by_cases hold : ∃ m ∈ plain, m.state = n.state
      · have hset : r.insert n = r := h.insert_of_contains (h.contains_iff.2 hold)
        have hlist : (Call.add n).onList plain = plain := if_pos hold
        rw [hlist]
        show (r.insert n).Stores plain
        rw [hset]
        exact h
      · have hlist : (Call.add n).onList plain = plain ++ [n] := if_neg hold
        rw [hlist]
        exact h.insert (mt h.contains_iff.1 hold)
  | remove s =>
      by_cases hs : r.contains s = true
      · exact h.erase hs
      · have hset : r.erase s = r := if_neg hs
        have hlist : (Call.remove s).onList plain = plain := by
          refine List.filter_eq_self.2 fun n hn => ?_
          have hne : n.state ≠ s := fun heq => hs (h.contains_iff.2 ⟨n, hn, heq⟩)
          simpa using hne
        rw [hlist]
        show (r.erase s).Stores plain
        rw [hset]
        exact h

theorem after (index : Option Nat) (calls : List Call) :
    (ReachedSet.after index calls).Stores (listed calls) := by
  suffices hrun : ∀ r plain, Stores r plain →
      Stores (calls.foldl (fun r c => (r.perform c).2) r) (calls.foldl Call.onList plain) from
    hrun _ _ (stores_empty index)
  induction calls with
  | nil => exact fun _ _ h => h
  | cons c calls ih => exact fun r plain h => ih _ _ (h.perform c)

/-! ## Answers -/

theorem atLocation_eq (h : r.Stores plain) (l : Location) :
    r.atLocation l = plain.filter (·.location = l) := by
  rw [atLocation, h.located l]
  simp only [Option.some.injEq]

theorem mem_locations_iff (h : r.Stores plain) {l : Location} :
    l ∈ r.locations ↔ ∃ n ∈ plain, n.location = l := by
  have hrow : r.byLocation.get l = plain.filter (·.location = l) := h.atLocation_eq l
  rw [locations, OrdSet.mem_ofList, h.filled.1.mem_keys_iff, hrow, ne_eq,
    List.filter_eq_nil_iff]
  simp

/-- A search through all nodes. -/
theorem scan_perm (h : r.Stores plain) (i : Nat) (c : Component) :
    (r.toList.filter fun n => n.state.component? i == some c).Perm
      (plain.filter fun n => n.state.component? i == some c) :=
  h.perm.filter _

/-- The location of a state is its component at position zero. -/
theorem withComponent_zero (h : r.Stores plain) (c : Component) :
    r.withComponent 0 c = plain.filter fun n => n.state.component? 0 == some c := by
  rw [withComponent, if_pos rfl]
  cases c with
  | location l =>
      show r.atLocation l = _
      rw [h.atLocation_eq l]
      refine List.filter_congr fun n _ => ?_
      rw [Bool.eq_iff_iff, decide_eq_true_iff, beq_iff_eq]
      show n.location = l ↔ some (Component.location n.location) = some (.location l)
      rw [Option.some.injEq, Component.location.injEq]
  | values v =>
      refine (List.filter_eq_nil_iff.2 fun n _ => ?_).symm
      show ¬ (some (Component.location n.location) == some (.values v)) = true
      simp
  | calls s =>
      refine (List.filter_eq_nil_iff.2 fun n _ => ?_).symm
      show ¬ (some (Component.location n.location) == some (.calls s)) = true
      simp

theorem withComponent_index (h : r.Stores plain) {i : Nat} (hi : i ≠ 0) (hindex : r.index = some i)
    (c : Component) :
    r.withComponent i c = plain.filter fun n => n.state.component? i == some c := by
  have hkey (s : State) : r.indexKey? s = s.component? i := by
    obtain ⟨k, rfl⟩ := Nat.exists_eq_succ_of_ne_zero hi
    rw [indexKey?, hindex]
  rw [withComponent, if_neg hi, if_pos hindex, h.indexed c]
  refine List.filter_congr fun n _ => ?_
  rw [Bool.eq_iff_iff, decide_eq_true_iff, beq_iff_eq]
  show r.indexKey? n.state = some c ↔ _
  rw [hkey]

/-- Whichever way it takes, a search by component finds the nodes that have it. -/
theorem withComponent_perm (h : r.Stores plain) (i : Nat) (c : Component) :
    (r.withComponent i c).Perm (plain.filter fun n => n.state.component? i == some c) := by
  by_cases hi : i = 0
  · subst hi
    rw [h.withComponent_zero c]
  · by_cases hindex : r.index = some i
    · rw [h.withComponent_index hi hindex c]
    · rw [withComponent, if_neg hi, if_neg hindex]
      exact h.scan_perm i c

end Stores

/-- To all questions the set gives the answers of the plain list. -/
structure AnswersAs (r : ReachedSet) (plain : List Node) : Prop where
  distinct : (plain.map Node.state).Nodup
  contains_iff : ∀ s, r.contains s = true ↔ ∃ n ∈ plain, n.state = s
  isEmpty_iff : r.isEmpty = true ↔ plain = []
  size_eq : r.size = plain.length
  toList_perm : r.toList.Perm plain
  /-- No bucket that is kept in either table is empty. -/
  filled : r.byLocation.Filled ∧ r.byComponent.Filled
  mem_locations_iff : ∀ l, l ∈ r.locations ↔ ∃ n ∈ plain, n.location = l
  atLocation_perm : ∀ l, (r.atLocation l).Perm (plain.filter (·.location = l))
  withComponent_perm : ∀ i c,
    (r.withComponent i c).Perm (plain.filter fun n => n.state.component? i == some c)
  /-- Searching through all nodes would give the same. -/
  scan_perm : ∀ i c,
    (r.toList.filter fun n => n.state.component? i == some c).Perm (r.withComponent i c)
  add_reply : ∀ n, (r.perform (.add n)).1 = decide (∀ m ∈ plain, m.state ≠ n.state)
  remove_reply : ∀ s, (r.perform (.remove s)).1 = decide (∃ m ∈ plain, m.state = s)
  /-- The size is not zero when a node is taken out. -/
  remove_size : ∀ s, (r.perform (.remove s)).1 = true →
    (r.perform (.remove s)).2.size + 1 = r.size

theorem Stores.answersAs (h : r.Stores plain) : r.AnswersAs plain where
  distinct := (h.perm.map Node.state).nodup_iff.1 h.tabled.states
  contains_iff _ := h.contains_iff
  isEmpty_iff := by
    rw [isEmpty, beq_iff_eq, h.tabled.size, h.perm.length_eq, List.length_eq_zero_iff]
  size_eq := h.tabled.size.trans h.perm.length_eq
  toList_perm := h.perm
  filled := h.filled
  mem_locations_iff _ := h.mem_locations_iff
  atLocation_perm l := by rw [h.atLocation_eq l]
  withComponent_perm := h.withComponent_perm
  scan_perm i c := (h.scan_perm i c).trans (h.withComponent_perm i c).symm
  add_reply n := by
    show (!r.contains n.state) = _
    rw [Bool.eq_iff_iff, Bool.not_eq_true', ← Bool.not_eq_true, h.contains_iff, decide_eq_true_iff]
    simp only [not_exists, not_and, ne_eq]
  remove_reply s := by
    show r.contains s = _
    rw [Bool.eq_iff_iff, h.contains_iff, decide_eq_true_iff]
  remove_size s hs := by
    have hlength := h.tabled.length_erase hs
    show (r.erase s).size + 1 = r.size
    rw [(h.tabled.erase hs).size, h.tabled.toList_erase hs, h.tabled.size]
    exact hlength

/-- A reached set is a plain set of nodes with different states.  After any sequence of calls on a
    new one, with states of any arities and with or without an index, it gives the answers of the
    plain list, in which a state keeps the node that was added first.  The tables keep no empty
    buckets, so the locations are those of the nodes.  In particular a search by component gives the
    same nodes with any index and without one. -/
theorem indices_agree (index : Option Nat) (calls : List Call) :
    (after index calls).AnswersAs (listed calls) ∧
      ∀ other i c,
        ((after other calls).withComponent i c).Perm ((after index calls).withComponent i c) := by
  have hstores (other : Option Nat) := Stores.after other calls
  refine ⟨(hstores index).answersAs, fun other i c => ?_⟩
  exact ((hstores other).withComponent_perm i c).trans ((hstores index).withComponent_perm i c).symm

end ReachedSet

end CodeReach
