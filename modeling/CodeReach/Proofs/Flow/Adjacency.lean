/-
  CodeReach.Proofs.Flow.Adjacency

  The adjacency of a graph beside its edges.  The two tables hold positions of edges, one
  by source and one by target, so they are one notion seen from two sides: a table indexes
  the edges by one of their ends (`Indexes`) if it files all positions under that end of
  the edge there and has no empty rows.  A new edge gets the next position, and the
  positions before it keep their edges.

  A graph is then what it was built from: after any sequence of calls its edges are those
  that were inserted, each where it came first, the set of known edges has just these, and
  all that the tables are asked for can be read off the edges (`adjacency_agrees`).
-/
import CodeReach.Proofs.Data.Buckets
import CodeReach.Proofs.Flow.Graph

namespace CodeReach

namespace Graph

variable {g : Graph} {e : Edge} {es : List Edge} {l : Location} {side : Edge → Location}
  {edges : Array Edge} {table : Buckets Location Nat}

/-! ## Positions by one end of the edges -/

/-- The table has the position of each edge under one end of it, and no empty rows. -/
structure Indexes (side : Edge → Location) (edges : Array Edge) (table : Buckets Location Nat) :
    Prop where
  filled : table.Filled
  files : table.Files (fun i => edges[i]?.map side) (List.range edges.size)

theorem indexes_empty (side : Edge → Location) : Indexes side #[] .empty :=
  ⟨Buckets.filled_empty, .empty _⟩

/-- A new edge gets the next position and leaves the others as they are. -/
theorem Indexes.push (h : Indexes side edges table) (e : Edge) :
    Indexes side (edges.push e) (table.push (side e) edges.size) where
  filled := h.filled.push _ _
  files := by
    have hold : ∀ i ∈ List.range edges.size, edges[i]?.map side = (edges.push e)[i]?.map side := by
      intro i hi
      have hlt : i < edges.size := List.mem_range.1 hi
      rw [Array.getElem?_push, if_neg (by omega)]
    have hnew : (edges.push e)[edges.size]?.map side = some (side e) := by
      rw [Array.getElem?_push, if_pos rfl, Option.map_some]
    rw [Array.size_push, List.range_succ]
    exact (h.files.congr hold).push hnew

/-- The edges at the positions under a location are those that have it at this end. -/
theorem filterMap_positions (side : Edge → Location) (es : List Edge) (l : Location) :
    ((List.range es.length).filter fun i => es[i]?.map side = some l).filterMap (es[·]?) =
      es.filter (side · = l) := by
  have hall := congrArg (List.filter (side · = l)) (filterMap_getElem?_range es)
  rw [← hall, List.filterMap_filter, List.filter_filterMap]
  refine List.filterMap_congr fun i _ => ?_
  cases es[i]? with
  | none => rfl
  | some e => simp [Option.filter]

namespace Indexes

theorem filterMap_get (h : Indexes side edges table) (l : Location) :
    (table.get l).filterMap (edges[·]?) = edges.toList.filter (side · = l) := by
  rw [h.files l, ← filterMap_positions side edges.toList l]
  simp only [Array.length_toList, Array.getElem?_toList]

theorem lt_of_mem_get (h : Indexes side edges table) {i : Nat} (hi : i ∈ table.get l) :
    i < edges.size := by
  rw [h.files l] at hi
  exact List.mem_range.1 (List.mem_filter.1 hi).1

theorem mem_keys_iff (h : Indexes side edges table) :
    l ∈ table.keys ↔ ∃ e ∈ edges.toList, side e = l := by
  rw [h.filled.mem_keys_iff]
  constructor
  · intro hne
    obtain ⟨i, hi⟩ := List.exists_mem_of_ne_nil _ hne
    rw [h.files l] at hi
    obtain ⟨e, he, hside⟩ := Option.map_eq_some_iff.1 (of_decide_eq_true (List.mem_filter.1 hi).2)
    exact ⟨e, Array.mem_toList_iff.2 (Array.mem_of_getElem? he), hside⟩
  · rintro ⟨e, he, hside⟩ hnil
    -- An empty bucket would select no edge.
    have hselect := h.filterMap_get l
    rw [hnil] at hselect
    have hmem : e ∈ edges.toList.filter (side · = l) :=
      List.mem_filter.2 ⟨he, decide_eq_true hside⟩
    rw [← hselect] at hmem
    exact absurd hmem List.not_mem_nil

end Indexes

/-! ## Graphs -/

/-- Whether a must edge has the location at one end. -/
theorem any_must_filter (es : List Edge) (side : Edge → Location) (l : Location) :
    ((es.filter (side · = l)).any (·.kind == .must)) = true ↔
      ∃ e ∈ es, e.kind = .must ∧ side e = l := by
  simp only [List.any_eq_true, List.mem_filter, decide_eq_true_iff, beq_iff_eq]
  constructor
  · rintro ⟨e, ⟨he, hl⟩, hkind⟩
    exact ⟨e, he, hkind, hl⟩
  · rintro ⟨e, he, hkind, hl⟩
    exact ⟨e, ⟨he, hl⟩, hkind⟩

/-- Both tables index the edges, each by its own end. -/
structure Indexed (g : Graph) : Prop where
  leaving : Indexes Edge.source g.edges g.leaving
  entering : Indexes Edge.target g.edges g.entering

namespace Indexed

theorem empty : Graph.empty.Indexed :=
  ⟨indexes_empty _, indexes_empty _⟩

theorem insert (h : g.Indexed) (e : Edge) : (g.insert e).Indexed := by
  unfold Graph.insert
  split
  · exact h
  · exact ⟨h.leaving.push e, h.entering.push e⟩

theorem insertAll (h : g.Indexed) (es : List Edge) : (g.insertAll es).Indexed :=
  List.foldlRecOn es _ h fun _ hindexed e _ => hindexed.insert e

theorem outEdges_eq (h : g.Indexed) (l : Location) :
    g.outEdges l = g.edges.toList.filter (·.source = l) :=
  h.leaving.filterMap_get l

theorem inEdges_eq (h : g.Indexed) (l : Location) :
    g.inEdges l = g.edges.toList.filter (·.target = l) :=
  h.entering.filterMap_get l

theorem mem_nodes_iff (h : g.Indexed) :
    l ∈ g.nodes ↔ ∃ e ∈ g.edges.toList, e.source = l ∨ e.target = l := by
  rw [nodes, OrdSet.mem_ofList, List.mem_append, h.leaving.mem_keys_iff, h.entering.mem_keys_iff]
  constructor
  · rintro (⟨e, he, hl⟩ | ⟨e, he, hl⟩)
    · exact ⟨e, he, Or.inl hl⟩
    · exact ⟨e, he, Or.inr hl⟩
  · rintro ⟨e, he, hl | hl⟩
    · exact Or.inl ⟨e, he, hl⟩
    · exact Or.inr ⟨e, he, hl⟩

theorem mem_mustLeaves_iff (h : g.Indexed) :
    l ∈ g.mustLeaves ↔ (∃ e ∈ g.edges.toList, e.kind = .must ∧ e.target = l) ∧
      ¬ ∃ e ∈ g.edges.toList, e.kind = .must ∧ e.source = l := by
  rw [mustLeaves, OrdSet.mem_filter, OrdSet.mem_ofList, h.entering.mem_keys_iff, h.inEdges_eq,
    h.outEdges_eq, Bool.and_eq_true, Bool.not_eq_true', ← Bool.not_eq_true,
    any_must_filter _ Edge.target, any_must_filter _ Edge.source]
  constructor
  · exact And.right
  · rintro ⟨⟨e, he, hkind, hl⟩, hnone⟩
    exact ⟨⟨e, he, hl⟩, ⟨e, he, hkind, hl⟩, hnone⟩

end Indexed

/-! ## Every sequence of calls -/

/-- A call on a graph. -/
inductive Call where
  | add (e : Edge)
  | extend (es : List Edge)
  /-- A new graph takes the place of the old one. -/
  | build (es : List Edge)

/-- The graph after a call. -/
def perform (g : Graph) : Call → Graph
  | .add e => (g.add e).2
  | .extend es => g.insertAll es
  | .build es => ofList es

/-- The graph after a sequence of calls. -/
def after (calls : List Call) : Graph :=
  calls.foldl perform empty

/-- The insertions after a call, in order and with repetitions. -/
def Call.insertions (es : List Edge) : Call → List Edge
  | .add e => es ++ [e]
  | .extend ds => es ++ ds
  | .build ds => ds

/-- The insertions of a sequence of calls. -/
def inserted (calls : List Call) : List Edge :=
  calls.foldl Call.insertions []

theorem perform_ofList (es : List Edge) (c : Call) :
    (ofList es).perform c = ofList (c.insertions es) := by
  cases c with
  | add e => exact insertAll_insertAll empty es [e]
  | extend ds => exact insertAll_insertAll empty es ds
  | build ds => rfl

/-- The graph is the one of its insertions. -/
theorem after_eq_ofList (calls : List Call) : after calls = ofList (inserted calls) := by
  suffices hrun : ∀ es, calls.foldl perform (ofList es) =
      ofList (calls.foldl Call.insertions es) from hrun []
  induction calls with
  | nil => exact fun _ => rfl
  | cons c calls ih =>
      intro es
      rw [List.foldl_cons, List.foldl_cons, perform_ofList]
      exact ih (c.insertions es)

/-- The graph gives the answers that can be read off its edges, which are the given insertions
    without repetitions. -/
structure AnswersAs (g : Graph) (insertions : List Edge) : Prop where
  edges_eq : g.edges.toList = insertions.eraseDups
  /-- The set of known edges has each edge once. -/
  known_perm : g.known.Perm g.edges.toList
  add_reply : ∀ e, (g.add e).1 = decide (e ∉ insertions)
  contains_iff : ∀ e, g.contains e = true ↔ e ∈ g.edges.toList
  outEdges_eq : ∀ l, g.outEdges l = g.edges.toList.filter (·.source = l)
  inEdges_eq : ∀ l, g.inEdges l = g.edges.toList.filter (·.target = l)
  leaving_lt : ∀ l, ∀ i ∈ g.leaving.get l, i < g.edges.size
  entering_lt : ∀ l, ∀ i ∈ g.entering.get l, i < g.edges.size
  mem_nodes_iff : ∀ l, l ∈ g.nodes ↔ ∃ e ∈ g.edges.toList, e.source = l ∨ e.target = l
  mem_mustLeaves_iff : ∀ l, l ∈ g.mustLeaves ↔
    (∃ e ∈ g.edges.toList, e.kind = .must ∧ e.target = l) ∧
      ¬ ∃ e ∈ g.edges.toList, e.kind = .must ∧ e.source = l

/-- The tables of a graph agree with its edges.  After any sequence of calls, with any edges, the
    edges are the insertions in order, each where it came first, the set of known edges has the same
    edges, an edge is reported as new exactly if it was not inserted before, and the edges at a
    location, the nodes and the ends of the certain part can be read off the edges. -/
theorem adjacency_agrees (calls : List Call) : (after calls).AnswersAs (inserted calls) := by
  rw [after_eq_ofList]
  have hindexed : (ofList (inserted calls)).Indexed := Indexed.empty.insertAll _
  exact {
    edges_eq := toList_ofList _
    known_perm := known_perm _
    add_reply := fun e => by
      show (!(ofList (inserted calls)).contains e) = _
      rw [Bool.eq_iff_iff, Bool.not_eq_true', ← Bool.not_eq_true, contains_iff, mem_ofList,
        decide_eq_true_iff]
    contains_iff := fun e => contains_iff.trans Array.mem_toList_iff.symm
    outEdges_eq := hindexed.outEdges_eq
    inEdges_eq := hindexed.inEdges_eq
    leaving_lt := fun _ _ hi => hindexed.leaving.lt_of_mem_get hi
    entering_lt := fun _ _ hi => hindexed.entering.lt_of_mem_get hi
    mem_nodes_iff := fun _ => hindexed.mem_nodes_iff
    mem_mustLeaves_iff := fun _ => hindexed.mem_mustLeaves_iff }

end Graph

end CodeReach
