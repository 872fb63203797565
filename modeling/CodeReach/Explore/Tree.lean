/-
  CodeReach.Explore.Tree

  The reachability tree: how each accepted node was reached.  Entries are only ever
  added, and an entry refers to its parent by position, which is always older; so a
  path back to a root can be read off by recursion over the older entries.

  Two more structures stand beside the entries: an index that leads from the identity of
  a node to its position, and for each position the list of what was reached from there.
  They are extended with each entry, and a tree carries the proof that they say what the
  entries say.
-/
import CodeReach.Domain.State
import CodeReach.Flow.Graph
import Std.Data.TreeMap

namespace CodeReach

/-- A node with the position of its parent and the edge from there, unless it is a root. -/
structure TreeEntry where
  node : Node
  parent : Option (Nat × Edge)
deriving DecidableEq

namespace Tree

/-- The position of the latest entry with this identity. -/
def findPosition (id : Nat) : List TreeEntry → Option Nat
  | [] => none
  | c :: older => if c.node.id = id then some older.length else findPosition id older

/-- The edges and positions of the entries whose parent is at a position, the oldest first. -/
def linksFrom (i : Nat) : List TreeEntry → List (Edge × Nat)
  | [] => []
  | c :: older =>
    match c.parent with
    | some (p, e) => if i = p then linksFrom i older ++ [(e, older.length)] else linksFrom i older
    | none => linksFrom i older

end Tree

/-- How accepted nodes were reached. -/
structure Tree where
  /-- The entries, the newest first.  The position of an entry is the number of older ones. -/
  entries : List TreeEntry
  /-- The position of the latest entry with an identity. -/
  index : Std.TreeMap Nat Nat
  /-- For each position the edges that were followed from there and the positions that they led
      to. -/
  branches : Buckets Nat (Edge × Nat)
  /-- The position of the latest root. -/
  root : Option Nat
  index_eq : ∀ id, index[id]? = Tree.findPosition id entries
  branches_eq : ∀ i, branches.get i = Tree.linksFrom i entries

namespace Tree

/-- The tree without entries. -/
def empty : Tree where
  entries := []
  index := ∅
  branches := .empty
  root := none
  index_eq _ := Std.TreeMap.getElem?_emptyc
  branches_eq _ := rfl

/-- The number of entries. -/
def size (t : Tree) : Nat :=
  t.entries.length

/-- The position of a node. -/
def position? (t : Tree) (n : Node) : Option Nat :=
  t.index[n.id]?

/-- Whether the node has an entry. -/
def contains (t : Tree) (n : Node) : Bool :=
  (t.position? n).isSome

/-- The index that leads to a new entry as well. -/
theorem getElem?_index_insert (t : Tree) (c : TreeEntry) (id : Nat) :
    (t.index.insert c.node.id t.size)[id]? = findPosition id (c :: t.entries) := by
  rw [Std.TreeMap.getElem?_insert, findPosition, t.index_eq]
  by_cases hid : c.node.id = id
  · rw [if_pos hid, if_pos (Nat.compare_eq_eq.2 hid)]
    rfl
  · rw [if_neg hid, if_neg (mt Nat.compare_eq_eq.1 hid)]

/-- The tree with a new entry as its root. -/
def setRoot (t : Tree) (n : Node) : Tree where
  entries := ⟨n, none⟩ :: t.entries
  index := t.index.insert n.id t.size
  branches := t.branches
  root := some t.size
  index_eq := t.getElem?_index_insert ⟨n, none⟩
  branches_eq := t.branches_eq

/-- The tree with a new entry below the one at a position. -/
def attach (t : Tree) (i : Nat) (e : Edge) (child : Node) : Tree where
  entries := ⟨child, some (i, e)⟩ :: t.entries
  index := t.index.insert child.id t.size
  branches := t.branches.push i (e, t.size)
  root := t.root
  index_eq := t.getElem?_index_insert ⟨child, some (i, e)⟩
  branches_eq j := by
    rw [Buckets.push, Buckets.get_modify, t.branches_eq, linksFrom]
    simp only [eq_comm]
    rfl

/-- Records `child` as reached from `parent` through an edge and tells its position; nothing is
    recorded if the parent has no entry. -/
def addChild (t : Tree) (parent : Node) (e : Edge) (child : Node) : Option Nat × Tree :=
  match t.position? parent with
  | some i => (some t.size, t.attach i e child)
  | none => (none, t)

/-- All entries with their positions, the oldest first. -/
def listing (t : Tree) : List (TreeEntry × Nat) :=
  t.entries.reverse.zipIdx

/-- The node at a position. -/
def nodeAt? (t : Tree) (i : Nat) : Option Node :=
  (t.entries.reverse[i]?).map (·.node)

/-- The node at the root. -/
def rootNode? (t : Tree) : Option Node :=
  t.root.bind t.nodeAt?

/-- The edges and nodes that lead on from a position, in the order in which they were recorded. -/
def childrenAt (t : Tree) (i : Nat) : List (Edge × Node) :=
  (t.branches.get i).filterMap fun (e, j) => (t.nodeAt? j).map fun child => (e, child)

/-- What was reached from a node, with the edges to it. -/
def children (t : Tree) (n : Node) : List (Edge × Node) :=
  match t.position? n with
  | some i => t.childrenAt i
  | none => []

/-- The positions that were reached from a position. -/
def below (t : Tree) (i : Nat) : List Nat :=
  (t.branches.get i).map Prod.snd

/-- A walk over the positions in the queue and all below them, level by level. -/
def walk (t : Tree) : Nat → List Nat → List Nat
  | 0, _ => []
  | _ + 1, [] => []
  | n + 1, i :: queue => i :: walk t n (queue ++ t.below i)

/-- The nodes below the root, level by level.  Each entry has one parent, so that the walk takes
    no more steps than there are entries. -/
def breadthFirst (t : Tree) : List Node :=
  (t.walk t.size t.root.toList).filterMap t.nodeAt?

/-- The edges from a root to the entry at a position. -/
def pathIn : List TreeEntry → Nat → List Edge
  | [], _ => []
  | e :: older, i =>
    if i = older.length then
      match e.parent with
      | some (p, edge) => pathIn older p ++ [edge]
      | none => []
    else pathIn older i

/-- The edges from a root to a node; nothing if it has no entry. -/
def pathTo? (t : Tree) (n : Node) : Option (List Edge) :=
  (t.position? n).map (pathIn t.entries)

/-- The graph over the locations of the entries. -/
def toGraph (t : Tree) : Graph :=
  Graph.ofList <| t.listing.flatMap fun (entry, i) =>
    (t.childrenAt i).map fun (e, child) => e.between entry.node.location child.location

end Tree

end CodeReach
