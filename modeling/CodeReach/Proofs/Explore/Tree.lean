/-
  CodeReach.Proofs.Explore.Tree

  Reachability trees, seen through the positions of their entries.

  A tree only ever grows at its young end, so an entry keeps its position, and the
  parent of an entry is older than the entry itself.  A tree is `Linked` by a
  relation if this is so and each entry stands to its parent as the relation says.
  Paths (`pathIn_eq`) and the rebuilt graph (`mem_toGraph`) are read off the same
  links, so whatever the relation says carries over to both.
-/
import CodeReach.Explore.Tree
import CodeReach.Proofs.Flow.Graph
import Mathlib.Data.List.Nodup

namespace CodeReach

namespace Tree

variable {t : Tree} {entries older : List TreeEntry} {c d : TreeEntry} {i j : Nat} {n : Node}

/-! ## Positions -/

/-- The entry at a position. -/
def entryAt? (entries : List TreeEntry) (i : Nat) : Option TreeEntry :=
  entries.reverse[i]?

theorem entryAt?_cons : entryAt? (c :: older) i =
    if i = older.length then some c else entryAt? older i := by
  unfold entryAt?
  rw [List.reverse_cons, List.getElem?_append, List.length_reverse]
  by_cases hlt : i < older.length
  · rw [if_pos hlt, if_neg (by omega)]
  · rw [if_neg hlt]
    by_cases heq : i = older.length
    · rw [if_pos heq, heq, Nat.sub_self]
      rfl
    · -- Past the youngest entry there is nothing in either list.
      rw [if_neg heq, List.getElem?_eq_none (by simp; omega),
        List.getElem?_eq_none (by simp; omega)]

theorem lt_of_entryAt? (h : entryAt? entries i = some c) : i < entries.length := by
  have hlt := (List.getElem?_eq_some_iff.1 h).1
  rwa [List.length_reverse] at hlt

theorem mem_iff_entryAt? : c ∈ entries ↔ ∃ i, entryAt? entries i = some c := by
  rw [← List.mem_reverse, List.mem_iff_getElem?]
  rfl

/-- Entries keep their positions when a younger one is added. -/
theorem entryAt?_cons_of_some (h : entryAt? older i = some c) :
    entryAt? (d :: older) i = some c := by
  have hlt := lt_of_entryAt? h
  rw [entryAt?_cons, if_neg (by omega), h]

theorem entryAt?_of_findPosition {id : Nat} (h : findPosition id entries = some i) :
    ∃ c, entryAt? entries i = some c ∧ c.node.id = id := by
  induction entries with
  | nil => exact absurd h (by simp [findPosition])
  | cons e older ih =>
      rw [findPosition] at h
      split at h
      · rename_i hid
        refine ⟨e, ?_, hid⟩
        rw [entryAt?_cons, if_pos (Option.some.inj h).symm]
      · obtain ⟨c, hc, hid⟩ := ih h
        exact ⟨c, entryAt?_cons_of_some hc, hid⟩

theorem findPosition_isSome {id : Nat} :
    (findPosition id entries).isSome = true ↔ ∃ c ∈ entries, c.node.id = id := by
  induction entries with
  | nil => simp [findPosition]
  | cons e older ih =>
      rw [findPosition]
      split
      · rename_i hid
        simp [hid]
      · rename_i hid
        rw [ih]
        simp [hid]

/-- The index leads to the latest entry with an identity. -/
theorem position?_eq : t.position? n = findPosition n.id t.entries :=
  t.index_eq n.id

theorem entryAt?_of_position? (h : t.position? n = some i) :
    ∃ c, entryAt? t.entries i = some c ∧ c.node.id = n.id :=
  entryAt?_of_findPosition (position?_eq.symm.trans h)

theorem pathTo?_isSome : (t.pathTo? n).isSome = true ↔ ∃ c ∈ t.entries, c.node.id = n.id := by
  rw [pathTo?, Option.isSome_map, position?_eq, findPosition_isSome]

/-! ## Identities -/

/-- No two entries have the same identity. -/
def Distinct (t : Tree) : Prop :=
  (t.entries.map fun c => c.node.id).Nodup

/-- No entry has the identity. -/
def Unused (t : Tree) (id : Nat) : Prop :=
  ∀ c ∈ t.entries, c.node.id ≠ id

/-- The node itself, and not only its identity, has an entry. -/
def Shows (t : Tree) (n : Node) : Prop :=
  ∃ c ∈ t.entries, c.node = n

theorem Distinct.eq_of_id (h : t.Distinct) (hc : c ∈ t.entries) (hd : d ∈ t.entries)
    (hid : c.node.id = d.node.id) : c = d :=
  List.inj_on_of_nodup_map h hc hd hid

theorem Shows.pathTo?_isSome (h : t.Shows n) : (t.pathTo? n).isSome = true := by
  obtain ⟨c, hc, rfl⟩ := h
  exact Tree.pathTo?_isSome.2 ⟨c, hc, rfl⟩

/-- Where identities differ, a node is found at the position of its own entry. -/
theorem Shows.exists_position (h : t.Shows n) (hdistinct : t.Distinct) :
    ∃ i c, t.position? n = some i ∧ entryAt? t.entries i = some c ∧ c.node = n := by
  obtain ⟨c, hc, rfl⟩ := h
  have hsome : (t.position? c.node).isSome = true := by
    rw [position?_eq]
    exact findPosition_isSome.2 ⟨c, hc, rfl⟩
  obtain ⟨i, hi⟩ := Option.isSome_iff_exists.1 hsome
  obtain ⟨d, hd, hid⟩ := entryAt?_of_position? hi
  obtain rfl := hdistinct.eq_of_id (mem_iff_entryAt?.2 ⟨i, hd⟩) hc hid
  exact ⟨i, d, hi, hd, rfl⟩

/-! ## Links -/

/-- Parents are older than their children, and each child stands to its parent as `P` says. -/
def Linked (P : Node → Edge → Node → Prop) (t : Tree) : Prop :=
  ∀ j c i edge, entryAt? t.entries j = some c → c.parent = some (i, edge) →
    i < j ∧ ∃ d, entryAt? t.entries i = some d ∧ P d.node edge c.node

variable {P Q : Node → Edge → Node → Prop}

theorem Linked.mono (h : t.Linked P) (hPQ : ∀ n edge m, P n edge m → Q n edge m) :
    t.Linked Q := by
  intro j c i edge hc hparent
  obtain ⟨hlt, d, hd, hP⟩ := h j c i edge hc hparent
  exact ⟨hlt, d, hd, hPQ _ _ _ hP⟩

/-- A younger entry keeps a tree linked if its own link is in order. -/
theorem Linked.cons {t' : Tree} (h : t.Linked P) (hentries : t'.entries = c :: t.entries)
    (hnew : ∀ i edge, c.parent = some (i, edge) →
      ∃ d, entryAt? t.entries i = some d ∧ P d.node edge c.node) :
    t'.Linked P := by
  intro j b i edge hb hparent
  rw [hentries] at hb ⊢
  rw [entryAt?_cons] at hb
  split at hb
  · obtain rfl := Option.some.inj hb
    obtain ⟨d, hd, hP⟩ := hnew i edge hparent
    have hlt := lt_of_entryAt? hd
    exact ⟨by omega, d, entryAt?_cons_of_some hd, hP⟩
  · obtain ⟨hlt, d, hd, hP⟩ := h j b i edge hb hparent
    exact ⟨hlt, d, entryAt?_cons_of_some hd, hP⟩

/-- The path to an entry is the path to its parent and the edge from there. -/
theorem pathIn_eq (hc : entryAt? entries j = some c)
    (holder : ∀ i edge, c.parent = some (i, edge) → i < j) :
    pathIn entries j = match c.parent with
      | some (i, edge) => pathIn entries i ++ [edge]
      | none => [] := by
  induction entries with
  | nil => exact absurd hc (by simp [entryAt?])
  | cons e older ih =>
      -- Below the youngest entry, the path does not see it.
      have hskip : ∀ i, i < older.length → pathIn (e :: older) i = pathIn older i := by
        intro i hi
        rw [pathIn, if_neg (by omega)]
      rw [entryAt?_cons] at hc
      split at hc
      · rename_i hj
        obtain rfl := Option.some.inj hc
        rw [pathIn, if_pos hj]
        cases hparent : e.parent with
        | none => rfl
        | some link =>
            obtain ⟨i, edge⟩ := link
            have hi := holder i edge hparent
            dsimp only
            rw [hskip i (by omega)]
      · have hj := lt_of_entryAt? hc
        rw [hskip j hj, ih hc]
        cases hparent : c.parent with
        | none => rfl
        | some link =>
            obtain ⟨i, edge⟩ := link
            have hi := holder i edge hparent
            dsimp only
            rw [hskip i (by omega)]

/-! ## The rebuilt graph -/

theorem mem_linksFrom {edge : Edge} : (edge, j) ∈ linksFrom i entries ↔
    ∃ c, entryAt? entries j = some c ∧ c.parent = some (i, edge) := by
  induction entries with
  | nil => simp [linksFrom, entryAt?]
  | cons c older ih =>
      -- The youngest entry stands at the end of the list of its parent, and in no other.
      have hyoungest : (edge, j) ∈ linksFrom i (c :: older) ↔
          (edge, j) ∈ linksFrom i older ∨ (j = older.length ∧ c.parent = some (i, edge)) := by
        rw [linksFrom]
        cases hparent : c.parent with
        | none => simp
        | some link =>
            obtain ⟨p, e⟩ := link
            by_cases hp : i = p
            · subst hp
              simp [and_comm, eq_comm]
            · simp [hp, Ne.symm hp]
      rw [hyoungest, ih, entryAt?_cons]
      by_cases hj : j = older.length
      · rw [if_pos hj]
        constructor
        · rintro (⟨d, hd, -⟩ | ⟨-, hparent⟩)
          · exact absurd (lt_of_entryAt? hd) (by omega)
          · exact ⟨c, rfl, hparent⟩
        · rintro ⟨d, hd, hparent⟩
          obtain rfl := Option.some.inj hd
          exact Or.inr ⟨hj, hparent⟩
      · simp [hj]

/-- The branches at a position lead to the entries that have it as their parent. -/
theorem mem_branches {edge : Edge} : (edge, j) ∈ t.branches.get i ↔
    ∃ c, entryAt? t.entries j = some c ∧ c.parent = some (i, edge) := by
  rw [t.branches_eq, mem_linksFrom]

theorem mem_childrenAt {edge : Edge} {m : Node} : (edge, m) ∈ t.childrenAt i ↔
    ∃ c ∈ t.entries, c.parent = some (i, edge) ∧ c.node = m := by
  rw [childrenAt, List.mem_filterMap]
  constructor
  · rintro ⟨⟨e, j⟩, hbranch, hnode⟩
    obtain ⟨c, hc, hparent⟩ := mem_branches.1 hbranch
    have hat : t.nodeAt? j = some c.node := congrArg (Option.map TreeEntry.node) hc
    simp only [hat, Option.map_some, Option.some.injEq, Prod.mk.injEq] at hnode
    obtain ⟨rfl, rfl⟩ := hnode
    exact ⟨c, mem_iff_entryAt?.2 ⟨j, hc⟩, hparent, rfl⟩
  · rintro ⟨c, hmem, hparent, rfl⟩
    obtain ⟨j, hc⟩ := mem_iff_entryAt?.1 hmem
    have hat : t.nodeAt? j = some c.node := congrArg (Option.map TreeEntry.node) hc
    exact ⟨(edge, j), mem_branches.2 ⟨c, hc, hparent⟩, by simp [hat]⟩

/-- The edges of the rebuilt graph are the links of the tree, moved to the locations of the nodes
    at their ends. -/
theorem mem_toGraph {edge : Edge} : edge ∈ t.toGraph.edges ↔
    ∃ i d c e, entryAt? t.entries i = some d ∧ c ∈ t.entries ∧ c.parent = some (i, e) ∧
      edge = e.between d.node.location c.node.location := by
  rw [toGraph, Graph.mem_ofList, List.mem_flatMap]
  constructor
  · rintro ⟨⟨d, i⟩, hd, hedge⟩
    obtain ⟨⟨e, m⟩, hchild, rfl⟩ := List.mem_map.1 hedge
    obtain ⟨c, hc, hparent, rfl⟩ := mem_childrenAt.1 hchild
    exact ⟨i, d, c, e, List.mem_zipIdx_iff_getElem?.1 hd, hc, hparent, rfl⟩
  · rintro ⟨i, d, c, e, hd, hc, hparent, rfl⟩
    exact ⟨(d, i), List.mem_zipIdx_iff_getElem?.2 hd,
      List.mem_map.2 ⟨(e, c.node), mem_childrenAt.2 ⟨c, hc, hparent, rfl⟩, rfl⟩⟩

end Tree

end CodeReach
