/-
  CodeReach.Proofs.Flow.Graph

  Graphs as sets of edges: what `insert` and the constructors built on it do to
  membership, and in which order the edges are kept.  Edges are only ever appended, and
  the graph of a list keeps the first of equal edges (`toList_ofList`).  First come the
  facts on lists without duplicates and on positions in lists that this needs.
-/
import CodeReach.Flow.Graph
import Mathlib.Data.List.Basic
import Mathlib.Data.List.Induction

namespace CodeReach

/-! ## Duplicates -/

/-- An element is kept where it occurs first. -/
theorem eraseDups_append_singleton {α : Type} [DecidableEq α] (xs : List α) (x : α) :
    (xs ++ [x]).eraseDups = if x ∈ xs then xs.eraseDups else xs.eraseDups ++ [x] := by
  rw [List.eraseDups_append]
  by_cases hx : x ∈ xs
  · have hrest : [x].removeAll xs = [] := by simp [List.removeAll, hx]
    rw [if_pos hx, hrest, List.eraseDups_nil, List.append_nil]
  · have hrest : [x].removeAll xs = [x] := by simp [List.removeAll, hx]
    rw [if_neg hx, hrest]
    rfl

theorem nodup_eraseDups {α : Type} [DecidableEq α] (xs : List α) : xs.eraseDups.Nodup := by
  induction xs using List.reverseRecOn with
  | nil => exact List.nodup_nil
  | append_singleton xs x ih =>
      rw [eraseDups_append_singleton]
      split
      · exact ih
      · rename_i hx
        refine List.nodup_append.2 ⟨ih, List.pairwise_singleton _ x, fun y hy z hz hyz => hx ?_⟩
        rw [← List.mem_singleton.1 hz, ← hyz]
        exact List.mem_eraseDups.1 hy

/-- Whether duplicates go first or the elements that are not kept makes no difference. -/
theorem eraseDups_filter {α : Type} [DecidableEq α] (keep : α → Bool) (xs : List α) :
    (xs.filter keep).eraseDups = xs.eraseDups.filter keep := by
  induction xs using List.reverseRecOn with
  | nil => rfl
  | append_singleton xs x ih =>
      rw [List.filter_append, eraseDups_append_singleton]
      by_cases hx : keep x = true
      · have hmem : x ∈ xs.filter keep ↔ x ∈ xs := by simp [hx]
        rw [List.filter_cons_of_pos hx, List.filter_nil, eraseDups_append_singleton, ih]
        by_cases hxs : x ∈ xs
        · rw [if_pos (hmem.2 hxs), if_pos hxs]
        · rw [if_neg (mt hmem.1 hxs), if_neg hxs, List.filter_append, List.filter_cons_of_pos hx,
            List.filter_nil]
      · rw [List.filter_cons_of_neg hx, List.filter_nil, List.append_nil, ih]
        split
        · rfl
        · rw [List.filter_append, List.filter_cons_of_neg hx, List.filter_nil, List.append_nil]

/-! ## Positions -/

/-- Looking up all positions in order gives the list. -/
theorem filterMap_getElem?_range {α : Type} (xs : List α) :
    (List.range xs.length).filterMap (xs[·]?) = xs := by
  induction xs using List.reverseRecOn with
  | nil => rfl
  | append_singleton xs x ih =>
      have hbefore : (List.range xs.length).filterMap ((xs ++ [x])[·]?) =
          (List.range xs.length).filterMap (xs[·]?) :=
        List.filterMap_congr fun i hi => List.getElem?_append_left (List.mem_range.1 hi)
      rw [List.length_append, List.length_singleton, List.range_succ, List.filterMap_append,
        hbefore, ih]
      simp

namespace Graph

variable {g : Graph} {e d : Edge} {es : List Edge}

theorem contains_iff : g.contains e = true ↔ e ∈ g.edges := by
  rw [contains, List.contains_iff_mem, g.known_perm.mem_iff, Array.mem_toList_iff]

theorem mem_insert : d ∈ (g.insert e).edges ↔ d = e ∨ d ∈ g.edges := by
  unfold insert
  split
  · rename_i he
    constructor
    · exact Or.inr
    · rintro (rfl | hd)
      · exact contains_iff.1 he
      · exact hd
  · rw [Array.mem_push]
    exact Or.comm

theorem mem_insertAll : d ∈ (g.insertAll es).edges ↔ d ∈ es ∨ d ∈ g.edges := by
  induction es generalizing g with
  | nil => simp [insertAll]
  | cons e es ih =>
      show d ∈ ((g.insert e).insertAll es).edges ↔ _
      rw [ih, mem_insert, List.mem_cons, or_assoc, or_left_comm]

theorem mem_ofList : d ∈ (ofList es).edges ↔ d ∈ es := by
  rw [ofList, mem_insertAll]
  simp [empty]

/-! ## Order -/

theorem toList_insert : (g.insert e).edges.toList =
    if e ∈ g.edges then g.edges.toList else g.edges.toList ++ [e] := by
  unfold insert
  by_cases he : e ∈ g.edges
  · rw [if_pos (contains_iff.2 he), if_pos he]
  · rw [if_neg fun hc => he (contains_iff.1 hc), if_neg he]
    exact Array.toList_push

/-- Edges are only appended. -/
theorem prefix_insertAll (g : Graph) (es : List Edge) :
    g.edges.toList <+: (g.insertAll es).edges.toList := by
  refine List.foldlRecOn (motive := fun h : Graph => g.edges.toList <+: h.edges.toList) es _
    (List.prefix_refl _) ?_
  intro h hprefix e _
  rw [toList_insert]
  split
  · exact hprefix
  · exact hprefix.trans (List.prefix_append _ _)

theorem insertAll_insertAll (g : Graph) (es ds : List Edge) :
    (g.insertAll es).insertAll ds = g.insertAll (es ++ ds) :=
  List.foldl_append.symm

/-- The graph of a list has its edges in order, each where it occurs first. -/
theorem toList_ofList (es : List Edge) : (ofList es).edges.toList = es.eraseDups := by
  induction es using List.reverseRecOn with
  | nil => rfl
  | append_singleton es e ih =>
      have hsnoc : ofList (es ++ [e]) = (ofList es).insert e := List.foldl_append
      rw [hsnoc, toList_insert, ih, eraseDups_append_singleton]
      simp only [mem_ofList]

end Graph

end CodeReach
