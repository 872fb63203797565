/-
  CodeReach.Proofs.Data.Buckets

  Tables of lists by key.  Row by row, a table is keyed (`Keyed`) if each element stands
  in the row of its key; then an element is found under its key.  It is filled (`Filled`)
  if no row is empty; then the keys are those under which something is found.  Bucket by
  bucket, a table files a list (`Files`) if each bucket has the elements of the list that
  belong under its key.
-/
import CodeReach.Data.Buckets
import Mathlib.Data.List.Basic

namespace CodeReach

namespace Buckets

variable {κ α : Type} [DecidableEq κ]

/-- Each element stands in the row of its key. -/
def Keyed (key : α → κ) (b : Buckets κ α) : Prop :=
  ∀ row ∈ b.rows, ∀ x ∈ row.2, key x = row.1

/-- No row is empty. -/
def Filled (b : Buckets κ α) : Prop :=
  ∀ row ∈ b.rows, row.2 ≠ []

theorem find_of_mem {rows : List (κ × List α)} (hkeys : (rows.map Prod.fst).Nodup)
    {row : κ × List α} (h : row ∈ rows) : find row.1 rows = row.2 := by
  induction rows with
  | nil => exact absurd h List.not_mem_nil
  | cons first rest ih =>
      obtain ⟨hfirst, hrest⟩ := List.nodup_cons.1 hkeys
      rw [find]
      rcases List.mem_cons.1 h with rfl | h
      · rw [if_pos rfl]
      · have hne : row.1 ≠ first.1 := fun heq => hfirst (heq ▸ List.mem_map_of_mem h)
        rw [if_neg hne]
        exact ih hrest h

/-- An element of the table is found under its key. -/
theorem Keyed.mem_get {key : α → κ} {b : Buckets κ α} (h : b.Keyed key) {x : α}
    (hx : x ∈ b.values) : x ∈ b.get (key x) := by
  obtain ⟨row, hrow, hmem⟩ := List.mem_flatMap.1 hx
  rw [h row hrow x hmem, get, find_of_mem b.nodup_keys hrow]
  exact hmem

theorem exists_row_of_mem_find {rows : List (κ × List α)} {k : κ} {x : α} (h : x ∈ find k rows) :
    ∃ row ∈ rows, row.1 = k ∧ x ∈ row.2 := by
  induction rows with
  | nil => exact absurd h List.not_mem_nil
  | cons row rest ih =>
      rw [find] at h
      split at h
      · rename_i heq
        exact ⟨row, List.mem_cons_self, heq.symm, h⟩
      · obtain ⟨other, hother, hk⟩ := ih h
        exact ⟨other, List.mem_cons_of_mem _ hother, hk⟩

theorem mem_values_of_mem_find {rows : List (κ × List α)} {k : κ} {x : α}
    (h : x ∈ find k rows) : x ∈ rows.flatMap (·.2) := by
  obtain ⟨row, hrow, -, hx⟩ := exists_row_of_mem_find h
  exact List.mem_flatMap.2 ⟨row, hrow, hx⟩

/-- A change that leaves the bucket of a row as it is leaves the table as it is. -/
theorem modifyRows_eq_self {k : κ} {f : List α → List α} {rows : List (κ × List α)}
    (hk : k ∈ rows.map Prod.fst) (hf : f (find k rows) = find k rows) :
    modifyRows k f rows = rows := by
  induction rows with
  | nil => exact absurd hk List.not_mem_nil
  | cons row rest ih =>
      rw [find] at hf
      rw [modifyRows]
      split
      · rename_i heq
        rw [if_pos heq] at hf
        rw [hf]
      · rename_i hne
        rw [if_neg hne] at hf
        rw [ih ((List.mem_cons.1 hk).resolve_left hne) hf]

theorem modify_eq_self {b : Buckets κ α} {k : κ} {f : List α → List α} (hk : k ∈ b.keys)
    (hf : f (b.get k) = b.get k) : b.modify k f = b := by
  have hrows : modifyRows k f b.rows = b.rows := modifyRows_eq_self hk hf
  rw [modify, mk.injEq]
  exact hrows

theorem perm_push (b : Buckets κ α) (k : κ) (x : α) : (b.push k x).values.Perm (x :: b.values) := by
  obtain ⟨rows, hkeys⟩ := b
  show ((modifyRows k (· ++ [x]) rows).flatMap (·.2)).Perm (x :: rows.flatMap (·.2))
  clear hkeys
  induction rows with
  | nil => exact List.Perm.refl _
  | cons row rest ih =>
      rw [modifyRows]
      split
      · -- The element comes last in the row and before the other rows.
        rw [List.flatMap_cons, List.flatMap_cons, List.append_assoc]
        exact List.perm_middle
      · rw [List.flatMap_cons, List.flatMap_cons]
        exact (List.Perm.append_left row.2 ih).trans List.perm_middle

/-- Every row that is left was there, with more in it or not. -/
theorem exists_row_of_mem_pruneRows {k : κ} {keep : α → Bool} {rows : List (κ × List α)}
    {row : κ × List α} (h : row ∈ pruneRows k keep rows) :
    ∃ old ∈ rows, old.1 = row.1 ∧ row.2 ⊆ old.2 ∧ (row.2 = [] → old.2 = []) := by
  induction rows with
  | nil => exact absurd h List.not_mem_nil
  | cons first rest ih =>
      rw [pruneRows] at h
      split at h
      · split at h
        · exact ⟨row, List.mem_cons_of_mem _ h, rfl, List.Subset.refl _, id⟩
        · rename_i hleft
          rcases List.mem_cons.1 h with rfl | h
          · refine ⟨first, List.mem_cons_self, rfl, List.filter_subset_self _, fun hnil => ?_⟩
            exact absurd (List.isEmpty_iff.2 hnil) hleft
          · exact ⟨row, List.mem_cons_of_mem _ h, rfl, List.Subset.refl _, id⟩
      · rcases List.mem_cons.1 h with rfl | h
        · exact ⟨first, List.mem_cons_self, rfl, List.Subset.refl _, id⟩
        · obtain ⟨old, hold, hrow⟩ := ih h
          exact ⟨old, List.mem_cons_of_mem _ hold, hrow⟩

section
variable {key : α → κ} {b : Buckets κ α} {k : κ} {keep : α → Bool}

/-! ## Rows that are not empty -/

omit [DecidableEq κ] in
theorem filled_empty : (empty : Buckets κ α).Filled :=
  fun _ hrow => absurd hrow List.not_mem_nil

theorem Filled.push (h : b.Filled) (k : κ) (x : α) : (b.push k x).Filled := by
  obtain ⟨rows, hkeys⟩ := b
  replace h : ∀ row ∈ rows, row.2 ≠ [] := h
  show ∀ row ∈ modifyRows k (· ++ [x]) rows, row.2 ≠ []
  clear hkeys
  induction rows with
  | nil =>
      intro row hrow
      rw [List.mem_singleton.1 hrow]
      simp
  | cons first rest ih =>
      obtain ⟨hfirst, hrest⟩ := List.forall_mem_cons.1 h
      rw [modifyRows]
      split
      · exact List.forall_mem_cons.2 ⟨by simp, hrest⟩
      · exact List.forall_mem_cons.2 ⟨hfirst, ih hrest⟩

/-- A bucket of which nothing is left goes, so no empty one remains. -/
theorem Filled.prune (h : b.Filled) (k : κ) (keep : α → Bool) : (b.prune k keep).Filled := by
  intro row hrow hnil
  obtain ⟨old, hold, -, -, hempty⟩ := exists_row_of_mem_pruneRows hrow
  exact h old hold (hempty hnil)

/-- In a filled table the keys are those whose buckets have something in them. -/
theorem Filled.mem_keys_iff (h : b.Filled) : k ∈ b.keys ↔ b.get k ≠ [] := by
  rw [keys, List.mem_map]
  constructor
  · rintro ⟨row, hrow, rfl⟩
    rw [get, find_of_mem b.nodup_keys hrow]
    exact h row hrow
  · intro hne
    obtain ⟨x, hx⟩ := List.exists_mem_of_ne_nil _ hne
    obtain ⟨row, hrow, hk, -⟩ := exists_row_of_mem_find hx
    exact ⟨row, hrow, hk⟩

/-! ## Elements in the rows of their keys -/

theorem Keyed.push (h : b.Keyed key) (x : α) : (b.push (key x) x).Keyed key := by
  obtain ⟨rows, hkeys⟩ := b
  replace h : ∀ row ∈ rows, ∀ y ∈ row.2, key y = row.1 := h
  show ∀ row ∈ modifyRows (key x) (· ++ [x]) rows, ∀ y ∈ row.2, key y = row.1
  clear hkeys
  induction rows with
  | nil =>
      intro row hrow y hy
      rw [List.mem_singleton.1 hrow] at hy ⊢
      rw [List.mem_singleton.1 hy]
  | cons first rest ih =>
      obtain ⟨hfirst, hrest⟩ := List.forall_mem_cons.1 h
      rw [modifyRows]
      split
      · rename_i heq
        refine List.forall_mem_cons.2 ⟨fun y hy => ?_, hrest⟩
        rcases List.mem_append.1 hy with hy | hy
        · exact hfirst y hy
        · rw [List.mem_singleton.1 hy]
          exact heq
      · exact List.forall_mem_cons.2 ⟨hfirst, ih hrest⟩

theorem Keyed.prune (h : b.Keyed key) (k : κ) (keep : α → Bool) : (b.prune k keep).Keyed key := by
  intro row hrow x hx
  obtain ⟨old, hold, hkey, hsub, -⟩ := exists_row_of_mem_pruneRows hrow
  rw [h old hold x (hsub hx), hkey]

/-- If all that is not kept belongs into one bucket, it is enough to go through that one. -/
theorem Keyed.values_prune (h : b.Keyed key) (hk : ∀ x, keep x = false → key x = k) :
    (b.prune k keep).values = b.values.filter keep := by
  obtain ⟨rows, hkeys⟩ := b
  show (pruneRows k keep rows).flatMap (·.2) = (rows.flatMap (·.2)).filter keep
  -- In the row of another key everything is kept.
  have hkept : ∀ row ∈ rows, k ≠ row.1 → row.2.filter keep = row.2 := by
    intro row hrow hne
    refine List.filter_eq_self.2 fun x hx => ?_
    cases hx' : keep x with
    | true => rfl
    | false => exact absurd ((hk x hx').symm.trans (h row hrow x hx)) hne
  clear h
  induction rows with
  | nil => rfl
  | cons first rest ih =>
      obtain ⟨hfirst, hrest⟩ := List.nodup_cons.1 hkeys
      obtain ⟨hkeptFirst, hkeptRest⟩ := List.forall_mem_cons.1 hkept
      rw [pruneRows, List.flatMap_cons, List.filter_append]
      split
      · rename_i heq
        have hothers : (rest.flatMap (·.2)).filter keep = rest.flatMap (·.2) := by
          rw [List.filter_flatMap]
          refine List.flatMap_congr fun row hrow => hkeptRest row hrow fun hrow' => ?_
          exact hfirst (List.mem_map.2 ⟨row, hrow, heq ▸ hrow'.symm⟩)
        split
        · rename_i hempty
          rw [List.isEmpty_iff.1 hempty, hothers, List.nil_append]
        · rw [List.flatMap_cons, hothers]
      · rename_i hne
        rw [List.flatMap_cons, ih hrest hkeptRest, hkeptFirst hne]

end

/-! ## Filing -/

/-- Each bucket has those elements of a list that belong under its key, in their order. -/
def Files (key : α → Option κ) (b : Buckets κ α) (xs : List α) : Prop :=
  ∀ k, b.get k = xs.filter (key · = some k)

namespace Files

variable {key : α → Option κ} {b : Buckets κ α} {xs : List α} {x : α} {k : κ} {keep : α → Bool}

theorem empty (key : α → Option κ) : Files key (empty : Buckets κ α) [] :=
  fun _ => rfl

theorem congr {other : α → Option κ} (h : Files key b xs) (hxs : ∀ x ∈ xs, key x = other x) :
    Files other b xs := by
  intro k
  rw [h k]
  exact List.filter_congr fun x hx => by rw [hxs x hx]

theorem push (h : Files key b xs) (hx : key x = some k) : Files key (b.push k x) (xs ++ [x]) := by
  intro j
  rw [Buckets.push, get_modify, h j, List.filter_append]
  by_cases hj : k = j
  · rw [if_pos hj, List.filter_cons_of_pos (by simp [hx, hj]), List.filter_nil]
  · rw [if_neg hj, List.filter_cons_of_neg (by simp [hx, hj]), List.filter_nil, List.append_nil]

/-- What belongs under no key is not filed. -/
theorem append_of_none (h : Files key b xs) (hx : key x = none) : Files key b (xs ++ [x]) := by
  intro k
  rw [h k, List.filter_append, List.filter_cons_of_neg (by simp [hx]), List.filter_nil,
    List.append_nil]

/-- The bucket of a key under which everything is kept stays the same. -/
theorem get_of_kept (h : Files key b xs) (hkept : ∀ x ∈ xs, keep x = false → key x ≠ some k) :
    b.get k = (xs.filter keep).filter (key · = some k) := by
  rw [h k, List.filter_comm _ keep]
  refine (List.filter_eq_self.2 fun x hx => ?_).symm
  obtain ⟨hx, hkey⟩ := List.mem_filter.1 hx
  cases hx' : keep x with
  | true => rfl
  | false => exact absurd (of_decide_eq_true hkey) (hkept x hx hx')

/-- Elements under one key are taken out there. -/
theorem discard (h : Files key b xs) (hk : ∀ x ∈ xs, keep x = false → key x = some k) :
    Files key (b.prune k keep) (xs.filter keep) := by
  intro j
  rw [get_prune]
  split
  · rw [h j, List.filter_comm keep]
  · rename_i hj
    refine h.get_of_kept fun x hx hx' hkey => hj ?_
    exact Option.some.inj ((hk x hx hx').symm.trans hkey)

/-- What was not filed need not be taken out. -/
theorem discard_of_none (h : Files key b xs) (hk : ∀ x ∈ xs, keep x = false → key x = none) :
    Files key b (xs.filter keep) := by
  intro j
  refine h.get_of_kept fun x hx hx' hkey => ?_
  rw [hk x hx hx'] at hkey
  exact absurd hkey (by simp)

end Files

end Buckets

end CodeReach
