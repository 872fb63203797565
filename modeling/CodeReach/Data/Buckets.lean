/-
  CodeReach.Data.Buckets

  A table of lists by key.  Every key has a bucket, empty unless something was put
  into it; a bucket keeps the order in which it was filled.  Rows are made when
  something is put under a key for the first time (`modify`), and a row goes when the
  last element is taken out of its bucket (`prune`).  What the two do to the buckets is
  said by `get_modify` and `get_prune`.
-/

namespace CodeReach

/-- Lists of `α` by keys of type `κ`. -/
structure Buckets (κ α : Type) where
  rows : List (κ × List α)
  nodup_keys : (rows.map Prod.fst).Nodup
deriving DecidableEq

namespace Buckets

variable {κ α : Type} [DecidableEq κ]

/-- All buckets are empty. -/
def empty : Buckets κ α :=
  ⟨[], List.nodup_nil⟩

instance : Inhabited (Buckets κ α) :=
  ⟨empty⟩

/-- The bucket of `k` in a list of rows; the first row of a key counts. -/
def find (k : κ) : List (κ × List α) → List α
  | [] => []
  | (j, xs) :: rest => if k = j then xs else find k rest

/-- The bucket of `k`. -/
def get (b : Buckets κ α) (k : κ) : List α :=
  find k b.rows

/-- The rows with the bucket of `k` changed by `f`. -/
def modifyRows (k : κ) (f : List α → List α) : List (κ × List α) → List (κ × List α)
  | [] => [(k, f [])]
  | (j, xs) :: rest => if k = j then (j, f xs) :: rest else (j, xs) :: modifyRows k f rest

theorem keys_modifyRows (k : κ) (f : List α → List α) (rows : List (κ × List α)) :
    (modifyRows k f rows).map Prod.fst =
      if k ∈ rows.map Prod.fst then rows.map Prod.fst else rows.map Prod.fst ++ [k] := by
  induction rows with
  | nil => rfl
  | cons row rest ih =>
    rw [modifyRows]
    split
    · rename_i heq
      rw [if_pos (by rw [heq]; exact List.mem_cons_self)]
      rfl
    · rename_i hne
      have hmem : k ∈ (row :: rest).map Prod.fst ↔ k ∈ rest.map Prod.fst :=
        List.mem_cons.trans (or_iff_right hne)
      rw [List.map_cons, ih]
      by_cases hk : k ∈ rest.map Prod.fst
      · rw [if_pos hk, if_pos (hmem.2 hk)]
        rfl
      · rw [if_neg hk, if_neg fun h => hk (hmem.1 h)]
        rfl

theorem nodup_keys_modifyRows {rows : List (κ × List α)} (h : (rows.map Prod.fst).Nodup) (k : κ)
    (f : List α → List α) : ((modifyRows k f rows).map Prod.fst).Nodup := by
  rw [keys_modifyRows]
  split
  · exact h
  · rename_i hk
    refine List.nodup_append.2 ⟨h, List.nodup_cons.2 ⟨List.not_mem_nil, List.nodup_nil⟩, ?_⟩
    intro i hi j hj hij
    exact hk (List.mem_singleton.1 hj ▸ hij ▸ hi)

/-- The table with the bucket of `k` changed by `f`. -/
def modify (b : Buckets κ α) (k : κ) (f : List α → List α) : Buckets κ α :=
  ⟨modifyRows k f b.rows, nodup_keys_modifyRows b.nodup_keys k f⟩

/-- The table with `x` appended to the bucket of `k`. -/
def push (b : Buckets κ α) (k : κ) (x : α) : Buckets κ α :=
  b.modify k (· ++ [x])

/-- The rows with nothing left in the bucket of `k` but what is kept.  A bucket of which nothing is
    left loses its row. -/
def pruneRows (k : κ) (keep : α → Bool) : List (κ × List α) → List (κ × List α)
  | [] => []
  | (j, xs) :: rest =>
    if k = j then
      if (xs.filter keep).isEmpty then rest else (j, xs.filter keep) :: rest
    else (j, xs) :: pruneRows k keep rest

theorem keys_pruneRows_sublist (k : κ) (keep : α → Bool) (rows : List (κ × List α)) :
    ((pruneRows k keep rows).map Prod.fst).Sublist (rows.map Prod.fst) := by
  induction rows with
  | nil => exact List.Sublist.refl _
  | cons row rest ih =>
    rw [pruneRows]
    split
    · split
      · exact List.sublist_cons_self _ _
      · exact List.Sublist.refl _
    · exact ih.cons_cons _

/-- The table with nothing left in the bucket of `k` but what is kept. -/
def prune (b : Buckets κ α) (k : κ) (keep : α → Bool) : Buckets κ α :=
  ⟨pruneRows k keep b.rows, (keys_pruneRows_sublist k keep b.rows).nodup b.nodup_keys⟩

/-- The keys that have a row. -/
def keys (b : Buckets κ α) : List κ :=
  b.rows.map Prod.fst

/-- The contents of all buckets. -/
def values (b : Buckets κ α) : List α :=
  b.rows.flatMap (·.2)

theorem find_modifyRows (k j : κ) (f : List α → List α) (rows : List (κ × List α)) :
    find j (modifyRows k f rows) = if k = j then f (find j rows) else find j rows := by
  induction rows with
  | nil =>
    by_cases h : k = j
    · simp [modifyRows, find, h]
    · simp [modifyRows, find, h, Ne.symm h]
  | cons row rest ih =>
    obtain ⟨i, xs⟩ := row
    by_cases hk : k = i
    · subst hk
      by_cases hj : j = k
      · simp [modifyRows, find, hj]
      · simp [modifyRows, find, hj, Ne.symm hj]
    · by_cases hj : j = i
      · subst hj
        simp [modifyRows, find, hk]
      · simp [modifyRows, find, hk, hj, ih]

/-- `modify` changes the bucket of its key and no other. -/
theorem get_modify (b : Buckets κ α) (k j : κ) (f : List α → List α) :
    (b.modify k f).get j = if k = j then f (b.get j) else b.get j :=
  find_modifyRows k j f b.rows

theorem find_of_not_mem_keys {k : κ} {rows : List (κ × List α)} (h : k ∉ rows.map Prod.fst) :
    find k rows = [] := by
  induction rows with
  | nil => rfl
  | cons row rest ih =>
    obtain ⟨hne, hrest⟩ := not_or.1 (mt List.mem_cons.2 h)
    rw [find, if_neg hne]
    exact ih hrest

theorem find_pruneRows (k j : κ) (keep : α → Bool) {rows : List (κ × List α)}
    (h : (rows.map Prod.fst).Nodup) :
    find j (pruneRows k keep rows) = if k = j then (find j rows).filter keep else find j rows := by
  induction rows with
  | nil => simp [pruneRows, find]
  | cons row rest ih =>
    obtain ⟨i, xs⟩ := row
    obtain ⟨hi, hrest⟩ := List.nodup_cons.1 h
    by_cases hk : k = i
    · subst hk
      by_cases hj : j = k
      · subst hj
        -- There is no other row of the key that could come to light.
        have hnone : find j rest = [] := find_of_not_mem_keys hi
        rw [pruneRows, if_pos rfl, if_pos rfl, find, if_pos rfl]
        split
        · rename_i hempty
          rw [hnone, List.isEmpty_iff.1 hempty]
        · rw [find, if_pos rfl]
      · rw [pruneRows, if_pos rfl, if_neg (Ne.symm hj), find, if_neg hj]
        split
        · rfl
        · rw [find, if_neg hj]
    · rw [pruneRows, if_neg hk, find, find]
      by_cases hj : j = i
      · subst hj
        rw [if_pos rfl, if_pos rfl, if_neg hk]
      · rw [if_neg hj, if_neg hj]
        exact ih hrest

/-- `prune` takes elements out of the bucket of its key and changes no other. -/
theorem get_prune (b : Buckets κ α) (k j : κ) (keep : α → Bool) :
    (b.prune k keep).get j = if k = j then (b.get j).filter keep else b.get j :=
  find_pruneRows k j keep b.nodup_keys

end Buckets

end CodeReach
