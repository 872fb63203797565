/-
  CodeReach.Proofs.Domain.ValueSet

  What the operations on value sets mean.  Each one allows at least the words that
  it has to: a function applied to allowed words gives an allowed word, and a merge
  allows whatever one of its sides allows.  A result that is known allows nothing
  else: each of its words comes from allowed words.  Inclusion is a partial order,
  and a merge is above both of its sides.
-/
import CodeReach.Domain.Meaning

namespace CodeReach

namespace ValueSet

/-! ## Allowed words -/

@[simp] theorem allows_unknown (w : Word) : unknown.Allows w := trivial

@[simp] theorem allows_known {s : OrdSet Word} {hs : s.size ≤ maxConstants} {w : Word} :
    (known s hs).Allows w ↔ w ∈ s := Iff.rfl

@[simp] theorem allows_const {v w : Word} : (const v).Allows w ↔ w = v :=
  OrdSet.mem_singleton

/-- Where the possible words are known, they are the allowed ones. -/
theorem allows_iff_of_constants? {v : ValueSet} {ws : List Word} (h : v.constants? = some ws)
    {w : Word} : v.Allows w ↔ w ∈ ws := by
  cases v with
  | unknown => exact absurd h (by simp [constants?])
  | known s hs =>
      rw [← Option.some.inj h]
      exact allows_known

theorem eq_of_single? {v : ValueSet} {x w : Word} (h : v.single? = some x) (hw : v.Allows w) :
    w = x := by
  unfold single? at h
  split at h
  · rename_i y hy
    have hmem := (allows_iff_of_constants? hy).1 hw
    rw [List.mem_singleton] at hmem
    exact hmem.trans (Option.some.inj h)
  · exact absurd h (by simp)

theorem allows_ofSet {s : OrdSet Word} {w : Word} (h : w ∈ s) : (ofSet s).Allows w := by
  unfold ofSet
  split
  · exact h
  · exact allows_unknown w

theorem allows_ofList {ws : List Word} {w : Word} (h : w ∈ ws) : (ofList ws).Allows w :=
  allows_ofSet (OrdSet.mem_ofList.2 h)

theorem allows_map {v : ValueSet} {w : Word} (f : Word → Word) (h : v.Allows w) :
    (v.map f).Allows (f w) := by
  unfold map
  split
  · rename_i ws hws
    exact allows_ofList (List.mem_map_of_mem ((allows_iff_of_constants? hws).1 h))
  · exact allows_unknown _

theorem allows_combine {v w : ValueSet} {x y : Word} (f : Word → Word → Word)
    (hx : v.Allows x) (hy : w.Allows y) : (combine f v w).Allows (f x y) := by
  unfold combine
  split
  · rename_i xs ys hxs hys
    apply allows_ofList
    rw [List.mem_flatMap]
    exact ⟨x, (allows_iff_of_constants? hxs).1 hx,
      List.mem_map_of_mem ((allows_iff_of_constants? hys).1 hy)⟩
  · exact allows_unknown _

/-! ## Where results come from -/

theorem mem_of_allows_ofList {ws : List Word} {x : Word} (hne : ofList ws ≠ unknown)
    (h : (ofList ws).Allows x) : x ∈ ws := by
  unfold ofList ofSet at h hne
  split at h
  · exact OrdSet.mem_ofList.1 h
  · rename_i hsize
    exact absurd (dif_neg hsize) hne

theorem exists_of_allows_map {v : ValueSet} {g : Word → Word} {y : Word}
    (hne : v.map g ≠ unknown) (h : (v.map g).Allows y) :
    ∃ x, v.Allows x ∧ g x = y := by
  unfold map at h hne
  split at h
  · rename_i xs hxs
    obtain ⟨x, hx, rfl⟩ := List.mem_map.1 (mem_of_allows_ofList (by simpa [hxs] using hne) h)
    exact ⟨x, (allows_iff_of_constants? hxs).2 hx, rfl⟩
  · rename_i hnone
    exact absurd (by simp [hnone]) hne

theorem exists_of_allows_combine {l r : ValueSet} {f : Word → Word → Word} {y : Word}
    (hne : combine f l r ≠ unknown) (h : (combine f l r).Allows y) :
    ∃ a b, l.Allows a ∧ r.Allows b ∧ f a b = y := by
  unfold combine at h hne
  split at h
  · rename_i xs ys hxs hys
    have hlist := mem_of_allows_ofList (by simpa [hxs, hys] using hne) h
    obtain ⟨a, ha, hmem⟩ := List.mem_flatMap.1 hlist
    obtain ⟨b, hb, rfl⟩ := List.mem_map.1 hmem
    exact ⟨a, b, (allows_iff_of_constants? hxs).2 ha, (allows_iff_of_constants? hys).2 hb, rfl⟩
  · rename_i hnone
    refine absurd ?_ hne
    split
    · rename_i xs ys hxs hys
      exact absurd hys (hnone xs ys hxs)
    · rfl

/-! ## Order -/

/-- Inclusion of known words in known words. -/
theorem known_le_known {s t : OrdSet Word} {hs : s.size ≤ maxConstants}
    {ht : t.size ≤ maxConstants} :
    (known s hs).le (known t ht) = true ↔ ∀ w, w ∈ s → w ∈ t := by
  simp [le, constants?, List.all_eq_true, OrdSet.mem_def]

@[simp] theorem le_unknown (v : ValueSet) : v.le unknown = true := by
  cases v <;> rfl

@[simp] theorem unknown_le {v : ValueSet} : unknown.le v = true ↔ v = unknown := by
  cases v with
  | unknown => simp
  | known s hs => simp [le, constants?]

theorem le_refl (v : ValueSet) : v.le v = true := by
  cases v with
  | unknown => rfl
  | known s hs => exact known_le_known.2 fun _ hw => hw

theorem le_trans {u v w : ValueSet} (huv : u.le v = true) (hvw : v.le w = true) :
    u.le w = true := by
  cases w with
  | unknown => exact le_unknown u
  | known s hs =>
      cases v with
      | unknown => exact absurd (unknown_le.1 hvw) (by simp)
      | known t ht =>
          cases u with
          | unknown => exact absurd (unknown_le.1 huv) (by simp)
          | known r hr =>
              rw [known_le_known] at huv hvw ⊢
              exact fun x hx => hvw x (huv x hx)

theorem le_antisymm {v w : ValueSet} (hvw : v.le w = true) (hwv : w.le v = true) : v = w := by
  cases v with
  | unknown => exact (unknown_le.1 hvw).symm
  | known s hs =>
      cases w with
      | unknown => exact absurd (unknown_le.1 hwv) (by simp)
      | known t ht =>
          rw [known_le_known] at hvw hwv
          have hst : s = t := OrdSet.ext_mem fun x => ⟨hvw x, hwv x⟩
          subst hst
          rfl

/-- A value above another allows what that one allows. -/
theorem allows_of_le {v w : ValueSet} {x : Word} (h : v.le w = true) (hx : v.Allows x) :
    w.Allows x := by
  cases w with
  | unknown => exact allows_unknown x
  | known t ht =>
      cases v with
      | unknown => exact absurd (unknown_le.1 h) (by simp)
      | known s hs => exact known_le_known.1 h x hx

theorem known_le_ofSet {s t : OrdSet Word} {hs : s.size ≤ maxConstants}
    (h : ∀ w, w ∈ s → w ∈ t) : (known s hs).le (ofSet t) = true := by
  unfold ofSet
  split
  · exact known_le_known.2 h
  · exact le_unknown _

theorem le_merge_left (v w : ValueSet) : v.le (v.merge w) = true := by
  cases v with
  | unknown => rfl
  | known s hs =>
      cases w with
      | unknown => exact le_unknown _
      | known t ht => exact known_le_ofSet fun x hx => OrdSet.mem_insertAll.2 (Or.inr hx)

theorem le_merge_right (v w : ValueSet) : w.le (v.merge w) = true := by
  cases w with
  | unknown => cases v <;> rfl
  | known t ht =>
      cases v with
      | unknown => exact le_unknown _
      | known s hs => exact known_le_ofSet fun x hx => OrdSet.mem_insertAll.2 (Or.inl hx)

end ValueSet

end CodeReach
