/-
  CodeReach.Data.OrdSet

  Finite sets over an ordered type, kept as the strictly ascending list of their
  members.  A set has one representation, so two sets are equal exactly when they
  have the same members, and listings come out sorted.
-/

namespace CodeReach

variable {α : Type}

/-- Strictly ascending: every element is below all later ones. -/
def Ascending [Ord α] (xs : List α) : Prop :=
  xs.Pairwise fun a b => compare a b = .lt

/-- A finite set as the ascending list of its members. -/
structure OrdSet (α : Type) [Ord α] where
  toList : List α
  ascending : Ascending toList

namespace Ascending

/-- Insertion at the place the order asks for; an element that is there is not repeated. -/
def insert [Ord α] (x : α) : List α → List α
  | [] => [x]
  | y :: ys =>
    match compare x y with
    | .lt => x :: y :: ys
    | .eq => y :: ys
    | .gt => y :: insert x ys

/-- An insertion adds exactly the inserted element. -/
theorem mem_insert [Ord α] [Std.LawfulEqOrd α] {x y : α} {xs : List α} :
    y ∈ insert x xs ↔ y = x ∨ y ∈ xs := by
  induction xs with
  | nil => simp [insert]
  | cons z zs ih =>
    rw [insert]
    split
    · simp
    · rename_i h
      have hxz : x = z := Std.LawfulEqOrd.eq_of_compare h
      subst hxz
      simp
    · simp only [List.mem_cons, ih]
      constructor
      · rintro (h | h | h)
        · exact Or.inr (Or.inl h)
        · exact Or.inl h
        · exact Or.inr (Or.inr h)
      · rintro (h | h | h)
        · exact Or.inr (Or.inl h)
        · exact Or.inl h
        · exact Or.inr (Or.inr h)

/-- Insertion keeps a list strictly ascending. -/
theorem ascending_insert [Ord α] [Std.TransOrd α] [Std.LawfulEqOrd α] {x : α} {xs : List α}
    (h : Ascending xs) : Ascending (insert x xs) := by
  induction xs with
  | nil => simp [Ascending, insert]
  | cons z zs ih =>
    obtain ⟨hz, hzs⟩ := List.pairwise_cons.1 h
    rw [insert]
    split
    · rename_i hlt
      refine List.pairwise_cons.2 ⟨fun b hb => ?_, h⟩
      rcases List.mem_cons.1 hb with rfl | hb
      · exact hlt
      · exact Std.TransCmp.lt_trans hlt (hz b hb)
    · exact h
    · rename_i hgt
      refine List.pairwise_cons.2 ⟨fun b hb => ?_, ih hzs⟩
      rcases mem_insert.1 hb with rfl | hb
      · exact Std.OrientedCmp.gt_iff_lt.1 hgt
      · exact hz b hb

/-- An element below a strictly ascending list is not in it. -/
theorem not_mem_of_lt [Ord α] [Std.TransOrd α] {x : α} {xs : List α}
    (h : ∀ a ∈ xs, compare x a = .lt) : x ∉ xs := fun hx => by
  have hxx := h x hx
  rw [Std.ReflOrd.compare_self] at hxx
  exact absurd hxx (by decide)

/-- Strictly ascending lists with the same elements are equal. -/
theorem eq_of_mem_iff [Ord α] [Std.TransOrd α] {xs ys : List α}
    (hx : Ascending xs) (hy : Ascending ys) (h : ∀ a, a ∈ xs ↔ a ∈ ys) : xs = ys := by
  induction xs generalizing ys with
  | nil => exact (List.eq_nil_iff_forall_not_mem.2 fun a ha => by simpa using (h a).2 ha).symm
  | cons x xs ih =>
    obtain ⟨hxlt, hxs⟩ := List.pairwise_cons.1 hx
    cases ys with
    | nil => exact absurd ((h x).1 List.mem_cons_self) (by simp)
    | cons y ys =>
      obtain ⟨hylt, hys⟩ := List.pairwise_cons.1 hy
      have hxy : x = y := by
        rcases List.mem_cons.1 ((h x).1 List.mem_cons_self) with hxy | hxys
        · exact hxy
        · rcases List.mem_cons.1 ((h y).2 List.mem_cons_self) with hyx | hyxs
          · exact hyx.symm
          · have hlt := Std.TransCmp.lt_trans (hylt x hxys) (hxlt y hyxs)
            rw [Std.ReflOrd.compare_self] at hlt
            exact absurd hlt (by decide)
      subst hxy
      refine congrArg _ (ih hxs hys fun a => ⟨fun ha => ?_, fun ha => ?_⟩)
      · rcases List.mem_cons.1 ((h a).1 (List.mem_cons_of_mem _ ha)) with rfl | hmem
        · exact absurd ha (not_mem_of_lt hxlt)
        · exact hmem
      · rcases List.mem_cons.1 ((h a).2 (List.mem_cons_of_mem _ ha)) with rfl | hmem
        · exact absurd ha (not_mem_of_lt hylt)
        · exact hmem

end Ascending

namespace OrdSet

variable [Ord α]

/-- The set without members. -/
def empty : OrdSet α :=
  ⟨[], List.Pairwise.nil⟩

instance : Inhabited (OrdSet α) :=
  ⟨empty⟩

instance [DecidableEq α] : DecidableEq (OrdSet α) := fun a b =>
  decidable_of_iff (a.toList = b.toList)
    ⟨fun h => by cases a; cases b; cases h; rfl, fun h => h ▸ rfl⟩

/-- The set of one member. -/
def singleton (x : α) : OrdSet α :=
  ⟨[x], by simp [Ascending]⟩

instance : Membership α (OrdSet α) :=
  ⟨fun s x => x ∈ s.toList⟩

/-- The number of members. -/
def size (s : OrdSet α) : Nat :=
  s.toList.length

/-- Whether `x` is a member. -/
def contains [BEq α] (s : OrdSet α) (x : α) : Bool :=
  s.toList.contains x

/-- The members that satisfy `p`. -/
def filter (p : α → Bool) (s : OrdSet α) : OrdSet α :=
  ⟨s.toList.filter p, s.ascending.sublist List.filter_sublist⟩

/-- The set with one more member. -/
def insert [Std.TransOrd α] [Std.LawfulEqOrd α] (s : OrdSet α) (x : α) : OrdSet α :=
  ⟨Ascending.insert x s.toList, Ascending.ascending_insert s.ascending⟩

/-- The set with all members of a list added. -/
def insertAll [Std.TransOrd α] [Std.LawfulEqOrd α] (s : OrdSet α) (xs : List α) : OrdSet α :=
  xs.foldr (fun x t => t.insert x) s

/-- The set of the elements of a list. -/
def ofList [Std.TransOrd α] [Std.LawfulEqOrd α] (xs : List α) : OrdSet α :=
  empty.insertAll xs

/-! ## Members -/

theorem mem_def {s : OrdSet α} {x : α} : x ∈ s ↔ x ∈ s.toList := Iff.rfl

@[simp] theorem not_mem_empty {x : α} : x ∉ (empty : OrdSet α) := List.not_mem_nil

@[simp] theorem mem_singleton {x y : α} : x ∈ singleton y ↔ x = y := List.mem_singleton

@[simp] theorem mem_filter {p : α → Bool} {s : OrdSet α} {x : α} :
    x ∈ s.filter p ↔ x ∈ s ∧ p x = true :=
  List.mem_filter

@[simp] theorem mem_insert [Std.TransOrd α] [Std.LawfulEqOrd α] {s : OrdSet α} {x y : α} :
    y ∈ s.insert x ↔ y = x ∨ y ∈ s :=
  Ascending.mem_insert

@[simp] theorem mem_insertAll [Std.TransOrd α] [Std.LawfulEqOrd α] {s : OrdSet α} {xs : List α}
    {y : α} : y ∈ s.insertAll xs ↔ y ∈ xs ∨ y ∈ s := by
  induction xs with
  | nil => simp [insertAll]
  | cons x xs ih =>
    have hcons : s.insertAll (x :: xs) = (s.insertAll xs).insert x := rfl
    rw [hcons, mem_insert, ih, List.mem_cons, or_assoc]

@[simp] theorem mem_ofList [Std.TransOrd α] [Std.LawfulEqOrd α] {xs : List α} {y : α} :
    y ∈ ofList xs ↔ y ∈ xs := by
  simp [ofList]

/-- Sets with the same members are equal. -/
theorem ext_mem [Std.TransOrd α] {s t : OrdSet α} (h : ∀ x, x ∈ s ↔ x ∈ t) : s = t := by
  obtain ⟨xs, hx⟩ := s
  obtain ⟨ys, hy⟩ := t
  have hxy : xs = ys := Ascending.eq_of_mem_iff hx hy h
  subst hxy
  rfl

end OrdSet

end CodeReach
