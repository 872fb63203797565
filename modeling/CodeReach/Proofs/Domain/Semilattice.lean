/-
  CodeReach.Proofs.Domain.Semilattice

  Value sets and register files are join-semilattices, and the order is that of their
  meanings.  A value set is below another exactly if it allows no other words
  (`ValueSet.le_iff_allows`).  For register files this needs a register file that is
  described: an empty value set in one register makes the others irrelevant
  (`Registers.le_iff_describes`).

  The union of two value sets may be made word by word, and may be given up at any of
  the words.  What comes out is the least value set above both, so neither the order of
  the words nor the grouping of the unions shows (`ValueSet.foldl_insert`).
-/
import CodeReach.Proofs.Domain.Canonical
import Mathlib.Order.Lattice

namespace CodeReach

namespace ValueSet

variable {u v w : ValueSet} {x : Word}

/-! ## Value sets -/

/-- The order of value sets is that of the words they allow. -/
theorem le_iff_allows : v.le w = true ↔ ∀ x, v.Allows x → w.Allows x := by
  refine ⟨fun h x hx => allows_of_le h hx, fun h => ?_⟩
  cases w with
  | unknown => exact le_unknown v
  | known t ht =>
      cases v with
      | unknown =>
          -- No list is long enough for all words.
          obtain ⟨x, hx⟩ := exists_not_allows_known t ht
          exact absurd (h x (allows_unknown x)) hx
      | known s hs => exact known_le_known.2 h

instance : PartialOrder ValueSet where
  le v w := v.le w = true
  le_refl := le_refl
  le_trans _ _ _ := le_trans
  le_antisymm _ _ := le_antisymm

instance : SemilatticeSup ValueSet where
  sup := merge
  le_sup_left := le_merge_left
  le_sup_right := le_merge_right
  sup_le _ _ _ := merge_le

theorem insert_eq_merge (v : ValueSet) (x : Word) : v.insert x = v.merge (const x) := by
  cases v <;> rfl

/-- One step of a union made word by word. -/
theorem insert_le_iff : (v.insert x).le u = true ↔ v.le u = true ∧ u.Allows x := by
  rw [insert_eq_merge, ← const_le_iff]
  exact sup_le_iff (a := v)

/-- The words of a list are put in one after the other. -/
theorem foldl_insert_le_iff {ws : List Word} :
    (ws.foldl insert v).le u = true ↔ v.le u = true ∧ ∀ x ∈ ws, u.Allows x := by
  induction ws generalizing v with
  | nil => simp
  | cons x xs ih => rw [List.foldl_cons, ih, insert_le_iff, List.forall_mem_cons, and_assoc]

/-- A union may be made word by word, whatever the order of the words and however often one of them
    is put in. -/
theorem foldl_insert {ws : List Word} (hws : ∀ x, x ∈ ws ↔ w.Allows x) :
    ws.foldl insert v = v.merge w := by
  refine eq_of_forall_ge_iff fun u => ?_
  calc ws.foldl insert v ≤ u
      ↔ v ≤ u ∧ ∀ x ∈ ws, u.Allows x := foldl_insert_le_iff
    _ ↔ v ≤ u ∧ w ≤ u := and_congr_right' ?_
    _ ↔ v.merge w ≤ u := sup_le_iff.symm
  simp only [hws]
  exact le_iff_allows.symm

end ValueSet

namespace Registers

variable {s t : Registers}

/-! ## Register files -/

/-- Where something is described, the order of register files is that of what they describe. -/
theorem le_iff_describes (hs : s.Possible) :
    s.le t = true ↔ ∀ ρ, s.Describes ρ → t.Describes ρ := by
  refine ⟨fun h ρ hρ => describes_of_le h hρ, fun h => ?_⟩
  obtain ⟨ρ, hρ⟩ := hs
  refine le_iff.2 fun r => ValueSet.le_iff_allows.2 fun x hx => ?_
  -- Put the word into the one register and leave the others as they are.
  have hset : s.Describes (ρ.set r x) := by
    intro q
    by_cases hq : q = r
    · subst hq
      rwa [RegFile.set, if_pos rfl]
    · rw [RegFile.set, if_neg hq]
      exact hρ q
  have hx' := h _ hset r
  rwa [RegFile.set, if_pos rfl] at hx'

instance : PartialOrder Registers where
  le s t := s.le t = true
  le_refl := le_refl
  le_trans _ _ _ := le_trans
  le_antisymm _ _ := le_antisymm

instance : SemilatticeSup Registers where
  sup := join
  le_sup_left := le_join_left
  le_sup_right := le_join_right
  sup_le _ _ _ := join_le

/-- Register files form a join-semilattice that is ordered by meaning.  Their order is a partial
    order, and unless a register of the smaller side has no possible word, it is inclusion of what
    is described.  A join is the least upper bound, so the order and the grouping of joins do not
    matter.  And each register of a join can be made word by word, in any order, also if there are
    too many words from some point on. -/
theorem forms_join_semilattice :
    (∀ s : Registers, s.le s = true) ∧
    (∀ s t u : Registers, s.le t = true → t.le u = true → s.le u = true) ∧
    (∀ s t : Registers, s.le t = true → t.le s = true → s = t) ∧
    (∀ s t : Registers, (∀ r, (s.get r).constants? ≠ some []) →
      (s.le t = true ↔ ∀ ρ, s.Describes ρ → t.Describes ρ)) ∧
    (∀ s t : Registers, s.le (s.join t) = true ∧ t.le (s.join t) = true ∧
      ∀ u, s.le u = true → t.le u = true → (s.join t).le u = true) ∧
    (∀ s t : Registers, s.join t = t.join s) ∧
    (∀ s t u : Registers, (s.join t).join u = s.join (t.join u)) ∧
    (∀ s : Registers, s.join s = s) ∧
    (∀ (s t : Registers) (r : Reg) (ws : List Word), (∀ x, x ∈ ws ↔ (t.get r).Allows x) →
      (s.join t).get r = ws.foldl ValueSet.insert (s.get r)) := by
  refine ⟨le_refl, fun _ _ _ => le_trans, fun _ _ => le_antisymm, ?_, ?_, sup_comm, sup_assoc,
    sup_idem, ?_⟩
  · intro s t hs
    exact le_iff_describes (possible_iff.2 hs)
  · intro s t
    exact ⟨le_join_left s t, le_join_right s t, fun u => join_le⟩
  · intro s t r ws hws
    rw [get_join, ValueSet.foldl_insert hws]

/-- Register 1 holds one of `n` words from a first one on. -/
def counting (first n : Nat) : Registers :=
  unknown.set 1 (.ofList ((List.range' first n).map (BitVec.ofNat 64)))

/-- Ten words and ten more are too many, in whichever order they are put in, and stay too many when
    other words are grouped with them; four of the ten are described by what describes the ten. -/
theorem forms_join_semilattice_counting :
    (∀ r, ((counting 12 4).get r).constants? ≠ some []) ∧
      (∀ ρ, (counting 12 4).Describes ρ → (counting 8 10).Describes ρ) ∧
      ((counting 0 10).join (counting 8 10)).get 1 = .unknown ∧
      [9, 17, 16, 15, 14, 13, 12, 11, 10, 9, 8].foldl ValueSet.insert ((counting 0 10).get 1) =
        .unknown ∧
      ((counting 8 10).join (counting 12 4)).get 1 = (counting 8 10).get 1 ∧
      ((counting 0 10).join (counting 8 10)).join (counting 12 4) =
        (counting 0 10).join ((counting 8 10).join (counting 12 4)) := by
  obtain ⟨-, -, -, hmeaning, -, -, hassoc, -, hwords⟩ := forms_join_semilattice
  have hpossible : ∀ r, ((counting 12 4).get r).constants? ≠ some [] :=
    possible_iff.1 (possible_unknown.set ⟨12, ValueSet.allows_ofList (by decide)⟩)
  have hlisted : ∀ x, x ∈ [9, 17, 16, 15, 14, 13, 12, 11, 10, 9, 8] ↔
      ((counting 8 10).get 1).Allows x := by
    have hconstants : ((counting 8 10).get 1).constants? =
        some [8, 9, 10, 11, 12, 13, 14, 15, 16, 17] := by decide +kernel
    intro x
    rw [ValueSet.allows_iff_of_constants? hconstants]
    simp only [List.mem_cons, List.not_mem_nil]
    tauto
  have hoverflow : ((counting 0 10).join (counting 8 10)).get 1 = .unknown := by decide +kernel
  refine ⟨hpossible, (hmeaning _ _ hpossible).1 (by decide +kernel), hoverflow, ?_,
    by decide +kernel, hassoc _ _ _⟩
  rw [← hwords _ _ 1 _ hlisted, hoverflow]

end Registers

end CodeReach
