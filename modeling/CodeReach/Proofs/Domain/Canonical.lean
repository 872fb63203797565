/-
  CodeReach.Proofs.Domain.Canonical

  Value sets have one form for each set of words.  The form is canonical: nothing is
  stored for an unknown value, and otherwise the words are listed in strictly ascending
  order and are at most sixteen (`canonical`).  So two value sets are equal exactly if
  they allow the same words (`eq_iff_allows`); an unknown value allows more words than
  any list that is small enough.

  Which set it is, is said without the lists.  `words?` reads a value set as a finite set
  of words, and there is one equation for each way to make one: words are put together,
  and a set that has become too large is given up (`told`).  `Recipe` puts the ways after
  one another, and `words?_build` says what comes out.
-/
import CodeReach.Proofs.Domain.Monotone
import Mathlib.Data.Finset.Card
import Mathlib.Data.Finset.Lattice.Basic

namespace CodeReach

/-- Strictly ascending words, in the order of words. -/
theorem Ascending.pairwise_lt {ws : List Word} (h : Ascending ws) : ws.Pairwise (· < ·) :=
  h.imp compareOfLessAndEq_eq_lt.1

namespace ValueSet

variable {v w : ValueSet} {x : Word}

/-! ## One form for each set -/

/-- Nothing is stored, or a short list of strictly ascending words. -/
def Canonical (v : ValueSet) : Prop :=
  v = .unknown ∧ v.constants? = none ∨
    ∃ ws, v.constants? = some ws ∧ ws.Pairwise (· < ·) ∧ ws.length ≤ maxConstants

theorem canonical (v : ValueSet) : v.Canonical := by
  cases v with
  | unknown => exact Or.inl ⟨rfl, rfl⟩
  | known s hs => exact Or.inr ⟨s.toList, rfl, s.ascending.pairwise_lt, hs⟩

/-- A known value leaves out some word. -/
theorem exists_not_allows_known (s : OrdSet Word) (hs : s.size ≤ maxConstants) :
    ∃ x, ¬ (known s hs).Allows x := by
  by_contra hall
  rw [not_exists] at hall
  -- Otherwise it would have room for one word more than it can tell apart.
  let words : List Word := (List.range (maxConstants + 1)).map (BitVec.ofNat 64)
  have hnodup : words.Nodup := by decide
  have hsub : words ⊆ s.toList := fun x _ => not_not.1 (hall x)
  have hle : words.length ≤ s.toList.length := (List.Nodup.subperm hnodup hsub).length_le
  have hlength : words.length = maxConstants + 1 := by decide
  have hsize : s.toList.length ≤ maxConstants := hs
  omega

/-- Two value sets are the same exactly if they allow the same words. -/
theorem eq_iff_allows : v = w ↔ ∀ x, v.Allows x ↔ w.Allows x := by
  refine ⟨fun h x => by rw [h], fun h => ?_⟩
  cases v with
  | unknown =>
      cases w with
      | unknown => rfl
      | known t ht =>
          obtain ⟨x, hx⟩ := exists_not_allows_known t ht
          exact absurd ((h x).1 (allows_unknown x)) hx
  | known s hs =>
      cases w with
      | unknown =>
          obtain ⟨x, hx⟩ := exists_not_allows_known s hs
          exact absurd ((h x).2 (allows_unknown x)) hx
      | known t ht =>
          obtain rfl : s = t := OrdSet.ext_mem h
          rfl

/-! ## Which set it is -/

/-- The possible words as a finite set, if they are known. -/
def words? (v : ValueSet) : Option (Finset Word) :=
  v.constants?.map List.toFinset

/-- The set, unless it has too many members to tell them apart. -/
def told (s : Finset Word) : Option (Finset Word) :=
  if s.card ≤ maxConstants then some s else none

theorem words?_ofSet (s : OrdSet Word) : (ofSet s).words? = told s.toList.toFinset := by
  have hcard : s.toList.toFinset.card = s.size :=
    List.toFinset_card_of_nodup s.ascending.nodup
  unfold ofSet told
  rw [hcard]
  split <;> rfl

theorem words?_const (x : Word) : (const x).words? = some {x} := rfl

theorem words?_ofList (ws : List Word) : (ofList ws).words? = told ws.toFinset := by
  have hmembers : (OrdSet.ofList ws).toList.toFinset = ws.toFinset := by
    ext x
    rw [List.mem_toFinset, List.mem_toFinset, ← OrdSet.mem_def, OrdSet.mem_ofList]
  rw [ofList, words?_ofSet, hmembers]

theorem words?_insert (v : ValueSet) (x : Word) :
    (v.insert x).words? = v.words?.bind fun s => told (s ∪ {x}) := by
  cases v with
  | unknown => rfl
  | known s hs =>
      have hmembers : (s.insert x).toList.toFinset = s.toList.toFinset ∪ {x} := by
        ext y
        rw [List.mem_toFinset, ← OrdSet.mem_def, OrdSet.mem_insert, Finset.mem_union,
          Finset.mem_singleton, List.mem_toFinset, ← OrdSet.mem_def, or_comm]
      show (ofSet (s.insert x)).words? = told (s.toList.toFinset ∪ {x})
      rw [words?_ofSet, hmembers]

theorem words?_merge (v w : ValueSet) :
    (v.merge w).words? = v.words?.bind fun s => w.words?.bind fun t => told (s ∪ t) := by
  cases v with
  | unknown => rfl
  | known s hs =>
      cases w with
      | unknown => rfl
      | known t ht =>
          have hmembers : (s.insertAll t.toList).toList.toFinset =
              s.toList.toFinset ∪ t.toList.toFinset := by
            ext y
            rw [List.mem_toFinset, ← OrdSet.mem_def, OrdSet.mem_insertAll, Finset.mem_union,
              List.mem_toFinset, List.mem_toFinset, or_comm, OrdSet.mem_def]
          show (ofSet (s.insertAll t.toList)).words? = told (s.toList.toFinset ∪ t.toList.toFinset)
          rw [words?_ofSet, hmembers]

/-! ## Making value sets -/

/-- A way to make a value set. -/
inductive Recipe where
  | unknown
  | const (x : Word)
  | ofList (ws : List Word)
  | insert (b : Recipe) (x : Word)
  | merge (b c : Recipe)

namespace Recipe

/-- The value set that is made. -/
def build : Recipe → ValueSet
  | .unknown => .unknown
  | .const x => .const x
  | .ofList ws => .ofList ws
  | .insert b x => b.build.insert x
  | .merge b c => b.build.merge c.build

/-- The words that were put in, or nothing from the moment on when they were too many. -/
def collect : Recipe → Option (Finset Word)
  | .unknown => none
  | .const x => some {x}
  | .ofList ws => told ws.toFinset
  | .insert b x => b.collect.bind fun s => told (s ∪ {x})
  | .merge b c => b.collect.bind fun s => c.collect.bind fun t => told (s ∪ t)

/-- What is made knows exactly the words that were put in. -/
theorem words?_build (b : Recipe) : b.build.words? = b.collect := by
  induction b with
  | unknown => rfl
  | const x => exact words?_const x
  | ofList ws => exact words?_ofList ws
  | insert b x ih => rw [build, words?_insert, ih, collect]
  | merge b c ihb ihc => rw [build, words?_merge, ihb, ihc, collect]

end Recipe

end ValueSet

end CodeReach
