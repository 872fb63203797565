/-
  CodeReach.Proofs.Code.Redefinition

  Addresses that are defined more than once.  Statements are replaced label by label,
  not address by address: at each number the last definition counts that is long enough
  to have a statement there (`statement?_eq_findSome?`).  So the last definition of an
  address is in place as a whole, but behind it remains what earlier, longer ones have
  left; it replaces them completely exactly if none of them is longer
  (`replaced_iff_longest`).
-/
import CodeReach.Proofs.Code.Assemble
import Mathlib.Algebra.Group.Nat.Defs
import Mathlib.Data.List.Basic

namespace CodeReach

/-- The only element with a property is found, wherever the search starts. -/
theorem find?_reverse_of_index {α : Type} {p : α → Bool} {xs : List α} {j : Nat}
    (h : ∀ k x, xs[k]? = some x → (p x = true ↔ k = j)) : xs.reverse.find? p = xs[j]? := by
  cases hj : xs[j]? with
  | none =>
      refine List.find?_eq_none.2 fun x hx hp => ?_
      obtain ⟨k, hk⟩ := List.mem_iff_getElem?.1 (List.mem_reverse.1 hx)
      rw [(h k x hk).1 hp, hj] at hk
      exact absurd hk (by simp)
  | some x =>
      have hsome : (xs.reverse.find? p).isSome = true :=
        List.find?_isSome.2 ⟨x, List.mem_reverse.2 (List.mem_of_getElem? hj), (h j x hj).2 rfl⟩
      obtain ⟨y, hy⟩ := Option.isSome_iff_exists.1 hsome
      obtain ⟨k, hk⟩ := List.mem_iff_getElem?.1 (List.mem_reverse.1 (List.mem_of_find?_eq_some hy))
      rw [(h k y hk).1 (List.find?_some hy), hj] at hk
      rw [hy, hk]

/-- The address after an instruction, without wrapping around. -/
theorem Word.addExact_byte (w : Word) (n : Byte) : Word.addExact w n.toNat =
    if w.toNat + n.toNat < 2 ^ 64 then some (w + n.setWidth 64) else none := by
  have hsum : BitVec.ofNat 64 (w.toNat + n.toNat) = w + n.setWidth 64 := by
    apply BitVec.eq_of_toNat_eq
    simp
  have hfits : w.toNat + n.toNat ≤ Word.highest.toNat ↔ w.toNat + n.toNat < 2 ^ 64 :=
    Nat.lt_succ_iff.symm
  simp only [Word.addExact, hsum, hfits]

/-! ## Definitions of an address -/

namespace Item

/-- The translation of an instruction: its statements under the numbers 0, 1 and so on, each
    falling through to the next, the last to the instruction after it unless the address space ends
    there, and a halt to nothing. -/
def translation (address : Word) (size : Byte) (stmts : List Stmt) : List PlacedStmt :=
  let after :=
    if address.toNat + size.toNat < 2 ^ 64 then
      some (Label.start (address + size.setWidth 64))
    else none
  (body stmts).mapIdx (numbered address after (body stmts).length)

/-- What an item defines `a` to be.  If the two addresses of a harness fall together, the halt
    counts. -/
def defines (entry a : Word) : Item → Option (List PlacedStmt)
  | .instruction address size _ stmts =>
    if address = a then some (translation address size stmts) else none
  | .harness address =>
    if Word.addClamped address Program.harnessSize.toNat = a then
      some [⟨Label.start a, none, .halt⟩]
    else if address = a then
      some [⟨Label.start a, none, .goto (.always .call (.imm entry))⟩]
    else none
  | .segment .. | .symbol .. => none

/-- The number of statements that an item comes with. -/
def stmtCount : Item → Nat
  | .instruction _ _ _ stmts => stmts.length
  | .segment .. | .symbol .. | .harness .. => 0

theorem layout_eq_translation (address : Word) (size : Byte) (stmts : List Stmt) :
    layout address size stmts = translation address size stmts := by
  rw [layout_eq_mapIdx, Word.addExact_byte, apply_ite (Option.map Label.start)]
  rfl

theorem length_translation_le {address : Word} {size : Byte} {stmts : List Stmt}
    (h : stmts.length ≤ 2 ^ 16) : (translation address size stmts).length ≤ 2 ^ 16 := by
  rw [translation, List.length_mapIdx, body]
  split
  · decide
  · exact h

/-- The statement of an instruction at a label is the one with its number. -/
theorem find?_layout {address : Word} {size : Byte} {stmts : List Stmt}
    (h : stmts.length ≤ 2 ^ 16) (i : BitVec 16) :
    ((layout address size stmts).reverse.find? fun s => s.label = ⟨address, i⟩) =
      (translation address size stmts)[i.toNat]? := by
  rw [layout_eq_translation]
  refine find?_reverse_of_index fun k s hs => ?_
  have hk : k < 2 ^ 16 :=
    Nat.lt_of_lt_of_le (List.getElem?_eq_some_iff.1 hs).1 (length_translation_le h)
  have hlabel : s.label = ⟨address, BitVec.ofNat 16 k⟩ := by
    rw [translation, List.getElem?_mapIdx] at hs
    obtain ⟨stmt, -, rfl⟩ := Option.map_eq_some_iff.1 hs
    rfl
  rw [hlabel, decide_eq_true_eq, Label.mk.injEq]
  constructor
  · rintro ⟨-, rfl⟩
    rw [BitVec.toNat_ofNat, Nat.mod_eq_of_lt hk]
  · rintro rfl
    exact ⟨rfl, BitVec.ofNat_toNat ..⟩

/-- The two statements of a harness, of which the halt is written last. -/
theorem find?_harness (entry a address : Word) (i : BitVec 16) :
    (((harness address).placed entry).reverse.find? fun s => s.label = ⟨a, i⟩) =
      ((harness address).defines entry a).bind fun d => d[i.toNat]? := by
  have hplaced : (harness address).placed entry =
      [⟨Label.start address, none, .goto (.always .call (.imm entry))⟩,
        ⟨Label.start (Word.addClamped address Program.harnessSize.toNat), none, .halt⟩] := rfl
  have hlabel : ∀ b, Label.start b = ⟨a, i⟩ ↔ b = a ∧ i = 0#16 := fun b => by
    rw [Label.start, Label.mk.injEq, eq_comm (a := i)]
    rfl
  have hnumber : ∀ s : PlacedStmt, [s][i.toNat]? = if i = 0#16 then some s else none := fun s => by
    by_cases hi : i = 0#16
    · simp [hi]
    · have hpos : 0 < i.toNat := Nat.pos_of_ne_zero fun h0 => hi (BitVec.eq_of_toNat_eq h0)
      rw [if_neg hi, List.getElem?_eq_none hpos]
  rw [hplaced, defines]
  generalize Word.addClamped address Program.harnessSize.toNat = halt
  simp only [List.reverse_cons, List.reverse_nil, List.nil_append, List.cons_append,
    List.find?_cons, List.find?_nil, hlabel]
  by_cases hhalt : halt = a
  · by_cases hi : i = 0#16 <;> simp [hhalt, hi, hnumber]
  · by_cases hcall : address = a
    · by_cases hi : i = 0#16 <;> simp [hhalt, hcall, hi, hnumber]
    · simp [hhalt, hcall]

/-- What an item leaves at a label: the statement with that number of what it defines the address
    to be. -/
theorem find?_placed {entry a : Word} {item : Item} (h : item.stmtCount ≤ 2 ^ 16)
    (i : BitVec 16) :
    ((item.placed entry).reverse.find? fun s => s.label = ⟨a, i⟩) =
      (item.defines entry a).bind fun d => d[i.toNat]? := by
  cases item with
  | instruction address size mnemonic stmts =>
      rw [defines]
      split
      · rename_i ha
        exact ha ▸ find?_layout h i
      · rename_i ha
        refine List.find?_eq_none.2 fun s hs hlabel => ha ?_
        rw [← address_of_mem_layout (List.mem_reverse.1 hs), of_decide_eq_true hlabel]
  | segment start data => rfl
  | symbol address name => rfl
  | harness address => exact find?_harness entry a address i

theorem length_of_defines {entry a : Word} {item : Item} {d : List PlacedStmt}
    (h : item.stmtCount ≤ 2 ^ 16) (hd : item.defines entry a = some d) : d.length ≤ 2 ^ 16 := by
  cases item with
  | instruction address size mnemonic stmts =>
      rw [defines] at hd
      split at hd
      · rw [← Option.some.inj hd]
        exact length_translation_le h
      · exact absurd hd (by simp)
  | segment start data => exact absurd hd (by simp [defines])
  | symbol address name => exact absurd hd (by simp [defines])
  | harness address =>
      rw [defines] at hd
      split at hd
      · rw [← Option.some.inj hd]
        exact Nat.one_le_two_pow
      · split at hd
        · rw [← Option.some.inj hd]
          exact Nat.one_le_two_pow
        · exact absurd hd (by simp)

end Item

/-! ## The last definition -/

namespace Program

variable {entry a : Word} {items : List Item}

/-- At each number of an address, the last definition that is long enough counts. -/
theorem statement?_eq_findSome? (hfits : ∀ item ∈ items, item.stmtCount ≤ 2 ^ 16)
    (i : BitVec 16) : (assemble entry items).statement? ⟨a, i⟩ =
      (items.filterMap (Item.defines entry a)).reverse.findSome? fun d => d[i.toNat]? := by
  rw [statement?_assemble, List.reverse_flatMap, List.find?_flatMap, ← List.filterMap_reverse,
    ← List.head?_filterMap, ← List.head?_filterMap, List.filterMap_filterMap]
  congr 1
  refine List.filterMap_congr fun item hitem => ?_
  exact Item.find?_placed (hfits item (List.mem_reverse.1 hitem)) i

/-- Definitions one after the other: the last one is all that shows exactly if none before it is
    longer. -/
theorem findSome?_eq_last_iff {earlier : List (List PlacedStmt)} {last : List PlacedStmt}
    (hfits : ∀ d ∈ earlier, d.length ≤ 2 ^ 16) :
    (∀ i : BitVec 16,
      ((earlier ++ [last]).reverse.findSome? fun d => d[i.toNat]?) = last[i.toNat]?) ↔
    ∀ d ∈ earlier, d.length ≤ last.length := by
  simp only [List.reverse_append, List.reverse_singleton, List.singleton_append,
    List.findSome?_cons]
  constructor
  · intro h d hd
    by_contra hlonger
    have hlast : last.length < 2 ^ 16 := Nat.lt_of_lt_of_le (Nat.lt_of_not_le hlonger) (hfits d hd)
    have hi : (BitVec.ofNat 16 last.length).toNat = last.length := by
      rw [BitVec.toNat_ofNat, Nat.mod_eq_of_lt hlast]
    have hshows := h (BitVec.ofNat 16 last.length)
    rw [hi, List.getElem?_eq_none (Nat.le_refl _)] at hshows
    have hnone := List.findSome?_eq_none_iff.1 hshows d (List.mem_reverse.2 hd)
    exact hlonger (List.getElem?_eq_none_iff.1 hnone)
  · intro h i
    cases hlast : last[i.toNat]? with
    | some s => rfl
    | none =>
        refine List.findSome?_eq_none_iff.2 fun d hd => List.getElem?_eq_none ?_
        exact Nat.le_trans (h d (List.mem_reverse.1 hd)) (List.getElem?_eq_none_iff.1 hlast)

/-- Addresses that are defined more than once.  At each number the last definition counts that has
    a statement there.  The last definition is therefore in place from its first statement to its
    last, and it is all there is at the address exactly if no earlier one is longer. -/
theorem replaced_iff_longest (entry : Word) (items : List Item) (a : Word)
    (hfits : ∀ item ∈ items, item.stmtCount ≤ 2 ^ 16) :
    (∀ i : BitVec 16, (assemble entry items).statement? ⟨a, i⟩ =
      (items.filterMap (Item.defines entry a)).reverse.findSome? fun d => d[i.toNat]?) ∧
    ∀ earlier last, items.filterMap (Item.defines entry a) = earlier ++ [last] →
      (∀ i : BitVec 16, i.toNat < last.length →
        (assemble entry items).statement? ⟨a, i⟩ = last[i.toNat]?) ∧
      ((∀ i : BitVec 16, (assemble entry items).statement? ⟨a, i⟩ = last[i.toNat]?) ↔
        ∀ d ∈ earlier, d.length ≤ last.length) := by
  have hfound : ∀ i : BitVec 16, (assemble entry items).statement? ⟨a, i⟩ = _ :=
    statement?_eq_findSome? hfits
  refine ⟨hfound, fun earlier last hdefs => ⟨fun i hi => ?_, ?_⟩⟩
  · rw [hfound, hdefs, List.reverse_append, List.reverse_singleton, List.singleton_append,
      List.findSome?_cons, List.getElem?_eq_getElem hi]
  · have hlengths : ∀ d ∈ earlier, d.length ≤ 2 ^ 16 := fun d hd => by
      have hmem : d ∈ items.filterMap (Item.defines entry a) :=
        hdefs ▸ List.mem_append_left [last] hd
      obtain ⟨item, hitem, hd⟩ := List.mem_filterMap.1 hmem
      exact Item.length_of_defines (hfits item hitem) hd
    simp only [hfound, hdefs]
    exact findSome?_eq_last_iff hlengths

/-- An instruction of two statements, and then one without statements at the same address. -/
def shortened : List Item :=
  [.instruction 0x1000 4 "pair" [.havoc 1, .havoc 2], .instruction 0x1000 4 "nop" []]

theorem replaced_iff_longest_swapped :
    (∀ item ∈ shortened.reverse, item.stmtCount ≤ 2 ^ 16) ∧
    ∀ i : BitVec 16, (assemble 0x1000 shortened.reverse).statement? ⟨0x1000, i⟩ =
      (Item.translation 0x1000 4 [.havoc 1, .havoc 2])[i.toNat]? := by
  have hfits : ∀ item ∈ shortened.reverse, item.stmtCount ≤ 2 ^ 16 := by decide
  have hdefs : shortened.reverse.filterMap (Item.defines 0x1000 0x1000) =
      [Item.translation 0x1000 4 []] ++ [Item.translation 0x1000 4 [.havoc 1, .havoc 2]] := rfl
  refine ⟨hfits, ?_⟩
  exact ((replaced_iff_longest 0x1000 shortened.reverse 0x1000 hfits).2 _ _ hdefs).2.2 (by decide)

/-- A shorter definition does not replace a longer one: the second statement of the first
    definition is still there, although the last one has no second statement. -/
theorem shorter_definition_leaves_tail :
    shortened.filterMap (Item.defines 0x1000 0x1000) =
      [Item.translation 0x1000 4 [.havoc 1, .havoc 2]] ++
        [[⟨Label.start 0x1000, some (Label.start 0x1004), .skip⟩]] ∧
    (assemble 0x1000 shortened).statement? ⟨0x1000, 1⟩ =
      some ⟨⟨0x1000, 1⟩, some (Label.start 0x1004), .havoc 2⟩ ∧
    ¬ ∀ i : BitVec 16, (assemble 0x1000 shortened).statement? ⟨0x1000, i⟩ =
      [⟨Label.start 0x1000, some (Label.start 0x1004), .skip⟩][i.toNat]? := by
  have htail : (assemble 0x1000 shortened).statement? ⟨0x1000, 1⟩ =
      some ⟨⟨0x1000, 1⟩, some (Label.start 0x1004), .havoc 2⟩ := by decide
  refine ⟨by decide, htail, fun h => ?_⟩
  exact absurd (htail.symm.trans (h 1)) (by decide)

end Program

end CodeReach
