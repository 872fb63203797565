/-
  CodeReach.Code.Location

  Points of a program.  A `Label` names a statement by the address of its machine
  instruction and the position inside it.  A `Location` is the point at which
  abstract states are collected: a label, possibly split further by a virtual
  program counter, the value of one designated register.

  Both are ordered through a list of numbers, compared lexicographically: labels by
  address and then index; every plain location comes before every split one.
-/
import CodeReach.Word

namespace CodeReach

/-- The statement with number `index` of the instruction at `address`. -/
structure Label where
  address : Word
  index : BitVec 16
deriving DecidableEq

namespace Label

/-- The first statement of the instruction at `address`. -/
def start (address : Word) : Label :=
  ⟨address, 0⟩

/-- Address and index, separated by a colon. -/
def text (l : Label) : String :=
  Word.hex l.address ++ ":" ++ Nat.repr l.index.toNat

/-- What labels are ordered by. -/
def orderKey (l : Label) : List Nat :=
  [l.address.toNat, l.index.toNat]

theorem orderKey_injective {a b : Label} (h : a.orderKey = b.orderKey) : a = b := by
  cases a; cases b
  simp only [orderKey, List.cons.injEq, and_true] at h
  simp only [mk.injEq]
  exact ⟨BitVec.eq_of_toNat_eq h.1, BitVec.eq_of_toNat_eq h.2⟩

instance : Ord Label :=
  ⟨fun a b => compare a.orderKey b.orderKey⟩

instance : Std.TransOrd Label where
  eq_swap {a b} := @Std.OrientedCmp.eq_swap _ compare _ a.orderKey b.orderKey
  isLE_trans {a b c} := @Std.TransCmp.isLE_trans _ compare _ a.orderKey b.orderKey c.orderKey

instance : Std.LawfulEqOrd Label where
  eq_of_compare h := orderKey_injective (Std.LawfulEqOrd.eq_of_compare h)

end Label

/-- Where abstract states are collected. -/
inductive Location where
  /-- A label as it stands. -/
  | plain (label : Label)
  /-- A label together with the value of the virtual program counter. -/
  | split (label : Label) (vpc : Word)
deriving DecidableEq

namespace Location

/-- The label of the location, without the virtual program counter. -/
def label : Location → Label
  | .plain l => l
  | .split l _ => l

/-- The address of the location's label. -/
def address (l : Location) : Word :=
  l.label.address

/-- The virtual program counter of a split location. -/
def vpc? : Location → Option Word
  | .plain _ => none
  | .split _ v => some v

/-- The label, followed by the virtual program counter if there is one. -/
def text : Location → String
  | .plain l => l.text
  | .split l v => l.text ++ "@" ++ Word.hex v

/-- What locations are ordered by. -/
def orderKey : Location → List Nat
  | .plain l => 0 :: l.orderKey
  | .split l v => 1 :: l.orderKey ++ [v.toNat]

theorem orderKey_injective {a b : Location} (h : a.orderKey = b.orderKey) : a = b := by
  cases a with
  | plain l =>
    cases b with
    | plain m => exact congrArg plain (Label.orderKey_injective (List.tail_eq_of_cons_eq h))
    | split m w => simp [orderKey] at h
  | split l v =>
    cases b with
    | plain m => simp [orderKey] at h
    | split m w =>
      obtain ⟨hl, hv⟩ := List.append_inj (List.tail_eq_of_cons_eq h) (by simp [Label.orderKey])
      rw [Label.orderKey_injective hl, BitVec.eq_of_toNat_eq (List.head_eq_of_cons_eq hv)]

instance : Ord Location :=
  ⟨fun a b => compare a.orderKey b.orderKey⟩

instance : Std.TransOrd Location where
  eq_swap {a b} := @Std.OrientedCmp.eq_swap _ compare _ a.orderKey b.orderKey
  isLE_trans {a b c} := @Std.TransCmp.isLE_trans _ compare _ a.orderKey b.orderKey c.orderKey

instance : Std.LawfulEqOrd Location where
  eq_of_compare h := orderKey_injective (Std.LawfulEqOrd.eq_of_compare h)

end Location

end CodeReach
