/-
  CodeReach.Domain.Precision

  How finely a location is analysed.  For register values the precision is the set
  of constants seen so far in each register; a register that has shown more of them
  than the threshold is no longer tracked at that location.
-/
import CodeReach.Data.Buckets
import CodeReach.Data.OrdSet
import CodeReach.Word

namespace CodeReach

/-- The constants seen in each register, and how many of them are tolerated. -/
structure ValuePrecision where
  threshold : Nat
  /-- For each register the constants seen, ascending. -/
  seen : Buckets Reg Word
deriving DecidableEq

namespace ValuePrecision

/-- Nothing has been seen. -/
def fresh (threshold : Nat) : ValuePrecision :=
  ⟨threshold, .empty⟩

/-- The precision after seeing the constants in register `r`. -/
def observe (p : ValuePrecision) (r : Reg) (ws : List Word) : ValuePrecision :=
  { p with seen := p.seen.modify r fun xs => ws.foldr Ascending.insert xs }

/-- The number of different constants seen in `r`. -/
def seenCount (p : ValuePrecision) (r : Reg) : Nat :=
  (p.seen.get r).length

/-- Whether `r` has shown more constants than are tolerated. -/
def exceeded (p : ValuePrecision) (r : Reg) : Bool :=
  p.threshold < p.seenCount r

/-- The registers in which constants were seen, ascending, with their number. -/
def summary (p : ValuePrecision) : List (Reg × Nat) :=
  ((OrdSet.ofList p.seen.keys).toList.map fun r => (r, p.seenCount r)).filter (·.2 != 0)

end ValuePrecision

/-- The precision of one component of a state. -/
inductive ComponentPrecision where
  /-- The component has no precision. -/
  | null
  /-- The precision of register values. -/
  | values (p : ValuePrecision)
deriving DecidableEq

/-- The precisions of all components, by position. -/
abbrev Precision := List ComponentPrecision

/-- The precision of the component at position `i`; a missing one is null. -/
def Precision.component (p : Precision) (i : Nat) : ComponentPrecision :=
  p.getD i .null

end CodeReach
