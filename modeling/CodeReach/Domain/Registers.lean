/-
  CodeReach.Domain.Registers

  An abstract register file: what is known about each of the first 32 registers.
  All others count as unknown, and what is learnt about them is dropped.

  `eval` computes what is known about an expression.  Memory is only looked at where
  the program has read-only data, and an access is refused when each candidate for
  its address lies in the null page.  `assume` narrows the register file to the
  cases in which a condition can hold.
-/
import CodeReach.Code.Program
import CodeReach.Domain.Fault
import CodeReach.Domain.ValueSet

namespace CodeReach

/-- How many registers are tracked. -/
def trackedRegs : Nat := 32

/-- Addresses below this one belong to the null page. -/
def nullPageEnd : Word := 0x1000

/-- What is known about the tracked registers. -/
structure Registers where
  sets : Vector ValueSet trackedRegs
deriving DecidableEq

namespace Registers

/-- Nothing is known about any register. -/
def unknown : Registers :=
  ⟨Vector.replicate trackedRegs .unknown⟩

instance : Inhabited Registers :=
  ⟨unknown⟩

/-- What is known about a register. -/
def get (s : Registers) (r : Reg) : ValueSet :=
  s.sets[r.toNat]?.getD .unknown

/-- The register file after learning what `r` holds. -/
def set (s : Registers) (r : Reg) (v : ValueSet) : Registers :=
  ⟨s.sets.setIfInBounds r.toNat v⟩

/-- The registers whose possible values are known, with these values, in register order. -/
def constants (s : Registers) : List (Reg × List Word) :=
  (List.finRange trackedRegs).filterMap fun i =>
    s.sets[i].constants?.map fun ws => (BitVec.ofNat 8 i.val, ws)

/-- What is known if one of two register files is the right one. -/
def join (s t : Registers) : Registers :=
  ⟨Vector.zipWith ValueSet.merge s.sets t.sets⟩

/-- Whether every register of `s` is known at least as well as in `t`. -/
def le (s t : Registers) : Bool :=
  (List.finRange trackedRegs).all fun i => s.sets[i].le t.sets[i]

/-- The known registers and their values in brackets. -/
def text (s : Registers) : String :=
  "[" ++ ", ".intercalate (s.constants.map fun (r, _) => Reg.text r ++ "=" ++ (s.get r).text) ++ "]"

/-! ## Evaluation -/

/-- Refuses an access if there are candidates for its address and all lie in the null page. -/
def checkAccess (addresses : ValueSet) : Except Fault Unit :=
  match addresses.constants? with
  | some (first :: rest) =>
    if (first :: rest).all (· < nullPageEnd) then .error (.invalidAccess first) else .ok ()
  | _ => .ok ()

/-- What a read of `width` bytes yields: known only if every candidate address has read-only
    data. -/
def load (program : Option Program) (addresses : ValueSet) (width : Byte) :
    Except Fault ValueSet := do
  checkAccess addresses
  match addresses.constants?, program with
  | some ws, some p => return ((ws.mapM (p.read? · width.toNat)).map ValueSet.ofList).getD .unknown
  | _, _ => return .unknown

/-- What is known about a binary operation.  A conjunction is zero as soon as one side is. -/
def combine (op : BinaryOp) (l r : ValueSet) : ValueSet :=
  if op = .logicalAnd ∧ (l.single? = some 0 ∨ r.single? = some 0) then .const 0
  else ValueSet.combine op.apply l r

/-- What is known about an expression; operands are evaluated from left to right. -/
def eval (s : Registers) (program : Option Program) : Expr → Except Fault ValueSet
  | .imm w => return .const w
  | .reg r => return s.get r
  | .mem addr width => do load program (← eval s program addr) width
  | .unary op e => return (← eval s program e).map op.apply
  | .binary op l r => do
    let left ← eval s program l
    let right ← eval s program r
    return combine op left right

/-! ## Assumptions -/

/-- Narrows a register to one constant; impossible if it cannot hold that constant. -/
def restrict (s : Registers) (r : Reg) (w : Word) : Option Registers :=
  match (s.get r).constants? with
  | some ws => if ws.contains w then some (s.set r (.const w)) else none
  | none => some (s.set r (.const w))

/-- Excludes one constant from a register; impossible if nothing is left. -/
def exclude (s : Registers) (r : Reg) (w : Word) : Option Registers :=
  match s.get r with
  | .unknown => some s
  | .known ws _ =>
    let rest := ws.filter (· != w)
    if rest.toList.isEmpty then none else some (s.set r (.ofSet rest))

/-- Narrows the registers that the condition compares with constants.  Conjunctions are followed
    from left to right; every other condition is left alone. -/
def refine (s : Registers) : Expr → Option Registers
  | .binary .logicalAnd l r => (refine s l).bind fun t => refine t r
  | .binary .eq (.reg r) (.imm w) => s.restrict r w
  | .binary .eq (.imm w) (.reg r) => s.restrict r w
  | .binary .ne (.reg r) (.imm w) => s.exclude r w
  | .binary .ne (.imm w) (.reg r) => s.exclude r w
  | _ => some s

/-- The register file narrowed to the cases in which the condition is nonzero, or nothing if
    there are none. -/
def assume (s : Registers) (program : Option Program) (condition : Expr) :
    Except Fault (Option Registers) := do
  match (← eval s program condition).constants? with
  | some ws => if ws.all (· == 0) then return none else return s.refine condition
  | none => return s.refine condition

/-! ## Effects on single registers -/

/-- What is known about `r` after a statement, without looking at memory. -/
def after (s : Registers) (stmt : Stmt) (r : Reg) : ValueSet :=
  match stmt with
  | .assign q value =>
    if q = r then (s.eval none value).toOption.getD .unknown else s.get r
  | .havoc q => if q = r then .unknown else s.get r
  | _ => s.get r

end Registers

end CodeReach
