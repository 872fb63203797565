/-
  CodeReach.Code.Program

  A program in memory: the statements by label, the machine instructions they come
  from, read-only data, symbol names, and the optional entry harness.
-/
import CodeReach.Code.Segment
import CodeReach.Code.Stmt
import Std.Data.TreeMap

namespace CodeReach

/-- A disassembled machine instruction. -/
structure Instruction where
  address : Word
  size : Byte
  mnemonic : String
deriving DecidableEq

/-- The address after the instruction, if there is one. -/
def Instruction.next? (i : Instruction) : Option Word :=
  Word.addExact i.address i.size.toNat

/-- The two instructions `call entry` and `halt` from which a whole program is entered. -/
structure Harness where
  callAddress : Word
  haltAddress : Word
deriving DecidableEq

namespace Harness

/-- Whether one of the two instructions is at `address`. -/
def contains (h : Harness) (address : Word) : Bool :=
  address == h.callAddress || address == h.haltAddress

/-- Where the call returns to; the halt has nothing after it. -/
def next? (h : Harness) (address : Word) : Option Word :=
  if address = h.callAddress then some h.haltAddress else none

end Harness

/-- A program under analysis. -/
structure Program where
  entry : Word
  statements : Std.TreeMap Label PlacedStmt
  instructions : Std.TreeMap Word Instruction
  segments : List Segment
  symbols : Std.TreeMap Word String
  harness : Option Harness

namespace Program

/-- The program without code and data that is to be entered at `entry`. -/
def blank (entry : Word) : Program :=
  ⟨entry, ∅, ∅, [], ∅, none⟩

/-- The label of the entry point. -/
def entryLabel (p : Program) : Label :=
  Label.start p.entry

/-- Where analysis starts: at the harness if there is one, else at the entry point. -/
def startLabel (p : Program) : Label :=
  (p.harness.map fun h => Label.start h.callAddress).getD p.entryLabel

/-- The statement at `label`. -/
def statement? (p : Program) (label : Label) : Option PlacedStmt :=
  p.statements[label]?

/-- All statements, in the order of their labels. -/
def statementList (p : Program) : List PlacedStmt :=
  p.statements.values

/-- The instruction that starts at `address`. -/
def instruction? (p : Program) (address : Word) : Option Instruction :=
  p.instructions[address]?

/-- All addresses at which an instruction starts, ascending. -/
def codeAddresses (p : Program) : List Word :=
  p.instructions.keys

/-- Whether an instruction starts at `address`. -/
def isCode (p : Program) (address : Word) : Bool :=
  p.instructions.contains address

/-- Whether `address` belongs to the entry harness. -/
def isHarness (p : Program) (address : Word) : Bool :=
  p.harness.any (·.contains address)

/-- The name of `address`. -/
def symbol? (p : Program) (address : Word) : Option String :=
  p.symbols[address]?

/-- The read-only data at `addr`, `size` bytes wide.  The first segment that contains the address
    decides; a later one is not consulted. -/
def read? (p : Program) (addr : Word) (size : Nat) : Option Word :=
  (p.segments.find? (·.contains addr)).bind (·.read? addr size)

end Program

end CodeReach
