/-
  CodeReach.Code.Assemble

  Programs are assembled from a list of items.  An instruction brings its
  statements, which are numbered from zero and chained: each falls through to the
  next one, the last to the following instruction, and a halt to nothing.
-/
import CodeReach.Code.Program

namespace CodeReach

/-- One thing that goes into a program. -/
inductive Item where
  /-- A machine instruction with its statements. -/
  | instruction (address : Word) (size : Byte) (mnemonic : String) (stmts : List Stmt)
  /-- Read-only data. -/
  | segment (start : Word) (data : List Byte)
  /-- A name for an address. -/
  | symbol (address : Word) (name : String)
  /-- The entry harness, with its call at the address. -/
  | harness (address : Word)
deriving DecidableEq

namespace Item

/-- Statements numbered from `i` on, the last falling through to `after`. -/
def chain (address : Word) (after : Option Label) (i : Nat) : List Stmt → List PlacedStmt
  | [] => []
  | s :: rest =>
    let next :=
      if s = .halt then none
      else if rest.isEmpty then after
      else some ⟨address, BitVec.ofNat 16 (i + 1)⟩
    ⟨⟨address, BitVec.ofNat 16 i⟩, next, s⟩ :: chain address after (i + 1) rest

/-- The statements of an instruction at their places.  An instruction without statements does
    nothing, which takes one statement. -/
def layout (address : Word) (size : Byte) (stmts : List Stmt) : List PlacedStmt :=
  chain address ((Word.addExact address size.toNat).map Label.start) 0
    (if stmts.isEmpty then [.skip] else stmts)

end Item

namespace Program

/-- The program with one more statement; a statement at the same label is replaced. -/
def insertStmt (p : Program) (s : PlacedStmt) : Program :=
  { p with statements := p.statements.insert s.label s }

/-- The program with one more instruction record; a record at the same address is replaced. -/
def insertRecord (p : Program) (i : Instruction) : Program :=
  { p with instructions := p.instructions.insert i.address i }

/-- The program with an instruction and its statements. -/
def insertInstruction (p : Program) (address : Word) (size : Byte) (mnemonic : String)
    (stmts : List Stmt) : Program :=
  ((Item.layout address size stmts).foldl insertStmt p).insertRecord ⟨address, size, mnemonic⟩

/-- The size of both harness instructions. -/
def harnessSize : Byte := 5

/-- The program with the entry harness `call entry` at `address` and `halt` right after it. -/
def insertHarness (p : Program) (address : Word) : Program :=
  let haltAddress := Word.addClamped address harnessSize.toNat
  let call := Label.start address
  let p := p.insertStmt ⟨call, none, .goto (.always .call (.imm p.entry))⟩
  let p := p.insertInstruction haltAddress harnessSize "halt" [.halt]
  let p := p.insertRecord ⟨address, harnessSize, "call"⟩
  { p with harness := some ⟨address, haltAddress⟩ }

/-- The program with one more item. -/
def insertItem (p : Program) : Item → Program
  | .instruction address size mnemonic stmts => p.insertInstruction address size mnemonic stmts
  | .segment start data => { p with segments := p.segments ++ [⟨start, data⟩] }
  | .symbol address name => { p with symbols := p.symbols.insert address name }
  | .harness address => p.insertHarness address

/-- The program entered at `entry` with the items put in one after the other. -/
def assemble (entry : Word) (items : List Item) : Program :=
  items.foldl insertItem (blank entry)

end Program

end CodeReach
