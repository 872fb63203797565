/-
  CodeReach.Expr.Basic

  Expression trees over immediates, registers and memory reads, the questions
  that can be answered by looking at the top of a tree, and the text of a tree.
-/
import CodeReach.Expr.Op

namespace CodeReach

/-- A 64-bit expression. -/
inductive Expr where
  /-- A constant. -/
  | imm (value : Word)
  /-- The content of a register. -/
  | reg (r : Reg)
  /-- `width` bytes of memory at `addr`. -/
  | mem (addr : Expr) (width : Byte)
  | unary (op : UnaryOp) (operand : Expr)
  | binary (op : BinaryOp) (left right : Expr)
deriving DecidableEq

namespace Expr

/-- The constant of a truth value. -/
def ofBool (b : Bool) : Expr :=
  .imm (Word.ofBool b)

/-- The value of an immediate; no other expression is looked into. -/
def const? : Expr → Option Word
  | .imm w => some w
  | _ => none

/-- Whether the top of the expression alone shows that its value is zero or one. -/
def isBoolean : Expr → Bool
  | .imm w => w ≤ 1
  | .unary op _ => op == .logicalNot
  | .binary op _ _ => op.isBoolean
  | _ => false

/-- The number of bits of an access of `width` bytes, as memory accesses are written. -/
def bitsText (width : Byte) : String :=
  Nat.repr (8 * width.toNat)

/-- Fully parenthesised text: binary operators always carry parentheses. -/
def text : Expr → String
  | .imm w => Word.hex w
  | .reg r => Reg.text r
  | .mem addr width => "mem" ++ bitsText width ++ "[" ++ text addr ++ "]"
  | .unary op e => op.symbol ++ text e
  | .binary op l r => "(" ++ text l ++ " " ++ op.symbol ++ " " ++ text r ++ ")"

end Expr

end CodeReach
