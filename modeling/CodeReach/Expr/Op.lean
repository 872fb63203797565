/-
  CodeReach.Expr.Op

  The operators of the expression language with their meaning on machine words.
  All arithmetic wraps at 64 bits, shift amounts are taken modulo 64, and truth
  values are the words zero and one.
-/
import CodeReach.Word

namespace CodeReach

/-- Operators with one operand. -/
inductive UnaryOp where
  /-- Bitwise complement. -/
  | not
  /-- Two's complement negation. -/
  | neg
  /-- Truth negation: zero becomes one, everything else becomes zero. -/
  | logicalNot
deriving DecidableEq

/-- Operators with two operands. -/
inductive BinaryOp where
  | add
  | sub
  | mul
  | and
  | or
  | xor
  | shl
  | shr
  | eq
  | ne
  /-- Unsigned comparison. -/
  | ltu
  /-- Signed comparison. -/
  | lt
  /-- Both operands are nonzero. -/
  | logicalAnd
deriving DecidableEq

namespace UnaryOp

/-- The meaning of the operator on a word. -/
def apply : UnaryOp → Word → Word
  | .not, w => ~~~w
  | .neg, w => -w
  | .logicalNot, w => Word.ofBool (w == 0)

/-- The operator as it is written before its operand. -/
def symbol : UnaryOp → String
  | .not => "~"
  | .neg => "-"
  | .logicalNot => "!"

end UnaryOp

namespace BinaryOp

/-- The meaning of the operator on two words. -/
def apply : BinaryOp → Word → Word → Word
  | .add, l, r => l + r
  | .sub, l, r => l - r
  | .mul, l, r => l * r
  | .and, l, r => l &&& r
  | .or, l, r => l ||| r
  | .xor, l, r => l ^^^ r
  | .shl, l, r => l <<< (r.toNat % 64)
  | .shr, l, r => l >>> (r.toNat % 64)
  | .eq, l, r => Word.ofBool (l == r)
  | .ne, l, r => Word.ofBool (l != r)
  | .ltu, l, r => Word.ofBool (l.ult r)
  | .lt, l, r => Word.ofBool (l.slt r)
  | .logicalAnd, l, r => Word.ofBool (l != 0 && r != 0)

/-- Whether the operator only ever yields zero or one. -/
def isBoolean : BinaryOp → Bool
  | .eq | .ne | .ltu | .lt | .logicalAnd => true
  | _ => false

/-- The operator as it is written between its operands. -/
def symbol : BinaryOp → String
  | .add => "+"
  | .sub => "-"
  | .mul => "*"
  | .and => "&"
  | .or => "|"
  | .xor => "^"
  | .shl => "<<"
  | .shr => ">>"
  | .eq => "=="
  | .ne => "!="
  | .ltu => "<u"
  | .lt => "<s"
  | .logicalAnd => "&&"

end BinaryOp

end CodeReach
