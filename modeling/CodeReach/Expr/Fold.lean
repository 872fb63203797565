/-
  CodeReach.Expr.Fold

  Building expressions with folding.  `Expr.mkUnary` and `Expr.mkBinary` build the
  node of an operator, except that constant operands are computed at once and
  neutral or absorbing constants disappear.  `Expr.substitute` rebuilds a whole
  tree with them after putting in the registers whose values are known.
-/
import CodeReach.Expr.Basic

namespace CodeReach

/-- Registers with known values. -/
abbrev Bindings := Reg → Option Word

namespace Bindings

/-- No register is known. -/
def empty : Bindings :=
  fun _ => none

/-- `b` with register `r` known to hold `w`. -/
def bind (b : Bindings) (r : Reg) (w : Word) : Bindings :=
  fun q => if q = r then some w else b q

end Bindings

namespace Expr

/-- The node of a unary operator, computed if the operand is a constant. -/
def foldUnary (op : UnaryOp) : Expr → Expr
  | .imm w => .imm (op.apply w)
  | e => .unary op e

/-- The node of a binary operator, computed if both operands are constants. -/
def foldBinary (op : BinaryOp) : Expr → Expr → Expr
  | .imm l, .imm r => .imm (op.apply l r)
  | l, r => .binary op l r

/-- Truth negation.  The negation of an equality is the inequality, and conversely. -/
def mkLogicalNot : Expr → Expr
  | .binary .eq l r => foldBinary .ne l r
  | .binary .ne l r => foldBinary .eq l r
  | e => foldUnary .logicalNot e

/-- The folding constructor of a unary operator. -/
def mkUnary : UnaryOp → Expr → Expr
  | .logicalNot, e => mkLogicalNot e
  | op, e => foldUnary op e

/-- Conjunction.  A constant zero decides it; a constant that holds disappears beside an operand
    that is zero or one by its form. -/
def mkLogicalAnd (l r : Expr) : Expr :=
  if l = .imm 0 ∨ r = .imm 0 then .imm 0
  else if l.const?.isSome ∧ r.isBoolean then r
  else if r.const?.isSome ∧ l.isBoolean then l
  else foldBinary .logicalAnd l r

/-- The folding constructor of a binary operator.  Each operator drops its neutral constant and
    collapses at its absorbing one; an expression equals itself. -/
def mkBinary : BinaryOp → Expr → Expr → Expr
  | .add, l, r => if r = .imm 0 then l else if l = .imm 0 then r else foldBinary .add l r
  | .sub, l, r =>
    if r = .imm 0 then l
    else if l = .imm 0 then mkUnary .neg r
    else foldBinary .sub l r
  | .mul, l, r =>
    if l = .imm 0 ∨ r = .imm 0 then .imm 0
    else if r = .imm 1 then l
    else if l = .imm 1 then r
    else foldBinary .mul l r
  | .and, l, r => if l = .imm 0 ∨ r = .imm 0 then .imm 0 else foldBinary .and l r
  | .or, l, r => if r = .imm 0 then l else if l = .imm 0 then r else foldBinary .or l r
  | .xor, l, r => if r = .imm 0 then l else if l = .imm 0 then r else foldBinary .xor l r
  | .shl, l, r => if r = .imm 0 then l else foldBinary .shl l r
  | .shr, l, r => if r = .imm 0 then l else foldBinary .shr l r
  | .eq, l, r => if l = r then .imm 1 else foldBinary .eq l r
  | .ne, l, r => if l = r then .imm 0 else foldBinary .ne l r
  | .ltu, l, r => foldBinary .ltu l r
  | .lt, l, r => foldBinary .lt l r
  | .logicalAnd, l, r => mkLogicalAnd l r

/-- The expression with the known registers put in, rebuilt from the leaves with folding. -/
def substitute (b : Bindings) : Expr → Expr
  | .imm w => .imm w
  | .reg r => ((b r).map Expr.imm).getD (.reg r)
  | .mem addr width => .mem (substitute b addr) width
  | .unary op e => mkUnary op (substitute b e)
  | .binary op l r => mkBinary op (substitute b l) (substitute b r)

/-- The expression rebuilt with folding, knowing no register. -/
def simplify (e : Expr) : Expr :=
  e.substitute Bindings.empty

end Expr

end CodeReach
