/-
  CodeReach.Code.Stmt

  Statements of the intermediate language.  A goto names where control goes and
  under which condition; while a program is explored, each goto is taken apart into
  assumptions, which remember the goto they came from in a `Branch`.
-/
import CodeReach.Code.Location
import CodeReach.Expr.Basic

namespace CodeReach

/-- What a transfer of control is used for. -/
inductive GotoKind where
  | jump
  | call
  | ret
deriving DecidableEq

/-- The word for the kind, as it is used to describe where an assumption came from. -/
def GotoKind.text : GotoKind → String
  | .jump => "jump"
  | .call => "call"
  | .ret => "return"

/-- The verb of a transfer of control, as it is used in the text of a statement. -/
def GotoKind.verb : GotoKind → String
  | .jump => "goto"
  | .call => "call"
  | .ret => "return"

/-- A transfer of control to `target` if `condition` is nonzero. -/
structure Goto where
  kind : GotoKind
  condition : Expr
  target : Expr
deriving DecidableEq

namespace Goto

/-- A transfer that is always taken. -/
def always (kind : GotoKind) (target : Expr) : Goto :=
  ⟨kind, .imm 1, target⟩

/-- Whether the target is a constant. -/
def isDirect (g : Goto) : Bool :=
  g.target.const?.isSome

/-- The target, after the condition unless that is the constant one. -/
def text (g : Goto) : String :=
  if g.condition = .imm 1 then g.kind.verb ++ " " ++ g.target.text
  else "if " ++ g.condition.text ++ " " ++ g.kind.verb ++ " " ++ g.target.text

end Goto

/-- The goto behind an assumption: its kind and the label after it. -/
structure Branch where
  kind : GotoKind
  fallThrough : Option Label
deriving DecidableEq

/-- The kind and the label after the goto, or a dash if there is none. -/
def Branch.text (b : Branch) : String :=
  b.kind.text ++ " " ++ (b.fallThrough.map Label.text).getD "-"

/-- A statement. -/
inductive Stmt where
  /-- The register receives the value of the expression. -/
  | assign (r : Reg) (value : Expr)
  /-- The register receives an arbitrary value. -/
  | havoc (r : Reg)
  /-- `width` bytes of memory at `addr` receive a value. -/
  | store (addr value : Expr) (width : Byte)
  /-- Execution goes on only where the assumption is nonzero. -/
  | assume (assumption : Expr) (origin : Option Branch)
  /-- A transfer of control. -/
  | goto (g : Goto)
  /-- A call as a whole, from the call to the label after it. -/
  | callReturn
  | skip
  | halt
deriving DecidableEq

namespace Stmt

/-- The goto, if the statement is one. -/
def goto? : Stmt → Option Goto
  | .goto g => some g
  | _ => none

/-- Whether the statement transfers control. -/
def isGoto (s : Stmt) : Bool :=
  s.goto?.isSome

/-- The goto an assumption came from. -/
def origin? : Stmt → Option Branch
  | .assume _ origin => origin
  | _ => none

/-- The statement as text.  Where an assumption came from is not part of it. -/
def text : Stmt → String
  | .assign r value => Reg.text r ++ " := " ++ value.text
  | .havoc r => Reg.text r ++ " := nondet"
  | .store addr value width =>
    "mem" ++ Expr.bitsText width ++ "[" ++ addr.text ++ "] := " ++ value.text
  | .assume assumption _ => "assume " ++ assumption.text
  | .goto g => g.text
  | .callReturn => "call-return"
  | .skip => "skip"
  | .halt => "halt"

/-- The origin of an assumption as it is appended to a statement's text. -/
def originSuffix (s : Stmt) : String :=
  match s.origin? with
  | some b => " \x7b" ++ b.text ++ "\x7d"
  | none => ""

end Stmt

/-- A statement at its place in a program, with the label control falls through to. -/
structure PlacedStmt where
  label : Label
  next : Option Label
  stmt : Stmt
deriving DecidableEq

/-- The label and the statement. -/
def PlacedStmt.text (s : PlacedStmt) : String :=
  s.label.text ++ ": " ++ s.stmt.text

end CodeReach
