/-
  CodeReach.Machine.Value

  The concrete side: register files, memories, and the value of an expression in
  them.  A memory answers for every address and width; where the program has
  read-only data it has to agree with that data.
-/
import CodeReach.Code.Program

namespace CodeReach

/-- The contents of all registers. -/
abbrev RegFile := Reg → Word

/-- `r` holds `w`, and every other register what it held before. -/
def RegFile.set (ρ : RegFile) (r : Reg) (w : Word) : RegFile :=
  fun q => if q = r then w else ρ q

/-- What a read of a width at an address yields. -/
abbrev Memory := Word → Byte → Word

/-- Reads of read-only data yield that data. -/
def Memory.Agrees (μ : Memory) (p : Program) : Prop :=
  ∀ addr width w, p.read? addr width.toNat = some w → μ addr width = w

/-- The value of an expression. -/
def Expr.value (ρ : RegFile) (μ : Memory) : Expr → Word
  | .imm w => w
  | .reg r => ρ r
  | .mem addr width => μ (addr.value ρ μ) width
  | .unary op e => op.apply (e.value ρ μ)
  | .binary op l r => op.apply (l.value ρ μ) (r.value ρ μ)

end CodeReach
