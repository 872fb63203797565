/-
  CodeReach.Machine.Step

  How a program runs.  A configuration is a label with registers and memory.  Stores
  may change memory in any way that leaves read-only data alone.  There is no step
  from a halt, from the summary of a call, or off the end of the code.
-/
import CodeReach.Machine.Value

namespace CodeReach

/-- A machine at a label. -/
structure Config where
  label : Label
  regs : RegFile
  memory : Memory

namespace Config

/-- The value of an expression in the configuration. -/
def value (c : Config) (e : Expr) : Word :=
  e.value c.regs c.memory

end Config

/-- One step of the machine. -/
inductive Program.Step (p : Program) : Config → Config → Prop where
  | assign {c : Config} {r : Reg} {e : Expr} {next : Label}
      (site : p.statement? c.label = some ⟨c.label, some next, .assign r e⟩) :
      Step p c ⟨next, c.regs.set r (c.value e), c.memory⟩
  | havoc {c : Config} {r : Reg} {next : Label} (w : Word)
      (site : p.statement? c.label = some ⟨c.label, some next, .havoc r⟩) :
      Step p c ⟨next, c.regs.set r w, c.memory⟩
  | store {c : Config} {addr value : Expr} {width : Byte} {next : Label} (μ : Memory)
      (site : p.statement? c.label = some ⟨c.label, some next, .store addr value width⟩)
      (agrees : μ.Agrees p) :
      Step p c ⟨next, c.regs, μ⟩
  | assume {c : Config} {e : Expr} {origin : Option Branch} {next : Label}
      (site : p.statement? c.label = some ⟨c.label, some next, .assume e origin⟩)
      (holds : c.value e ≠ 0) :
      Step p c ⟨next, c.regs, c.memory⟩
  | skip {c : Config} {next : Label}
      (site : p.statement? c.label = some ⟨c.label, some next, .skip⟩) :
      Step p c ⟨next, c.regs, c.memory⟩
  | taken {c : Config} {g : Goto} {next : Option Label}
      (site : p.statement? c.label = some ⟨c.label, next, .goto g⟩)
      (holds : c.value g.condition ≠ 0) :
      Step p c ⟨Label.start (c.value g.target), c.regs, c.memory⟩
  | notTaken {c : Config} {g : Goto} {next : Label}
      (site : p.statement? c.label = some ⟨c.label, some next, .goto g⟩)
      (fails : c.value g.condition = 0) :
      Step p c ⟨next, c.regs, c.memory⟩

/-- Any number of steps. -/
inductive Program.Steps (p : Program) : Config → Config → Prop where
  | refl (c : Config) : Steps p c c
  | tail {a b c : Config} : Steps p a b → p.Step b c → Steps p a c

end CodeReach
