/-
  CodeReach.Word

  Machine words and their text.  Every value a register or a memory cell can
  hold, and every address, is a `Word` of 64 bits; registers and access widths
  are single bytes.  Arithmetic that must not wrap around the top of the address
  space goes through `Word.addExact` and `Word.addClamped`.
-/

namespace CodeReach

/-- A 64-bit machine word: a register value or an address. -/
abbrev Word := BitVec 64

/-- One byte of memory, also the width of an access in bytes. -/
abbrev Byte := BitVec 8

/-- The number of a register; the machine has 256 of them. -/
abbrev Reg := BitVec 8

instance : Std.TransOrd Word :=
  inferInstanceAs (Std.TransOrd (BitVec 64))

instance : Std.LawfulEqOrd Word :=
  inferInstanceAs (Std.LawfulEqOrd (BitVec 64))

instance : Std.TransOrd Reg :=
  inferInstanceAs (Std.TransOrd (BitVec 8))

instance : Std.LawfulEqOrd Reg :=
  inferInstanceAs (Std.LawfulEqOrd (BitVec 8))

namespace Word

/-- The word of a truth value: one for true, zero for false. -/
def ofBool (b : Bool) : Word :=
  if b then 1 else 0

/-- Lowercase hexadecimal with a leading `0x` and no leading zeros. -/
def hex (w : Word) : String :=
  "0x" ++ String.ofList (Nat.toDigits 16 w.toNat)

/-- The highest word. -/
def highest : Word :=
  BitVec.allOnes 64

/-- `w + n`, unless the sum leaves the address space. -/
def addExact (w : Word) (n : Nat) : Option Word :=
  if w.toNat + n ≤ highest.toNat then some (BitVec.ofNat 64 (w.toNat + n)) else none

/-- `w + n`, or the highest word if the sum leaves the address space. -/
def addClamped (w : Word) (n : Nat) : Word :=
  (addExact w n).getD highest

end Word

/-- The name of a register: `r` and its decimal number. -/
def Reg.text (r : Reg) : String :=
  "r" ++ Nat.repr r.toNat

end CodeReach
