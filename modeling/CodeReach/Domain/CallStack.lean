/-
  CodeReach.Domain.CallStack

  The return addresses of the calls that have not returned yet, as far as they are
  remembered.
-/
import CodeReach.Word

namespace CodeReach

/-- Remembered return addresses, the innermost first. -/
structure CallStack where
  frames : List Word
deriving DecidableEq

namespace CallStack

/-- No call is remembered. -/
def empty : CallStack :=
  ⟨[]⟩

instance : Inhabited CallStack :=
  ⟨empty⟩

/-- The return address of the innermost call. -/
def top? (s : CallStack) : Option Word :=
  s.frames.head?

/-- The number of remembered calls. -/
def depth (s : CallStack) : Nat :=
  s.frames.length

/-- One more call.  If that makes more than `maxDepth`, the outermost call is forgotten. -/
def push (s : CallStack) (address : Word) (maxDepth : Nat) : CallStack :=
  let frames := address :: s.frames
  if maxDepth < frames.length then ⟨frames.dropLast⟩ else ⟨frames⟩

/-- The innermost call has returned. -/
def pop (s : CallStack) : CallStack :=
  ⟨s.frames.tail⟩

/-- The return addresses in brackets, the outermost first. -/
def text (s : CallStack) : String :=
  "[" ++ ", ".intercalate (s.frames.reverse.map Word.hex) ++ "]"

end CallStack

end CodeReach
