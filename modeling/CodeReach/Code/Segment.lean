/-
  CodeReach.Code.Segment

  Read-only data of a program: a run of bytes at a start address.  Reads are
  little-endian and at most a word wide; they are computed on offsets, so that a
  segment at the top of the address space never wraps around.
-/
import CodeReach.Word

namespace CodeReach

/-- The word whose byte number `i` is `b` and whose other bytes are zero. -/
def Byte.shifted (b : Byte) (i : Nat) : Word :=
  b.setWidth 64 <<< (8 * i)

/-- The word with the given bytes, least significant byte first. -/
def Word.ofBytes (bytes : List Byte) : Word :=
  bytes.zipIdx.foldl (fun w b => w ||| Byte.shifted b.1 b.2) 0

/-- Bytes that the program never writes, from address `start` on. -/
structure Segment where
  start : Word
  data : List Byte
deriving DecidableEq

namespace Segment

/-- The first address after the segment, clamped to the highest one. -/
def limit (s : Segment) : Word :=
  Word.addClamped s.start s.data.length

/-- Whether the byte at `addr` belongs to the segment. -/
def contains (s : Segment) (addr : Word) : Bool :=
  s.start.toNat ≤ addr.toNat && addr.toNat - s.start.toNat < s.data.length

/-- The `size` bytes at `addr` as a word.  Only reads of one to eight bytes that lie inside the
    segment succeed. -/
def read? (s : Segment) (addr : Word) (size : Nat) : Option Word :=
  if size = 0 || 8 < size || !s.contains addr then none
  else
    let rest := s.data.drop (addr.toNat - s.start.toNat)
    if size ≤ rest.length then some (Word.ofBytes (rest.take size)) else none

end Segment

end CodeReach
