/-
  CodeReach.Proofs.Code.ReadOnlyData

  Reads of read-only data.  Putting shifted bytes together adds them up, as long as
  they fit a word (`toNat_ofBytes_take`): each byte lands above all earlier ones, so
  no two of them share a bit.  A read of a segment is therefore the little-endian
  number at its offset (`toNat_read?`), and one of a program is decided by the
  earliest segment that covers the address (`reads_exact_bytes`).
-/
import CodeReach.Proofs.Code.Assemble
import Mathlib.Algebra.BigOperators.Group.Finset.Basic

namespace CodeReach

/-! ## Bytes of a word -/

/-- The first `n` bytes, by place value, stay below `256 ^ n`. -/
theorem sum_bytes_lt (f : Nat → Byte) (n : Nat) :
    ∑ i ∈ Finset.range n, (f i).toNat * 256 ^ i < 256 ^ n := by
  induction n with
  | zero => simp
  | succ n ih =>
      rw [Finset.sum_range_succ, Nat.pow_succ]
      have hdigit : (f n).toNat * 256 ^ n ≤ 255 * 256 ^ n :=
        Nat.mul_le_mul_right _ (Nat.le_of_lt_succ (f n).isLt)
      omega

theorem Byte.toNat_shifted (b : Byte) {i : Nat} (hi : i < 8) :
    (Byte.shifted b i).toNat = 2 ^ (8 * i) * b.toNat := by
  have hbyte : b.toNat < 2 ^ 8 := b.isLt
  have hfits : 2 ^ (8 * i) * b.toNat < 2 ^ 64 := calc
    2 ^ (8 * i) * b.toNat < 2 ^ (8 * i) * 2 ^ 8 :=
      Nat.mul_lt_mul_of_pos_left hbyte (Nat.two_pow_pos _)
    _ = 2 ^ (8 * i + 8) := (Nat.pow_add ..).symm
    _ ≤ 2 ^ 64 := Nat.pow_le_pow_right (by decide) (by omega)
  rw [Byte.shifted, BitVec.toNat_shiftLeft, BitVec.toNat_setWidth,
    Nat.mod_eq_of_lt (Nat.lt_trans hbyte (by decide)), Nat.shiftLeft_eq, Nat.mul_comm,
    Nat.mod_eq_of_lt hfits]

namespace Word

theorem ofBytes_concat (bytes : List Byte) (b : Byte) :
    ofBytes (bytes ++ [b]) = ofBytes bytes ||| Byte.shifted b bytes.length := by
  simp [ofBytes, List.zipIdx_append]

/-- A byte above everything in the word is added to it. -/
theorem toNat_or_shifted {w : Word} (b : Byte) {i : Nat} (hw : w.toNat < 256 ^ i) (hi : i < 8) :
    (w ||| Byte.shifted b i).toNat = w.toNat + b.toNat * 256 ^ i := by
  have hplace : 256 ^ i = 2 ^ (8 * i) := by rw [Nat.pow_mul]
  rw [hplace] at hw ⊢
  rw [BitVec.toNat_or, Byte.toNat_shifted b hi, Nat.or_comm, ← Nat.two_pow_add_eq_or_of_lt hw,
    Nat.add_comm, Nat.mul_comm]

/-- The first bytes of a list as a word: the byte in position `i` counts `256 ^ i`. -/
theorem toNat_ofBytes_take (bytes : List Byte) {n : Nat} (hlen : n ≤ bytes.length) (hn : n ≤ 8) :
    (ofBytes (bytes.take n)).toNat =
      ∑ i ∈ Finset.range n, (bytes.getD i 0).toNat * 256 ^ i := by
  induction n with
  | zero => rfl
  | succ n ih =>
      have hlow := ih (Nat.le_of_succ_le hlen) (Nat.le_of_succ_le hn)
      have htake : bytes.take (n + 1) = bytes.take n ++ [bytes.getD n 0] := by
        rw [List.take_add_one, List.getD_eq_getElem?_getD, List.getElem?_eq_getElem hlen]
        rfl
      have hlength : (bytes.take n).length = n := List.length_take_of_le (Nat.le_of_succ_le hlen)
      have hbelow : (ofBytes (bytes.take n)).toNat < 256 ^ n := by
        rw [hlow]
        exact sum_bytes_lt (fun i => bytes.getD i 0) n
      rw [htake, ofBytes_concat, hlength, toNat_or_shifted _ hbelow hn, hlow,
        Finset.sum_range_succ]

end Word

/-! ## Segments -/

namespace Segment

/-- The byte at `addr` is one of the segment.  The sum is not taken modulo the address space. -/
def Covers (s : Segment) (addr : Word) : Prop :=
  s.start.toNat ≤ addr.toNat ∧ addr.toNat < s.start.toNat + s.data.length

instance (s : Segment) (addr : Word) : Decidable (s.Covers addr) :=
  inferInstanceAs (Decidable (_ ∧ _))

theorem contains_iff_covers {s : Segment} {addr : Word} :
    s.contains addr = true ↔ s.Covers addr := by
  simp only [contains, Covers, Bool.and_eq_true, decide_eq_true_eq]
  omega

/-- The reads that succeed: one to eight bytes, all of them in the segment. -/
def Inside (s : Segment) (addr : Word) (size : Nat) : Prop :=
  1 ≤ size ∧ size ≤ 8 ∧ s.start.toNat ≤ addr.toNat ∧
    addr.toNat - s.start.toNat + size ≤ s.data.length

instance (s : Segment) (addr : Word) (size : Nat) : Decidable (s.Inside addr size) :=
  inferInstanceAs (Decidable (_ ∧ _))

theorem read?_of_inside {s : Segment} {addr : Word} {size : Nat} (h : s.Inside addr size) :
    s.read? addr size =
      some (Word.ofBytes ((s.data.drop (addr.toNat - s.start.toNat)).take size)) := by
  obtain ⟨hpos, hword, hstart, hend⟩ := h
  have hcontains : s.contains addr = true :=
    contains_iff_covers.2 ⟨hstart, by omega⟩
  have hguard : ¬ (size = 0 || 8 < size || !s.contains addr) = true := by
    simp only [hcontains, Bool.not_true, Bool.or_false, Bool.or_eq_true, decide_eq_true_eq]
    omega
  rw [read?, if_neg hguard]
  exact if_pos (by rw [List.length_drop]; omega)

theorem read?_of_not_inside {s : Segment} {addr : Word} {size : Nat} (h : ¬ s.Inside addr size) :
    s.read? addr size = none := by
  rw [read?]
  split
  · rfl
  · rename_i hguard
    simp only [Bool.or_eq_true, decide_eq_true_eq, Bool.not_eq_true', not_or,
      Bool.not_eq_false] at hguard
    obtain ⟨⟨hpos, hword⟩, hcontains⟩ := hguard
    obtain ⟨hstart, hbelow⟩ := contains_iff_covers.1 hcontains
    refine if_neg fun hend => h ⟨by omega, by omega, hstart, ?_⟩
    rw [List.length_drop] at hend
    omega

/-- A read inside a segment gives the little-endian number at its offset, and every other read
    fails. -/
theorem toNat_read? (s : Segment) (addr : Word) (size : Nat) :
    (s.read? addr size).map BitVec.toNat =
      if s.Inside addr size then
        some (∑ i ∈ Finset.range size,
          (s.data.getD (addr.toNat - s.start.toNat + i) 0).toNat * 256 ^ i)
      else none := by
  split
  · rename_i h
    have hlen : size ≤ (s.data.drop (addr.toNat - s.start.toNat)).length := by
      rw [List.length_drop]
      exact Nat.le_sub_of_add_le' h.2.2.2
    rw [read?_of_inside h, Option.map_some, Word.toNat_ofBytes_take _ hlen h.2.1]
    simp only [List.getD_eq_getElem?_getD, List.getElem?_drop]
  · rename_i h
    rw [read?_of_not_inside h, Option.map_none]

end Segment

/-! ## Programs -/

namespace Program

/-- The segments of an assembled program are those of its items, in the same order. -/
theorem segments_assemble (entry : Word) (items : List Item) :
    (assemble entry items).segments = items.filterMap Item.segment? := by
  rw [assemble_eq]
  rfl

/-- Reads of read-only data.  In a segment, a read of one to eight bytes that all belong to the
    segment gives their little-endian number, and no other read succeeds; offsets are numbers, so
    nothing wraps around at the top of the address space.  In an assembled program, the earliest
    segment that covers the address answers, and without one the read fails. -/
theorem reads_exact_bytes :
    (∀ (s : Segment) (addr : Word) (size : Nat),
      (s.read? addr size).map BitVec.toNat =
        if 1 ≤ size ∧ size ≤ 8 ∧ s.start.toNat ≤ addr.toNat ∧
            addr.toNat - s.start.toNat + size ≤ s.data.length then
          some (∑ i ∈ Finset.range size,
            (s.data.getD (addr.toNat - s.start.toNat + i) 0).toNat * 256 ^ i)
        else none) ∧
    (∀ (entry : Word) (items : List Item) (addr : Word) (size : Nat),
      (∀ earlier s later, items.filterMap Item.segment? = earlier ++ s :: later →
        (∀ t ∈ earlier, ¬ t.Covers addr) → s.Covers addr →
        (assemble entry items).read? addr size = s.read? addr size) ∧
      ((∀ s ∈ items.filterMap Item.segment?, ¬ s.Covers addr) →
        (assemble entry items).read? addr size = none)) := by
  refine ⟨Segment.toNat_read?, fun entry items addr size => ⟨?_, ?_⟩⟩
  · intro earlier s later hsplit hearlier hs
    have hfind : (assemble entry items).segments.find? (·.contains addr) = some s := by
      rw [segments_assemble, List.find?_eq_some_iff_append]
      refine ⟨Segment.contains_iff_covers.2 hs, earlier, later, hsplit, fun t ht => ?_⟩
      rw [Bool.not_eq_true', ← Bool.not_eq_true, Segment.contains_iff_covers]
      exact hearlier t ht
    rw [read?, hfind, Option.bind_some]
  · intro hnone
    have hfind : (assemble entry items).segments.find? (·.contains addr) = none := by
      rw [segments_assemble, List.find?_eq_none]
      exact fun s hs hcontains => hnone s hs (Segment.contains_iff_covers.1 hcontains)
    rw [read?, hfind, Option.bind_none]

/-- Two overlapping segments at the top of the address space; the first has more bytes than there
    are addresses left. -/
def topHeavy : List Item :=
  [.segment 0xfffffffffffffffe [0xaa, 0xbb, 0xcc], .segment 0xfffffffffffffffd [0x01, 0x02, 0x03]]

theorem reads_exact_bytes_topHeavy :
    (assemble 0 topHeavy).read? 0xffffffffffffffff 2 = some 0xccbb ∧
    (assemble 0 topHeavy).read? 0xfffffffffffffffd 3 = some 0x030201 ∧
    (assemble 0 topHeavy).read? 0xfffffffffffffffc 1 = none := by
  have first := (reads_exact_bytes.2 0 topHeavy 0xffffffffffffffff 2).1 [] _ _ rfl
    (fun t ht => absurd ht List.not_mem_nil) (by decide)
  have second := (reads_exact_bytes.2 0 topHeavy 0xfffffffffffffffd 3).1 [_] _ [] rfl
    (fun t ht => List.mem_singleton.1 ht ▸ by decide) (by decide)
  have neither := (reads_exact_bytes.2 0 topHeavy 0xfffffffffffffffc 1).2 (by decide)
  exact ⟨first.trans (by decide), second.trans (by decide), neither⟩

end Program

end CodeReach
