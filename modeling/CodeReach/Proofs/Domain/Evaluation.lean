/-
  CodeReach.Proofs.Domain.Evaluation

  What evaluation may and must answer.  It may answer nothing that leaves out the
  value of the expression in a register file and a memory that it has to reckon with.
  And it must answer with that value alone where nothing is open: where each register
  the expression reads is known to be one word, and each read goes to read-only data
  outside the null page (`Pins`).

  Only the tracked registers are asked about; all others count as unknown, and may hold
  anything (`describes_of_tracked`).
-/
import CodeReach.Proofs.Domain.Monotone

namespace CodeReach

namespace ValueSet

/-! ## Constants -/

theorem map_const (f : Word → Word) (w : Word) : (const w).map f = const (f w) := rfl

theorem combine_const (f : Word → Word → Word) (x y : Word) :
    combine f (const x) (const y) = const (f x y) := rfl

end ValueSet

namespace Registers

variable {s : Registers} {ρ : RegFile} {μ : Memory} {program : Option Program}

/-- A conjunction of two constants is a constant, also where one of them decides it. -/
theorem combine_const (op : BinaryOp) (x y : Word) :
    combine op (.const x) (.const y) = .const (op.apply x y) := by
  by_cases hzero : op = .logicalAnd ∧
      ((ValueSet.const x).single? = some 0 ∨ (ValueSet.const y).single? = some 0)
  · have hallows : (combine op (.const x) (.const y)).Allows (op.apply x y) :=
      allows_combine op (ValueSet.allows_const.2 rfl) (ValueSet.allows_const.2 rfl)
    rw [combine, if_pos hzero] at hallows ⊢
    rw [ValueSet.allows_const.1 hallows]
  · rw [combine, if_neg hzero, ValueSet.combine_const]

/-- A read of read-only data outside the null page. -/
theorem load_const {p : Program} {addr w : Word} {width : Byte} (hnull : ¬ addr < nullPageEnd)
    (hread : p.read? addr width.toNat = some w) :
    load (some p) (.const addr) width = .ok (.const w) := by
  have haccess : checkAccess (.const addr) = .ok () := by
    show (if [addr].all (· < nullPageEnd) then _ else _) = _
    simp [hnull]
  have hreads : [addr].mapM (p.read? · width.toNat) = some [w] := by simp [hread]
  show (checkAccess (.const addr) >>= fun _ => pure
    (([addr].mapM (p.read? · width.toNat)).map ValueSet.ofList |>.getD .unknown)) = _
  rw [haccess, hreads]
  rfl

/-! ## Evaluation -/

/-- Registers from the tracked ones on may hold anything. -/
theorem describes_of_tracked
    (h : ∀ r : Reg, r.toNat < trackedRegs → (s.get r).Allows (ρ r)) : s.Describes ρ := by
  intro r
  by_cases hr : r.toNat < trackedRegs
  · exact h r hr
  · rw [get_of_not_lt s hr]
    exact ValueSet.allows_unknown _

/-- Nothing that the expression reads is left open: its registers are known to be the words they
    hold, and it reads read-only data outside the null page. -/
def Pins (s : Registers) (program : Option Program) (ρ : RegFile) (μ : Memory) : Expr → Prop
  | .imm _ => True
  | .reg r => s.get r = .const (ρ r)
  | .mem addr width => s.Pins program ρ μ addr ∧ ¬ addr.value ρ μ < nullPageEnd ∧
      ∃ p ∈ program, (p.read? (addr.value ρ μ) width.toNat).isSome = true
  | .unary _ e => s.Pins program ρ μ e
  | .binary _ l r => s.Pins program ρ μ l ∧ s.Pins program ρ μ r

/-- Where nothing is left open, evaluation gives the value. -/
theorem eval_of_pins (hμ : ∀ p ∈ program, μ.Agrees p) {e : Expr} (h : s.Pins program ρ μ e) :
    s.eval program e = .ok (.const (e.value ρ μ)) := by
  induction e with
  | imm w => rfl
  | reg r => exact congrArg Except.ok h
  | mem addr width ih =>
      obtain ⟨haddr, hnull, p, hp, hread⟩ := h
      obtain ⟨w, hw⟩ := Option.isSome_iff_exists.1 hread
      obtain rfl : program = some p := hp
      rw [eval, ih haddr, Expr.value, hμ p rfl _ _ w hw]
      exact load_const hnull hw
  | unary op e ih =>
      rw [eval, ih h]
      exact congrArg Except.ok (ValueSet.map_const op.apply _)
  | binary op l r ihl ihr =>
      rw [eval, ihl h.1, ihr h.2]
      exact congrArg Except.ok (combine_const op _ _)

/-- Evaluation is sound, and exact where nothing is left open.  If each tracked register holds a
    word that is possible for it and the memory agrees with the read-only data of the program, an
    answer allows the value of the expression; and if the registers and the data that the expression
    reads are all known, there is an answer and it is that value alone. -/
theorem eval_allows_value (s : Registers) (program : Option Program) (e : Expr) (ρ : RegFile)
    (μ : Memory) (hρ : ∀ r : Reg, r.toNat < trackedRegs → (s.get r).Allows (ρ r))
    (hμ : ∀ p ∈ program, μ.Agrees p) :
    (∀ v, s.eval program e = .ok v → v.Allows (e.value ρ μ)) ∧
      (s.Pins program ρ μ e → s.eval program e = .ok (.const (e.value ρ μ))) :=
  ⟨fun _ hv => allows_eval hμ (describes_of_tracked hρ) hv, eval_of_pins hμ⟩

/-- A program with two words of read-only data. -/
def twoWords : Program :=
  { Program.blank 0x1000 with
    segments := [⟨0x3000, [0x11, 0, 0, 0, 0, 0, 0, 0, 0x22, 0, 0, 0, 0, 0, 0, 0]⟩] }

/-- One of the two words, plus a conjunction that is zero whatever the untracked register holds. -/
def pickedWord : Expr :=
  .binary .add (.mem (.reg 1) 8) (.binary .logicalAnd (.reg 200) (.imm 0))

/-- With two candidates for the address, the word at the right one is among those that are possible;
    with one candidate, it is the only one. -/
theorem eval_allows_value_pickedWord :
    (unknown.set 1 (.ofList [0x3000, 0x3008])).eval (some twoWords) pickedWord =
        .ok (.ofList [0x11, 0x22]) ∧
      (ValueSet.ofList [0x11, 0x22]).Allows
        (pickedWord.value (fun _ => 0x3008) twoWords.rom) ∧
      (unknown.set 1 (.const 0x3008)).eval (some twoWords) (.mem (.reg 1) 8) =
        .ok (.const ((Expr.mem (.reg 1) 8).value (fun _ => 0x3008) twoWords.rom)) := by
  have hrom : ∀ p ∈ some twoWords, twoWords.rom.Agrees p := fun p hp =>
    Option.some.inj hp ▸ twoWords.agrees_rom
  have htwo : (unknown.set 1 (.ofList [0x3000, 0x3008])).Describes fun _ => 0x3008 :=
    describes_set_self (describes_unknown _) (ValueSet.allows_ofList (by simp))
  have hone : (unknown.set 1 (.const 0x3008)).Describes fun _ => 0x3008 :=
    describes_set_self (describes_unknown _) (ValueSet.allows_const.2 rfl)
  have heval : (unknown.set 1 (.ofList [0x3000, 0x3008])).eval (some twoWords) pickedWord =
      .ok (.ofList [0x11, 0x22]) := rfl
  have hsound := eval_allows_value _ (some twoWords) pickedWord _ twoWords.rom
    (fun r _ => htwo r) hrom
  have hexact := eval_allows_value _ (some twoWords) (.mem (.reg 1) 8) _ twoWords.rom
    (fun r _ => hone r) hrom
  exact ⟨heval, hsound.1 _ heval,
    hexact.2 ⟨rfl, by decide, twoWords, rfl, by decide +kernel⟩⟩

end Registers

end CodeReach
