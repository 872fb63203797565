/-
  CodeReach.Proofs.Domain.KnownInputs

  Two evaluators side by side.  One puts words into an expression and folds; the other
  computes with sets of words.  On an expression that reads no memory, and whose
  registers are all tracked and all known, neither gets stuck: the first ends with a
  constant, the second with a set of one word, and both are the value of the expression
  (`evaluators_agree`).
-/
import CodeReach.Proofs.Domain.NullPage
import CodeReach.Proofs.Expr.Staging

namespace CodeReach

/-! ## Nothing but registers is read -/

namespace Expr

variable {ρ ρ' : RegFile} {μ μ' : Memory} {b : Bindings} {e : Expr}

/-- Without memory reads, the value does not depend on the memory. -/
theorem value_congr_memory (hreads : e.reads = []) : e.value ρ μ = e.value ρ μ' := by
  induction e with
  | imm w => rfl
  | reg r => rfl
  | mem addr width => exact absurd hreads (by simp [reads])
  | unary op e ih => rw [value, value, ih hreads]
  | binary op l r ihl ihr =>
      obtain ⟨hl, hr⟩ := List.append_eq_nil_iff.1 hreads
      rw [value, value, ihl hl, ihr hr]

/-- So it depends on the registers that are read and on nothing else. -/
theorem value_congr (hreads : e.reads = []) (hρ : ∀ r ∈ e.regs, ρ r = ρ' r) :
    e.value ρ μ = e.value ρ' μ' :=
  (value_congr_regs hρ).trans (value_congr_memory hreads)

/-- Without memory reads, an expression whose registers are all put in folds to its value. -/
theorem substitute_of_known (hreads : e.reads = []) (hb : ∀ r ∈ e.regs, b r = some (ρ r)) :
    e.substitute b = .imm (e.value ρ μ) := by
  induction e with
  | imm w => rfl
  | reg r =>
      rw [substitute, hb r (List.mem_singleton_self r)]
      rfl
  | mem addr width => exact absurd hreads (by simp [reads])
  | unary op e ih => rw [substitute, ih hreads hb, mkUnary_imm, value]
  | binary op l r ihl ihr =>
      obtain ⟨hl, hr⟩ := List.append_eq_nil_iff.1 hreads
      obtain ⟨hbl, hbr⟩ := List.forall_mem_append.1 hb
      rw [substitute, ihl hl hbl, ihr hr hbr, mkBinary_imm, value]

end Expr

/-- The registers of a list are known to have the values that they have in a register file. -/
def Bindings.holding (ρ : RegFile) (rs : List Reg) : Bindings :=
  rs.foldr (fun r b => b.bind r (ρ r)) Bindings.empty

theorem Bindings.holding_apply (ρ : RegFile) (rs : List Reg) (q : Reg) :
    holding ρ rs q = if q ∈ rs then some (ρ q) else none := by
  induction rs with
  | nil => rfl
  | cons r rs ih =>
      show (if q = r then some (ρ r) else holding ρ rs q) = _
      by_cases hq : q = r
      · subst hq
        simp
      · simp [hq, ih]

namespace Registers

variable {s : Registers} {ρ : RegFile} {μ : Memory} {program : Option Program} {e : Expr}

/-- Nothing is known but that the registers of a list have the values that they have in a register
    file. -/
def holding (ρ : RegFile) (rs : List Reg) : Registers :=
  rs.foldr (fun r s => s.set r (.const (ρ r))) unknown

theorem get_holding (ρ : RegFile) (rs : List Reg) (q : Reg) :
    (holding ρ rs).get q =
      if q ∈ rs ∧ q.toNat < trackedRegs then .const (ρ q) else .unknown := by
  induction rs with
  | nil => simp [holding]
  | cons r rs ih =>
      show ((holding ρ rs).set r (.const (ρ r))).get q = _
      rw [get_set, ih]
      by_cases hq : r = q
      · subst hq
        by_cases htracked : r.toNat < trackedRegs <;> simp [htracked]
      · simp [hq, Ne.symm hq]

theorem pins_of_known (hreads : e.reads = []) (hs : ∀ r ∈ e.regs, s.get r = .const (ρ r)) :
    s.Pins program ρ μ e := by
  induction e with
  | imm w => trivial
  | reg r => exact hs r (List.mem_singleton_self r)
  | mem addr width => exact absurd hreads (by simp [Expr.reads])
  | unary op e ih => exact ih hreads hs
  | binary op l r ihl ihr =>
      obtain ⟨hl, hr⟩ := List.append_eq_nil_iff.1 hreads
      obtain ⟨hsl, hsr⟩ := List.forall_mem_append.1 hs
      exact ⟨ihl hl hsl, ihr hr hsr⟩

/-- Without memory reads, an expression whose registers are all known evaluates to its value,
    whatever the read-only data are. -/
theorem eval_of_known (program : Option Program) (μ : Memory) (hreads : e.reads = [])
    (hs : ∀ r ∈ e.regs, s.get r = .const (ρ r)) :
    s.eval program e = .ok (.const (e.value ρ μ)) := by
  -- Some memory agrees with the read-only data, and the value does not depend on the memory.
  obtain ⟨μ', hμ'⟩ := Memory.exists_agrees program
  rw [eval_of_pins hμ' (pins_of_known hreads hs)]
  exact congrArg (fun w => Except.ok (ValueSet.const w))
    (Expr.value_congr hreads fun _ _ => rfl)

/-- The two evaluators agree on known inputs.  Let an expression read no memory and only tracked
    registers, and let these have any values.  If exactly these values are known, there is one word
    to which the expression evaluates, with any program or none, to which it folds, and which is its
    value whatever else the machine holds. -/
theorem evaluators_agree (e : Expr) (hreads : e.reads = [])
    (htracked : ∀ r ∈ e.regs, r.toNat < trackedRegs) (ρ : RegFile) :
    ∃ v, (∀ program, (holding ρ e.regs).eval program e = .ok (.const v)) ∧
      e.substitute (Bindings.holding ρ e.regs) = .imm v ∧
      ∀ (ρ' : RegFile) (μ : Memory), (∀ r ∈ e.regs, ρ' r = ρ r) → e.value ρ' μ = v := by
  refine ⟨e.value ρ fun _ _ => 0, fun program => ?_, ?_, fun ρ' μ hρ' => ?_⟩
  · refine eval_of_known program _ hreads fun r hr => ?_
    rw [get_holding, if_pos ⟨hr, htracked r hr⟩]
  · refine Expr.substitute_of_known hreads fun r hr => ?_
    rw [Bindings.holding_apply, if_pos hr]
  · exact Expr.value_congr hreads hρ'

/-- A sum that wraps around into the negative words, compared with a shift by more than a word. -/
def wrappedBelowShifted : Expr :=
  .binary .lt (.binary .add (.reg 1) (.imm 1)) (.binary .shl (.reg 31) (.imm 65))

/-- The largest positive word plus one is below one shifted once; both evaluators find a one. -/
theorem evaluators_agree_wrappedBelowShifted :
    wrappedBelowShifted.reads = [] ∧
      (∀ r ∈ wrappedBelowShifted.regs, r.toNat < trackedRegs) ∧
      (holding (RegFile.set (fun _ => 1) 1 0x7fffffffffffffff) [1, 31]).eval none
        wrappedBelowShifted = .ok (.const 1) ∧
      wrappedBelowShifted.substitute
        (Bindings.holding (RegFile.set (fun _ => 1) 1 0x7fffffffffffffff) [1, 31]) = .imm 1 := by
  have htracked : ∀ r ∈ wrappedBelowShifted.regs, r.toNat < trackedRegs := by decide
  obtain ⟨v, heval, hfold, hvalue⟩ := evaluators_agree wrappedBelowShifted rfl htracked
    (RegFile.set (fun _ => 1) 1 0x7fffffffffffffff)
  have hv : 1 = v := hvalue _ (fun _ _ => 0) fun _ _ => rfl
  subst hv
  exact ⟨rfl, htracked, heval none, hfold⟩

end Registers

end CodeReach
