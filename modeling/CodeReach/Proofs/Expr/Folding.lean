/-
  CodeReach.Proofs.Expr.Folding

  Folding does not change what an expression means.  In every register file and
  every memory, each folding constructor has the value of the bare node it stands
  for (`value_mkUnary`, `value_mkBinary`), and so a tree rebuilt with them has the
  value of the tree it was built from (`value_simplify`).

  Folding drops a constant beside a conjunct only if the conjunct is zero or one by
  its form, so the form has to be trusted: `value_of_isBoolean`.
-/
import CodeReach.Expr.Fold
import CodeReach.Machine.Value

namespace CodeReach

/-! ## Truth values -/

namespace Word

theorem ofBool_cases (b : Bool) : ofBool b = 0 ∨ ofBool b = 1 := by
  cases b
  · exact Or.inl rfl
  · exact Or.inr rfl

@[simp] theorem ofBool_eq_zero {b : Bool} : ofBool b = 0 ↔ b = false := by
  cases b <;> simp [ofBool]

theorem ofBool_ne_zero {b : Bool} : ofBool b ≠ 0 ↔ b = true := by
  rw [ne_eq, ofBool_eq_zero, Bool.not_eq_false]

end Word

theorem BinaryOp.apply_of_isBoolean {op : BinaryOp} (h : op.isBoolean = true) (l r : Word) :
    op.apply l r = 0 ∨ op.apply l r = 1 := by
  cases op with
  | eq | ne | ltu | lt | logicalAnd => exact Word.ofBool_cases _
  | add | sub | mul | and | or | xor | shl | shr => exact absurd h (by decide)

theorem BinaryOp.apply_eq_ne_zero {l r : Word} : BinaryOp.eq.apply l r ≠ 0 ↔ l = r := by
  rw [BinaryOp.apply, Word.ofBool_ne_zero, beq_iff_eq]

theorem BinaryOp.apply_ne_ne_zero {l r : Word} : BinaryOp.ne.apply l r ≠ 0 ↔ l ≠ r := by
  rw [BinaryOp.apply, Word.ofBool_ne_zero, bne_iff_ne]

theorem BinaryOp.apply_logicalAnd_ne_zero {l r : Word} :
    BinaryOp.logicalAnd.apply l r ≠ 0 ↔ l ≠ 0 ∧ r ≠ 0 := by
  rw [BinaryOp.apply, Word.ofBool_ne_zero, Bool.and_eq_true, bne_iff_ne, bne_iff_ne]

/-- The negation of an equality is the inequality. -/
theorem BinaryOp.apply_ne_eq_not (l r : Word) :
    BinaryOp.ne.apply l r = UnaryOp.logicalNot.apply (BinaryOp.eq.apply l r) := by
  by_cases h : l = r <;> simp [BinaryOp.apply, UnaryOp.apply, Word.ofBool, h]

/-- The negation of an inequality is the equality. -/
theorem BinaryOp.apply_eq_eq_not (l r : Word) :
    BinaryOp.eq.apply l r = UnaryOp.logicalNot.apply (BinaryOp.ne.apply l r) := by
  by_cases h : l = r <;> simp [BinaryOp.apply, UnaryOp.apply, Word.ofBool, h]

namespace Expr

variable {ρ : RegFile} {μ : Memory}

/-- An expression that is zero or one by its form has the value zero or one. -/
theorem value_of_isBoolean {e : Expr} (h : e.isBoolean = true) :
    e.value ρ μ = 0 ∨ e.value ρ μ = 1 := by
  cases e with
  | imm w =>
      have hw : w ≤ 1 := by simpa [isBoolean] using h
      show w = 0 ∨ w = 1
      bv_omega
  | reg r => exact absurd h (by simp [isBoolean])
  | mem addr width => exact absurd h (by simp [isBoolean])
  | unary op e =>
      have hop : op = .logicalNot := by simpa [isBoolean] using h
      subst hop
      exact Word.ofBool_cases _
  | binary op l r => exact BinaryOp.apply_of_isBoolean h _ _

theorem value_of_const? {e : Expr} {w : Word} (h : e.const? = some w) : e.value ρ μ = w := by
  cases e with
  | imm v => exact Option.some.inj h
  | reg r => exact absurd h (by simp [const?])
  | mem addr width => exact absurd h (by simp [const?])
  | unary op e => exact absurd h (by simp [const?])
  | binary op l r => exact absurd h (by simp [const?])

/-! ## Folding constructors -/

theorem value_foldUnary (op : UnaryOp) (e : Expr) :
    (foldUnary op e).value ρ μ = op.apply (e.value ρ μ) := by
  fun_cases foldUnary op e <;> rfl

theorem value_foldBinary (op : BinaryOp) (l r : Expr) :
    (foldBinary op l r).value ρ μ = op.apply (l.value ρ μ) (r.value ρ μ) := by
  fun_cases foldBinary op l r <;> rfl

theorem value_mkLogicalNot (e : Expr) :
    (mkLogicalNot e).value ρ μ = UnaryOp.logicalNot.apply (e.value ρ μ) := by
  fun_cases mkLogicalNot e with
  | case1 l r => rw [value_foldBinary, value, BinaryOp.apply_ne_eq_not]
  | case2 l r => rw [value_foldBinary, value, BinaryOp.apply_eq_eq_not]
  | case3 => exact value_foldUnary _ _

/-- The folding constructor of a unary operator has the value of the bare node. -/
theorem value_mkUnary (op : UnaryOp) (e : Expr) :
    (mkUnary op e).value ρ μ = op.apply (e.value ρ μ) := by
  cases op with
  | logicalNot => exact value_mkLogicalNot e
  | not => exact value_foldUnary .not e
  | neg => exact value_foldUnary .neg e

/-- Beside a nonzero word, a conjunction is the truth value of its other side. -/
theorem apply_logicalAnd_of_boolean {l r : Word} (hl : l ≠ 0) (hr : r = 0 ∨ r = 1) :
    BinaryOp.logicalAnd.apply l r = r ∧ BinaryOp.logicalAnd.apply r l = r := by
  rcases hr with rfl | rfl
  · simp [BinaryOp.apply, Word.ofBool]
  · simpa [BinaryOp.apply, Word.ofBool] using hl

theorem value_mkLogicalAnd (l r : Expr) :
    (mkLogicalAnd l r).value ρ μ = BinaryOp.logicalAnd.apply (l.value ρ μ) (r.value ρ μ) := by
  unfold mkLogicalAnd
  split
  · rename_i h
    rcases h with rfl | rfl <;> simp [value, BinaryOp.apply, Word.ofBool]
  · rename_i h0
    have hzero : l ≠ .imm 0 ∧ r ≠ .imm 0 := not_or.1 h0
    -- A constant that is no zero by its form has a nonzero value.
    have hconst : ∀ {e : Expr}, e ≠ .imm 0 → e.const?.isSome = true → e.value ρ μ ≠ 0 := by
      intro e he hc
      obtain ⟨w, hw⟩ := Option.isSome_iff_exists.1 hc
      rw [value_of_const? hw]
      rintro rfl
      cases e with
      | imm v => exact he (congrArg imm (Option.some.inj hw))
      | _ => simp [const?] at hw
    split
    · rename_i h
      exact (apply_logicalAnd_of_boolean (hconst hzero.1 h.1) (value_of_isBoolean h.2)).1.symm
    · split
      · rename_i h
        exact (apply_logicalAnd_of_boolean (hconst hzero.2 h.1) (value_of_isBoolean h.2)).2.symm
      · exact value_foldBinary _ _ _

/-- The folding constructor of a binary operator has the value of the bare node. -/
theorem value_mkBinary (op : BinaryOp) (l r : Expr) :
    (mkBinary op l r).value ρ μ = op.apply (l.value ρ μ) (r.value ρ μ) := by
  cases op with
  | logicalAnd => exact value_mkLogicalAnd l r
  | ltu => exact value_foldBinary .ltu l r
  | lt => exact value_foldBinary .lt l r
  | sub =>
      simp only [mkBinary]
      split
      · simp [*, value, BinaryOp.apply]
      · split
        · -- A difference from zero becomes a negation, which folds on its own.
          rw [value_mkUnary]
          simp [*, value, BinaryOp.apply, UnaryOp.apply]
        · exact value_foldBinary _ _ _
  | mul =>
      simp only [mkBinary]
      split
      · rename_i h
        rcases h with rfl | rfl <;> simp [value, BinaryOp.apply]
      · split
        · simp [*, value, BinaryOp.apply]
        · split
          · simp [*, value, BinaryOp.apply]
          · exact value_foldBinary _ _ _
  | and =>
      simp only [mkBinary]
      split
      · rename_i h
        rcases h with rfl | rfl <;> simp [value, BinaryOp.apply]
      · exact value_foldBinary _ _ _
  | add | or | xor =>
      simp only [mkBinary]
      split
      · simp [*, value, BinaryOp.apply]
      · split
        · simp [*, value, BinaryOp.apply]
        · exact value_foldBinary _ _ _
  | shl | shr | eq | ne =>
      simp only [mkBinary]
      split
      · simp [*, value, BinaryOp.apply, Word.ofBool]
      · exact value_foldBinary _ _ _

/-! ## Whole trees -/

/-- Putting in registers that hold the values they are known to have does not change the value. -/
theorem value_substitute {b : Bindings} (hb : ∀ r w, b r = some w → ρ r = w) (e : Expr) :
    (e.substitute b).value ρ μ = e.value ρ μ := by
  induction e with
  | imm w => rfl
  | reg r =>
      rw [substitute]
      cases h : b r with
      | none => rfl
      | some w => exact (hb r w h).symm
  | mem addr width ih => rw [substitute, value, value, ih]
  | unary op e ih => rw [substitute, value_mkUnary, value, ih]
  | binary op l r ihl ihr => rw [substitute, value_mkBinary, value, ihl, ihr]

/-- A simplified expression has the value it had before. -/
@[simp] theorem value_simplify (e : Expr) : e.simplify.value ρ μ = e.value ρ μ := by
  apply value_substitute
  intro r w h
  exact absurd h (by simp [Bindings.empty])

/-- A conjunction is nonzero exactly when both sides are, however it was folded. -/
theorem value_mkLogicalAnd_ne_zero {l r : Expr} :
    (mkBinary .logicalAnd l r).value ρ μ ≠ 0 ↔ l.value ρ μ ≠ 0 ∧ r.value ρ μ ≠ 0 := by
  rw [value_mkBinary, BinaryOp.apply_logicalAnd_ne_zero]

/-- A comparison with a constant is nonzero exactly at that constant, however it was folded. -/
theorem value_mkEq_imm_ne_zero {e : Expr} {w : Word} :
    (mkBinary .eq e (.imm w)).value ρ μ ≠ 0 ↔ e.value ρ μ = w := by
  rw [value_mkBinary, BinaryOp.apply_eq_ne_zero]
  rfl

end Expr

end CodeReach
