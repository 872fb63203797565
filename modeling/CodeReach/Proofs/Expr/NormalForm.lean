/-
  CodeReach.Proofs.Expr.NormalForm

  What folding leaves behind.  `Folded` says when there is nothing to fold in a tree:
  no operator stands over constants alone, beside a constant that it drops, or over a
  comparison that it turns around.  Every rebuilt tree is folded (`folded_substitute`),
  folded trees are those that rebuilding leaves alone (`simplify_eq_self_iff`), and of
  the registers only those are left whose values are not known (`regs_substitute`).
-/
import CodeReach.Proofs.Expr.Folding

namespace CodeReach

/-- The constants that fold away on the left of the operator. -/
def BinaryOp.foldsLeft : BinaryOp → Word → Bool
  | .add, w | .sub, w | .and, w | .or, w | .xor, w | .logicalAnd, w => w == 0
  | .mul, w => w == 0 || w == 1
  | _, _ => false

/-- The constants that fold away on the right of the operator. -/
def BinaryOp.foldsRight : BinaryOp → Word → Bool
  | .shl, w | .shr, w => w == 0
  | op, w => op.foldsLeft w

/-- Truth negation turns the one comparison into the other. -/
inductive BinaryOp.Opposite : BinaryOp → BinaryOp → Prop where
  | eq_ne : Opposite .eq .ne
  | ne_eq : Opposite .ne .eq

namespace Expr

variable {b : Bindings} {e l r : Expr}

/-! ## Nodes that stay -/

/-- A unary operator over something that is no constant, and is no equation if the operator is truth
    negation. -/
def KeepsUnary (op : UnaryOp) (e : Expr) : Prop :=
  e.const? = none ∧
    (op = .logicalNot → (∀ l r, e ≠ .binary .eq l r) ∧ ∀ l r, e ≠ .binary .ne l r)

/-- A binary operator over operands that leave nothing to fold at the node. -/
structure KeepsBinary (op : BinaryOp) (l r : Expr) : Prop where
  notBoth : l.const? = none ∨ r.const? = none
  left : ∀ w, op.foldsLeft w = true → l ≠ .imm w
  right : ∀ w, op.foldsRight w = true → r ≠ .imm w
  distinct : op = .eq ∨ op = .ne → l ≠ r
  conjuncts : op = .logicalAnd → (l.const?.isSome = true → r.isBoolean = false) ∧
    (r.const?.isSome = true → l.isBoolean = false)

/-- There is nothing to fold anywhere in the tree. -/
def Folded : Expr → Prop
  | .imm _ | .reg _ => True
  | .mem addr _ => addr.Folded
  | .unary op e => e.Folded ∧ KeepsUnary op e
  | .binary op l r => l.Folded ∧ r.Folded ∧ KeepsBinary op l r

theorem foldBinary_of_notBoth {op : BinaryOp} (h : l.const? = none ∨ r.const? = none) :
    foldBinary op l r = .binary op l r := by
  rw [foldBinary]
  rintro x y rfl rfl
  simp [const?] at h

theorem mkUnary_of_keeps {op : UnaryOp} (h : KeepsUnary op e) : mkUnary op e = .unary op e := by
  have hfold : foldUnary op e = .unary op e := by
    rw [foldUnary]
    rintro w rfl
    exact absurd h.1 (by simp [const?])
  cases op with
  | not => exact hfold
  | neg => exact hfold
  | logicalNot =>
      obtain ⟨heq, hne⟩ := h.2 rfl
      rw [mkUnary, mkLogicalNot]
      · exact hfold
      · exact heq
      · exact hne

theorem mkBinary_of_keeps {op : BinaryOp} (h : KeepsBinary op l r) :
    mkBinary op l r = .binary op l r := by
  obtain ⟨hboth, hleft, hright, hdistinct, hconjuncts⟩ := h
  rw [← foldBinary_of_notBoth hboth]
  cases op with
  | add | sub | or | xor =>
      rw [mkBinary, if_neg (hright 0 rfl), if_neg (hleft 0 rfl)]
  | mul =>
      rw [mkBinary, if_neg (not_or_intro (hleft 0 rfl) (hright 0 rfl)), if_neg (hright 1 rfl),
        if_neg (hleft 1 rfl)]
  | and => rw [mkBinary, if_neg (not_or_intro (hleft 0 rfl) (hright 0 rfl))]
  | shl | shr => rw [mkBinary, if_neg (hright 0 rfl)]
  | eq => rw [mkBinary, if_neg (hdistinct (Or.inl rfl))]
  | ne => rw [mkBinary, if_neg (hdistinct (Or.inr rfl))]
  | ltu => rfl
  | lt => rfl
  | logicalAnd =>
      obtain ⟨hbeside, hbeside'⟩ := hconjuncts rfl
      rw [mkBinary, mkLogicalAnd, if_neg (not_or_intro (hleft 0 rfl) (hright 0 rfl)),
        if_neg fun hc => absurd hc.2 (by simp [hbeside hc.1]),
        if_neg fun hc => absurd hc.2 (by simp [hbeside' hc.1])]

/-! ## What comes of a node -/

/-- What a binary node may become: a constant, one of its operands, the negation of the right one,
    or the node itself if there is nothing to fold. -/
inductive FoldsTo (op : BinaryOp) (l r : Expr) : Expr → Prop where
  | left : FoldsTo op l r l
  | right : FoldsTo op l r r
  | negated : FoldsTo op l r (foldUnary .neg r)
  | const (w : Word) : FoldsTo op l r (.imm w)
  | kept (h : KeepsBinary op l r) : FoldsTo op l r (.binary op l r)

/-- A node that no rule for its operator applies to. -/
theorem foldsTo_foldBinary {op : BinaryOp} (hl : ∀ w, op.foldsLeft w = true → l ≠ .imm w)
    (hr : ∀ w, op.foldsRight w = true → r ≠ .imm w) (hne : op = .eq ∨ op = .ne → l ≠ r)
    (hand : op = .logicalAnd → ¬ (l.const?.isSome = true ∧ r.isBoolean = true) ∧
      ¬ (r.const?.isSome = true ∧ l.isBoolean = true)) :
    FoldsTo op l r (foldBinary op l r) := by
  by_cases h : l.const? = none ∨ r.const? = none
  · rw [foldBinary_of_notBoth h]
    refine .kept ⟨h, hl, hr, hne, fun hop => ?_⟩
    simpa using hand hop
  · rw [not_or] at h
    cases l with
    | imm x =>
        cases r with
        | imm y => exact .const _
        | _ => exact absurd rfl h.2
    | _ => exact absurd rfl h.1

theorem foldsTo_mkBinary (op : BinaryOp) (l r : Expr) : FoldsTo op l r (mkBinary op l r) := by
  -- The rules of an operator are tried one after the other; past the last one, their conditions
  -- are known to fail, and these are the conditions for the node to stay.
  cases op with
  | add | or | xor =>
      simp only [mkBinary]
      split
      · exact .left
      · split
        · exact .right
        · apply foldsTo_foldBinary <;> simp_all [BinaryOp.foldsLeft, BinaryOp.foldsRight]
  | sub =>
      simp only [mkBinary]
      split
      · exact .left
      · split
        · exact .negated
        · apply foldsTo_foldBinary <;> simp_all [BinaryOp.foldsLeft, BinaryOp.foldsRight]
  | mul =>
      simp only [mkBinary]
      split
      · exact .const 0
      · split
        · exact .left
        · split
          · exact .right
          · apply foldsTo_foldBinary <;> simp_all [BinaryOp.foldsLeft, BinaryOp.foldsRight]
  | and =>
      simp only [mkBinary]
      split
      · exact .const 0
      · apply foldsTo_foldBinary <;> simp_all [BinaryOp.foldsLeft, BinaryOp.foldsRight]
  | shl | shr =>
      simp only [mkBinary]
      split
      · exact .left
      · apply foldsTo_foldBinary <;> simp_all [BinaryOp.foldsLeft, BinaryOp.foldsRight]
  | eq | ne =>
      simp only [mkBinary]
      split
      · exact .const _
      · apply foldsTo_foldBinary <;> simp_all [BinaryOp.foldsLeft, BinaryOp.foldsRight]
  | ltu | lt =>
      apply foldsTo_foldBinary <;> simp [BinaryOp.foldsLeft, BinaryOp.foldsRight]
  | logicalAnd =>
      simp only [mkBinary, mkLogicalAnd]
      split
      · exact .const 0
      · split
        · exact .right
        · split
          · exact .left
          · apply foldsTo_foldBinary <;> simp_all [BinaryOp.foldsLeft, BinaryOp.foldsRight]

/-- Over two constants, a node becomes a constant. -/
theorem FoldsTo.exists_imm {op : BinaryOp} {x y : Word} (h : FoldsTo op (.imm x) (.imm y) e) :
    ∃ w, e = .imm w := by
  cases h with
  | left => exact ⟨x, rfl⟩
  | right => exact ⟨y, rfl⟩
  | negated => exact ⟨_, rfl⟩
  | const w => exact ⟨w, rfl⟩
  | kept hkeeps => exact absurd hkeeps.notBoth (by simp [const?])

/-! ## Trees that are folded -/

theorem Folded.foldUnary {op : UnaryOp} (he : e.Folded)
    (hop : op = .logicalNot → (∀ l r, e ≠ .binary .eq l r) ∧ ∀ l r, e ≠ .binary .ne l r) :
    (foldUnary op e).Folded := by
  cases e with
  | imm w => trivial
  | _ => exact ⟨he, rfl, hop⟩

/-- The opposite of a comparison that could not be folded cannot be folded either. -/
theorem KeepsBinary.opposite {op op' : BinaryOp} (h : KeepsBinary op l r)
    (hop : op.Opposite op') : KeepsBinary op' l r := by
  cases hop with
  | eq_ne => exact ⟨h.notBoth, h.left, h.right, fun _ => h.distinct (Or.inl rfl), by simp⟩
  | ne_eq => exact ⟨h.notBoth, h.left, h.right, fun _ => h.distinct (Or.inr rfl), by simp⟩

theorem Folded.mkUnary (op : UnaryOp) (he : e.Folded) : (mkUnary op e).Folded := by
  cases op with
  | not => exact he.foldUnary (by simp)
  | neg => exact he.foldUnary (by simp)
  | logicalNot =>
      -- A comparison that is turned around was folded itself, so it is not over constants alone.
      show (mkLogicalNot e).Folded
      fun_cases mkLogicalNot e with
      | case1 l r =>
          obtain ⟨hl, hr, hkeeps⟩ := he
          rw [foldBinary_of_notBoth hkeeps.notBoth]
          exact ⟨hl, hr, hkeeps.opposite .eq_ne⟩
      | case2 l r =>
          obtain ⟨hl, hr, hkeeps⟩ := he
          rw [foldBinary_of_notBoth hkeeps.notBoth]
          exact ⟨hl, hr, hkeeps.opposite .ne_eq⟩
      | case3 e heq hne => exact he.foldUnary fun _ => ⟨heq, hne⟩

theorem FoldsTo.folded {op : BinaryOp} (h : FoldsTo op l r e) (hl : l.Folded) (hr : r.Folded) :
    e.Folded := by
  cases h with
  | left => exact hl
  | right => exact hr
  | negated => exact hr.foldUnary (by simp)
  | const w => trivial
  | kept hkeeps => exact ⟨hl, hr, hkeeps⟩

/-- A rebuilt tree is folded. -/
theorem folded_substitute (b : Bindings) (e : Expr) : (e.substitute b).Folded := by
  induction e with
  | imm w => trivial
  | reg r =>
      rw [substitute]
      cases b r <;> trivial
  | mem addr width ih => exact ih
  | unary op e ih => exact ih.mkUnary op
  | binary op l r ihl ihr => exact (foldsTo_mkBinary op _ _).folded ihl ihr

/-- A folded tree is left alone if no register is known. -/
theorem Folded.simplify_eq (h : e.Folded) : e.simplify = e := by
  unfold simplify
  induction e with
  | imm w => rfl
  | reg r => rfl
  | mem addr width ih => rw [substitute, ih h]
  | unary op e ih => rw [substitute, ih h.1, mkUnary_of_keeps h.2]
  | binary op l r ihl ihr =>
      obtain ⟨hl, hr, hkeeps⟩ := h
      rw [substitute, ihl hl, ihr hr, mkBinary_of_keeps hkeeps]

/-- Exactly the folded trees are left alone. -/
theorem simplify_eq_self_iff : e.simplify = e ↔ e.Folded := by
  refine ⟨fun h => ?_, Folded.simplify_eq⟩
  rw [← h]
  exact folded_substitute _ e

/-! ## Registers that are left -/

/-- The registers that an expression reads, one entry for each place where it reads one. -/
def regs : Expr → List Reg
  | .imm _ => []
  | .reg r => [r]
  | .mem addr _ => addr.regs
  | .unary _ e => e.regs
  | .binary _ l r => l.regs ++ r.regs

/-- In one memory, the value depends on the registers that are read and on no others. -/
theorem value_congr_regs {ρ ρ' : RegFile} {μ : Memory} (h : ∀ q ∈ e.regs, ρ q = ρ' q) :
    e.value ρ μ = e.value ρ' μ := by
  induction e with
  | imm w => rfl
  | reg q => exact h q (List.mem_singleton_self q)
  | mem addr width ih => rw [value, value, ih h]
  | unary op e ih => rw [value, value, ih h]
  | binary op l r ihl ihr =>
      obtain ⟨hl, hr⟩ := List.forall_mem_append.1 h
      rw [value, value, ihl hl, ihr hr]

theorem regs_foldUnary (op : UnaryOp) (e : Expr) : (foldUnary op e).regs = e.regs := by
  fun_cases foldUnary op e <;> rfl

theorem regs_foldBinary (op : BinaryOp) (l r : Expr) :
    (foldBinary op l r).regs = l.regs ++ r.regs := by
  fun_cases foldBinary op l r <;> rfl

theorem regs_mkUnary (op : UnaryOp) (e : Expr) : (mkUnary op e).regs = e.regs := by
  cases op with
  | not => exact regs_foldUnary _ e
  | neg => exact regs_foldUnary _ e
  | logicalNot =>
      show (mkLogicalNot e).regs = e.regs
      fun_cases mkLogicalNot e with
      | case1 l r => exact regs_foldBinary _ l r
      | case2 l r => exact regs_foldBinary _ l r
      | case3 => exact regs_foldUnary _ e

theorem FoldsTo.regs_subset {op : BinaryOp} (h : FoldsTo op l r e) :
    e.regs ⊆ l.regs ++ r.regs := by
  cases h with
  | left => exact List.subset_append_left _ _
  | right => exact List.subset_append_right _ _
  | negated =>
      rw [regs_foldUnary]
      exact List.subset_append_right _ _
  | const w => exact List.nil_subset _
  | kept => exact List.Subset.refl _

/-- The registers that are left were there before, and their values are not known. -/
theorem regs_substitute {q : Reg} (h : q ∈ (e.substitute b).regs) : q ∈ e.regs ∧ b q = none := by
  induction e with
  | imm w => exact absurd h List.not_mem_nil
  | reg r =>
      rw [substitute] at h
      cases hr : b r with
      | none =>
          rw [hr] at h
          obtain rfl := List.mem_singleton.1 h
          exact ⟨List.mem_singleton_self q, hr⟩
      | some w =>
          rw [hr] at h
          exact absurd h List.not_mem_nil
  | mem addr width ih => exact ih h
  | unary op e ih =>
      rw [substitute, regs_mkUnary] at h
      exact ih h
  | binary op l r ihl ihr =>
      rcases List.mem_append.1 ((foldsTo_mkBinary op _ _).regs_subset h) with h | h
      · exact ⟨List.mem_append_left _ (ihl h).1, (ihl h).2⟩
      · exact ⟨List.mem_append_right _ (ihr h).1, (ihr h).2⟩

/-! ## Rewriting as a whole -/

/-- Rewriting keeps the meaning.  In a register file that has the known values, and any memory, an
    expression has the value that it had before the known registers were put in, and none of these
    is read any more; and each folding constructor has the value of the bare node it stands for. -/
theorem rewriting_keeps_value (ρ : RegFile) (μ : Memory) :
    (∀ (b : Bindings) (e : Expr), (∀ r w, b r = some w → ρ r = w) →
      (e.substitute b).value ρ μ = e.value ρ μ ∧
        ∀ r ∈ (e.substitute b).regs, r ∈ e.regs ∧ b r = none) ∧
    (∀ (op : UnaryOp) (e : Expr), (mkUnary op e).value ρ μ = (Expr.unary op e).value ρ μ) ∧
    (∀ (op : BinaryOp) (l r : Expr),
      (mkBinary op l r).value ρ μ = (Expr.binary op l r).value ρ μ) := by
  refine ⟨?_, value_mkUnary, value_mkBinary⟩
  intro b e hb
  exact ⟨value_substitute hb e, fun r hr => regs_substitute hr⟩

/-- A condition with two raw nodes that fold: a sum with zero, and the negation of an equation. -/
def rawCondition : Expr :=
  .binary .logicalAnd (.imm 9)
    (.unary .logicalNot (.binary .eq (.binary .add (.reg 1) (.imm 0)) (.mem (.reg 2) 8)))

/-- With the first register known to be five, the condition is that the second one does not point
    to a five, and it has the same value, here with a memory of addresses. -/
theorem rewriting_keeps_value_rawCondition :
    (∀ r w, Bindings.empty.bind 1 5 r = some w → (fun _ => 5 : RegFile) r = w) ∧
      rawCondition.substitute (Bindings.empty.bind 1 5) =
        .binary .ne (.imm 5) (.mem (.reg 2) 8) ∧
      (Expr.binary .ne (.imm 5) (.mem (.reg 2) 8)).value (fun _ => 5) (fun addr _ => addr) =
        rawCondition.value (fun _ => 5) (fun addr _ => addr) := by
  have hb : ∀ r w, Bindings.empty.bind 1 5 r = some w → (fun _ => 5 : RegFile) r = w := by
    intro r w h
    unfold Bindings.bind Bindings.empty at h
    split at h
    · exact Option.some.inj h
    · exact absurd h (by simp)
  have hform : rawCondition.substitute (Bindings.empty.bind 1 5) =
      .binary .ne (.imm 5) (.mem (.reg 2) 8) := by decide
  have hvalue := ((rewriting_keeps_value (fun _ => 5) (fun addr _ => addr)).1 _ rawCondition hb).1
  rw [hform] at hvalue
  exact ⟨hb, hform, hvalue⟩

end Expr

end CodeReach
