/-
  CodeReach.Proofs.Expr.Staging

  Known registers may be put in one set after the other.  A first stage folds what it
  can, and the second stage sees the folded tree: operands that became constants are
  gone, comparisons have been turned around, conjuncts have been dropped.  Still the
  result is, as a tree, the one that is built with all registers known at once
  (`substitute_substitute`).

  The reason is that each folding constructor commutes with putting registers in
  (`substitute_mkUnary`, `substitute_mkBinary`).  For the conjunct that is dropped beside
  a constant this needs that an expression which is zero or one by its form still is so
  by its form after registers have been put in (`isBoolean_substitute`).
-/
import CodeReach.Proofs.Expr.NormalForm

namespace CodeReach

/-- What is known from two sources; the first one decides about a register that both know. -/
def Bindings.orElse (b c : Bindings) : Bindings :=
  fun r => (b r).or (c r)

namespace Expr

variable {b c : Bindings} {e l r : Expr} {op : BinaryOp}

/-! ## Constants -/

theorem mkUnary_imm (op : UnaryOp) (x : Word) : mkUnary op (.imm x) = .imm (op.apply x) := by
  cases op <;> rfl

/-- Over two constants, the rules for neutral and absorbing constants agree with computing. -/
theorem mkBinary_imm (op : BinaryOp) (x y : Word) :
    mkBinary op (.imm x) (.imm y) = .imm (op.apply x y) := by
  -- It is some constant, and its value leaves no choice.
  obtain ⟨w, hw⟩ := (foldsTo_mkBinary op (.imm x) (.imm y)).exists_imm
  have hvalue := value_mkBinary (ρ := fun _ => 0) (μ := fun _ _ => 0) op (.imm x) (.imm y)
  rw [hw] at hvalue ⊢
  exact congrArg imm hvalue

/-! ## Neutral and absorbing constants -/

theorem mkBinary_zero_right (hop : op ∈ [.add, .sub, .or, .xor, .shl, .shr]) (e : Expr) :
    mkBinary op e (.imm 0) = e := by
  simp only [List.mem_cons, List.not_mem_nil, or_false] at hop
  rcases hop with rfl | rfl | rfl | rfl | rfl | rfl <;> rw [mkBinary, if_pos rfl]

theorem mkBinary_zero_left (hop : op ∈ [.add, .or, .xor]) (e : Expr) :
    mkBinary op (.imm 0) e = e := by
  simp only [List.mem_cons, List.not_mem_nil, or_false] at hop
  by_cases he : e = .imm 0
  · subst he
    rcases hop with rfl | rfl | rfl <;> rfl
  · rcases hop with rfl | rfl | rfl <;> rw [mkBinary, if_neg he, if_pos rfl]

theorem mkSub_zero_left (e : Expr) : mkBinary .sub (.imm 0) e = mkUnary .neg e := by
  by_cases he : e = .imm 0
  · subst he
    rfl
  · rw [mkBinary, if_neg he, if_pos rfl]

theorem mkBinary_absorbing (hop : op ∈ [.mul, .and]) (e : Expr) :
    mkBinary op (.imm 0) e = .imm 0 ∧ mkBinary op e (.imm 0) = .imm 0 := by
  simp only [List.mem_cons, List.not_mem_nil, or_false] at hop
  rcases hop with rfl | rfl <;> simp [mkBinary]

theorem mkMul_one (e : Expr) :
    mkBinary .mul (.imm 1) e = e ∧ mkBinary .mul e (.imm 1) = e := by
  by_cases hzero : e = .imm 0
  · subst hzero
    exact ⟨rfl, rfl⟩
  · have hone : Expr.imm 1 ≠ .imm 0 := by decide
    refine ⟨?_, ?_⟩
    · rw [mkBinary, if_neg (not_or_intro hone hzero)]
      split
      · -- One times one.
        rename_i he
        exact he.symm
      · exact if_pos rfl
    · rw [mkBinary, if_neg (not_or_intro hzero hone), if_pos rfl]

/-! ## Truth values -/

theorem isBoolean_ofBool (t : Bool) : (ofBool t).isBoolean = true := by
  cases t <;> rfl

theorem isBoolean_foldBinary (h : op.isBoolean = true) (l r : Expr) :
    (foldBinary op l r).isBoolean = true := by
  fun_cases foldBinary op l r with
  | case1 x y =>
      rcases BinaryOp.apply_of_isBoolean h x y with hxy | hxy <;> rw [hxy] <;> rfl
  | case2 => exact h

theorem isBoolean_mkLogicalNot (e : Expr) : (mkLogicalNot e).isBoolean = true := by
  fun_cases mkLogicalNot e with
  | case1 l r => exact isBoolean_foldBinary rfl l r
  | case2 l r => exact isBoolean_foldBinary rfl l r
  | case3 =>
      fun_cases foldUnary .logicalNot e with
      | case1 w => exact isBoolean_ofBool _
      | case2 => rfl

theorem isBoolean_mkBinary (h : op.isBoolean = true) (l r : Expr) :
    (mkBinary op l r).isBoolean = true := by
  cases op with
  | eq | ne =>
      simp only [mkBinary]
      split
      · rfl
      · exact isBoolean_foldBinary h l r
  | ltu | lt => exact isBoolean_foldBinary h l r
  | logicalAnd =>
      simp only [mkBinary, mkLogicalAnd]
      split
      · rfl
      · split
        · rename_i hside
          exact hside.2
        · split
          · rename_i hside
            exact hside.2
          · exact isBoolean_foldBinary h l r
  | add | sub | mul | and | or | xor | shl | shr => exact absurd h (by decide)

/-- What is zero or one by its form stays so by its form. -/
theorem isBoolean_substitute (b : Bindings) (h : e.isBoolean = true) :
    (e.substitute b).isBoolean = true := by
  cases e with
  | imm w => exact h
  | reg r => exact absurd h (by simp [isBoolean])
  | mem addr width => exact absurd h (by simp [isBoolean])
  | unary op e =>
      have hop : op = .logicalNot := by simpa [isBoolean] using h
      subst hop
      exact isBoolean_mkLogicalNot _
  | binary op l r => exact isBoolean_mkBinary h _ _

/-! ## Folding constructors commute with putting registers in -/

theorem substitute_foldUnary (b : Bindings) (op : UnaryOp) (e : Expr) :
    (foldUnary op e).substitute b = mkUnary op (e.substitute b) := by
  fun_cases foldUnary op e with
  | case1 w => exact (mkUnary_imm op w).symm
  | case2 => rfl

theorem substitute_foldBinary (b : Bindings) (op : BinaryOp) (l r : Expr) :
    (foldBinary op l r).substitute b = mkBinary op (l.substitute b) (r.substitute b) := by
  fun_cases foldBinary op l r with
  | case1 x y => exact (mkBinary_imm op x y).symm
  | case2 => rfl

/-- Turning a comparison around before or after its sides are folded is the same. -/
theorem mkLogicalNot_mkBinary {op' : BinaryOp} (h : op.Opposite op') (l r : Expr) :
    mkLogicalNot (mkBinary op l r) = mkBinary op' l r := by
  have hfold : mkLogicalNot (foldBinary op l r) = foldBinary op' l r := by
    fun_cases foldBinary op l r with
    | case1 x y =>
        cases h with
        | eq_ne => exact congrArg imm (BinaryOp.apply_ne_eq_not x y).symm
        | ne_eq => exact congrArg imm (BinaryOp.apply_eq_eq_not x y).symm
    | case2 => cases h <;> rfl
  by_cases hlr : l = r
  · subst hlr
    cases h <;> simp [mkBinary, mkLogicalNot, foldUnary, UnaryOp.apply, Word.ofBool]
  · cases h with
    | eq_ne => rwa [mkBinary, if_neg hlr, mkBinary, if_neg hlr]
    | ne_eq => rwa [mkBinary, if_neg hlr, mkBinary, if_neg hlr]

theorem substitute_mkUnary (b : Bindings) (op : UnaryOp) (e : Expr) :
    (mkUnary op e).substitute b = mkUnary op (e.substitute b) := by
  cases op with
  | not => exact substitute_foldUnary b .not e
  | neg => exact substitute_foldUnary b .neg e
  | logicalNot =>
      show (mkLogicalNot e).substitute b = mkLogicalNot (e.substitute b)
      fun_cases mkLogicalNot e with
      | case1 l r => rw [substitute_foldBinary, substitute, mkLogicalNot_mkBinary .eq_ne]
      | case2 l r => rw [substitute_foldBinary, substitute, mkLogicalNot_mkBinary .ne_eq]
      | case3 => exact substitute_foldUnary b .logicalNot e

theorem eq_imm_one (hconst : e.const?.isSome = true) (hbool : e.isBoolean = true)
    (hne : e ≠ .imm 0) : e = .imm 1 := by
  cases e with
  | imm w =>
      have hle : w ≤ 1 := by simpa [isBoolean] using hbool
      have hw : w ≠ 0 := fun h => hne (congrArg imm h)
      refine congrArg imm ?_
      bv_omega
  | _ => exact absurd hconst (by simp [const?])

/-- Beside a constant that holds, what is zero or one by its form is all that remains. -/
theorem mkLogicalAnd_of_boolean {k : Expr} (hk : k.const?.isSome = true) (hk0 : k ≠ .imm 0)
    (he : e.isBoolean = true) : mkLogicalAnd k e = e ∧ mkLogicalAnd e k = e := by
  by_cases he0 : e = .imm 0
  · subst he0
    simp [mkLogicalAnd]
  · refine ⟨?_, ?_⟩
    · rw [mkLogicalAnd, if_neg (not_or_intro hk0 he0), if_pos ⟨hk, he⟩]
    · rw [mkLogicalAnd, if_neg (not_or_intro he0 hk0)]
      split
      · -- Both sides are constants that are zero or one, and neither is zero.
        rename_i hboth
        rw [eq_imm_one hk hboth.2 hk0, eq_imm_one hboth.1 he he0]
      · rw [if_pos ⟨hk, he⟩]

theorem substitute_of_const? (b : Bindings) (h : e.const?.isSome = true) : e.substitute b = e := by
  cases e with
  | imm w => rfl
  | _ => exact absurd h (by simp [const?])

theorem substitute_mkLogicalAnd (b : Bindings) (l r : Expr) :
    (mkLogicalAnd l r).substitute b = mkLogicalAnd (l.substitute b) (r.substitute b) := by
  fun_cases mkLogicalAnd l r with
  | case1 h =>
      rcases h with rfl | rfl
      · exact (if_pos (Or.inl rfl)).symm
      · exact (if_pos (Or.inr rfl)).symm
  | case2 hzero hside =>
      have hr : (r.substitute b).isBoolean = true := isBoolean_substitute b hside.2
      rw [substitute_of_const? b hside.1]
      exact (mkLogicalAnd_of_boolean hside.1 (not_or.1 hzero).1 hr).1.symm
  | case3 hzero _ hside =>
      have hl : (l.substitute b).isBoolean = true := isBoolean_substitute b hside.2
      rw [substitute_of_const? b hside.1]
      exact (mkLogicalAnd_of_boolean hside.1 (not_or.1 hzero).2 hl).2.symm
  | case4 => exact substitute_foldBinary b .logicalAnd l r

theorem substitute_mkBinary (b : Bindings) (op : BinaryOp) (l r : Expr) :
    (mkBinary op l r).substitute b = mkBinary op (l.substitute b) (r.substitute b) := by
  -- Where a rule applied, the same law holds of the operands after the registers have been put in;
  -- where none applied, the node is built again.
  cases op with
  | add | or | xor =>
      rw [mkBinary]
      split
      · rename_i hr
        subst hr
        exact (mkBinary_zero_right (by decide) _).symm
      · split
        · rename_i hl
          subst hl
          exact (mkBinary_zero_left (by decide) _).symm
        · exact substitute_foldBinary b _ l r
  | sub =>
      rw [mkBinary]
      split
      · rename_i hr
        subst hr
        exact (mkBinary_zero_right (by decide) _).symm
      · split
        · rename_i hl
          subst hl
          rw [substitute_mkUnary]
          exact (mkSub_zero_left _).symm
        · exact substitute_foldBinary b .sub l r
  | mul =>
      rw [mkBinary]
      split
      · rename_i hzero
        rcases hzero with rfl | rfl
        · exact (mkBinary_absorbing (by decide) _).1.symm
        · exact (mkBinary_absorbing (by decide) _).2.symm
      · split
        · rename_i hr
          subst hr
          exact (mkMul_one _).2.symm
        · split
          · rename_i hl
            subst hl
            exact (mkMul_one _).1.symm
          · exact substitute_foldBinary b .mul l r
  | and =>
      rw [mkBinary]
      split
      · rename_i hzero
        rcases hzero with rfl | rfl
        · exact (mkBinary_absorbing (by decide) _).1.symm
        · exact (mkBinary_absorbing (by decide) _).2.symm
      · exact substitute_foldBinary b .and l r
  | shl | shr =>
      rw [mkBinary]
      split
      · rename_i hr
        subst hr
        exact (mkBinary_zero_right (by decide) _).symm
      · exact substitute_foldBinary b _ l r
  | eq | ne =>
      rw [mkBinary]
      split
      · rename_i heq
        subst heq
        exact (if_pos rfl).symm
      · -- The sides differ, but may become equal: then the constructor that is applied again folds.
        exact substitute_foldBinary b _ l r
  | ltu => exact substitute_foldBinary b .ltu l r
  | lt => exact substitute_foldBinary b .lt l r
  | logicalAnd => exact substitute_mkLogicalAnd b l r

/-! ## Stages -/

/-- Registers that are put in after others might have been put in with them. -/
theorem substitute_substitute (b c : Bindings) (e : Expr) :
    (e.substitute b).substitute c = e.substitute (b.orElse c) := by
  induction e with
  | imm w => rfl
  | reg r =>
      simp only [substitute, Bindings.orElse]
      cases b r <;> rfl
  | mem addr width ih => rw [substitute, substitute, substitute, ih]
  | unary op e ih => rw [substitute, substitute_mkUnary, ih, substitute]
  | binary op l r ihl ihr => rw [substitute, substitute_mkBinary, ihl, ihr, substitute]

/-- Putting in registers stage by stage gives the tree that putting them in at once gives.  A first
    stage may know nothing, so simplifying first changes nothing, and simplifying once is enough:
    the result is folded, and the folded trees are exactly those that are left alone. -/
theorem substitute_in_stages (e : Expr) (b c : Bindings) :
    (e.substitute b).substitute c = e.substitute (b.orElse c) ∧
      e.simplify.simplify = e.simplify ∧
      e.simplify.substitute c = e.substitute c ∧
      (e.substitute b).Folded ∧ (e.simplify = e ↔ e.Folded) := by
  have hstages : e.simplify.substitute c = e.substitute c :=
    substitute_substitute Bindings.empty c e
  exact ⟨substitute_substitute b c e, (folded_substitute _ e).simplify_eq, hstages,
    folded_substitute b e, simplify_eq_self_iff⟩

/-- The first stage turns the equation around and drops the conjunct; the second one makes its sides
    equal. -/
example :
    let differ : Expr := .unary .logicalNot (.binary .eq (.reg 1) (.reg 2))
    let e : Expr := .binary .logicalAnd differ (.reg 3)
    let first := (Bindings.empty.bind 1 5).bind 3 7
    e.substitute first = .binary .ne (.imm 5) (.reg 2) ∧
      (e.substitute first).substitute (Bindings.empty.bind 2 5) = .imm 0 := by
  decide

end Expr

end CodeReach
