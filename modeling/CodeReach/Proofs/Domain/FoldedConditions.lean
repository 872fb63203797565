/-
  CodeReach.Proofs.Domain.FoldedConditions

  A condition and its folded form, in one description of the registers.  Targets are
  found with the expressions as they are written, while edges carry what they fold to,
  so the two are compared where they meet (`folded_at_least_as_precise`).  The folded
  form is computed at least as precisely, and as an assumption it narrows at least as
  far.

  Narrowing looks at the form of a condition and not only at its value, so it needs an
  argument of its own.  Folding keeps the comparisons that are followed, and a conjunct
  that it drops would have narrowed nothing (`refine_mkLogicalAnd`).  Only a conjunction
  that folds to zero loses its comparisons, and that one is refused.
-/
import CodeReach.Proofs.Domain.Assumptions
import CodeReach.Proofs.Domain.Simplified

namespace CodeReach

namespace Registers

variable {s t s' : Registers} {program : Option Program} {c : Expr}

/-! ## Narrowing -/

theorem Possible.refine (hs : s.Possible) (h : s.refine c = some t) : t.Possible := by
  obtain ⟨_, -, -, ht⟩ := refine_le hs (le_refl s) h
  exact ht

/-- A constant compares nothing. -/
theorem refine_of_const? (hc : c.const?.isSome = true) : s.refine c = some s := by
  obtain ⟨x, hx⟩ := Option.isSome_iff_exists.1 hc
  rw [Expr.eq_imm_of_const? hx]
  rfl

/-- Following a folded conjunction is following both of its sides, unless it has folded to zero. -/
theorem refine_mkLogicalAnd {l r : Expr} (hne : Expr.mkLogicalAnd l r ≠ .imm 0) :
    s.refine (Expr.mkLogicalAnd l r) = (s.refine l).bind fun u => u.refine r := by
  unfold Expr.mkLogicalAnd at hne ⊢
  split
  · rename_i hzero
    exact absurd (if_pos hzero) hne
  · split
    · rename_i hside
      rw [refine_of_const? hside.1, Option.bind_some]
    · split
      · rename_i hside
        simp only [refine_of_const? hside.1, Option.bind_fun_some]
      · fun_cases Expr.foldBinary .logicalAnd l r with
        | case1 x y => rfl
        | case2 l r _ => rfl

/-- Following the comparisons of a folded condition narrows at least as far as following those of
    the condition. -/
theorem refine_simplify_le (hs : s.Possible) (hle : s.le t = true) (hne : c.simplify ≠ .imm 0)
    (h : s.refine c.simplify = some s') :
    ∃ t', t.refine c = some t' ∧ s'.le t' = true ∧ s'.Possible := by
  fun_induction Registers.refine t c generalizing s s' with
  | case1 t l r ihl ihr =>
      have hfold : (Expr.binary .logicalAnd l r).simplify =
          Expr.mkLogicalAnd l.simplify r.simplify := rfl
      rw [hfold] at hne h
      have hl : l.simplify ≠ .imm 0 := fun hl => hne (if_pos (Or.inl hl))
      have hr : r.simplify ≠ .imm 0 := fun hr => hne (if_pos (Or.inr hr))
      rw [refine_mkLogicalAnd hne] at h
      obtain ⟨u, hu, h⟩ := Option.bind_eq_some_iff.1 h
      obtain ⟨v, hv, huv, hup⟩ := ihl hs hle hl hu
      obtain ⟨t', ht', hle', hp'⟩ := ihr v hup huv hr h
      exact ⟨t', by rw [hv]; exact ht', hle', hp'⟩
  -- A comparison that is followed is not folded.
  | case2 t r w | case3 t r w | case4 t r w | case5 t r w => exact refine_le hs hle h
  | case6 c t =>
      -- Nothing is followed above, and whatever is followed below only goes down.
      exact ⟨t, rfl, le_trans (le_of_refine h) hle, hs.refine h⟩

/-- A folded condition that is passed below is passed above as it is written, and what it leaves is
    below what the condition leaves there. -/
theorem assume_simplify_le (hs : s.Possible) (hle : s.le t = true) {o : Option Registers}
    (h : s.assume program c.simplify = .ok (some s')) (ho : t.assume program c = .ok o) :
    ∃ t', o = some t' ∧ s'.le t' = true := by
  obtain ⟨v, hv, hv0, hrefine⟩ := exists_eval_of_assume h
  obtain ⟨u, hu, -⟩ := bind_eq_ok.1 ho
  have hu0 : ¬ u.le (.const 0) = true := fun hu0 =>
    hv0 (ValueSet.le_trans (eval_simplify_le hs hle hu hv) hu0)
  have hne : c.simplify ≠ .imm 0 := by
    intro hzero
    rw [hzero] at hv
    exact hv0 (Except.ok.inj hv ▸ ValueSet.le_refl _)
  obtain ⟨t', ht', hle', -⟩ := refine_simplify_le hs hle hne hrefine
  rw [assume_of_eval hu, if_neg hu0, ht'] at ho
  exact ⟨t', (Except.ok.inj ho).symm, hle'⟩

/-! ## Precision -/

/-- Folding loses no precision.  In a description without empty value sets, with any program or
    none, let an expression and its folded form both be evaluated.  Then the words that are computed
    for the folded form are among those for the expression, and the values that the expression has
    in the register files described are among them.  And if both are assumed and the folded form is
    passed, the expression is passed too, and what the folded form leaves is below what the
    expression leaves. -/
theorem folded_at_least_as_precise (s : Registers) (hs : ∀ q, (s.get q).constants? ≠ some [])
    (program : Option Program) (e : Expr) :
    (∀ v v', s.eval program e = .ok v → s.eval program e.simplify = .ok v' →
      (∀ w, v'.Allows w → v.Allows w) ∧
      ∀ ρ μ, (∀ p ∈ program, μ.Agrees p) → s.Describes ρ → v'.Allows (e.value ρ μ)) ∧
    ∀ o t', s.assume program e = .ok o → s.assume program e.simplify = .ok (some t') →
      ∃ t, o = some t ∧ t'.le t = true := by
  have hpossible : s.Possible := possible_iff.2 hs
  refine ⟨fun v v' hv hv' => ⟨fun w hw => ?_, fun ρ μ hμ hρ => ?_⟩, fun o t' ho ht' => ?_⟩
  · exact ValueSet.allows_of_le (eval_simplify_le hpossible (le_refl s) hv hv') hw
  · rw [← Expr.value_simplify]
    exact allows_eval hμ hρ hv'
  · exact assume_simplify_le hpossible (le_refl s) ht' ho

/-- The first of two words, at an offset that is zero although a register is read for it. -/
def firstWord : Expr :=
  .mem (.binary .add (.imm 0x3000) (.binary .shl (.binary .ne (.reg 2) (.reg 2)) (.imm 3))) 8

/-- The first word is as it is, and a register does not hold a two. -/
def firstWordAndNotTwo : Expr :=
  .binary .logicalAnd (.binary .eq firstWord (.imm 0x11))
    (.unary .logicalNot (.binary .eq (.reg 1) (.imm 2)))

/-- As it is written, the read can go to either word and the negation narrows nothing; folded, it
    goes to the first word, which is the value, and the two is excluded. -/
theorem folded_at_least_as_precise_firstWord :
    (∀ q, (threeByTwo.get q).constants? ≠ some []) ∧
      threeByTwo.eval (some twoWords) firstWord = .ok (.ofList [0x11, 0x22]) ∧
      threeByTwo.eval (some twoWords) firstWord.simplify = .ok (.const 0x11) ∧
      (ValueSet.ofList [0x11, 0x22]).Allows 0x11 ∧
      (∀ ρ, threeByTwo.Describes ρ → firstWord.value ρ twoWords.rom = 0x11) ∧
      threeByTwo.assume (some twoWords) firstWordAndNotTwo = .ok (some threeByTwo) ∧
      threeByTwo.assume (some twoWords) firstWordAndNotTwo.simplify =
        .ok (some (threeByTwo.set 1 (.ofList [1, 3]))) ∧
      (threeByTwo.set 1 (.ofList [1, 3])).le threeByTwo = true := by
  have hpossible : ∀ q, (threeByTwo.get q).constants? ≠ some [] :=
    possible_iff.1 ((possible_unknown.set ⟨1, ValueSet.allows_ofList (by simp)⟩).set
      ⟨0x3000, ValueSet.allows_ofList (by simp)⟩)
  have hrom : ∀ p ∈ some twoWords, twoWords.rom.Agrees p := fun p hp =>
    Option.some.inj hp ▸ twoWords.agrees_rom
  have hwritten : threeByTwo.eval (some twoWords) firstWord = .ok (.ofList [0x11, 0x22]) := rfl
  have hfolded : threeByTwo.eval (some twoWords) firstWord.simplify = .ok (.const 0x11) := rfl
  have hpassed : threeByTwo.assume (some twoWords) firstWordAndNotTwo = .ok (some threeByTwo) := rfl
  have hnarrowed : threeByTwo.assume (some twoWords) firstWordAndNotTwo.simplify =
      .ok (some (threeByTwo.set 1 (.ofList [1, 3]))) := rfl
  obtain ⟨hamong, hsound⟩ :=
    (folded_at_least_as_precise threeByTwo hpossible (some twoWords) firstWord).1 _ _ hwritten
      hfolded
  obtain ⟨t, ht, hle⟩ :=
    (folded_at_least_as_precise threeByTwo hpossible (some twoWords) firstWordAndNotTwo).2 _ _
      hpassed hnarrowed
  obtain rfl := Option.some.inj ht
  exact ⟨hpossible, hwritten, hfolded, hamong _ (ValueSet.allows_const.2 rfl),
    fun ρ hρ => ValueSet.allows_const.1 (hsound ρ _ hrom hρ), hpassed, hnarrowed, hle⟩

-- Where a register has no possible word, an equation has no value, but its folded form has one.
example : (unknown.set 1 (.ofList [])).eval none (.binary .eq (.reg 1) (.reg 1)) =
      .ok (.ofList []) ∧
    (Expr.binary .eq (.reg 1) (.reg 1)).simplify = .imm 1 := ⟨rfl, rfl⟩

-- Folding can uncover a fault: the address as it is written may lie outside the null page.
example : (unknown.set 1 (.ofList [0, 1])).eval none
        (.mem (.binary .shl (.binary .ne (.reg 1) (.reg 1)) (.imm 12)) 8) = .ok .unknown ∧
    (unknown.set 1 (.ofList [0, 1])).eval none
        (Expr.mem (.binary .shl (.binary .ne (.reg 1) (.reg 1)) (.imm 12)) 8).simplify =
      .error (.invalidAccess 0) := ⟨rfl, rfl⟩

end Registers

end CodeReach
