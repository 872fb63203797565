/-
  CodeReach.Proofs.Domain.Assumptions

  What assuming a condition does to a description of the registers.

  A condition is a conjunction of conditions, nested in any way (`Expr.conjuncts`).
  Assuming it only goes down, keeps every register file in which it is nonzero, and
  refuses only where there is none.  It does narrow: after it, each conjunct that says
  something about one register that the domain can express (`Registers.Enforces`) holds
  in all register files that are left.

  Later conjuncts are followed in what the earlier ones left.  A register that an earlier
  conjunct narrowed stays narrowed, so what can be expressed in the beginning can be
  expressed then (`Enforces.of_le`).
-/
import CodeReach.Proofs.Domain.Evaluation

namespace CodeReach

/-! ## Conjunctions -/

/-- The conditions that a condition joins, from left to right. -/
def Expr.conjuncts : Expr → List Expr
  | .binary .logicalAnd l r => l.conjuncts ++ r.conjuncts
  | e => [e]

namespace Registers

variable {s t : Registers} {c d : Expr} {r : Reg} {w : Word} {ρ : RegFile} {μ : Memory}
  {program : Option Program}

/-! ## What can be expressed -/

/-- The condition says something that can be said about one register of `s`: that a tracked
    register equals a constant, or that a known one differs from a constant. -/
inductive Enforces (s : Registers) : Expr → Prop where
  | equal {r : Reg} (w : Word) (tracked : r.toNat < trackedRegs) :
      Enforces s (.binary .eq (.reg r) (.imm w))
  | equal' {r : Reg} (w : Word) (tracked : r.toNat < trackedRegs) :
      Enforces s (.binary .eq (.imm w) (.reg r))
  | differs {r : Reg} (w : Word) (known : s.get r ≠ .unknown) :
      Enforces s (.binary .ne (.reg r) (.imm w))
  | differs' {r : Reg} (w : Word) (known : s.get r ≠ .unknown) :
      Enforces s (.binary .ne (.imm w) (.reg r))

/-- What is known about a register stays known further down. -/
theorem get_ne_unknown_of_le (hle : t.le s = true) (h : s.get r ≠ .unknown) :
    t.get r ≠ .unknown := by
  intro ht
  have hr := le_iff.1 hle r
  rw [ht, ValueSet.unknown_le] at hr
  exact h hr

theorem Enforces.of_le (h : s.Enforces d) (hle : t.le s = true) : t.Enforces d := by
  cases h with
  | equal w tracked => exact .equal w tracked
  | equal' w tracked => exact .equal' w tracked
  | differs w known => exact .differs w (get_ne_unknown_of_le hle known)
  | differs' w known => exact .differs' w (get_ne_unknown_of_le hle known)

/-! ## Narrowing -/

/-- A tracked register that was narrowed to a constant holds it. -/
theorem eq_of_describes_restrict (h : s.restrict r w = some t) (tracked : r.toNat < trackedRegs)
    (ht : t.Describes ρ) : ρ r = w := by
  obtain ⟨rfl, -⟩ := restrict_eq_some h
  have hr := ht r
  rw [get_set, if_pos ⟨rfl, tracked⟩] at hr
  exact ValueSet.allows_const.1 hr

/-- A known register from which a constant was excluded does not hold it. -/
theorem ne_of_describes_exclude (h : s.exclude r w = some t) (known : s.get r ≠ .unknown)
    (ht : t.Describes ρ) : ρ r ≠ w := by
  have tracked : r.toNat < trackedRegs := by
    by_contra hr
    exact known (get_of_not_lt s hr)
  unfold exclude at h
  split at h
  · rename_i hget
    exact absurd hget known
  · rename_i ws hws hget
    dsimp only at h
    split at h
    · exact absurd h (by simp)
    · -- What is left is a part of what was known, so it is still small enough to be known.
      have hsize : (ws.filter (· != w)).size ≤ maxConstants :=
        Nat.le_trans (OrdSet.size_le_of_subset fun x hx => (OrdSet.mem_filter.1 hx).1) hws
      rw [ValueSet.ofSet, dif_pos hsize] at h
      have hr := ht r
      rw [← Option.some.inj h, get_set, if_pos ⟨rfl, tracked⟩, ValueSet.allows_known,
        OrdSet.mem_filter] at hr
      exact bne_iff_ne.1 hr.2

/-- After the comparisons of a condition have been followed, those that can be expressed hold. -/
theorem enforces_of_refine (h : s.refine c = some t) (ht : t.Describes ρ) (hd : d ∈ c.conjuncts)
    (henforces : s.Enforces d) : d.value ρ μ ≠ 0 := by
  fun_induction refine s c generalizing t with
  | case1 s l r ihl ihr =>
      obtain ⟨u, hu, hr⟩ := Option.bind_eq_some_iff.1 h
      rcases List.mem_append.1 hd with hl | hr'
      · -- The right side only narrows what the left side left.
        have hul : u.Describes ρ := describes_of_le (le_of_refine hr) ht
        exact ihl hu hul hl henforces
      · exact ihr u hr ht hr' (henforces.of_le (le_of_refine hu))
  | case2 s r w =>
      obtain rfl := List.mem_singleton.1 hd
      cases henforces with
      | equal _ tracked =>
          exact BinaryOp.apply_eq_ne_zero.2 (eq_of_describes_restrict h tracked ht)
  | case3 s r w =>
      obtain rfl := List.mem_singleton.1 hd
      cases henforces with
      | equal' _ tracked =>
          exact BinaryOp.apply_eq_ne_zero.2 (eq_of_describes_restrict h tracked ht).symm
  | case4 s r w =>
      obtain rfl := List.mem_singleton.1 hd
      cases henforces with
      | differs _ known =>
          exact BinaryOp.apply_ne_ne_zero.2 (ne_of_describes_exclude h known ht)
  | case5 s r w =>
      obtain rfl := List.mem_singleton.1 hd
      cases henforces with
      | differs' _ known =>
          exact BinaryOp.apply_ne_ne_zero.2 (ne_of_describes_exclude h known ht).symm
  | case6 c s hand heq heq' hne hne' =>
      -- Nothing is followed, and nothing that could be expressed is left out.
      have hc : c.conjuncts = [c] := by
        unfold Expr.conjuncts
        split
        · exact absurd rfl (hand _ _)
        · rfl
      rw [hc] at hd
      obtain rfl := List.mem_singleton.1 hd
      cases henforces with
      | equal => exact absurd rfl (heq _ _)
      | equal' => exact absurd rfl (heq' _ _)
      | differs => exact absurd rfl (hne _ _)
      | differs' => exact absurd rfl (hne' _ _)

/-! ## Assumptions -/

/-- Assuming a condition prunes only the impossible and only narrows.  If it is passed, the
    description goes down, still describes every register file in which the condition is nonzero,
    and describes only such ones in which every conjunct that can be expressed is; if it is refused,
    the condition is zero in all register files that were described. -/
theorem assume_prunes_impossible (s : Registers) (program : Option Program) (c : Expr)
    {o : Option Registers} (h : s.assume program c = .ok o) :
    (∀ t, o = some t →
      t.le s = true ∧
      (∀ ρ μ, (∀ p ∈ program, μ.Agrees p) → s.Describes ρ → c.value ρ μ ≠ 0 → t.Describes ρ) ∧
      ∀ ρ μ, t.Describes ρ → ∀ d ∈ c.conjuncts, s.Enforces d → d.value ρ μ ≠ 0) ∧
    (o = none →
      ∀ ρ μ, (∀ p ∈ program, μ.Agrees p) → s.Describes ρ → c.value ρ μ = 0) := by
  refine ⟨?_, ?_⟩
  · rintro t rfl
    refine ⟨le_of_assume h, ?_, ?_⟩
    · intro ρ μ hμ hs hc
      obtain ⟨t', ht', hdescribes⟩ := describes_assume hμ hs hc h
      rw [Option.some.inj ht']
      exact hdescribes
    · intro ρ μ ht d hd
      obtain ⟨_, -, -, hrefine⟩ := exists_eval_of_assume h
      exact enforces_of_refine hrefine ht hd
  · rintro rfl ρ μ hμ hs
    by_contra hc
    obtain ⟨t, ht, -⟩ := describes_assume hμ hs hc h
    exact absurd ht (by simp)

/-- One of three words in a register, and one of two addresses of read-only data in another. -/
def threeByTwo : Registers :=
  (unknown.set 1 (.ofList [1, 2, 3])).set 2 (.ofList [0x3000, 0x3008])

/-- Two comparisons that can be expressed, around one of the data that cannot. -/
def mixedCondition : Expr :=
  .binary .logicalAnd
    (.binary .logicalAnd (.binary .ne (.reg 1) (.imm 2))
      (.binary .eq (.mem (.reg 2) 8) (.imm 0x22)))
    (.binary .eq (.imm 7) (.reg 3))

/-- Two comparisons that are possible each on its own. -/
def contradiction : Expr :=
  .binary .logicalAnd (.binary .eq (.reg 1) (.imm 2)) (.binary .ne (.imm 2) (.reg 1))

/-- The registers of a machine in which the mixed condition holds. -/
def holdsMixed : RegFile :=
  fun r => if r = 1 then 3 else if r = 2 then 0x3008 else 7

/-- What is left after the mixed condition describes the machine in which it holds, and a new
    register is pinned; the contradiction is only found by following one side after the other. -/
theorem assume_prunes_impossible_threeByTwo :
    threeByTwo.assume (some twoWords) mixedCondition =
        .ok (some ((threeByTwo.set 1 (.ofList [1, 3])).set 3 (.const 7))) ∧
      ((threeByTwo.set 1 (.ofList [1, 3])).set 3 (.const 7)).Describes holdsMixed ∧
      (∀ ρ, ((threeByTwo.set 1 (.ofList [1, 3])).set 3 (.const 7)).Describes ρ →
        (Expr.binary .eq (.imm 7) (.reg 3)).value ρ twoWords.rom ≠ 0) ∧
      threeByTwo.assume none contradiction = .ok none ∧
      contradiction.value holdsMixed twoWords.rom = 0 := by
  have hrom : ∀ p ∈ some twoWords, twoWords.rom.Agrees p := fun p hp =>
    Option.some.inj hp ▸ twoWords.agrees_rom
  have hdescribes : threeByTwo.Describes holdsMixed :=
    describes_set_self
      (describes_set_self (describes_unknown _) (ValueSet.allows_ofList (by simp [holdsMixed])))
      (ValueSet.allows_ofList (by simp [holdsMixed]))
  have hpassed : threeByTwo.assume (some twoWords) mixedCondition =
      .ok (some ((threeByTwo.set 1 (.ofList [1, 3])).set 3 (.const 7))) := rfl
  have hrefused : threeByTwo.assume none contradiction = .ok none := rfl
  obtain ⟨-, hkept, henforced⟩ :=
    (assume_prunes_impossible threeByTwo (some twoWords) mixedCondition hpassed).1 _ rfl
  have hzero := (assume_prunes_impossible threeByTwo none contradiction hrefused).2 rfl
  refine ⟨hpassed, hkept _ _ hrom hdescribes (by decide +kernel), ?_, hrefused, ?_⟩
  · intro ρ hρ
    exact henforced ρ twoWords.rom hρ _ (by simp [mixedCondition, Expr.conjuncts])
      (.equal' 7 (by decide))
  · exact hzero holdsMixed twoWords.rom (fun p hp => absurd hp (by simp)) hdescribes

end Registers

end CodeReach
