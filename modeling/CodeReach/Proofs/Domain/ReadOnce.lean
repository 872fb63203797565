/-
  CodeReach.Proofs.Domain.ReadOnce

  Where computing with sets of words loses nothing.  Such sets forget which values go
  together, so an expression that reads a register twice is computed as if the two reads
  could differ.  If no register occurs twice there is nothing to forget: the words that
  are computed are the values of the expression in the register files that are
  described, no more and no fewer (`resolved_exactly`).

  That none is missing is soundness.  That none is spurious is shown by finding a
  register file for each word (`exists_describes_of_allows`).  The two operands of an
  operator read different registers, so two register files, one for the word of each
  operand, can be spliced into one for both (`RegFile.splice`).
-/
import CodeReach.Proofs.Domain.Evaluation
import CodeReach.Proofs.Domain.Projection
import CodeReach.Proofs.Expr.NormalForm

namespace CodeReach

/-- The registers of the list as in `ρ`, all others as in `ρ'`. -/
def RegFile.splice (rs : List Reg) (ρ ρ' : RegFile) : RegFile :=
  fun r => if r ∈ rs then ρ r else ρ' r

namespace Expr

variable {ρ ρ' : RegFile} {μ : Memory}

theorem value_splice_left (e : Expr) : e.value (.splice e.regs ρ ρ') μ = e.value ρ μ :=
  value_congr_regs fun _ hr => if_pos hr

theorem value_splice_right {e : Expr} {rs : List Reg} (h : ∀ r ∈ rs, r ∉ e.regs) :
    e.value (.splice rs ρ ρ') μ = e.value ρ' μ :=
  value_congr_regs fun r hr => if_neg fun hmem => h r hmem hr

end Expr

namespace Registers

variable {s : Registers} {program : Option Program} {ρ ρ' : RegFile} {μ : Memory} {w : Word}

/-- Registers are described one by one. -/
theorem describes_splice (rs : List Reg) (hρ : s.Describes ρ) (hρ' : s.Describes ρ') :
    s.Describes (.splice rs ρ ρ') := by
  intro r
  unfold RegFile.splice
  split
  · exact hρ r
  · exact hρ' r

/-! ## A register file for each word -/

/-- A word that is loaded comes from a candidate address, where every memory holds it. -/
theorem exists_of_allows_load (hμ : ∀ p ∈ program, μ.Agrees p) {addresses v : ValueSet}
    {width : Byte} (h : load program addresses width = .ok v) (hne : v ≠ .unknown)
    (hw : v.Allows w) : addresses ≠ .unknown ∧ ∃ a, addresses.Allows a ∧ μ a width = w := by
  obtain ⟨-, -, hload⟩ := bind_eq_ok.1 h
  split at hload
  · rename_i as p has
    obtain rfl := Except.ok.inj hload
    have hknown : addresses ≠ .unknown := by
      rintro rfl
      exact absurd has (by simp [ValueSet.constants?])
    -- One address that cannot be read makes the whole result unknown.
    cases hread : as.mapM (p.read? · width.toNat) with
    | none =>
        rw [hread] at hne
        exact absurd rfl hne
    | some ws =>
        rw [hread] at hne hw
        have hmem : some w ∈ as.map (p.read? · width.toNat) := by
          rw [map_eq_of_mapM hread]
          exact List.mem_map_of_mem (ValueSet.mem_of_allows_ofList hne hw)
        obtain ⟨a, ha, hreads⟩ := List.mem_map.1 hmem
        exact ⟨hknown, a, (ValueSet.allows_iff_of_constants? has).2 ha, hμ p rfl a width w hreads⟩
  · exact absurd (Except.ok.inj hload).symm hne

/-- A word of a combination comes from two known operands, unless one of them decides it. -/
theorem exists_of_allows_combine {op : BinaryOp} {l r : ValueSet} (hne : combine op l r ≠ .unknown)
    (hw : (combine op l r).Allows w) : combine op l r = .const w ∨
      l ≠ .unknown ∧ r ≠ .unknown ∧ ∃ x y, l.Allows x ∧ r.Allows y ∧ op.apply x y = w := by
  by_cases hzero : op = .logicalAnd ∧ (l.single? = some 0 ∨ r.single? = some 0)
  · left
    rw [combine, if_pos hzero] at hw ⊢
    rw [ValueSet.allows_const.1 hw]
  · right
    rw [combine, if_neg hzero] at hne hw
    refine ⟨?_, ?_, ValueSet.exists_of_allows_combine hne hw⟩
    · rintro rfl
      exact hne rfl
    · rintro rfl
      exact hne (by cases l <;> rfl)

/-- An expression that is known to be one word has that value in every described register file. -/
theorem value_of_eval_const (hμ : ∀ p ∈ program, μ.Agrees p) (hρ : s.Describes ρ) {e : Expr}
    (h : s.eval program e = .ok (.const w)) : e.value ρ μ = w :=
  ValueSet.allows_const.1 (allows_eval hμ hρ h)

/-- Each word that is computed for an expression without repeated registers is its value in some
    register file that is described. -/
theorem exists_describes_of_allows (hs : s.Possible) (hμ : ∀ p ∈ program, μ.Agrees p) {e : Expr}
    (honce : e.regs.Nodup) {v : ValueSet} (hv : s.eval program e = .ok v) (hne : v ≠ .unknown)
    (hw : v.Allows w) : ∃ ρ, s.Describes ρ ∧ e.value ρ μ = w := by
  -- `ρ` gives the registers that the expression does not read.
  obtain ⟨ρ, hρ⟩ := hs
  induction e generalizing v w with
  | imm c =>
      obtain rfl := Except.ok.inj hv
      exact ⟨ρ, hρ, (ValueSet.allows_const.1 hw).symm⟩
  | reg r =>
      obtain rfl := Except.ok.inj hv
      refine ⟨ρ.set r w, fun q => ?_, if_pos rfl⟩
      unfold RegFile.set
      split
      · rename_i hq
        rw [hq]
        exact hw
      · exact hρ q
  | mem addr width ih =>
      obtain ⟨addresses, haddr, hload⟩ := bind_eq_ok.1 hv
      obtain ⟨hknown, a, ha, hread⟩ := exists_of_allows_load hμ hload hne hw
      obtain ⟨σ, hσ, hvalue⟩ := ih honce haddr hknown ha
      exact ⟨σ, hσ, by rw [Expr.value, hvalue, hread]⟩
  | unary op e ih =>
      obtain ⟨u, hu, h⟩ := bind_eq_ok.1 hv
      obtain rfl := Except.ok.inj h
      obtain ⟨x, hx, rfl⟩ := ValueSet.exists_of_allows_map hne hw
      have hknown : u ≠ .unknown := by
        rintro rfl
        exact hne rfl
      obtain ⟨σ, hσ, hvalue⟩ := ih honce hu hknown hx
      exact ⟨σ, hσ, by rw [Expr.value, hvalue]⟩
  | binary op l r ihl ihr =>
      obtain ⟨vl, hl, h⟩ := bind_eq_ok.1 hv
      obtain ⟨vr, hr, h⟩ := bind_eq_ok.1 h
      obtain rfl := Except.ok.inj h
      rcases exists_of_allows_combine hne hw with hconst | ⟨hnel, hner, x, y, hx, hy, rfl⟩
      · -- One operand decides a conjunction; the other one may not be known at all.
        exact ⟨ρ, hρ, value_of_eval_const hμ hρ (hv.trans (congrArg Except.ok hconst))⟩
      · -- The operands read different registers, so neither sees the splice.
        obtain ⟨honcel, honcer, hapart⟩ := List.nodup_append.1 honce
        obtain ⟨σ, hσ, rfl⟩ := ihl honcel hl hnel hx
        obtain ⟨τ, hτ, rfl⟩ := ihr honcer hr hner hy
        have hright : r.value (.splice l.regs σ τ) μ = r.value τ μ :=
          Expr.value_splice_right fun q hq hqr => hapart q hq q hqr rfl
        exact ⟨.splice l.regs σ τ, describes_splice l.regs hσ hτ,
          by rw [Expr.value, Expr.value_splice_left, hright]⟩

/-! ## Exact evaluation -/

/-- For an expression in which no register occurs twice, the words that are computed are exactly its
    values in the register files that are described, with any one memory that agrees with the
    read-only data.  So no target of a goto is spurious: the words that a state with these registers
    pairs with a condition, whatever the condition is, are exactly the values that the target has in
    the register files that the state describes. -/
theorem resolved_exactly (s : Registers) (hs : ∀ q, (s.get q).constants? ≠ some [])
    (program : Option Program) (μ : Memory) (hμ : ∀ p ∈ program, μ.Agrees p) (e : Expr)
    (honce : e.regs.Nodup) (v : ValueSet) (ws : List Word) (hv : s.eval program e = .ok v)
    (hws : v.constants? = some ws) :
    (∀ w, w ∈ ws ↔ ∃ ρ, s.Describes ρ ∧ e.value ρ μ = w) ∧
    ∀ p ∈ program, ∀ (st : State) (condition : Expr),
      (∀ r, Component.values r ∈ st.components ↔ r = s) →
      ∀ w, (∃ x, [x, some w] ∈ st.projection p [condition, e]) ↔
        ∃ ρ, st.Describes ρ ∧ e.value ρ μ = w := by
  have hpossible : s.Possible := possible_iff.2 hs
  have hne : v ≠ .unknown := by
    rintro rfl
    exact absurd hws (by simp [ValueSet.constants?])
  have hexact : ∀ w, v.Allows w ↔ ∃ ρ, s.Describes ρ ∧ e.value ρ μ = w := by
    intro w
    constructor
    · exact fun hw => exists_describes_of_allows hpossible hμ honce hv hne hw
    · rintro ⟨ρ, hρ, rfl⟩
      exact allows_eval hμ hρ hv
  refine ⟨fun w => by rw [← hexact, ValueSet.allows_iff_of_constants? hws], ?_⟩
  rintro p rfl st condition hcomponents w
  have hdescribes : ∀ ρ, st.Describes ρ ↔ s.Describes ρ := fun ρ => by
    simp only [State.Describes, hcomponents, forall_eq]
  simp only [hdescribes, ← hexact]
  constructor
  · rintro ⟨x, hpair⟩
    cases State.mem_projection_iff.1 hpair with
    | cons _ hrest =>
        cases hrest with
        | cons htarget _ => exact htarget.allowed w rfl s ((hcomponents s).2 rfl) v hv
  · intro hw
    obtain ⟨ρ, hρ⟩ := hpossible
    obtain ⟨x, hx, -⟩ := State.exists_lists (hμ p rfl) ((hdescribes ρ).2 hρ) condition
    have hknows : st.Knows p e := ⟨s, (hcomponents s).2 rfl, knows_iff.2 ⟨v, hv, hne⟩⟩
    have htarget : st.Lists p e (some w) := by
      refine hknows.lists_some fun r hr u hu => ?_
      obtain rfl := (hcomponents r).1 hr
      obtain rfl := Except.ok.inj (hv.symm.trans hu)
      exact hw
    exact ⟨x, State.mem_projection_iff.2 (.cons hx (.cons htarget .nil))⟩

/-- An entry of a table of words, to which a conjunction with an untracked register adds nothing. -/
def tableEntry : Expr :=
  .binary .add (.mem (.binary .add (.imm 0x3000) (.binary .shl (.reg 1) (.imm 3))) 8)
    (.binary .logicalAnd (.reg 200) (.imm 0))

/-- The index is zero or one. -/
def twoIndices : Registers :=
  unknown.set 1 (.ofList [0, 1])

/-- Both entries of the table are values of the expression and targets of a goto, and nothing else
    is. -/
theorem resolved_exactly_tableEntry :
    twoIndices.eval (some twoWords) tableEntry = .ok (.ofList [0x11, 0x22]) ∧
      (∀ w, w ∈ [0x11, 0x22] ↔
        ∃ ρ, twoIndices.Describes ρ ∧ tableEntry.value ρ twoWords.rom = w) ∧
      let st : State := ⟨.plain (Label.start 0x1000), [.calls .empty, .values twoIndices]⟩
      ∀ w, (∃ x, [x, some w] ∈ st.projection twoWords [.reg 5, tableEntry]) ↔
        ∃ ρ, st.Describes ρ ∧ tableEntry.value ρ twoWords.rom = w := by
  have hpossible : ∀ q, (twoIndices.get q).constants? ≠ some [] :=
    possible_iff.1 (possible_unknown.set ⟨0, ValueSet.allows_ofList (by simp)⟩)
  have heval : twoIndices.eval (some twoWords) tableEntry = .ok (.ofList [0x11, 0x22]) := rfl
  obtain ⟨hvalues, htargets⟩ := resolved_exactly twoIndices hpossible (some twoWords) twoWords.rom
    (fun p hp => Option.some.inj hp ▸ twoWords.agrees_rom) tableEntry (by decide) _ _ heval rfl
  exact ⟨heval, hvalues, htargets twoWords rfl _ (.reg 5) (by simp)⟩

-- A register that occurs twice is computed as if it were two: a one is spurious here.
example : (unknown.set 1 (.ofList [0, 1])).eval none (.binary .xor (.reg 1) (.reg 1)) =
    .ok (.ofList [0, 1]) := rfl

end Registers

end CodeReach
