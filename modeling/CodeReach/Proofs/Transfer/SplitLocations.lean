/-
  CodeReach.Proofs.Transfer.SplitLocations

  Locations split by a virtual program counter, compared with what the registers of the
  same state say about it.

  The two are computed apart.  A placement looks at the statement of an edge without the
  program (`Registers.after`), the analysis of values executes it with the read-only data
  at hand (`ValueAnalysis.step`).  Execution knows at least as much, so wherever the
  placement knows the register exactly, execution leaves it with that one word
  (`ValueAnalysis.get_of_step`).  The one statement they disagree about is the summary of
  a call: execution forgets all registers, the placement keeps the old value.  So a state
  at a split location knows the register of the split exactly if it was not reached along
  the summary of a call (`split_known_iff`).
-/
import CodeReach.Code.Assemble
import CodeReach.Proofs.Transfer.ValueStates

namespace CodeReach

namespace ValueAnalysis

variable {v : ValueAnalysis} {s t : Registers} {r : Reg} {w : Word}

/-! ## One statement -/

/-- An assignment leaves the register with the word that the placement expects. -/
theorem get_of_step_assign {q : Reg} {e : Expr} (hr : r.toNat < trackedRegs) (hs : s.Possible)
    (h : v.step s (.assign q e) = .ok (some t))
    (hafter : s.after (.assign q e) r = .const w) : t.get r = .const w := by
  obtain ⟨x, hx, h⟩ := bind_eq_ok.1 h
  obtain rfl := Option.some.inj (Except.ok.inj h)
  rw [Registers.get_set]
  unfold Registers.after at hafter
  by_cases hq : q = r
  · rw [if_pos ⟨hq, hr⟩]
    dsimp only at hafter
    rw [if_pos hq] at hafter
    cases hblind : s.eval none e with
    | error f =>
        rw [hblind] at hafter
        exact absurd hafter (by simp [Except.toOption, ValueSet.const])
    | ok y =>
        -- The read-only data can only narrow the one word that is left without it.
        rw [hblind] at hafter
        have hxy : x.le y = true :=
          Registers.eval_le_eval_of (fun q hq => absurd hq (by simp)) hs (Registers.le_refl s)
            hx hblind
        have hy : y = .const w := hafter
        rw [hy] at hxy
        exact ValueSet.eq_const_of_le hxy (hs.eval hx)
  · rw [if_neg fun hc => hq hc.1]
    dsimp only at hafter
    rwa [if_neg hq] at hafter

theorem get_of_step_havoc {q : Reg} (h : v.step s (.havoc q) = .ok (some t))
    (hafter : s.after (.havoc q) r = .const w) : t.get r = .const w := by
  obtain rfl := Option.some.inj (Except.ok.inj h)
  unfold Registers.after at hafter
  dsimp only at hafter
  split at hafter
  · exact absurd hafter (by simp [ValueSet.const])
  · rename_i hq
    rw [Registers.get_set, if_neg fun hc => hq hc.1]
    exact hafter

/-- An assumption narrows the register to a part of one word, and something is left. -/
theorem get_of_step_assume {c : Expr} {origin : Option Branch} (hs : s.Possible)
    (h : v.step s (.assume c origin) = .ok (some t)) (hafter : s.get r = .const w) :
    t.get r = .const w := by
  have hle : (t.get r).le (s.get r) = true := Registers.le_iff.1 (Registers.le_of_assume h) r
  obtain ⟨ρ, hρ⟩ := possible_of_step hs h
  rw [hafter] at hle
  exact ValueSet.eq_const_of_le hle ⟨ρ r, hρ r⟩

/-- Whatever statement is executed, unless it is the summary of a call: a register that is known
    exactly after it without looking at memory is known to be the same word in the registers after
    it. -/
theorem get_of_step {stmt : Stmt} (hr : r.toNat < trackedRegs) (hs : s.Possible)
    (hstmt : stmt ≠ .callReturn) (h : v.step s stmt = .ok (some t))
    (hafter : s.after stmt r = .const w) : t.get r = .const w := by
  cases stmt with
  | assign q e => exact get_of_step_assign hr hs h hafter
  | havoc q => exact get_of_step_havoc h hafter
  | assume c origin => exact get_of_step_assume hs h hafter
  | callReturn => exact absurd rfl hstmt
  | store addr value width =>
      -- Both expressions are only evaluated for the faults they may raise.
      obtain ⟨_, -, h⟩ := bind_eq_ok.1 h
      obtain ⟨_, -, h⟩ := bind_eq_ok.1 h
      obtain ⟨_, -, h⟩ := bind_eq_ok.1 h
      obtain rfl := Option.some.inj (Except.ok.inj h)
      exact hafter
  | goto g =>
      obtain rfl := Option.some.inj (Except.ok.inj h)
      exact hafter
  | skip =>
      obtain rfl := Option.some.inj (Except.ok.inj h)
      exact hafter
  | halt =>
      obtain rfl := Option.some.inj (Except.ok.inj h)
      exact hafter

/-- After the summary of a call nothing is known. -/
theorem eq_unknown_of_step_callReturn (h : v.step s .callReturn = .ok (some t)) : t = .unknown := by
  have hatomic := Except.ok.inj h
  split at hatomic
  · exact (Option.some.inj hatomic).symm
  · exact absurd hatomic (by simp)

end ValueAnalysis

/-- A placement splits a location where the first register file of the state knows the register
    exactly. -/
theorem Placement.after_of_step {p : Placement} {r : Reg} (hr : p.vpc = some r) {s : State}
    {e : Edge} {l : Label} {w : Word} (h : p.step s e = .split l w) :
    ∃ u, s.values? = some u ∧ u.after e.stmt r = .const w := by
  unfold step at h
  rw [hr] at h
  dsimp only at h
  split at h
  · rename_i x hx
    obtain ⟨-, rfl⟩ := Location.split.inj h
    obtain ⟨u, hu, hsingle⟩ := Option.bind_eq_some_iff.1 hx
    exact ⟨u, hu, ValueSet.single?_eq_some_iff.1 hsingle⟩
  · exact absurd h (by simp)

namespace ComponentAnalysis

variable {a : ComponentAnalysis} {s : State} {i : Nat}

/-! ## Positions -/

/-- Only registers are read as registers. -/
theorem component?_of_registersAt {u : Registers} (h : a.registersAt s i = .ok u) :
    s.component? i = some (.values u) := by
  cases hc : s.component? i with
  | none =>
      unfold registersAt at h
      rw [hc] at h
      exact absurd h (by simp)
  | some c => rw [registersAt_eq_ok hc h]

/-- Only a call stack is read as a call stack. -/
theorem component?_of_callsAt {k : CallStack} (h : a.callsAt s i = .ok k) :
    s.component? i = some (.calls k) := by
  cases hc : s.component? i with
  | none =>
      unfold callsAt at h
      rw [hc] at h
      exact absurd h (by simp)
  | some c => rw [callsAt_eq_ok hc h]

end ComponentAnalysis

namespace Analysis

variable {a : Analysis} {s t : State} {e : Edge}

theorem drop_of_component? {i : Nat} {c : Component} (h : s.component? i = some c) :
    s.parts.drop i = c :: s.parts.drop (i + 1) := by
  obtain ⟨hi, rfl⟩ := List.getElem?_eq_some_iff.1 h
  exact List.drop_eq_getElem_cons hi

/-! ## Successors -/

/-- The components from a position on, of which the first register file is executed by the first
    analysis of values. -/
theorem exists_step_of_postFrom {as : List ComponentAnalysis} {ds : List Component} {i : Nat}
    (hvalues : ∃ v, ComponentAnalysis.values v ∈ as) (h : postFrom s e i as = .ok (some ds)) :
    ∃ v u u', (s.parts.drop i).findSome? Component.values? = some u ∧
      ValueAnalysis.step v u e.stmt = .ok (some u') ∧
      ds.findSome? Component.values? = some u' := by
  induction as generalizing i ds with
  | nil =>
      obtain ⟨v, hv⟩ := hvalues
      exact absurd hv List.not_mem_nil
  | cons a as ih =>
      obtain ⟨o, ho, h⟩ := bind_eq_ok.1 h
      cases o with
      | none => exact absurd (Except.ok.inj h) (by simp)
      | some d =>
          obtain ⟨o', ho', h⟩ := bind_eq_ok.1 h
          obtain ⟨ds', rfl, rfl⟩ := Option.map_eq_some_iff.1 (Except.ok.inj h)
          -- An analysis gets an answer only where there is a component of its own kind.
          cases a with
          | values v =>
              obtain ⟨u, hu, ho⟩ := bind_eq_ok.1 ho
              obtain ⟨o, hstep, ho⟩ := bind_eq_ok.1 ho
              obtain ⟨u', rfl, rfl⟩ := Option.map_eq_some_iff.1 (Except.ok.inj ho)
              refine ⟨v, u, u', ?_, hstep, rfl⟩
              rw [drop_of_component? (ComponentAnalysis.component?_of_registersAt hu)]
              rfl
          | calls c =>
              obtain ⟨k, hk, ho⟩ := bind_eq_ok.1 ho
              obtain ⟨k', -, rfl⟩ := Option.map_eq_some_iff.1 (Except.ok.inj ho)
              have hrest : ∃ v, ComponentAnalysis.values v ∈ as := by
                obtain ⟨v, hv⟩ := hvalues
                exact ⟨v, by simpa using hv⟩
              obtain ⟨v, u, u', hu, hstep, hu'⟩ := ih hrest ho'
              refine ⟨v, u, u', ?_, hstep, hu'⟩
              rw [drop_of_component? (ComponentAnalysis.component?_of_callsAt hk)]
              exact hu

/-- A successor in a composite with an analysis of values: the first register file of the state is
    executed to the first one of the successor. -/
theorem exists_step_of_post (hvalues : ∃ v, ComponentAnalysis.values v ∈ a.components)
    (h : a.post s e = .ok (some t)) :
    ∃ v u u', s.values? = some u ∧ ValueAnalysis.step v u e.stmt = .ok (some u') ∧
      t.values? = some u' := by
  obtain ⟨o, ho, h⟩ := bind_eq_ok.1 h
  obtain ⟨ds, rfl, rfl⟩ := Option.map_eq_some_iff.1 (Except.ok.inj h)
  exact exists_step_of_postFrom hvalues ho

variable {r : Reg} {l : Label} {w : Word}

/-- A state that was reached at a location split at `w` knows that the register of the split holds
    exactly `w`, except after the summary of a call, where it does not. -/
theorem split_known_iff (hr : r.toNat < trackedRegs) (hsplit : a.placement.vpc = some r)
    (hvalues : ∃ v, ComponentAnalysis.values v ∈ a.components)
    (hs : ∀ u, s.values? = some u → ∀ q, (u.get q).constants? ≠ some [])
    (h : a.post s e = .ok (some t)) (ht : t.location = .split l w) :
    (∃ u, t.values? = some u ∧ (u.get r).single? = some w) ↔ e.stmt ≠ .callReturn := by
  obtain ⟨v, u, u', hu, hstep, hu'⟩ := exists_step_of_post hvalues h
  have hafter : u.after e.stmt r = .const w := by
    rw [location_post h] at ht
    obtain ⟨x, hx, hafter⟩ := Placement.after_of_step hsplit ht
    rw [hu] at hx
    rwa [Option.some.inj hx]
  have hpossible : u.Possible := Registers.possible_iff.2 (hs u hu)
  constructor
  · rintro ⟨x, hx, hsingle⟩ hcall
    rw [hu'] at hx
    rw [← Option.some.inj hx] at hsingle
    -- The summary of a call has left nothing known.
    rw [hcall] at hstep
    rw [ValueAnalysis.eq_unknown_of_step_callReturn hstep, Registers.get_unknown] at hsingle
    exact absurd hsingle (by simp [ValueSet.single?, ValueSet.constants?])
  · intro hstmt
    have hget := ValueAnalysis.get_of_step hr hpossible hstmt hstep hafter
    exact ⟨u', hu', ValueSet.single?_eq_some_iff.2 hget⟩

/-- Values with calls passed as a whole, in locations split by `r1`.  The program has one byte of
    read-only data. -/
def splitByCounter : Analysis :=
  ⟨{ vpc := some 1 },
    [.values { program := .assemble 0x1000 [.segment 0x2000 [7]], atomicCalls := true }]⟩

/-- The state before an instruction in which `r1` is known to be five. -/
def countedToFive : State :=
  ⟨.plain (Label.start 0x1000), [.values (Registers.unknown.set 1 (.const 5))]⟩

/-- The edge over that instruction. -/
def overInstruction (stmt : Stmt) : Edge :=
  .must (Label.start 0x1000) (Label.start 0x1004) stmt

/-- The byte of read-only data, masked with zero. -/
def maskedLoad : Stmt :=
  .assign 1 (.binary .logicalAnd (.mem (.imm 0x2000) 1) (.imm 0))

theorem constants?_countedToFive :
    ∀ u, countedToFive.values? = some u → ∀ q, (u.get q).constants? ≠ some [] := by
  intro u hu q
  obtain rfl := Option.some.inj hu
  rw [Registers.get_set]
  split
  · simp [ValueSet.const, ValueSet.constants?, OrdSet.singleton]
  · rw [Registers.get_unknown]
    simp [ValueSet.constants?]

/-- A conjunction with zero is known without looking at memory, and stays so when the read-only data
    is looked at. -/
theorem split_known_masked_load : ∃ t,
    splitByCounter.post countedToFive (overInstruction maskedLoad) = .ok (some t) ∧
    t.location = .split (Label.start 0x1004) 0 ∧
    ∃ u, t.values? = some u ∧ (u.get 1).single? = some 0 := by
  refine ⟨_, rfl, rfl, ?_⟩
  exact (split_known_iff (a := splitByCounter) (e := overInstruction maskedLoad) (by decide) rfl
    ⟨_, List.mem_singleton_self _⟩ constants?_countedToFive rfl rfl).2 (by decide)

/-- After the summary of a call the location is still split at five, but the registers of the state
    know nothing about `r1`. -/
theorem call_summary_splits_unknown :
    (∀ u, countedToFive.values? = some u → ∀ q, (u.get q).constants? ≠ some []) ∧
    ∃ t u, splitByCounter.post countedToFive (overInstruction .callReturn) = .ok (some t) ∧
      t.location = .split (Label.start 0x1004) 5 ∧ t.values? = some u ∧
      (u.get 1).single? = none :=
  ⟨constants?_countedToFive, _, _, rfl, rfl, rfl, rfl⟩

end Analysis

end CodeReach
