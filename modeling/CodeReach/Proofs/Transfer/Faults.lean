/-
  CodeReach.Proofs.Transfer.Faults

  How a statement is followed when less is known, and when it cannot be followed at all.

  Following an edge is monotone (`post_monotone`): who knows less can still follow it,
  and everything that is possible after it for the smaller description is possible for
  the larger one.  This needs that each register can hold something; a conjunction with
  an impossible side may be less known than one with a side that is zero.

  A fault is definite (`post_fault_definite`): whatever machine is described, executing
  the statement accesses the null page.  Where nothing is left open about the addresses,
  the fault names the first such access, and there is no fault without one.
-/
import CodeReach.Proofs.Domain.NullPage
import CodeReach.Proofs.Transfer.ValueStates

namespace CodeReach

/-! ## Accesses of a statement -/

namespace Stmt

/-- The expressions of which executing the statement needs the value. -/
def operands : Stmt → List Expr
  | .assign _ value => [value]
  | .store addr value _ => [addr, value]
  | .assume condition _ => [condition]
  | .goto g => [g.condition, g.target]
  | .havoc _ | .callReturn | .skip | .halt => []

/-- The expressions for the addresses at which executing the statement accesses memory: those from
    which its operands read, and the one at which a store writes. -/
def addresses : Stmt → List Expr
  | .assign _ value => value.reads
  | .store addr value _ => addr.reads ++ addr :: value.reads
  | .assume condition _ => condition.reads
  | .goto g => g.condition.reads ++ g.target.reads
  | .havoc _ | .callReturn | .skip | .halt => []

/-- The addresses at which executing the statement accesses memory. -/
def accesses (ρ : RegFile) (μ : Memory) (stmt : Stmt) : List Word :=
  stmt.addresses.map (·.value ρ μ)

end Stmt

namespace ValueAnalysis

variable {a : ValueAnalysis} {s t : Registers} {stmt : Stmt} {f : Fault} {ρ : RegFile} {μ : Memory}

/-! ## One statement -/

/-- A store checks its address, and is passed if its value can be evaluated. -/
theorem step_store (addr value : Expr) (width : Byte) :
    a.step s (.store addr value width) = s.eval (some a.program) addr >>= fun v =>
      Registers.checkAccess v >>= fun _ => s.eval (some a.program) value >>= fun _ =>
        .ok (some s) := by
  have hdiscard : ∀ x : Except Fault ValueSet,
      (discard x >>= fun _ => .ok (some s)) = x >>= fun _ => .ok (some s) := by
    intro x
    cases x <;> rfl
  rw [← hdiscard]
  rfl

/-- A statement faults because the address of one of its accesses is refused. -/
theorem exists_refused_of_step (h : a.step s stmt = .error f) :
    ∃ addr ∈ stmt.addresses, ∃ v, s.eval (some a.program) addr = .ok v ∧
      Registers.checkAccess v = .error f := by
  cases stmt with
  | assign r value =>
      rcases bind_eq_error.1 h with h | ⟨v, -, h⟩
      · exact Registers.exists_refused_of_eval h
      · exact absurd h (by simp [pure, Except.pure])
  | store addr value width =>
      rw [step_store] at h
      rcases bind_eq_error.1 h with h | ⟨v, hv, h⟩
      · obtain ⟨d, hd, hrefused⟩ := Registers.exists_refused_of_eval h
        exact ⟨d, List.mem_append_left _ hd, hrefused⟩
      · rcases bind_eq_error.1 h with h | ⟨_, -, h⟩
        · -- The place to write to is refused.
          exact ⟨addr, List.mem_append_right _ List.mem_cons_self, v, hv, h⟩
        · rcases bind_eq_error.1 h with h | ⟨_, -, h⟩
          · obtain ⟨d, hd, hrefused⟩ := Registers.exists_refused_of_eval h
            exact ⟨d, List.mem_append_right _ (List.mem_cons_of_mem _ hd), hrefused⟩
          · exact absurd h (by simp)
  | assume condition origin =>
      cases hv : s.eval (some a.program) condition with
      | error g =>
          have hassume : s.assume (some a.program) condition = .error g := by
            rw [Registers.assume, hv]
            rfl
          obtain rfl := Except.error.inj (hassume.symm.trans h)
          exact Registers.exists_refused_of_eval hv
      | ok v => exact absurd ((Registers.assume_of_eval hv).symm.trans h) (by simp)
  | havoc r => exact absurd h (by simp [step, pure, Except.pure])
  | callReturn => exact absurd h (by simp [step, pure, Except.pure])
  | goto g => exact absurd h (by simp [step, pure, Except.pure])
  | skip => exact absurd h (by simp [step, pure, Except.pure])
  | halt => exact absurd h (by simp [step, pure, Except.pure])

/-- The only fault of a statement is an access to the null page. -/
theorem fault_of_step (h : a.step s stmt = .error f) :
    ∃ x, f = .invalidAccess x ∧ x < nullPageEnd := by
  obtain ⟨addr, -, v, -, hcheck⟩ := exists_refused_of_step h
  obtain ⟨x, rfl, hx, hnull⟩ := Registers.fault_of_checkAccess hcheck
  exact ⟨x, rfl, hnull.2 x hx⟩

/-- If a statement faults, every machine that is described accesses the null page. -/
theorem exists_access_of_step (hμ : μ.Agrees a.program) (hs : s.Describes ρ)
    (h : a.step s stmt = .error f) : ∃ x ∈ stmt.accesses ρ μ, x < nullPageEnd := by
  have hprogram : ∀ p ∈ some a.program, μ.Agrees p := fun p hp => Option.some.inj hp ▸ hμ
  obtain ⟨addr, hmem, v, hv, hcheck⟩ := exists_refused_of_step h
  refine ⟨addr.value ρ μ, List.mem_map_of_mem hmem, ?_⟩
  exact Registers.lt_of_refused hprogram hs hv hcheck

/-- A statement that does not fault below does not fault above. -/
theorem exists_step_of_le (hs : s.Possible) (hle : s.le t = true) {o : Option Registers}
    (h : a.step s stmt = .ok o) : ∃ o', a.step t stmt = .ok o' := by
  cases stmt with
  | assign r value =>
      obtain ⟨v, hv, -⟩ := bind_eq_ok.1 h
      obtain ⟨w, hw⟩ := Registers.exists_eval_of_le hs hle hv
      refine ⟨some (t.set r w), ?_⟩
      rw [step, hw]
      rfl
  | store addr value width =>
      rw [step_store] at h
      obtain ⟨v, hv, h⟩ := bind_eq_ok.1 h
      obtain ⟨_, hcheck, h⟩ := bind_eq_ok.1 h
      obtain ⟨v', hv', -⟩ := bind_eq_ok.1 h
      obtain ⟨w, hw⟩ := Registers.exists_eval_of_le hs hle hv
      obtain ⟨w', hw'⟩ := Registers.exists_eval_of_le hs hle hv'
      -- An address that is refused above would have been refused below.
      have habove : ¬ w.InNullPage := fun hnull =>
        Registers.checkAccess_eq_ok_iff.1 hcheck
          (hnull.of_le (Registers.eval_le_eval hs hle hv hw) (hs.eval hv))
      refine ⟨some t, ?_⟩
      rw [step_store, hw]
      show (Registers.checkAccess w >>= fun _ => _) = _
      rw [Registers.checkAccess_eq_ok_iff.2 habove, hw']
      rfl
  | assume condition origin =>
      obtain ⟨v, hv, -⟩ := bind_eq_ok.1 h
      obtain ⟨w, hw⟩ := Registers.exists_eval_of_le hs hle hv
      exact ⟨_, Registers.assume_of_eval hw⟩
  | havoc r => exact ⟨_, rfl⟩
  | callReturn => exact ⟨_, rfl⟩
  | goto g => exact ⟨_, rfl⟩
  | skip => exact ⟨_, rfl⟩
  | halt => exact ⟨_, rfl⟩

/-- Where nothing is left open about the addresses that the operands read, a statement that is no
    goto checks its accesses one after the other and does not fault otherwise. -/
theorem step_of_tracks (hμ : μ.Agrees a.program) (hgoto : stmt.isGoto = false)
    (htracks : ∀ e ∈ stmt.operands, s.Tracks a.program ρ μ e) :
    ∃ o, a.step s stmt = Registers.checkAll (stmt.accesses ρ μ) >>= fun _ => .ok o := by
  cases stmt with
  | assign r value =>
      have hvalue := Registers.eval_of_tracks hμ (htracks value List.mem_cons_self)
      have haccesses : (Stmt.assign r value).accesses ρ μ = value.accesses ρ μ := rfl
      refine ⟨some (s.set r (.const (value.value ρ μ))), ?_⟩
      rw [step, hvalue, haccesses]
      cases Registers.checkAll (value.accesses ρ μ) <;> rfl
  | store addr value width =>
      have haddr := Registers.eval_of_tracks hμ (htracks addr List.mem_cons_self)
      have hvalue := Registers.eval_of_tracks hμ
        (htracks value (List.mem_cons_of_mem _ List.mem_cons_self))
      have haccesses : (Stmt.store addr value width).accesses ρ μ =
          addr.accesses ρ μ ++ ([addr.value ρ μ] ++ value.accesses ρ μ) := List.map_append
      refine ⟨some s, ?_⟩
      rw [step_store, haddr, hvalue, haccesses, Registers.checkAll_append,
        Registers.checkAll_append]
      cases Registers.checkAll (addr.accesses ρ μ) with
      | error f => rfl
      | ok _ =>
          show (Registers.checkAccess (.const (addr.value ρ μ)) >>= fun _ => _) = _
          rw [Registers.checkAccess_const]
          cases Registers.checkAll [addr.value ρ μ] with
          | error f => rfl
          | ok _ => cases Registers.checkAll (value.accesses ρ μ) <;> rfl
  | assume condition origin =>
      have hvalue := Registers.eval_of_tracks hμ (htracks condition List.mem_cons_self)
      have haccesses : (Stmt.assume condition origin).accesses ρ μ = condition.accesses ρ μ := rfl
      rw [haccesses]
      cases hall : Registers.checkAll (condition.accesses ρ μ) with
      | error f =>
          rw [hall] at hvalue
          refine ⟨none, ?_⟩
          rw [step, Registers.assume, hvalue]
          rfl
      | ok _ =>
          rw [hall] at hvalue
          exact ⟨_, Registers.assume_of_eval hvalue⟩
  | goto g => exact absurd hgoto (by simp [Stmt.isGoto, Stmt.goto?])
  | havoc r => exact ⟨_, rfl⟩
  | callReturn => exact ⟨_, rfl⟩
  | skip => exact ⟨_, rfl⟩
  | halt => exact ⟨_, rfl⟩

end ValueAnalysis

namespace ComponentAnalysis

variable {a : ValueAnalysis} {s t : State} {i j : Nat} {u v : Registers}

/-! ## One edge -/

/-- The component of register values follows the statement of an edge. -/
theorem post_values (hu : s.component? i = some (.values u)) (e : Edge) :
    (ComponentAnalysis.values a).post s i e =
      a.step u e.stmt >>= fun o => .ok (o.map Component.values) := by
  have hregisters : (ComponentAnalysis.values a).registersAt s i = .ok u := by
    rw [registersAt, hu]
    rfl
  rw [post, hregisters]
  rfl

/-- The transfer of register values is monotone.  If an edge is followed without a fault from a
    description in which every register can hold something, it is followed without a fault from
    every larger one, at any position of any state; and a successor of the first is below a
    successor of the second. -/
theorem post_monotone (a : ValueAnalysis) (e : Edge) (hu : s.component? i = some (.values u))
    (hv : t.component? j = some (.values v)) (hpossible : ∀ r, (u.get r).constants? ≠ some [])
    (hle : u.le v = true) {o : Option Component}
    (h : (ComponentAnalysis.values a).post s i e = .ok o) :
    ∃ o', (ComponentAnalysis.values a).post t j e = .ok o' ∧
      ∀ c, o = some c → ∃ d, o' = some d ∧ (ComponentAnalysis.values a).le c d = true := by
  have hs : u.Possible := Registers.possible_iff.2 hpossible
  rw [post_values hu] at h
  obtain ⟨q, hq, h⟩ := bind_eq_ok.1 h
  obtain rfl := Except.ok.inj h
  obtain ⟨q', hq'⟩ := ValueAnalysis.exists_step_of_le hs hle hq
  refine ⟨q'.map Component.values, ?_, ?_⟩
  · rw [post_values hv, hq']
    rfl
  · intro c hc
    obtain ⟨u', rfl, rfl⟩ := Option.map_eq_some_iff.1 hc
    obtain ⟨v', rfl, hle', -⟩ := ValueAnalysis.step_le hs hle hq hq'
    exact ⟨.values v', rfl, hle'⟩

/-- The analysis of a program with two words of read-only data. -/
def overTwoWords : ValueAnalysis :=
  { program := Registers.twoWords }

/-- The state that knows `u` about the registers, behind a call stack. -/
def behindCalls (u : Registers) : State :=
  ⟨.plain (Label.start 0x1000), [.calls .empty, .values u]⟩

/-- The sum of two registers goes into a third one. -/
def addition : Edge :=
  .must (Label.start 0x1000) (Label.start 0x1004) (.assign 3 (.binary .add (.reg 1) (.reg 2)))

/-- Two candidates for each summand, so at most four sums. -/
def fewSums : Registers :=
  (Registers.unknown.set 1 (.ofList [1, 2])).set 2 (.ofList [10, 20])

/-- Twenty sums, which are too many to be told apart. -/
def manySums : Registers :=
  (Registers.unknown.set 1 (.ofList [1, 2, 3, 4, 5])).set 2 (.ofList [10, 20, 30, 40])

/-- The sums that are known from fewer candidates are below those that are given up from more, also
    if the registers stand at another position there. -/
theorem post_monotone_sums :
    (ComponentAnalysis.values overTwoWords).post
        (.ofRegisters (.plain (Label.start 0x1000)) fewSums) 1 addition =
      .ok (some (.values (fewSums.set 3 (.ofList [11, 12, 21, 22])))) ∧
    (ComponentAnalysis.values overTwoWords).post (behindCalls manySums) 2 addition =
      .ok (some (.values (manySums.set 3 .unknown))) ∧
    (fewSums.set 3 (.ofList [11, 12, 21, 22])).le (manySums.set 3 .unknown) = true := by
  have hpossible : fewSums.Possible :=
    (Registers.possible_unknown.set ⟨1, ValueSet.allows_ofList (by simp)⟩).set
      ⟨10, ValueSet.allows_ofList (by simp)⟩
  have hbelow : (ComponentAnalysis.values overTwoWords).post
      (.ofRegisters (.plain (Label.start 0x1000)) fewSums) 1 addition =
      .ok (some (.values (fewSums.set 3 (.ofList [11, 12, 21, 22])))) := rfl
  have habove : (ComponentAnalysis.values overTwoWords).post (behindCalls manySums) 2 addition =
      .ok (some (.values (manySums.set 3 .unknown))) := rfl
  have hsecond : (behindCalls manySums).component? 2 = some (.values manySums) := rfl
  obtain ⟨o', ho', hcovered⟩ := post_monotone overTwoWords addition rfl hsecond
    (Registers.possible_iff.1 hpossible) (by decide +kernel) hbelow
  obtain ⟨d, hd, hle⟩ := hcovered _ rfl
  obtain rfl := Except.ok.inj (habove.symm.trans ho')
  obtain rfl := Option.some.inj hd
  exact ⟨hbelow, habove, hle⟩

/-- Without anything possible in a register, less can be known below than above. -/
example :
    (Registers.unknown.set 1 (.ofList [])).le (Registers.unknown.set 1 (.const 0)) = true ∧
      (Registers.unknown.set 1 (.ofList [])).eval none (.binary .logicalAnd (.reg 1) (.reg 2)) =
        .ok .unknown ∧
      (Registers.unknown.set 1 (.const 0)).eval none (.binary .logicalAnd (.reg 1) (.reg 2)) =
        .ok (.const 0) :=
  ⟨by decide +kernel, rfl, rfl⟩

/-- Faults of memory are definite.  If following an edge faults on an access, the address lies in
    the null page, and in every machine that is described executing the statement accesses the null
    page.  Where nothing is left open about the addresses and the statement is no goto, the fault is
    the first access to the null page, and without one there is none. -/
theorem post_fault_definite (a : ValueAnalysis) (e : Edge)
    (hu : s.component? i = some (.values u)) :
    (∀ x, (ComponentAnalysis.values a).post s i e = .error (.invalidAccess x) →
      x < nullPageEnd ∧ ∀ ρ μ, u.Describes ρ → μ.Agrees a.program →
        ∃ y ∈ e.stmt.accesses ρ μ, y < nullPageEnd) ∧
    ∀ ρ μ, μ.Agrees a.program → e.stmt.isGoto = false →
      (∀ d ∈ e.stmt.operands, u.Tracks a.program ρ μ d) →
      ∀ x, (ComponentAnalysis.values a).post s i e = .error (.invalidAccess x) ↔
        (e.stmt.accesses ρ μ).find? (· < nullPageEnd) = some x := by
  have hfault : ∀ f, (ComponentAnalysis.values a).post s i e = .error f ↔
      a.step u e.stmt = .error f := by
    intro f
    rw [post_values hu, bind_eq_error]
    simp
  refine ⟨?_, ?_⟩
  · intro x hx
    rw [hfault] at hx
    obtain ⟨y, hxy, hy⟩ := ValueAnalysis.fault_of_step hx
    refine ⟨Fault.invalidAccess.inj hxy ▸ hy, ?_⟩
    intro ρ μ hρ hμ
    exact ValueAnalysis.exists_access_of_step hμ hρ hx
  · intro ρ μ hμ hgoto htracks x
    obtain ⟨o, ho⟩ := ValueAnalysis.step_of_tracks hμ hgoto htracks
    rw [hfault, ho, bind_eq_error, ← Registers.checkAll_eq_error_iff]
    simp

/-- A read through a pointer that is read itself. -/
def readTwice : Edge :=
  .must (Label.start 0x1000) (Label.start 0x1004)
    (.assign 2 (.binary .add (.imm 1) (.mem (.mem (.reg 1) 8) 8)))

/-- Both words that the pointer can be lie in the null page.  The fault names the first of them, and
    a machine in which it is the second reads from the null page all the same; if the pointer is
    certain, so is the address in the fault. -/
theorem post_fault_definite_readTwice :
    (ComponentAnalysis.values overTwoWords).post
        (behindCalls (Registers.unknown.set 1 (.ofList [0x3000, 0x3008]))) 2 readTwice =
      .error (.invalidAccess 0x11) ∧
    (0x11 : Word) < nullPageEnd ∧
    readTwice.stmt.accesses (fun _ => 0x3008) Registers.twoWords.rom = [0x3008, 0x22] ∧
    (∃ y ∈ readTwice.stmt.accesses (fun _ => 0x3008) Registers.twoWords.rom, y < nullPageEnd) ∧
    (ComponentAnalysis.values overTwoWords).post
        (behindCalls (Registers.unknown.set 1 (.const 0x3008))) 2 readTwice =
      .error (.invalidAccess 0x22) := by
  have hdescribes : (Registers.unknown.set 1 (.ofList [0x3000, 0x3008])).Describes
      fun _ => 0x3008 :=
    Registers.describes_set_self (Registers.describes_unknown _) (ValueSet.allows_ofList (by simp))
  have hfault : (ComponentAnalysis.values overTwoWords).post
      (behindCalls (Registers.unknown.set 1 (.ofList [0x3000, 0x3008]))) 2 readTwice =
      .error (.invalidAccess 0x11) := rfl
  have haccesses : readTwice.stmt.accesses (fun _ => 0x3008) Registers.twoWords.rom =
      [0x3008, 0x22] := by decide +kernel
  obtain ⟨hnull, hdefinite⟩ := (post_fault_definite overTwoWords readTwice rfl).1 _ hfault
  have hcertain : (behindCalls (Registers.unknown.set 1 (.const 0x3008))).component? 2 =
      some (.values (Registers.unknown.set 1 (.const 0x3008))) := rfl
  have hexact := (post_fault_definite overTwoWords readTwice hcertain).2 (fun _ => 0x3008)
    Registers.twoWords.rom Registers.twoWords.agrees_rom rfl
  refine ⟨hfault, hnull, haccesses, hdefinite _ _ hdescribes Registers.twoWords.agrees_rom,
    (hexact ?_ 0x22).2 (by rw [haccesses]; decide)⟩
  intro d hd
  obtain rfl := List.mem_singleton.1 hd
  exact ⟨trivial, ⟨rfl, Or.inr (by decide +kernel)⟩, Or.inl (by decide +kernel)⟩

end ComponentAnalysis

end CodeReach
