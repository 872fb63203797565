/-
  CodeReach.Proofs.Explore.MonotoneEdges

  The edges that leave a state, compared with those that leave a larger one.  If both
  states resolve, every edge of the smaller state is one of the larger state too, or it
  leads nowhere from the smaller state (`mem_edges_of_le`).

  The second case is real.  A condition that faults in the smaller state is looked at for
  zero and one, while the larger state may know that it is, say, never zero.  Folding can
  drop what faults, and then the assumption of the additional edge can be evaluated; but
  it is certainly zero, so that nothing passes it.
-/
import CodeReach.Proofs.Domain.Simplified
import CodeReach.Proofs.Explore.Coverage
import CodeReach.Proofs.Transfer.ValueStates

namespace CodeReach

namespace Registers

variable {s t : Registers} {p : Program} {e : Expr} {w c : Word}

/-! ## Candidates -/

/-- In a possible register file every expression has a candidate. -/
theorem Possible.exists_candidate (hs : s.Possible) (e : Expr) : ∃ x, x ∈ s.candidates p e := by
  obtain ⟨ρ, hρ⟩ := hs
  obtain ⟨x, hx, -⟩ := Registers.exists_candidate p.agrees_rom hρ e
  exact ⟨x, hx⟩

/-- A candidate below is one above, where the values are known. -/
theorem some_mem_candidates_of_le (hs : s.Possible) (hle : s.le t = true)
    (h : some w ∈ s.candidates p e) (ht : none ∉ t.candidates p e) :
    some w ∈ t.candidates p e := by
  obtain ⟨v, hv, -, hw⟩ := some_mem_candidates_iff.1 h
  obtain ⟨u, hu, hne⟩ := eval_of_none_not_mem ht
  have hvu : v.le u = true := eval_le_eval hs hle hv hu
  exact some_mem_candidates_iff.2 ⟨u, hu, hne, ValueSet.allows_of_le hvu hw⟩

/-- A goto looks at this value of its condition. -/
def LooksAt (s : Registers) (p : Program) (condition : Expr) (c : Word) : Prop :=
  some c ∈ s.candidates p condition ∨ none ∈ s.candidates p condition ∧ (c = 0 ∨ c = 1)

/-- What is looked at below is looked at above, unless the condition faults below and is known above
    not to have that value. -/
theorem LooksAt.of_le (h : s.LooksAt p e c) (hb : e.isBoolean = true) (hs : s.Possible)
    (hle : s.le t = true) : t.LooksAt p e c ∨
      ∃ f u, s.eval (some p) e = .error f ∧ t.eval (some p) e = .ok u ∧ u ≠ .unknown ∧
        ¬ u.Allows c := by
  by_cases ht : none ∈ t.candidates p e
  · -- A boolean condition has no values but those that are always looked at.
    refine Or.inl (Or.inr ⟨ht, ?_⟩)
    rcases h with hc | ⟨-, hc⟩
    · obtain ⟨v, hv, hne, hallows⟩ := some_mem_candidates_iff.1 hc
      exact eq_zero_or_one_of_eval hb hv hne hallows
    · exact hc
  · obtain ⟨u, hu, hne⟩ := eval_of_none_not_mem ht
    by_cases hallows : u.Allows c
    · exact Or.inl (Or.inl (some_mem_candidates_iff.2 ⟨u, hu, hne, hallows⟩))
    · cases hv : s.eval (some p) e with
      | error f => exact Or.inr ⟨f, u, rfl, hu, hne, hallows⟩
      | ok v =>
          -- Where the condition can be evaluated on both sides, it has the value above as well.
          have hvu : v.le u = true := eval_le_eval hs hle hv hu
          rcases h with hc | ⟨hopen, -⟩
          · obtain ⟨v', hv', -, hc⟩ := some_mem_candidates_iff.1 hc
            obtain rfl := Except.ok.inj (hv.symm.trans hv')
            exact absurd (ValueSet.allows_of_le hvu hc) hallows
          · obtain rfl := none_mem_candidates_iff.1 hopen v hv
            exact absurd (ValueSet.unknown_le.1 hvu) hne

end Registers

namespace Resolver

variable {r : Resolver} {site : PlacedStmt} {g : Goto} {l : Location} {s t : Registers}
  {v : ValueAnalysis} {e : Edge} {n m : Node} {es es' : List Edge}

/-! ## Gotos -/

/-- The combinations looked at in a state with one register file. -/
theorem mem_cases_ofRegisters {p : Program} {c : Word} {y : Option Word} :
    (c, y) ∈ Goto.cases ((State.ofRegisters l s).projection p [g.condition, g.target]) ↔
      s.LooksAt p g.condition c ∧ y ∈ s.candidates p g.target := by
  have hprojection : (State.ofRegisters l s).projection p [g.condition, g.target] =
      (s.projection p [g.condition, g.target]).toList := rfl
  rw [Goto.mem_cases, hprojection]
  constructor
  · rintro ⟨pair, hpair, rfl, hc⟩
    obtain ⟨x, _, hx, hrest, rfl⟩ :=
      List.forall₂_cons_right_iff.1 (Registers.mem_projection.1 hpair)
    obtain ⟨y, _, hy, hnil, rfl⟩ := List.forall₂_cons_right_iff.1 hrest
    obtain rfl := List.forall₂_nil_right_iff.1 hnil
    refine ⟨?_, hy⟩
    rcases hc with hc | ⟨hnone, hc⟩
    · obtain rfl : x = some c := hc
      exact Or.inl hx
    · obtain rfl : x = none := hnone
      exact Or.inr ⟨hx, hc⟩
  · rintro ⟨hlooks, hy⟩
    have hmem : ∀ x ∈ s.candidates p g.condition,
        [x, y] ∈ (s.projection p [g.condition, g.target]).toList := fun x hx =>
      Registers.mem_projection.2 (.cons hx (.cons hy .nil))
    rcases hlooks with hc | ⟨hnone, hc⟩
    · exact ⟨_, hmem _ hc, rfl, Or.inl rfl⟩
    · exact ⟨_, hmem _ hnone, rfl, Or.inr ⟨rfl, hc⟩⟩

/-- A statement that assumes something which is certainly zero is not passed. -/
theorem step_eq_none {a : Expr} {origin : Option Branch} {o : Option Registers}
    (hzero : ∀ u, s.eval (some v.program) a = .ok u → u.le (.const 0) = true)
    (h : v.step s (.assume a origin) = .ok o) : o = none := by
  have hassume : s.assume (some v.program) a = .ok o := h
  obtain ⟨u, hu, -⟩ := bind_eq_ok.1 hassume
  exact Except.ok.inj (hassume.symm.trans (Registers.assume_eq_none hu (hzero u hu)))

section
variable (hboolean : g.condition.isBoolean = true) (hs : s.Possible) (hle : s.le t = true)

include hboolean hs hle in
/-- Falling through.  The edge does not depend on the target, so the value of the condition is all
    that has to be looked at above. -/
theorem fallThrough_of_le {y : Option Word}
    (hcase : (0, y) ∈ Goto.cases ((State.ofRegisters l s).projection r.program
      [g.condition, g.target]))
    (he : e ∈ (g.turn site r.program.codeAddresses r.settings.allEdges 0 y).edges) :
    (∃ T ∈ r.turns (.ofRegisters l t) site g, e ∈ T.edges) ∨
      ∀ v : ValueAnalysis, v.program = r.program → ∀ o, v.step s e.stmt = .ok o → o = none := by
  rcases (mem_cases_ofRegisters.1 hcase).1.of_le hboolean hs hle with
    hlooks | ⟨f, u, hfault, hu, hne, hallows⟩
  · obtain ⟨y', hy'⟩ := (hs.of_le hle).exists_candidate (p := r.program) g.target
    exact Or.inl ⟨_, mem_turns.2 ⟨0, y', mem_cases_ofRegisters.2 ⟨hlooks, hy'⟩, rfl⟩, he⟩
  · right
    intro v hv o ho
    obtain hedge | ⟨hzero, -⟩ := Goto.mem_edges_turn.1 he
    · obtain ⟨-, next, -, rfl⟩ | ⟨hzero, -⟩ := Goto.certainEdge?_cases hedge
      · refine step_eq_none (fun u' hu' => ?_) ho
        rw [hv] at hu'
        exact Registers.eval_conditionIs_le_zero hs hle hfault hu hne hallows rfl hu'
      · exact absurd rfl hzero
    · exact absurd rfl hzero

include hboolean hs hle in
/-- Going to the target.  Both states resolve, so both know the target where it is needed. -/
theorem taken_of_le {c : Word} {y : Option Word} (hc : c ≠ 0)
    (hcase : (c, y) ∈ Goto.cases ((State.ofRegisters l s).projection r.program
      [g.condition, g.target]))
    (hcertain : (g.turn site r.program.codeAddresses r.settings.allEdges c y).isCertain = true)
    (habove : ∀ T ∈ r.turns (.ofRegisters l t) site g, T.isCertain = true)
    (he : e ∈ (g.turn site r.program.codeAddresses r.settings.allEdges c y).edges) :
    (∃ T ∈ r.turns (.ofRegisters l t) site g, e ∈ T.edges) ∨
      ∀ v : ValueAnalysis, v.program = r.program → ∀ o, v.step s e.stmt = .ok o → o = none := by
  obtain ⟨hlooks, hy⟩ := mem_cases_ofRegisters.1 hcase
  cases y with
  | none => exact absurd hcertain (by simp [Goto.isCertain_turn_none hc])
  | some w =>
      rcases hlooks.of_le hboolean hs hle with habove' | ⟨f, u, hfault, hu, hne, hallows⟩
      · -- An open target above would make a turn that is not certain.
        have hknown : none ∉ t.candidates r.program g.target := by
          intro hnone
          have hturn := habove _ (mem_turns.2 ⟨c, none,
            mem_cases_ofRegisters.2 ⟨habove', hnone⟩, rfl⟩)
          rw [Goto.isCertain_turn_none hc] at hturn
          exact absurd hturn (by decide)
        have hw := Registers.some_mem_candidates_of_le hs hle hy hknown
        exact Or.inl ⟨_, mem_turns.2 ⟨c, some w, mem_cases_ofRegisters.2 ⟨habove', hw⟩, rfl⟩, he⟩
      · right
        intro v hv o ho
        have htaken : g.certainEdge? site c (some w) = some (g.taken site c w) := if_neg hc
        rw [Goto.mem_edges_turn, htaken, or_iff_left (by simp), Option.some.injEq] at he
        subst he
        refine step_eq_none (fun u' hu' => ?_) ho
        rw [hv] at hu'
        exact Registers.eval_taken_le_zero hs hle hfault hu hne hallows rfl hu'

end

/-! ## All edges -/

/-- Every edge of a state is one of a larger state, or it leads nowhere, if both states resolve. -/
theorem mem_edges_of_le (hboolean : r.program.BooleanGotos) (hs : s.Possible)
    (hle : s.le t = true) (hn : n.state = .ofRegisters l s) (hm : m.state = .ofRegisters l t)
    (hes : (r.edges n).2 = .ok es) (hes' : (r.edges m).2 = .ok es')
    (hres : r.resolves n.state = true) (hres' : r.resolves m.state = true) (he : e ∈ es) :
    e ∈ es' ∨
      ∀ v : ValueAnalysis, v.program = r.program → ∀ o, v.step s e.stmt = .ok o → o = none := by
  have hnl : n.location = l := congrArg State.location hn
  have hml : m.location = l := congrArg State.location hm
  cases hsite : r.program.statement? l.label with
  | none =>
      -- Where no statement stands, there is no answer.
      rcases edges_cases r n with ⟨-, h⟩ | ⟨site, g, hsome, -⟩ | ⟨site, hsome, -⟩
      · rw [h] at hes
        exact absurd hes (by simp)
      · exact absurd (hsite.symm.trans (hnl ▸ hsome)) (by simp)
      · exact absurd (hsite.symm.trans (hnl ▸ hsome)) (by simp)
  | some site =>
      have hnsite : r.program.statement? n.location.label = some site := by rw [hnl, hsite]
      have hmsite : r.program.statement? m.location.label = some site := by rw [hml, hsite]
      cases hg : site.stmt.goto? with
      | none =>
          -- The edges of other statements do not depend on the state.
          rw [answer_of_straight hnsite hg] at hes
          rw [answer_of_straight hmsite hg] at hes'
          exact Or.inl (Except.ok.inj hes' ▸ Except.ok.inj hes ▸ he)
      | some g =>
          have hstmt := Stmt.eq_of_goto? hg
          have hcondition := hboolean.isBoolean hsite hstmt
          have habove : ∀ T ∈ r.turns (.ofRegisters l t) site g, T.isCertain = true := fun T hT =>
            isCertain_of_resolves hmsite hstmt hres' (hm ▸ hT)
          rcases (mem_answer_of_goto hnsite hstmt hes).1 he with hcall | ⟨T, hT, heT⟩
          · -- Nor does the edge over a whole call.
            exact Or.inl ((mem_answer_of_goto hmsite hstmt hes').2 (Or.inl hcall))
          · have hcertain := isCertain_of_resolves hnsite hstmt hres hT
            rw [hn] at hT
            obtain ⟨c, y, hcase, rfl⟩ := mem_turns.1 hT
            rw [mem_answer_of_goto hmsite hstmt hes', hm]
            by_cases hc : c = 0
            · subst hc
              exact (fallThrough_of_le hcondition hs hle hcase heT).imp_left Or.inr
            · exact (taken_of_le hcondition hs hle hc hcase hcertain habove heT).imp_left Or.inr

end Resolver

end CodeReach
