/-
  CodeReach.Proofs.Explore.BranchEdges

  The edges of one goto, beside one another.  They are made from several combinations of
  values, each by itself, and equal ones are handed out once.

  A certain edge belongs to the machine states in which condition and target have the
  values that it was made for.  So it leads these where they go, and no machine state can
  take two of them (`certain_edges_exact`).

  A goto that is spread over the code has one guess for each code address, however many
  combinations ask for it, and a machine state can take at most the one to the address
  that its target has (`spread_over_code`).
-/
import CodeReach.Proofs.Explore.Bookkeeping
import Mathlib.Data.List.Nodup

namespace CodeReach

namespace Goto

variable {g : Goto} {site : PlacedStmt}

theorem target_guessed_iff {a b : Word} :
    (g.guessed site a).target = .plain (Label.start b) ↔ a = b :=
  ⟨fun h => congrArg Label.address (Location.plain.inj h), fun h => by rw [h]; rfl⟩

theorem guessed_injective : Function.Injective (g.guessed site) := fun _ _ h =>
  target_guessed_iff.1 (congrArg Edge.target h)

end Goto

namespace Resolver

variable {r : Resolver} {n : Node} {site : PlacedStmt} {g : Goto} {es : List Edge} {e d : Edge}
  {ρ : RegFile} {μ : Memory}

/-! ## Certain edges -/

/-- A certain edge that admits something was made for one of the combinations looked at. -/
theorem exists_case_of_admits (hsite : r.program.statement? n.location.label = some site)
    (hg : site.stmt = .goto g) (hes : (r.edges n).2 = .ok es) (he : e ∈ es)
    (hkind : e.kind = .must) (hadmits : e.Admits ρ μ) :
    ∃ c y, (c, y) ∈ Goto.cases (n.state.projection r.program [g.condition, g.target]) ∧
      g.certainEdge? site c y = some e := by
  -- The edge over a whole call assumes nothing, and guesses are not certain.
  rcases (mem_answer_of_goto hsite hg hes).1 he with hcall | ⟨t, ht, het⟩
  · exact absurd hadmits (not_admits_of_mem_callReturnEdges hcall ρ μ)
  · obtain ⟨c, y, hcase, rfl⟩ := mem_turns.1 ht
    rcases Goto.mem_edges_turn.1 het with hcertain | ⟨-, -, -, a, -, rfl⟩
    · exact ⟨c, y, hcase, hcertain⟩
    · exact absurd hkind (by simp [Goto.guessed, Edge.may])

/-- Certain edges that admit the same machine state are the same. -/
theorem eq_of_admits {c c' : Word} {y y' : Option Word} (he : g.certainEdge? site c y = some e)
    (hd : g.certainEdge? site c' y' = some d) (headmits : e.Admits ρ μ) (hdadmits : d.Admits ρ μ) :
    e = d := by
  obtain ⟨rfl, hy⟩ := (Goto.admits_iff_of_certainEdge? he).1 headmits
  obtain ⟨rfl, hy'⟩ := (Goto.admits_iff_of_certainEdge? hd).1 hdadmits
  by_cases hc : g.condition.value ρ μ = 0
  · -- Falling through does not depend on the target.
    rw [Goto.certainEdge?, if_pos hc] at he hd
    exact Option.some.inj (he.symm.trans hd)
  · rw [hy hc] at he
    rw [hy' hc] at hd
    exact Option.some.inj (he.symm.trans hd)

/-- The certain edges of a goto are exact and disjoint.  Every machine state that one of them
    admits, described or not, goes to the label where the edge leads, and no machine state is
    admitted by two of them.  None is missing either: each combination of values that was looked
    at and says where to go has its edge, which admits exactly the machine states with these
    values. -/
theorem certain_edges_exact (hsite : r.program.statement? n.location.label = some site)
    (hg : site.stmt = .goto g) (hes : (r.edges n).2 = .ok es) :
    (∀ e ∈ es, e.kind = .must → ∀ ρ μ, e.Admits ρ μ →
      ∃ l, g.successor? site.next ρ μ = some l ∧ e.target = .plain l) ∧
    (∀ e ∈ es, ∀ d ∈ es, e.kind = .must → d.kind = .must → e ≠ d →
      ∀ ρ μ, ¬ (e.Admits ρ μ ∧ d.Admits ρ μ)) ∧
    ∀ c y l, (c, y) ∈ Goto.cases (n.state.projection r.program [g.condition, g.target]) →
      Goto.destination? site.next c y = some l →
      ∃ e ∈ es, e.kind = .must ∧ e.target = .plain l ∧ ∀ ρ μ, e.Admits ρ μ ↔
        g.condition.value ρ μ = c ∧ (c ≠ 0 → y = some (g.target.value ρ μ)) := by
  refine ⟨fun e he hkind ρ μ hadmits => ?_, fun e he d hd hekind hdkind hne ρ μ hboth => ?_,
    fun c y l hcase hl => ?_⟩
  · obtain ⟨c, y, -, hcertain⟩ := exists_case_of_admits hsite hg hes he hkind hadmits
    obtain ⟨hc, hy⟩ := (Goto.admits_iff_of_certainEdge? hcertain).1 hadmits
    have htarget := g.map_target_certainEdge? site c y
    rw [hcertain, Goto.destination?_of_values hc hy] at htarget
    obtain ⟨l, hl, hel⟩ := Option.map_eq_some_iff.1 htarget.symm
    exact ⟨l, hl, hel.symm⟩
  · obtain ⟨c, y, -, hce⟩ := exists_case_of_admits hsite hg hes he hekind hboth.1
    obtain ⟨c', y', -, hcd⟩ := exists_case_of_admits hsite hg hes hd hdkind hboth.2
    exact hne (eq_of_admits hce hcd hboth.1 hboth.2)
  · have htarget := g.map_target_certainEdge? site c y
    rw [hl] at htarget
    obtain ⟨e, hcertain, hel⟩ := Option.map_eq_some_iff.1 htarget
    have het : e ∈ (g.turn site r.program.codeAddresses r.settings.allEdges c y).edges :=
      Goto.mem_edges_turn.2 (Or.inl hcertain)
    have he : e ∈ es :=
      (mem_answer_of_goto hsite hg hes).2 (Or.inr ⟨_, mem_turns.2 ⟨c, y, hcase, rfl⟩, het⟩)
    exact ⟨e, he, Goto.kind_of_certainEdge? hcertain, hel,
      fun ρ μ => Goto.admits_iff_of_certainEdge? hcertain⟩

/-- A resolver for the conditional call `if r1 call r2`, with a halt behind it. -/
def conditionalCall (settings : Settings) : Resolver :=
  .fresh (.assemble 0x1000 [.instruction 0x1000 4 "call" [.goto ⟨.call, .reg 1, .reg 2⟩],
    .instruction 0x1004 4 "halt" [.halt]]) settings

/-- The state at that call in which condition and target can have the given values. -/
def atConditionalCall (condition target : ValueSet) : Node :=
  ⟨0, .plain (Label.start 0x1000),
    [.values ((Registers.unknown.set 1 condition).set 2 target)]⟩

/-- With two values for each register there are the edge over the call, the edge that does not call,
    which is the same for both targets, and one that calls each target.  The edges to the halt that
    call it and that do not are different, and no machine state can take both. -/
theorem certain_edges_exact_conditionalCall :
    ∃ es, ((conditionalCall {}).edges
        (atConditionalCall (.ofList [0, 5]) (.ofList [0x1000, 0x1004]))).2 = .ok es ∧
      es.length = 4 ∧
      (∀ e ∈ es, e.kind = .must → ∀ ρ μ, e.Admits ρ μ →
        ∃ l, Goto.successor? ⟨.call, .reg 1, .reg 2⟩ (some (Label.start 0x1004)) ρ μ = some l ∧
          e.target = .plain l) ∧
      (∀ e ∈ es, ∀ d ∈ es, e.kind = .must → d.kind = .must → e ≠ d →
        ∀ ρ μ, ¬ (e.Admits ρ μ ∧ d.Admits ρ μ)) ∧
      ∃ e ∈ es, e.target = .plain (Label.start 0x1004) ∧
        ∀ ρ μ, e.Admits ρ μ ↔ ρ 1 = 5 ∧ ρ 2 = 0x1004 := by
  refine ⟨_, rfl, by decide, ?_⟩
  obtain ⟨hleads, hdisjoint, hcases⟩ := certain_edges_exact (r := conditionalCall {})
    (n := atConditionalCall (.ofList [0, 5]) (.ofList [0x1000, 0x1004]))
    (g := ⟨.call, .reg 1, .reg 2⟩) rfl rfl rfl
  obtain ⟨e, he, -, htarget, hadmits⟩ := hcases 5 (some 0x1004) (Label.start 0x1004)
    (by decide) rfl
  refine ⟨hleads, hdisjoint, e, he, htarget, fun ρ μ => (hadmits ρ μ).trans ?_⟩
  simp [Expr.value, eq_comm]

/-! ## Guesses -/

/-- A combination with an unknown target that is needed is looked at. -/
theorem exists_open_case {pairs : List Valuation} {x : Option Word} (hx : x ≠ some 0)
    (hpair : [x, none] ∈ pairs) : ∃ c, c ≠ 0 ∧ (c, none) ∈ Goto.cases pairs := by
  cases x with
  | none => exact ⟨1, by decide, Goto.mem_cases.2 ⟨_, hpair, rfl, Or.inr ⟨rfl, Or.inr rfl⟩⟩⟩
  | some c =>
      exact ⟨c, fun hc => hx (congrArg some hc), Goto.mem_cases.2 ⟨_, hpair, rfl, Or.inl rfl⟩⟩

/-- Where unknown targets are followed everywhere, every goto has an answer. -/
theorem exists_answer_of_allEdges (hsite : r.program.statement? n.location.label = some site)
    (hg : site.stmt = .goto g) (hall : r.settings.allEdges = true) :
    ∃ es, (r.edges n).2 = .ok es := by
  rw [answer_of_goto hsite hg, if_neg]
  · exact ⟨_, rfl⟩
  · rintro ⟨hlost, -⟩
    obtain ⟨c, y, -, hturn⟩ := mem_turns.1 hlost
    rcases g.turn_cases site r.program.codeAddresses r.settings.allEdges c y with
      h | ⟨-, -, ⟨-, h⟩ | ⟨hmode, -⟩⟩
    · exact absurd (hturn.trans h) (by simp)
    · exact absurd (hturn.trans h) (by simp)
    · rw [hall] at hmode
      contradiction

/-- If some combination asks for it, the guesses are those of all code addresses. -/
theorem mem_guesses_iff (hsite : r.program.statement? n.location.label = some site)
    (hg : site.stmt = .goto g) (hes : (r.edges n).2 = .ok es)
    (hall : r.settings.allEdges = true) {c : Word} (hc : c ≠ 0)
    (hcase : (c, none) ∈ Goto.cases (n.state.projection r.program [g.condition, g.target])) :
    e ∈ es ∧ e.kind = .may ↔ ∃ a ∈ r.program.codeAddresses, g.guessed site a = e := by
  constructor
  · rintro ⟨he, hkind⟩
    rcases (mem_answer_of_goto hsite hg hes).1 he with hcall | ⟨t, ht, het⟩
    · rw [kind_of_mem_callReturnEdges hcall] at hkind
      contradiction
    · obtain ⟨c', y, -, rfl⟩ := mem_turns.1 ht
      -- A guess does not depend on the combination that asked for it.
      rcases Goto.mem_edges_turn.1 het with hcertain | ⟨-, -, -, hguess⟩
      · rw [Goto.kind_of_certainEdge? hcertain] at hkind
        contradiction
      · exact hguess
  · rintro ⟨a, ha, rfl⟩
    refine ⟨(mem_answer_of_goto hsite hg hes).2 (Or.inr ?_), rfl⟩
    exact ⟨_, mem_turns.2 ⟨c, none, hcase, rfl⟩,
      Goto.mem_edges_turn.2 (Or.inr ⟨hc, rfl, hall, a, ha, rfl⟩)⟩

theorem nodup_answer_of_goto (hsite : r.program.statement? n.location.label = some site)
    (hg : site.stmt = .goto g) (hes : (r.edges n).2 = .ok es) : es.Nodup := by
  rw [answer_of_goto hsite hg] at hes
  split at hes
  · exact absurd hes (by simp)
  · rw [← Except.ok.inj hes]
    exact nodup_eraseDups _

/-- A goto whose target is needed and unknown is spread over the code, if unknown targets are
    followed everywhere.  There is an answer, and the flag is down.  The answer has one guess for
    each code address, from the goto to the start of the instruction there, and no other guess.  A
    machine state whose target is a code address is admitted by the guess for this address alone. -/
theorem spread_over_code {entry : Word} {items : List Item} {x : Option Word}
    (hprogram : r.program = .assemble entry items) (hall : r.settings.allEdges = true)
    (hsite : r.program.statement? n.location.label = some site) (hg : site.stmt = .goto g)
    (hpair : [x, none] ∈ n.state.projection r.program [g.condition, g.target])
    (hx : x ≠ some 0) :
    (r.edges n).1.sound = false ∧ ∃ es, (r.edges n).2 = .ok es ∧
      (es.filter (·.kind = .may)).length = r.program.instructions.size ∧
      (∀ e ∈ es, e.kind = .may → e.source = .plain n.location.label ∧
        ∃ a, r.program.isCode a = true ∧ e.target = .plain (Label.start a)) ∧
      (∀ a, r.program.isCode a = true →
        ∃! e, e ∈ es ∧ e.kind = .may ∧ e.target = .plain (Label.start a)) ∧
      ∀ ρ μ, r.program.isCode (g.target.value ρ μ) = true →
        ∃ e ∈ es, e.kind = .may ∧ e.target = .plain (Label.start (g.target.value ρ μ)) ∧
          e.Admits ρ μ ∧ ∀ d ∈ es, d.kind = .may → d.Admits ρ μ → d = e := by
  obtain ⟨c, hc, hcase⟩ := exists_open_case hx hpair
  obtain ⟨es, hes⟩ := exists_answer_of_allEdges hsite hg hall
  have hlabel : site.label = n.location.label := by
    rw [hprogram] at hsite
    exact Program.placed_assemble entry items _ _ hsite
  have hguess : ∀ e, e ∈ es ∧ e.kind = .may ↔
      ∃ a, r.program.isCode a = true ∧ g.guessed site a = e := fun e => by
    simp only [← Program.mem_codeAddresses]
    exact mem_guesses_iff hsite hg hes hall hc hcase
  refine ⟨?_, es, hes, ?_, fun e he hkind => ?_, fun a ha => ?_, fun ρ μ ha => ?_⟩
  · -- The turn that asks for the guesses is not certain.
    rw [sound_edges, Bool.and_eq_false_iff]
    right
    rw [Bool.eq_false_iff]
    intro hres
    have hcertain := isCertain_of_resolves hsite hg hres (mem_turns.2 ⟨c, none, hcase, rfl⟩)
    rw [Goto.isCertain_turn_none hc] at hcertain
    exact absurd hcertain (by decide)
  · -- Neither the answer nor the list of addresses has duplicates, so their members decide.
    have hperm :
        (es.filter (·.kind = .may)).Perm (r.program.codeAddresses.map (g.guessed site)) := by
      refine (List.perm_ext_iff_of_nodup ((nodup_answer_of_goto hsite hg hes).filter _)
        (List.Nodup.map Goto.guessed_injective Std.TreeMap.nodup_keys)).2 fun e => ?_
      rw [List.mem_filter, decide_eq_true_eq, List.mem_map]
      exact mem_guesses_iff hsite hg hes hall hc hcase
    rw [hperm.length_eq, List.length_map]
    exact Std.TreeMap.length_keys
  · obtain ⟨a, ha, rfl⟩ := (hguess e).1 ⟨he, hkind⟩
    exact ⟨congrArg Location.plain hlabel, a, ha, rfl⟩
  · obtain ⟨he, hkind⟩ := (hguess _).2 ⟨a, ha, rfl⟩
    refine ⟨_, ⟨he, hkind, rfl⟩, ?_⟩
    rintro d ⟨hd, hdkind, htarget⟩
    obtain ⟨b, -, rfl⟩ := (hguess d).1 ⟨hd, hdkind⟩
    rw [Goto.target_guessed_iff.1 htarget]
  · obtain ⟨he, hkind⟩ := (hguess _).2 ⟨_, ha, rfl⟩
    refine ⟨_, he, hkind, rfl, Goto.admits_guessed_iff.2 rfl, fun d hd hdkind hadmits => ?_⟩
    obtain ⟨b, -, rfl⟩ := (hguess d).1 ⟨hd, hdkind⟩
    rw [Goto.admits_guessed_iff.1 hadmits]

/-- The condition can be one or two here, so two combinations ask for the guesses.  There is still
    one for each of the two instructions, beside the edge over the call, and the machine states that
    call the halt are admitted by one of them. -/
theorem spread_over_code_conditionalCall :
    let q := (conditionalCall { allEdges := true }).edges
      (atConditionalCall (.ofList [1, 2]) .unknown)
    q.1.sound = false ∧ ∃ es, q.2 = .ok es ∧ es.length = 3 ∧
      (es.filter (·.kind = .may)).length = 2 ∧
      ∀ ρ μ, ρ 2 = 0x1004 → ∃ e ∈ es, e.kind = .may ∧ e.target = .plain (Label.start 0x1004) ∧
        e.Admits ρ μ ∧ ∀ d ∈ es, d.kind = .may → d.Admits ρ μ → d = e := by
  intro q
  obtain ⟨hsound, es, hes, hcount, -, -, hadmits⟩ := spread_over_code
    (r := conditionalCall { allEdges := true })
    (n := atConditionalCall (.ofList [1, 2]) .unknown) (g := ⟨.call, .reg 1, .reg 2⟩)
    (x := some 2) rfl rfl rfl rfl (by decide) (by decide)
  refine ⟨hsound, es, hes, ?_, hcount, fun ρ μ h => ?_⟩
  · obtain rfl := Except.ok.inj hes
    decide
  · have hcode := hadmits ρ μ
    simp only [Expr.value, h] at hcode
    exact hcode (by decide)

end Resolver

end CodeReach
