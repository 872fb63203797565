/-
  CodeReach.Proofs.Explore.Resolver

  The edges that a resolver hands out, compared with where a goto leads in a machine
  state.

  An answer depends on the program, the settings and the state that is asked about,
  not on what was asked before (`answer_congr`); the resolver stays sound exactly as
  long as every goto it is asked about is resolved (`sound_edges`).

  A goto whose targets are all known has an edge for a described machine state
  exactly if the value of its condition was among those looked at: because a
  component knows the condition's values, or because the value is zero or one
  (`exists_admitting_edge_iff`).  The other values of an unknown condition are never
  looked at, and executions in which the condition has one of them are lost without
  a note (`unknown_condition_loses_branch`).
-/
import CodeReach.Code.Assemble
import CodeReach.Explore.Resolver
import CodeReach.Proofs.Domain.Projection

namespace CodeReach

/-- Where control goes from a goto: to the target if the condition is nonzero, else to the label
    after the goto. -/
def Goto.successor? (g : Goto) (next : Option Label) (ρ : RegFile) (μ : Memory) : Option Label :=
  if g.condition.value ρ μ = 0 then next else some (Label.start (g.target.value ρ μ))

/-- The edge is an assumption that holds in the machine state. -/
def Edge.Admits (e : Edge) (ρ : RegFile) (μ : Memory) : Prop :=
  ∃ assumption origin, e.stmt = .assume assumption origin ∧ assumption.value ρ μ ≠ 0

theorem Edge.admits_iff {e : Edge} {assumption : Expr} {origin : Option Branch} {ρ : RegFile}
    {μ : Memory} (h : e.stmt = .assume assumption origin) :
    e.Admits ρ μ ↔ assumption.value ρ μ ≠ 0 := by
  constructor
  · rintro ⟨a, o, ha, hne⟩
    obtain ⟨rfl, rfl⟩ := Stmt.assume.inj (h.symm.trans ha)
    exact hne
  · exact fun hne => ⟨assumption, origin, h, hne⟩

theorem Stmt.eq_of_goto? {s : Stmt} {g : Goto} (h : s.goto? = some g) : s = .goto g := by
  cases s with
  | goto g' => rw [Option.some.inj h]
  | _ => exact absurd h (by simp [goto?])

namespace Goto

variable {g : Goto} {site : PlacedStmt} {ρ : RegFile} {μ : Memory} {c : Word} {y : Option Word}
  {e : Edge}

/-! ## One combination of values -/

/-- The combinations that are looked at: the listed values of the condition, or zero and one where
    it is open. -/
theorem mem_cases {pairs : List Valuation} :
    (c, y) ∈ cases pairs ↔ ∃ pair ∈ pairs, y = pair[1]?.join ∧
      (pair[0]?.join = some c ∨ pair[0]?.join = none ∧ (c = 0 ∨ c = 1)) := by
  rw [cases, List.mem_flatMap]
  refine exists_congr fun pair => and_congr_right fun _ => ?_
  cases pair[0]?.join with
  | none => simp only [List.mem_cons, List.not_mem_nil, Prod.mk.injEq]; grind
  | some w => simp only [List.mem_cons, List.not_mem_nil, Prod.mk.injEq]; grind

/-- Where control goes if the condition has the value `c` and the target the value `y`, if that is
    known or not needed. -/
def destination? (next : Option Label) (c : Word) (y : Option Word) : Option Label :=
  if c = 0 then next else y.map Label.start

/-- The edge to the label after the goto. -/
def fallThrough (g : Goto) (site : PlacedStmt) (next : Label) : Edge :=
  .must site.label next (.assume (g.conditionIs 0).simplify none)

/-- The edge to a target that is known. -/
def taken (g : Goto) (site : PlacedStmt) (c t : Word) : Edge :=
  .must site.label (Label.start t) (.assume
    (Expr.mkBinary .logicalAnd (g.conditionIs c) (g.targetIs t)).simplify
    (some ⟨g.kind, site.next⟩))

/-- The edge to a code address that an unknown target may be. -/
def guessed (g : Goto) (site : PlacedStmt) (a : Word) : Edge :=
  .may site.label (Label.start a) (.assume (g.targetIs a) (some ⟨g.kind, site.next⟩))

/-- The edge for one combination of values, if they say where it leads. -/
def certainEdge? (g : Goto) (site : PlacedStmt) (c : Word) (y : Option Word) : Option Edge :=
  if c = 0 then site.next.map (g.fallThrough site) else y.map (g.taken site c)

/-- What a combination of values comes to.  With a target that is known or not needed there is at
    most one edge; else the goto is spread over the code or lost, as the mode has it. -/
theorem turn_cases (g : Goto) (site : PlacedStmt) (addresses : List Word) (allEdges : Bool)
    (c : Word) (y : Option Word) :
    g.turn site addresses allEdges c y = .certain (g.certainEdge? site c y).toList ∨
    c ≠ 0 ∧ y = none ∧
      (allEdges = true ∧ g.turn site addresses allEdges c y =
          .spread (addresses.map (g.guessed site)) ∨
        allEdges = false ∧ g.turn site addresses allEdges c y = .lost) := by
  unfold turn certainEdge?
  by_cases hc : c = 0
  · left
    rw [if_pos hc, if_pos hc]
    cases site.next <;> rfl
  · rw [if_neg hc, if_neg hc]
    cases y with
    | some t => exact Or.inl rfl
    | none =>
        refine Or.inr ⟨hc, rfl, ?_⟩
        cases allEdges with
        | true => exact Or.inl ⟨rfl, rfl⟩
        | false => exact Or.inr ⟨rfl, rfl⟩

theorem certainEdge?_cases (h : g.certainEdge? site c y = some e) :
    (c = 0 ∧ ∃ next, site.next = some next ∧ e = g.fallThrough site next) ∨
      (c ≠ 0 ∧ ∃ t, y = some t ∧ e = g.taken site c t) := by
  unfold certainEdge? at h
  split at h
  · rename_i hc
    obtain ⟨next, hnext, rfl⟩ := Option.map_eq_some_iff.1 h
    exact Or.inl ⟨hc, next, hnext, rfl⟩
  · rename_i hc
    obtain ⟨t, ht, rfl⟩ := Option.map_eq_some_iff.1 h
    exact Or.inr ⟨hc, t, ht, rfl⟩

theorem kind_of_certainEdge? (h : g.certainEdge? site c y = some e) : e.kind = .must := by
  rcases certainEdge?_cases h with ⟨-, next, -, rfl⟩ | ⟨-, t, -, rfl⟩ <;> rfl

/-- A turn that needs an unknown target is not certain. -/
theorem isCertain_turn_none {addresses : List Word} {allEdges : Bool} (hc : c ≠ 0) :
    (g.turn site addresses allEdges c none).isCertain = false := by
  unfold turn
  rw [if_neg hc]
  cases allEdges <;> rfl

/-- The edges of a combination of values. -/
theorem mem_edges_turn {addresses : List Word} {allEdges : Bool} :
    e ∈ (g.turn site addresses allEdges c y).edges ↔ g.certainEdge? site c y = some e ∨
      c ≠ 0 ∧ y = none ∧ allEdges = true ∧ ∃ a ∈ addresses, g.guessed site a = e := by
  rcases g.turn_cases site addresses allEdges c y with h | ⟨hc, rfl, hmode⟩
  · -- A certain turn is not one of those that need an unknown target.
    rw [h, Turn.edges, Option.mem_toList, or_iff_left]
    rintro ⟨hc, rfl, -⟩
    have hcertain : (g.turn site addresses allEdges c none).isCertain = false :=
      isCertain_turn_none hc
    rw [h] at hcertain
    exact absurd hcertain (by simp [Turn.isCertain])
  · have hnone : g.certainEdge? site c none = none := if_neg hc
    rw [hnone, or_iff_right (by simp), and_iff_right hc, and_iff_right rfl]
    rcases hmode with ⟨rfl, h⟩ | ⟨rfl, h⟩
    · rw [h, Turn.edges, List.mem_map, and_iff_right rfl]
    · rw [h, Turn.edges]
      simp

/-! ## What the edges admit -/

theorem admits_fallThrough_iff {next : Label} :
    (g.fallThrough site next).Admits ρ μ ↔ g.condition.value ρ μ = 0 := by
  rw [Edge.admits_iff rfl, Expr.value_simplify]
  exact Expr.value_mkEq_imm_ne_zero

theorem admits_taken_iff {t : Word} : (g.taken site c t).Admits ρ μ ↔
    g.condition.value ρ μ = c ∧ g.target.value ρ μ = t := by
  rw [Edge.admits_iff rfl, Expr.value_simplify, Expr.value_mkLogicalAnd_ne_zero]
  exact and_congr Expr.value_mkEq_imm_ne_zero Expr.value_mkEq_imm_ne_zero

theorem admits_guessed_iff {a : Word} :
    (g.guessed site a).Admits ρ μ ↔ g.target.value ρ μ = a := by
  rw [Edge.admits_iff rfl]
  exact Expr.value_mkEq_imm_ne_zero

/-- A certain edge admits exactly the machine states in which the condition and, where it is needed,
    the target have the values that the edge was made for. -/
theorem admits_iff_of_certainEdge? (h : g.certainEdge? site c y = some e) : e.Admits ρ μ ↔
    g.condition.value ρ μ = c ∧ (c ≠ 0 → y = some (g.target.value ρ μ)) := by
  rcases certainEdge?_cases h with ⟨rfl, next, -, rfl⟩ | ⟨hc, t, rfl, rfl⟩
  · rw [admits_fallThrough_iff]
    simp
  · rw [admits_taken_iff, Option.some.injEq, forall_prop_of_true hc, eq_comm (a := t)]

/-- A certain edge leads where its values say. -/
theorem map_target_certainEdge? (g : Goto) (site : PlacedStmt) (c : Word) (y : Option Word) :
    (g.certainEdge? site c y).map Edge.target =
      (destination? site.next c y).map Location.plain := by
  unfold certainEdge? destination?
  split
  · cases site.next <;> rfl
  · cases y <;> rfl

/-- The values that condition and target have in a machine state say where its successor is. -/
theorem destination?_of_values {next : Option Label} (hc : g.condition.value ρ μ = c)
    (hy : c ≠ 0 → y = some (g.target.value ρ μ)) :
    destination? next c y = g.successor? next ρ μ := by
  unfold destination? successor?
  rw [hc]
  split
  · rfl
  · rename_i hne
    rw [hy hne]
    rfl

/-- A certain turn leads a machine state to its successor exactly if it was made for the values that
    the condition and, where it is needed, the target have there. -/
theorem exists_admitting_turn_iff {addresses : List Word} {allEdges : Bool} {l : Label}
    (hl : g.successor? site.next ρ μ = some l)
    (hcertain : (g.turn site addresses allEdges c y).isCertain = true) :
    (∃ e ∈ (g.turn site addresses allEdges c y).edges, e.target = .plain l ∧ e.Admits ρ μ) ↔
      g.condition.value ρ μ = c ∧ (c ≠ 0 → y = some (g.target.value ρ μ)) := by
  have hedges : ∀ e, e ∈ (g.turn site addresses allEdges c y).edges ↔
      g.certainEdge? site c y = some e := by
    intro e
    rw [mem_edges_turn, or_iff_left]
    rintro ⟨hc, rfl, -⟩
    rw [isCertain_turn_none hc] at hcertain
    exact absurd hcertain (by decide)
  simp only [hedges]
  constructor
  · rintro ⟨e, he, -, hadmits⟩
    exact (admits_iff_of_certainEdge? he).1 hadmits
  · rintro ⟨hc, hy⟩
    have htarget := g.map_target_certainEdge? site c y
    rw [destination?_of_values hc hy, hl] at htarget
    obtain ⟨e, he, hel⟩ := Option.map_eq_some_iff.1 htarget
    exact ⟨e, he, hel, (admits_iff_of_certainEdge? he).2 ⟨hc, hy⟩⟩

end Goto

namespace Resolver

variable {r q : Resolver} {n : Node} {site : PlacedStmt} {g : Goto} {es : List Edge}

/-! ## What an answer depends on -/

/-- Every goto target at the state is known or not needed. -/
def resolves (r : Resolver) (s : State) : Bool :=
  match r.program.statement? s.location.label with
  | none => true
  | some site =>
    match site.stmt.goto? with
    | none => true
    | some g => (r.turns s site g).all Turn.isCertain

/-- The three things that can stand at the label of a node: nothing, a goto, or another
    statement. -/
theorem edges_cases (r : Resolver) (n : Node) :
    (r.program.statement? n.location.label = none ∧ r.edges n =
      (r, .error ⟨.fault (.missingStatement n.location.label), none⟩)) ∨
    (∃ site g, r.program.statement? n.location.label = some site ∧ site.stmt.goto? = some g ∧
      r.edges n =
        { r with discovered := r.discovered.insert n.location.label.address }.resolveGoto
          n site g) ∨
    (∃ site, r.program.statement? n.location.label = some site ∧ site.stmt.goto? = none ∧
      r.edges n =
        ({ r with discovered := r.discovered.insert n.location.label.address }.record
          site.straightEdges, .ok site.straightEdges)) := by
  unfold edges
  dsimp only
  cases hsite : r.program.statement? n.location.label with
  | none => exact Or.inl ⟨rfl, rfl⟩
  | some site =>
      dsimp only
      cases hg : site.stmt.goto? with
      | none => exact Or.inr (Or.inr ⟨site, rfl, hg, rfl⟩)
      | some g => exact Or.inr (Or.inl ⟨site, g, rfl, hg, rfl⟩)

/-- Resolving a goto keeps the program and the settings, and notes whether all turns are
    certain. -/
theorem resolveGoto_fst (r : Resolver) (n : Node) (site : PlacedStmt) (g : Goto) :
    (r.resolveGoto n site g).1.program = r.program ∧
      (r.resolveGoto n site g).1.settings = r.settings ∧
      (r.resolveGoto n site g).1.sound =
        (r.sound && (r.turns n.state site g).all Turn.isCertain) := by
  unfold resolveGoto
  dsimp only
  split <;> exact ⟨rfl, rfl, rfl⟩

@[simp] theorem program_edges (r : Resolver) (n : Node) : (r.edges n).1.program = r.program := by
  rcases edges_cases r n with ⟨-, h⟩ | ⟨site, g, -, -, h⟩ | ⟨site, -, -, h⟩
  · rw [h]
  · rw [h]
    exact (resolveGoto_fst _ n site g).1
  · rw [h]
    rfl

@[simp] theorem settings_edges (r : Resolver) (n : Node) :
    (r.edges n).1.settings = r.settings := by
  rcases edges_cases r n with ⟨-, h⟩ | ⟨site, g, -, -, h⟩ | ⟨site, -, -, h⟩
  · rw [h]
  · rw [h]
    exact (resolveGoto_fst _ n site g).2.1
  · rw [h]
    rfl

/-- The resolver stays sound exactly if the state it is asked about resolves. -/
theorem sound_edges (r : Resolver) (n : Node) :
    (r.edges n).1.sound = (r.sound && r.resolves n.state) := by
  unfold resolves
  change _ = (r.sound && match r.program.statement? n.location.label with
    | none => true
    | some site =>
      match site.stmt.goto? with
      | none => true
      | some g => (r.turns n.state site g).all Turn.isCertain)
  rcases edges_cases r n with ⟨hsite, h⟩ | ⟨site, g, hsite, hg, h⟩ | ⟨site, hsite, hg, h⟩
  · rw [h, hsite, Bool.and_true]
  · rw [h, hsite]
    dsimp only
    rw [hg]
    exact (resolveGoto_fst _ n site g).2.2
  · rw [h, hsite]
    dsimp only
    rw [hg, Bool.and_true]
    rfl

/-- The answer about a goto depends on the program and the settings only. -/
theorem resolveGoto_snd_congr (hp : r.program = q.program) (hs : r.settings = q.settings)
    (n : Node) (site : PlacedStmt) (g : Goto) :
    (r.resolveGoto n site g).2 = (q.resolveGoto n site g).2 := by
  unfold resolveGoto turns callReturnEdges
  dsimp only
  rw [hp, hs]
  split <;> rfl

/-- Answers do not depend on what was asked before. -/
theorem answer_congr (hp : r.program = q.program) (hs : r.settings = q.settings) (n : Node) :
    (r.edges n).2 = (q.edges n).2 := by
  unfold edges
  dsimp only
  rw [hp]
  split
  · rfl
  · split
    · apply resolveGoto_snd_congr
      · exact rfl
      · exact hs
    · rfl

theorem resolves_congr (hp : r.program = q.program) (hs : r.settings = q.settings) (s : State) :
    r.resolves s = q.resolves s := by
  simp only [resolves, turns, hp, hs]

/-- The graph grows by the edges of the answer; where there is none it stays as it is. -/
theorem graph_edges (r : Resolver) (n : Node) :
    (r.edges n).1.graph = r.graph.insertAll ((r.edges n).2.toOption.getD []) := by
  rcases edges_cases r n with ⟨-, h⟩ | ⟨site, g, -, -, h⟩ | ⟨site, -, -, h⟩
  · rw [h]
    rfl
  · rw [h]
    unfold resolveGoto
    dsimp only
    split
    · rfl
    · rfl
  · rw [h]
    rfl

/-! ## The edges of a statement -/

/-- A statement that is no goto has the edge to the label after it. -/
theorem answer_of_straight (hsite : r.program.statement? n.location.label = some site)
    (hg : site.stmt.goto? = none) : (r.edges n).2 = .ok site.straightEdges := by
  unfold edges
  dsimp only
  rw [hsite]
  dsimp only
  rw [hg]

/-- A goto has the edges of its turns, beside the edge over a whole call, each of them once.  In
    debug mode a lost turn is a failure. -/
theorem answer_of_goto (hsite : r.program.statement? n.location.label = some site)
    (hg : site.stmt = .goto g) : (r.edges n).2 =
      if .lost ∈ r.turns n.state site g ∧ r.settings.debug = true then
        .error ⟨.unresolved site.label, some n⟩
      else .ok (r.callReturnEdges site g ++
        (r.turns n.state site g).flatMap Turn.edges).eraseDups := by
  unfold edges resolveGoto
  dsimp only
  rw [hsite]
  dsimp only
  rw [hg]
  dsimp only [Stmt.goto?]
  simp only [Bool.and_eq_true, List.contains_iff_mem]
  split
  · rename_i hfail
    exact (if_pos hfail).symm
  · rename_i htold
    exact (if_neg htold).symm

theorem mem_answer_of_goto (hsite : r.program.statement? n.location.label = some site)
    (hg : site.stmt = .goto g) (hes : (r.edges n).2 = .ok es) {e : Edge} :
    e ∈ es ↔ e ∈ r.callReturnEdges site g ∨ ∃ t ∈ r.turns n.state site g, e ∈ t.edges := by
  rw [answer_of_goto hsite hg] at hes
  split at hes
  · exact absurd hes (by simp)
  · rw [← Except.ok.inj hes, List.mem_eraseDups, List.mem_append, List.mem_flatMap]

/-- The edge over a whole call is no assumption. -/
theorem not_admits_of_mem_callReturnEdges {e : Edge} (h : e ∈ r.callReturnEdges site g)
    (ρ : RegFile) (μ : Memory) : ¬ e.Admits ρ μ := by
  rintro ⟨a, o, ha, -⟩
  unfold callReturnEdges at h
  split at h
  · obtain ⟨l, -, rfl⟩ := Option.map_eq_some_iff.1 (Option.mem_toList.1 h)
    exact absurd ha (by simp [Edge.must])
  · exact absurd h List.not_mem_nil

/-! ## Gotos -/

/-- The turns of a goto are those of the combinations looked at. -/
theorem mem_turns {s : State} {t : Turn} :
    t ∈ r.turns s site g ↔
      ∃ c y, (c, y) ∈ Goto.cases (s.projection r.program [g.condition, g.target]) ∧
        t = g.turn site r.program.codeAddresses r.settings.allEdges c y := by
  rw [turns, List.mem_map]
  constructor
  · rintro ⟨⟨c, y⟩, hcy, rfl⟩
    exact ⟨c, y, hcy, rfl⟩
  · rintro ⟨c, y, hcy, rfl⟩
    exact ⟨(c, y), hcy, rfl⟩

/-- If a goto resolves, all of its turns are certain. -/
theorem isCertain_of_resolves (hsite : r.program.statement? n.location.label = some site)
    (hg : site.stmt = .goto g) (hres : r.resolves n.state = true) {t : Turn}
    (ht : t ∈ r.turns n.state site g) : t.isCertain = true := by
  unfold resolves at hres
  have hsite' : r.program.statement? n.state.location.label = some site := hsite
  rw [hsite'] at hres
  dsimp only at hres
  rw [hg] at hres
  exact List.all_eq_true.1 hres t ht

variable {ρ : RegFile} {μ : Memory} {l : Label}

/-- A resolved goto has an edge for a machine state exactly if the values that condition and, where
    it is needed, target have there were looked at. -/
theorem exists_admitting_edge_iff_case
    (hsite : r.program.statement? n.location.label = some site) (hg : site.stmt = .goto g)
    (hes : (r.edges n).2 = .ok es) (hres : r.resolves n.state = true)
    (hl : g.successor? site.next ρ μ = some l) :
    (∃ e ∈ es, e.target = .plain l ∧ e.Admits ρ μ) ↔
      ∃ y, (g.condition.value ρ μ, y) ∈
          Goto.cases (n.state.projection r.program [g.condition, g.target]) ∧
        (g.condition.value ρ μ ≠ 0 → y = some (g.target.value ρ μ)) := by
  constructor
  · rintro ⟨e, he, htarget, hadmits⟩
    rcases (mem_answer_of_goto hsite hg hes).1 he with hcall | ⟨t, ht, het⟩
    · exact absurd hadmits (not_admits_of_mem_callReturnEdges hcall ρ μ)
    · have hcertain := isCertain_of_resolves hsite hg hres ht
      obtain ⟨c, y, hcy, rfl⟩ := mem_turns.1 ht
      obtain ⟨rfl, hy⟩ :=
        (Goto.exists_admitting_turn_iff hl hcertain).1 ⟨e, het, htarget, hadmits⟩
      exact ⟨y, hcy, hy⟩
  · rintro ⟨y, hcy, hy⟩
    have ht : _ ∈ r.turns n.state site g := mem_turns.2 ⟨_, y, hcy, rfl⟩
    have hcertain := isCertain_of_resolves hsite hg hres ht
    obtain ⟨e, het, htarget, hadmits⟩ :=
      (Goto.exists_admitting_turn_iff hl hcertain).2 ⟨rfl, hy⟩
    exact ⟨e, (mem_answer_of_goto hsite hg hes).2 (Or.inr ⟨_, ht, het⟩), htarget, hadmits⟩

/-- Some combination of values that fits the machine state is listed, and if its condition is
    looked at then the turn is certain, so that a target that is needed is known. -/
theorem exists_case_of_described
    (hsite : r.program.statement? n.location.label = some site) (hg : site.stmt = .goto g)
    (hd : n.state.Describes ρ) (hμ : μ.Agrees r.program) (hres : r.resolves n.state = true)
    (hlooked : ∀ x y, [x, y] ∈ n.state.projection r.program [g.condition, g.target] →
      x = none → g.condition.value ρ μ = 0 ∨ g.condition.value ρ μ = 1) :
    ∃ y, (g.condition.value ρ μ, y) ∈
        Goto.cases (n.state.projection r.program [g.condition, g.target]) ∧
      (g.condition.value ρ μ ≠ 0 → y = some (g.target.value ρ μ)) := by
  obtain ⟨pair, hpair, hmatch⟩ :=
    State.exists_mem_projection hμ hd [g.condition, g.target]
  obtain ⟨x, _, hx, hrest, rfl⟩ := List.forall₂_cons_right_iff.1 hmatch
  obtain ⟨y, _, hy, hnil, rfl⟩ := List.forall₂_cons_right_iff.1 hrest
  obtain rfl := List.forall₂_nil_right_iff.1 hnil
  have hcase : (g.condition.value ρ μ, y) ∈
      Goto.cases (n.state.projection r.program [g.condition, g.target]) := by
    refine Goto.mem_cases.2 ⟨_, hpair, rfl, ?_⟩
    rcases hx with rfl | rfl
    · exact Or.inr ⟨rfl, hlooked none y hpair rfl⟩
    · exact Or.inl rfl
  refine ⟨y, hcase, fun hne => ?_⟩
  rcases hy with rfl | rfl
  · -- An unknown target that is needed would have made the turn uncertain.
    have hcertain := isCertain_of_resolves hsite hg hres (mem_turns.2 ⟨_, _, hcase, rfl⟩)
    rw [Goto.isCertain_turn_none hne] at hcertain
    exact absurd hcertain (by decide)
  · rfl

/-- A resolved goto has an edge that leads a described machine state to its successor exactly if
    some component knows the condition's values or the condition is zero or one there. -/
theorem exists_admitting_edge_iff
    (hsite : r.program.statement? n.location.label = some site) (hg : site.stmt = .goto g)
    (hvalues : ∃ v, Component.values v ∈ n.state.components)
    (hd : n.state.Describes ρ) (hμ : μ.Agrees r.program)
    (hes : (r.edges n).2 = .ok es) (hsound : (r.edges n).1.sound = true)
    (hl : g.successor? site.next ρ μ = some l) :
    (∃ e ∈ es, e.target = .plain l ∧ e.Admits ρ μ) ↔
      n.state.Knows r.program g.condition ∨
        g.condition.value ρ μ = 0 ∨ g.condition.value ρ μ = 1 := by
  have hres : r.resolves n.state = true := by
    rw [sound_edges, Bool.and_eq_true] at hsound
    exact hsound.2
  rw [exists_admitting_edge_iff_case hsite hg hes hres hl]
  constructor
  · rintro ⟨y, hcy, -⟩
    obtain ⟨pair, hpair, -, hfixed | ⟨-, hval⟩⟩ := Goto.mem_cases.1 hcy
    · -- A fixed entry for the condition comes from a component that knows it.
      left
      by_contra hknows
      obtain ⟨x, rest, hx, -, rfl⟩ :=
        List.forall₂_cons_right_iff.1 (State.forall₂_open_iff hvalues hpair)
      rw [hx.2 hknows] at hfixed
      exact absurd hfixed (by simp)
    · exact Or.inr hval
  · intro hlooked
    apply exists_case_of_described hsite hg hd hμ hres
    intro x y hpair hx
    rcases hlooked with hknows | hval
    · obtain ⟨_, _, hopen, -, hcons⟩ :=
        List.forall₂_cons_right_iff.1 (State.forall₂_open_iff hvalues hpair)
      rw [← (List.cons.inj hcons).1] at hopen
      exact absurd hknows (hopen.1 hx)
    · exact hval

/-- A resolver for the one branch `if r1 goto 0x2000`. -/
def registerBranch : Resolver :=
  .fresh (.assemble 0x1000 [.instruction 0x1000 4 "branch" [.goto ⟨.jump, .reg 1, .imm 0x2000⟩]]) {}

/-- The state at that branch in which the condition register can hold the given values. -/
def atRegisterBranch (condition : ValueSet) : Node :=
  ⟨0, .plain (Label.start 0x1000), [.values (Registers.unknown.set 1 condition)]⟩

/-- Known values other than zero and one are followed: with `r1` in `{0, 5}`, there is an edge for
    the machine in which it is five. -/
theorem exists_admitting_edge_known_five :
    ∃ es, (registerBranch.edges (atRegisterBranch (.ofList [0, 5]))).2 = .ok es ∧
      ∃ e ∈ es, e.target = .plain (Label.start 0x2000) ∧ e.Admits (fun _ => 5) fun _ _ => 0 := by
  refine ⟨_, rfl, ?_⟩
  have hd : (atRegisterBranch (.ofList [0, 5])).state.Describes fun _ => 5 := by
    intro v hv
    obtain rfl := Component.values.inj (List.mem_singleton.1 hv)
    exact Registers.describes_set_self (Registers.describes_unknown _) (by decide)
  exact (exists_admitting_edge_iff (r := registerBranch)
    (n := atRegisterBranch (.ofList [0, 5])) rfl rfl ⟨_, List.mem_singleton_self _⟩ hd
    (Memory.agrees_of_segments_eq_nil rfl) rfl (by decide) rfl).2
    (Or.inl ⟨_, List.mem_singleton_self _, .ofList [0, 5], rfl, by decide⟩)

/-- An unknown condition is only followed at zero and one: with `r1` unknown, the goto resolves and
    the resolver stays sound, but no edge leads the machine in which `r1` is two to the target. -/
theorem unknown_condition_loses_branch :
    registerBranch.program.statement? (Label.start 0x1000) = some ⟨Label.start 0x1000,
        some (Label.start 0x1004), .goto ⟨.jump, .reg 1, .imm 0x2000⟩⟩ ∧
      (registerBranch.edges (atRegisterBranch .unknown)).1.sound = true ∧
      (atRegisterBranch .unknown).state.Describes (fun _ => 2) ∧
      Memory.Agrees (fun _ _ => 0) registerBranch.program ∧
      Goto.successor? ⟨.jump, .reg 1, .imm 0x2000⟩ (some (Label.start 0x1004)) (fun _ => 2)
        (fun _ _ => 0) = some (Label.start 0x2000) ∧
      ∃ es, (registerBranch.edges (atRegisterBranch .unknown)).2 = .ok es ∧
        ¬ ∃ e ∈ es, e.target = .plain (Label.start 0x2000) ∧ e.Admits (fun _ => 2) fun _ _ => 0 := by
  refine ⟨by decide, by decide, ?_, Memory.agrees_of_segments_eq_nil rfl, rfl, _, rfl, ?_⟩
  · intro v hv
    obtain rfl := Component.values.inj (List.mem_singleton.1 hv)
    exact Registers.describes_set_self (Registers.describes_unknown _) trivial
  · -- Only the conditions zero and one are tried, and the machine has neither.
    intro hedge
    obtain ⟨y, hy, -⟩ := (exists_admitting_edge_iff_case (r := registerBranch)
      (n := atRegisterBranch .unknown) (g := ⟨.jump, .reg 1, .imm 0x2000⟩) rfl rfl rfl
      (by decide) rfl).1 hedge
    have hcases : Goto.cases ((atRegisterBranch .unknown).state.projection registerBranch.program
        [.reg 1, .imm 0x2000]) = [(0, some 0x2000), (1, some 0x2000)] := by decide
    rw [hcases] at hy
    simp [Expr.value] at hy

end Resolver

end CodeReach
