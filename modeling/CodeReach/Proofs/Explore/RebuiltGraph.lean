/-
  CodeReach.Proofs.Explore.RebuiltGraph

  The graph that is rebuilt from a reachability tree, compared with the edges that the
  source has told.

  A link through an edge that was followed is rebuilt as that edge.  The last link of a
  failed run may be of another sort: it shows the adjusted copy of a node as reached
  from the node itself, through the edge that could not be followed, and is rebuilt as
  an edge from the location to itself (`History.rebuilt_edge_told`,
  `faulting_store_loops_back`).
-/
import CodeReach.Proofs.Explore.WitnessPath

namespace CodeReach

/-- A visit that fails blames the node for which it was told edges, if there is one. -/
theorem Exploration.Visits.blames {x y : Exploration} {n : Node} {f : Failure}
    {asked : List Query} {q : Query} {es : List Edge} (h : x.Visits n y (.error f))
    (hq : q ∈ asked ++ y.trace) (hes : q.answer = .ok es) :
    q ∈ asked ++ x.trace ∨ f.node = some q.node := by
  generalize hr : (Except.error f : Except Failure Unit) = r at h
  cases h with
  | stuck g => exact Or.inl hq
  | refused asks answer =>
      rw [asks.trace, ← List.append_assoc] at hq
      rcases List.mem_append.1 hq with hq | hq
      · exact Or.inl hq
      · obtain rfl := List.mem_singleton.1 hq
        exact absurd (hes.symm.trans answer) (by simp)
  | @expanded m z es' asks answer =>
      replace hq : q ∈ asked ++ z.trace := hq
      rw [asks.trace, ← List.append_assoc] at hq
      rcases List.mem_append.1 hq with hq | hq
      · exact Or.inl hq
      · obtain rfl := List.mem_singleton.1 hq
        obtain ⟨_, -, hok | ⟨_, g, -, -, hfault⟩⟩ :=
          @Engine.expand_cases z.engine n m es' (fun _ => True) trivial fun _ _ _ _ _ _ => trivial
        · exact absurd (hr.trans (congrArg Prod.snd hok)) (by simp)
        · obtain rfl := Except.error.inj (hr.trans (congrArg Prod.snd hfault))
          exact Or.inr rfl

namespace Engine

variable {entry : Word} {items : List Item} {a : Analysis} {options settings : Settings}
  {policy : Policy} {e : Engine} {asked : List Query} {failed : List State}

/-- With no earlier failure, an edge that was told and cannot be followed has made this run fail at
    the node it was told for. -/
theorem History.fails_at_of_post {source : EdgeSource} {w : Surroundings} {k : Nat}
    {x y : Exploration} {r : Except Failure Unit} {m : Node} {es : List Edge} {told : Edge}
    {fault : Fault} (h : History a source policy settings e asked [])
    (hloop : Loop.iterate (Exploration.step w) k (.start e) = .next x)
    (hexit : Exploration.step w x = .done (y, r)) (hq : ⟨m, .ok es⟩ ∈ asked ++ y.trace)
    (hmem : told ∈ es) (hpost : a.post m.state told = .error fault) :
    ∃ cause, r = .error ⟨cause, some m⟩ := by
  -- Every edge told before the last round could be followed.
  have hpass := h.coherent.passable_iterate h.analysis_eq (h.passable rfl) hloop
  have hlast : ¬ (⟨m, .ok es⟩ : Query) ∈ asked ++ x.trace := by
    intro hold
    obtain ⟨o, ho⟩ := hpass _ hold es rfl told hmem
    exact absurd (ho.symm.trans hpost) (by simp)
  rcases Exploration.visits_of_step_done (h.coherent.iterate hloop).1 hexit with
    ⟨-, rfl, -⟩ | ⟨n, x₁, f, -, hpicks, hvisits, rfl⟩
  · exact absurd hq hlast
  · rcases hvisits.blames hq rfl with hold | hnode
    · rw [hpicks.trace] at hold
      exact absurd hold hlast
    · exact ⟨f.cause, by rw [← hnode]⟩

/-- Edges of the rebuilt graph.  However a run of an engine that explores an assembled program
    forward ends, each edge of the graph rebuilt from its tree has the statement and the kind of an
    edge that the source told, and leaves the same label.  It also enters the same label, except
    that an edge which could not be followed may be shown as leading back to where it starts; with
    no earlier failure, that only happens at the node at which this run failed. -/
theorem History.rebuilt_edge_told (ha : a.placement.direction = .forward)
    (h : History a (.resolving (.fresh (.assemble entry items) options)) policy settings e asked
      failed)
    (htree : (settings.needsTree || a.tracksVpc) = true) (w : Surroundings) :
    ∃ t, (e.run w).1.tree = some t ∧ ∀ edge ∈ t.toGraph.edges,
      ∃ q ∈ asked ++ (e.run w).2.trace, ∃ es, q.answer = .ok es ∧ ∃ told ∈ es,
        told.stmt = edge.stmt ∧ told.kind = edge.kind ∧ told.source.label = edge.source.label ∧
        (told.target.label = edge.target.label ∨
          edge.target = edge.source ∧ (∃ f, a.post q.node.state told = .error f) ∧
            (failed = [] → ∃ cause, (e.run w).2.result = .error ⟨cause, some q.node⟩)) := by
  obtain ⟨k, x, y, r, -, hloop, hexit, hrun⟩ := h.coherent.exists_exit w
  rw [hrun]
  have hend := History.run h hloop hexit
  obtain ⟨t, ht⟩ := hend.traced htree
  obtain ⟨source, -, -, hasked⟩ := hend.source_invariant
    (motive := EdgeSource.Records) (fun _ _ m h => h.ask m)
    (EdgeSource.records_fresh entry items options)
  refine ⟨t, ht.tree, fun edge hedge => ?_⟩
  obtain ⟨i, d, c, told, hd, hc, hparent, rfl⟩ := Tree.mem_toGraph.1 hedge
  obtain ⟨j, hj⟩ := Tree.mem_iff_entryAt?.1 hc
  obtain ⟨-, d', hd', hlink⟩ := ht.linked j c i told hj hparent
  obtain rfl : d = d' := Option.some.inj (hd.symm.trans hd')
  cases hlink with
  | @followed m es s hq mem place post lands =>
      have hfrom := (hasked _ hq es rfl told mem).1
      refine ⟨_, hq, es, rfl, told, mem, rfl, rfl, ?_, Or.inl ?_⟩
      · rw [hfrom, place]
        rfl
      · show told.target.label = c.node.location.label
        rw [lands, Analysis.location_post post, Analysis.label_step ha]
  | @faulted es f hq mem place post =>
      have hfrom := (hasked _ hq es rfl told mem).1
      refine ⟨_, hq, es, rfl, told, mem, rfl, rfl, ?_, Or.inr ⟨place, ⟨f, post⟩, ?_⟩⟩
      · rw [hfrom, place]
        rfl
      · rintro rfl
        exact h.fails_at_of_post hloop hexit hq mem post

/-- The edge of the constant. -/
def constantEdge : Edge :=
  .must (Label.start 0x1000) (Label.start 0x1004) (.assign 1 (.imm 5))

/-- What the source tells about the store behind the constant. -/
def storeEdge : Edge :=
  .must (Label.start 0x1004) (Label.start 0x1008) (.store (.imm 0x10) (.reg 1) 8)

theorem rebuilt_nullStore :
    ((forgetful (afterConstant [nullStore])).run (.stopAfter none)).1.tree.map (·.toGraph.edges) =
        some #[constantEdge, storeEdge.between storeEdge.source storeEdge.source] ∧
      ((forgetful (afterConstant [nullStore])).run (.stopAfter none)).2.trace.map
        (·.answer.toOption) = [some [constantEdge], some [storeEdge]] := by
  decide +kernel

/-- The edge of the constant is rebuilt from an edge that was told. -/
theorem rebuilt_edge_told_nullStore : ∃ t,
    ((forgetful (afterConstant [nullStore])).run (.stopAfter none)).1.tree = some t ∧
      constantEdge ∈ t.toGraph.edges ∧
      ∃ q ∈ ((forgetful (afterConstant [nullStore])).run (.stopAfter none)).2.trace,
        ∃ es, q.answer = .ok es ∧ ∃ told ∈ es, told.stmt = constantEdge.stmt ∧
          told.source.label = Label.start 0x1000 ∧ told.target.label = Label.start 0x1004 := by
  obtain ⟨t, ht, hedges⟩ :=
    (history_forgetful (afterConstant [nullStore])).rebuilt_edge_told rfl rfl (.stopAfter none)
  have hgraph := rebuilt_nullStore.1
  rw [ht, Option.map_some, Option.some.injEq] at hgraph
  have hmem : constantEdge ∈ t.toGraph.edges := by
    rw [hgraph]
    simp
  obtain ⟨q, hq, es, hes, told, htold, hstmt, -, hsource, htarget | ⟨hloop, -⟩⟩ :=
    hedges constantEdge hmem
  · exact ⟨t, ht, hmem, q, hq, es, hes, told, htold, hstmt, hsource, htarget⟩
  · exact absurd hloop (by decide)

/-- The store is rebuilt as an edge from its location to itself, although the source told no edge
    with its statement that goes there. -/
theorem faulting_store_loops_back : ∃ t edge,
    ((forgetful (afterConstant [nullStore])).run (.stopAfter none)).1.tree = some t ∧
      edge ∈ t.toGraph.edges ∧
      ∀ q ∈ ((forgetful (afterConstant [nullStore])).run (.stopAfter none)).2.trace,
        ∀ es, q.answer = .ok es → ∀ told ∈ es,
          ¬ (told.stmt = edge.stmt ∧ told.target.label = edge.target.label) := by
  obtain ⟨hgraph, htrace⟩ := rebuilt_nullStore
  obtain ⟨t, ht, hedges⟩ := Option.map_eq_some_iff.1 hgraph
  refine ⟨t, storeEdge.between storeEdge.source storeEdge.source, ht, ?_, ?_⟩
  · rw [hedges]
    simp
  · intro q hq es hes told htold
    have hanswer := List.mem_map_of_mem (f := (·.answer.toOption)) hq
    rw [htrace, hes] at hanswer
    have hes' : es = [constantEdge] ∨ es = [storeEdge] := by
      simpa [Except.toOption] using hanswer
    rcases hes' with rfl | rfl
    · obtain rfl := List.mem_singleton.1 htold
      decide
    · obtain rfl := List.mem_singleton.1 htold
      decide

end Engine

end CodeReach
