/-
  CodeReach.Proofs.Explore.WitnessPath

  What can be read off the reachability tree of a forward exploration of a program.

  Every edge that a resolver tells leaves the label of the node it was asked about,
  and stays in the resolver's graph (`EdgeSource.Records`).  Along a run without a
  failure every told edge could be followed (`Passable`), so that each link of the
  tree leads from the label of the parent to the label of the child.  Hence the path
  to each reached and each pending node is a connected path from the start label
  (`paths_connected`).
-/
import CodeReach.Proofs.Code.Assemble
import CodeReach.Proofs.Explore.ErrorTrace
import CodeReach.Proofs.Explore.Fixpoint

namespace CodeReach

/-! ## Told edges -/

theorem PlacedStmt.source_of_mem_straightEdges {s : PlacedStmt} {e : Edge}
    (h : e ∈ s.straightEdges) : e.source = .plain s.label := by
  unfold straightEdges at h
  split at h
  · exact absurd h List.not_mem_nil
  · obtain ⟨l, -, rfl⟩ := Option.map_eq_some_iff.1 (Option.mem_toList.1 h)
    rfl

theorem Goto.source_of_mem_turn {g : Goto} {site : PlacedStmt} {addresses : List Word}
    {allEdges : Bool} {c : Word} {y : Option Word} {e : Edge}
    (h : e ∈ (g.turn site addresses allEdges c y).edges) : e.source = .plain site.label := by
  rcases mem_edges_turn.1 h with hcertain | ⟨-, -, -, a, -, rfl⟩
  · rcases certainEdge?_cases hcertain with ⟨-, next, -, rfl⟩ | ⟨-, t, -, rfl⟩ <;> rfl
  · rfl

namespace Resolver

variable {r : Resolver} {n : Node} {es : List Edge} {e : Edge}

theorem source_of_mem_callReturnEdges {site : PlacedStmt} {g : Goto}
    (h : e ∈ r.callReturnEdges site g) : e.source = .plain site.label := by
  unfold callReturnEdges at h
  split at h
  · obtain ⟨l, -, rfl⟩ := Option.map_eq_some_iff.1 (Option.mem_toList.1 h)
    rfl
  · exact absurd h List.not_mem_nil

/-- Edges are told from the label of the node that was asked about. -/
theorem source_of_mem_answer (hp : r.program.Placed) (hes : (r.edges n).2 = .ok es) (he : e ∈ es) :
    e.source = .plain n.location.label := by
  rcases r.edges_cases n with ⟨-, heq⟩ | ⟨site, g, hsite, hg, -⟩ | ⟨site, hsite, -, heq⟩
  · exact absurd (heq ▸ hes) (by simp)
  · rw [← hp _ _ hsite]
    rcases (mem_answer_of_goto hsite (Stmt.eq_of_goto? hg) hes).1 he with hcall | ⟨t, ht, het⟩
    · exact source_of_mem_callReturnEdges hcall
    · obtain ⟨c, y, -, rfl⟩ := mem_turns.1 ht
      exact Goto.source_of_mem_turn het
  · rw [← hp _ _ hsite]
    rw [heq] at hes
    obtain rfl := Except.ok.inj hes
    exact PlacedStmt.source_of_mem_straightEdges he

/-- The graph grows by the edges that are told. -/
theorem mem_graph_edges : e ∈ (r.edges n).1.graph.edges ↔
    (∃ es, (r.edges n).2 = .ok es ∧ e ∈ es) ∨ e ∈ r.graph.edges := by
  rw [graph_edges, Graph.mem_insertAll]
  cases (r.edges n).2 with
  | error f => simp [Except.toOption]
  | ok es => simp [Except.toOption]

end Resolver

/-- The source resolves a program, and every edge that it told leaves the label of the node it was
    asked about and is in its graph. -/
def EdgeSource.Records (source : EdgeSource) (asked : List Query) : Prop :=
  ∃ r, source = .resolving r ∧ r.program.Placed ∧
    ∀ q ∈ asked, ∀ es, q.answer = .ok es → ∀ edge ∈ es,
      edge.source = .plain q.node.location.label ∧ edge ∈ r.graph.edges

theorem EdgeSource.Records.ask {source : EdgeSource} {asked : List Query}
    (h : source.Records asked) (m : Node) :
    (source.edges m).1.Records (asked ++ [⟨m, (source.edges m).2⟩]) := by
  obtain ⟨r, rfl, hp, hasked⟩ := h
  refine ⟨(r.edges m).1, rfl, by rwa [Resolver.program_edges], fun q hq es hes edge hedge => ?_⟩
  rcases List.mem_append.1 hq with hq | hq
  · obtain ⟨hsource, hgraph⟩ := hasked q hq es hes edge hedge
    exact ⟨hsource, Resolver.mem_graph_edges.2 (Or.inr hgraph)⟩
  · obtain rfl := List.mem_singleton.1 hq
    exact ⟨Resolver.source_of_mem_answer hp hes hedge,
      Resolver.mem_graph_edges.2 (Or.inl ⟨es, hes, hedge⟩)⟩

theorem EdgeSource.records_fresh (entry : Word) (items : List Item) (options : Settings) :
    (EdgeSource.resolving (.fresh (.assemble entry items) options)).Records [] :=
  ⟨_, rfl, Program.placed_assemble entry items, fun _ hq => absurd hq List.not_mem_nil⟩

/-! ## Edges that can be followed -/

/-- Every told edge can be followed from the node it was told for. -/
def Passable (a : Analysis) (asked : List Query) : Prop :=
  ∀ q ∈ asked, ∀ es, q.answer = .ok es → ∀ edge ∈ es, ∃ o, a.post q.node.state edge = .ok o

namespace Exploration

variable {w : Surroundings} {x y : Exploration} {n : Node} {a : Analysis} {asked : List Query}

/-- A visit that goes through has followed all edges that it was told. -/
theorem Visits.passable (h : x.Visits n y (.ok ())) (hx : x.engine.Coherent)
    (hn : x.engine.analysis.Fits n.state) (ha : x.engine.analysis = a)
    (hpass : Passable a (asked ++ x.trace)) : Passable a (asked ++ y.trace) := by
  generalize hr : (Except.ok () : Except Failure Unit) = r at h
  cases h with
  | stuck f => exact absurd hr (by simp)
  | refused asks answer => exact absurd hr (by simp)
  | @expanded m z es asks answer =>
      have hm : z.engine.analysis.Fits m.state := asks.analysis ▸ (asks.bounds hn).1
      have hfollows := (asks.coherent hx).follows_expand hm hr.symm
      have hanalysis : (z.engine.expand n m es).1.analysis = a := by
        rw [((asks.coherent hx).expand hm).2.analysis, asks.analysis, ha]
      intro q hq es' hes' edge hedge
      replace hq : q ∈ asked ++ z.trace := hq
      rw [asks.trace, ← List.append_assoc] at hq
      rcases List.mem_append.1 hq with hq | hq
      · exact hpass q hq es' hes' edge hedge
      · obtain rfl := List.mem_singleton.1 hq
        obtain rfl := Except.ok.inj (answer.symm.trans hes')
        obtain ⟨o, ho, -⟩ := hfollows edge hedge
        exact ⟨o, hanalysis ▸ ho⟩

end Exploration

namespace Engine

variable {a : Analysis} {source : EdgeSource} {policy : Policy} {settings : Settings} {e : Engine}
  {asked : List Query} {failed : List State} {w : Surroundings} {k : Nat} {x : Exploration}

theorem Coherent.passable_iterate (h : e.Coherent) (ha : e.analysis = a)
    (hpass : Passable a asked)
    (hk : Loop.iterate (Exploration.step w) k (.start e) = .next x) :
    Passable a (asked ++ x.trace) := by
  refine (h.iterate_invariant (motive := fun x => x.engine.analysis = a ∧
    Passable a (asked ++ x.trace)) ?_ ?_ hk).2.2
  · refine ⟨ha, ?_⟩
    show Passable a (asked ++ [])
    rwa [List.append_nil]
  · rintro x y hx ⟨hxa, hxpass⟩ hstep
    refine ⟨(Exploration.analysis_of_step_next hx hstep).trans hxa, ?_⟩
    obtain ⟨n, x₁, hpicks, hvisits⟩ := Exploration.visits_of_step_next hx hstep
    refine hvisits.passable (hpicks.coherent hx) (hpicks.fits hx) (hpicks.analysis.trans hxa) ?_
    rwa [hpicks.trace]

/-- Between runs of which none failed, every told edge could be followed. -/
theorem History.passable (h : History a source policy settings e asked failed)
    (hfailed : failed = []) : Passable a asked := by
  induction h with
  | built => exact fun _ hq => absurd hq List.not_mem_nil
  | stop _ ih => exact ih hfailed
  | @run e asked failed w k x y r before loop exit ih =>
      obtain ⟨hbefore, hlost⟩ := List.append_eq_nil_iff.1 hfailed
      have hx := before.coherent.passable_iterate before.analysis_eq (ih hbefore) loop
      rcases Exploration.visits_of_step_done (before.coherent.iterate loop).1 exit with
        ⟨-, rfl, -⟩ | ⟨n, x₁, f, hpicked, -, -, rfl⟩
      · exact hx
      · -- A failure would have left a state that was not expanded.
        rw [Exploration.lost, hpicked] at hlost
        exact absurd hlost (by simp)

end Engine

/-! ## Connected paths -/

/-- The edges lead from one label to the other, each from where the one before it ended. -/
def Edge.Leads (l : Label) : List Edge → Label → Prop
  | [], l' => l = l'
  | e :: es, l' => e.source.label = l ∧ Leads e.target.label es l'

theorem Edge.leads_append_singleton {l l' : Label} {es : List Edge} {e : Edge} :
    Edge.Leads l (es ++ [e]) l' ↔ Edge.Leads l es e.source.label ∧ e.target.label = l' := by
  induction es generalizing l with
  | nil => simp only [List.nil_append, Leads, eq_comm]
  | cons d es ih => rw [List.cons_append, Leads, ih, Leads, and_assoc]

/-- Where links join the labels of their nodes and all roots are at one label, paths are connected
    and start there. -/
theorem Tree.Linked.leads {P : Node → Edge → Node → Prop} {t : Tree} {l : Label} (h : t.Linked P)
    (hP : ∀ n edge m, P n edge m →
      edge.source.label = n.location.label ∧ edge.target.label = m.location.label)
    (hroot : ∀ c ∈ t.entries, c.parent = none → c.node.location.label = l) (j : Nat) :
    ∀ c, entryAt? t.entries j = some c →
      Edge.Leads l (pathIn t.entries j) c.node.location.label ∧
        ∀ edge ∈ pathIn t.entries j, ∃ n m, P n edge m := by
  -- The parent of an entry is older, so the induction is on the position.
  induction j using Nat.strong_induction_on with
  | _ j ih =>
      intro c hc
      rw [pathIn_eq hc fun i edge hparent => (h j c i edge hc hparent).1]
      cases hparent : c.parent with
      | none =>
          refine ⟨(hroot c (mem_iff_entryAt?.2 ⟨j, hc⟩) hparent).symm, ?_⟩
          exact fun edge hedge => absurd hedge List.not_mem_nil
      | some link =>
          obtain ⟨i, edge⟩ := link
          obtain ⟨hlt, d, hd, hlink⟩ := h j c i edge hc hparent
          obtain ⟨hpath, hedges⟩ := ih i hlt d hd
          obtain ⟨hsource, htarget⟩ := hP _ _ _ hlink
          refine ⟨Edge.leads_append_singleton.2 ⟨hsource ▸ hpath, htarget⟩, fun edge' hmem => ?_⟩
          rcases List.mem_append.1 hmem with hmem | hmem
          · exact hedges edge' hmem
          · obtain rfl := List.mem_singleton.1 hmem
            exact ⟨_, _, hlink⟩

/-- Why an edge stands in the tree, where no edge faulted: it was told, and it leads from the label
    of the parent to that of the child. -/
theorem Links.leads {a : Analysis} {asked : List Query} {source : EdgeSource} {parent child : Node}
    {edge : Edge} (h : Links a asked parent edge child) (ha : a.placement.direction = .forward)
    (hpass : Passable a asked) (hsource : source.Records asked) :
    (edge.source.label = parent.location.label ∧ edge.target.label = child.location.label) ∧
      edge ∈ source.graph.edges ∧ ∃ q ∈ asked, ∃ es, q.answer = .ok es ∧ edge ∈ es := by
  obtain ⟨r, rfl, -, hasked⟩ := hsource
  cases h with
  | @followed m es s told mem place post lands =>
      obtain ⟨hfrom, hgraph⟩ := hasked _ told es rfl edge mem
      refine ⟨⟨?_, ?_⟩, hgraph, _, told, es, rfl, mem⟩
      · rw [hfrom, place]
        rfl
      · rw [lands, Analysis.location_post post, Analysis.label_step ha]
  | @faulted es f told mem place post =>
      obtain ⟨o, ho⟩ := hpass _ told es rfl edge mem
      exact absurd (ho.symm.trans post) (by simp)

namespace Engine

variable {entry : Word} {items : List Item} {a : Analysis} {options settings : Settings}
  {policy : Policy} {e : Engine} {asked : List Query} {failed : List State} {w : Surroundings}
  {k : Nat} {x : Exploration} {order : Enumeration}

/-- The only root of a first run is the start node. -/
theorem eq_startNode_of_parent_eq_none {n : Node} {id : Nat} {t : Tree} {c : TreeEntry}
    (h : (Tree.empty.setRoot n).Extends id t) (hc : c ∈ t.entries) (hparent : c.parent = none) :
    c = ⟨n, none⟩ := by
  rcases h.added c hc with hc | ⟨-, hne⟩
  · exact List.mem_singleton.1 hc
  · exact absurd hparent hne

/-- Witness paths are real.  Take the first run of an engine that explores an assembled program
    forward, with any components and going through reached states in any order, and look at any head
    of its loop.  Every reached and every pending node has its own entry in the tree, so that a
    child of it can be recorded.  The path to it is connected and leads from the start label to the
    label of the node; it is empty for the start node alone, and each of its edges was told by the
    source and is in the source's graph. -/
theorem paths_connected (ha : a.placement.direction = .forward)
    (htree : (settings.needsTree || a.tracksVpc) = true)
    (hk : Loop.iterate (Exploration.step w) k (.start (fresh a
      (.resolving (.fresh (.assemble entry items) options)) policy settings order)) = .next x) :
    ∃ t, x.engine.tree = some t ∧
      ∀ n, n ∈ x.engine.reached.toList ∨ n ∈ x.engine.worklist.members →
        (∃ i, t.position? n = some i ∧ t.nodeAt? i = some n) ∧
        (∀ edge child, (t.addChild n edge child).1.isSome = true) ∧
        ∃ path, t.pathTo? n = some path ∧
          Edge.Leads (Program.assemble entry items).startLabel path n.location.label ∧
          (path = [] ↔ n = Exploration.startNode (fresh a
            (.resolving (.fresh (.assemble entry items) options)) policy settings order)) ∧
          ∀ edge ∈ path, edge ∈ x.engine.source.graph.edges ∧
            ∃ q ∈ x.trace, ∃ es, q.answer = .ok es ∧ edge ∈ es := by
  have hcoherent := coherent_fresh a (.resolving (.fresh (.assemble entry items) options)) policy
    settings order
  obtain ⟨t, ht, hextends⟩ := (traced_fresh htree order).iterate hcoherent hk
  have hpass : Passable a ([] ++ x.trace) := hcoherent.passable_iterate rfl
    (fun _ hq => absurd hq List.not_mem_nil) hk
  have hsource : x.engine.source.Records ([] ++ x.trace) := hcoherent.iterate_source
    (fun _ _ m h => h.ask m) (EdgeSource.records_fresh entry items options) hk
  rw [List.nil_append] at ht hpass hsource
  refine ⟨t, ht.tree, fun n hn => ?_⟩
  have hshows : t.Shows n := hn.elim (ht.reached n) (ht.pending n)
  obtain ⟨i, c, hi, hc, rfl⟩ := hshows.exists_position ht.distinct
  refine ⟨⟨i, hi, ?_⟩, fun edge child => ?_, Tree.pathIn t.entries i, ?_, ?_⟩
  · show (Tree.entryAt? t.entries i).map (·.node) = some c.node
    rw [hc]
    rfl
  · rw [Tree.addChild, hi]
    rfl
  · rw [Tree.pathTo?, hi]
    rfl
  · have hlinks := fun n edge m (h : Links a x.trace n edge m) => h.leads ha hpass hsource
    obtain ⟨hleads, hedges⟩ := ht.linked.leads (fun n edge m h => (hlinks n edge m h).1)
      (fun d hd hparent => by
        rw [eq_startNode_of_parent_eq_none hextends hd hparent]) i c hc
    refine ⟨hleads, ?_, fun edge hedge => ?_⟩
    · -- A path is empty exactly if its entry is a root, and there is one root only.
      rw [Tree.pathIn_eq hc fun j edge hparent => (ht.linked i c j edge hc hparent).1]
      have hmem : c ∈ t.entries := Tree.mem_iff_entryAt?.2 ⟨i, hc⟩
      cases hparent : c.parent with
      | none =>
          rw [eq_startNode_of_parent_eq_none hextends hmem hparent]
          simp
      | some link =>
          refine iff_of_false (by simp) fun hstart => ?_
          have hroot : ⟨_, none⟩ ∈ t.entries := hextends.kept List.mem_cons_self
          obtain rfl := ht.distinct.eq_of_id hmem hroot (congrArg Node.id hstart)
          exact absurd hparent (by simp)
    · obtain ⟨n, m, hlink⟩ := hedges edge hedge
      exact (hlinks n edge m hlink).2

/-- The node after the constant, as it is entered. -/
def constantNode : Node :=
  ⟨1, .plain (Label.start 0x1004), [.values (Registers.unknown.set 1 (.const 5))]⟩

/-- After one round on the store behind a constant, the node there is pending, and it has a path
    with at least one edge from the start label. -/
theorem paths_connected_nullStore : ∃ x t path,
    Loop.iterate (Exploration.step (.stopAfter none)) 1
        (.start (forgetful (afterConstant [nullStore]))) = .next x ∧
      constantNode ∈ x.engine.worklist.members ∧ x.engine.tree = some t ∧
      t.pathTo? constantNode = some path ∧ path ≠ [] ∧
      Edge.Leads (Label.start 0x1000) path (Label.start 0x1004) := by
  have hhead : (match Loop.iterate (Exploration.step (.stopAfter none)) 1
      (.start (forgetful (afterConstant [nullStore]))) with
    | .next x => decide (constantNode ∈ x.engine.worklist.members)
    | .done _ => false) = true := by decide +kernel
  split at hhead
  · rename_i x hx
    have hmember := of_decide_eq_true hhead
    obtain ⟨t, ht, hnodes⟩ := paths_connected rfl rfl hx
    obtain ⟨-, -, path, hpath, hleads, hempty, -⟩ := hnodes constantNode (Or.inr hmember)
    refine ⟨x, t, path, hx, hmember, ht, hpath, fun hnil => ?_, hleads⟩
    exact absurd (congrArg Node.id (hempty.1 hnil)) (by decide)
  · exact absurd hhead (by decide)

end Engine

end CodeReach
