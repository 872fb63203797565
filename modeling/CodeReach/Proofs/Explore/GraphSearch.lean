/-
  CodeReach.Proofs.Explore.GraphSearch

  An analysis without components, run over a known graph, is a graph search.  It always
  completes, it reaches one state for each location that can be got to from the initial
  one, and it visits each of them once.

  States without components are told apart by their locations alone.  So nothing is ever
  absorbed, a successor is covered exactly if it has been reached (`accept_of_searches`),
  and no round can fail.  The count of the visited states is an invariant: every reached
  node is either pending or has been visited (`Searches.count`).  That the search misses
  nothing is the loop invariant of all explorations, `Settled`, read for graphs.
-/
import CodeReach.Proofs.Explore.Fixpoint
import CodeReach.Proofs.Explore.Housekeeping
import CodeReach.Proofs.Explore.ReachedSet
import Mathlib.Data.Set.Card
import Mathlib.Logic.Relation

namespace CodeReach

namespace Graph

/-! ## Locations that can be got to -/

/-- The other ends of the edges at a location, in the direction of travel. -/
def neighbours (g : Graph) : Direction → Location → List Location
  | .forward, l => (g.outEdges l).map Edge.target
  | .backward, l => (g.inEdges l).map Edge.source

/-- One step of travel.  A split location without neighbours of its own has those of its label. -/
inductive Hop (g : Graph) (d : Direction) : Location → Location → Prop where
  | along {l m : Location} (edge : m ∈ g.neighbours d l) : Hop g d l m
  | unsplit {label : Label} {v : Word} {m : Location} (none : g.neighbours d (.split label v) = [])
      (edge : m ∈ g.neighbours d (.plain label)) : Hop g d (.split label v) m

/-- The second location can be got to from the first. -/
def Reaches (g : Graph) (d : Direction) : Location → Location → Prop :=
  Relation.ReflTransGen (g.Hop d)

end Graph

/-- Where an edge leads in the direction of travel. -/
def Direction.destination : Direction → Edge → Location
  | .forward, e => e.target
  | .backward, e => e.source

namespace StaticEdges

variable {s : StaticEdges} {l m : Location}

theorem map_edgesAt (s : StaticEdges) (l : Location) :
    (s.edgesAt l).map s.direction.destination = s.graph.neighbours s.direction l := by
  unfold edgesAt
  cases s.direction with
  | forward => rfl
  | backward => rfl

/-- The edges to follow are those of the steps of travel. -/
theorem exists_edgesFrom_iff :
    (∃ e ∈ s.edgesFrom l, s.direction.destination e = m) ↔ s.graph.Hop s.direction l m := by
  unfold edgesFrom
  constructor
  · rintro ⟨e, he, rfl⟩
    split at he
    · rename_i label v hnone
      refine .unsplit ?_ (map_edgesAt s _ ▸ List.mem_map_of_mem he)
      rw [← map_edgesAt, hnone, List.map_nil]
    · exact .along (map_edgesAt s _ ▸ List.mem_map_of_mem he)
  · intro h
    cases h with
    | along edge =>
        rw [← map_edgesAt] at edge
        obtain ⟨e, he, rfl⟩ := List.mem_map.1 edge
        refine ⟨e, ?_, rfl⟩
        split
        · rename_i label v hnone
          rw [hnone] at he
          exact absurd he List.not_mem_nil
        · exact he
    | @unsplit label v m none edge =>
        rw [← map_edgesAt] at none edge
        obtain ⟨e, he, rfl⟩ := List.mem_map.1 edge
        rw [List.map_eq_nil_iff.1 none]
        exact ⟨e, he, rfl⟩

end StaticEdges

namespace Analysis

variable {d : Direction} {s t : State} {e : Edge}

/-! ## States without components -/

/-- The analysis that tracks nothing but locations. -/
def bare (d : Direction) : Analysis :=
  ⟨{ direction := d }, []⟩

/-- Every edge can be followed. -/
theorem post_bare : (bare d).post s e = .ok (some ⟨d.destination e, []⟩) := by
  cases d with
  | forward => rfl
  | backward => rfl

theorem merge_bare : (bare d).merge s t = none := by
  unfold merge
  split
  · rfl
  · rfl

/-- States without components are covered by themselves only. -/
theorem le_bare (hs : s.components = []) (ht : t.components = []) :
    (bare d).le s t = true ↔ s = t := by
  obtain ⟨l, cs⟩ := s
  obtain ⟨m, ds⟩ := t
  subst hs ht
  simp [le, bare, componentsLe]

theorem refine_bare (hs : s.components = []) (p : Precision) :
    (bare d).refine s p = .ok (s, [.null]) := by
  obtain ⟨l, cs⟩ := s
  subst hs
  rfl

end Analysis

namespace Worklist

variable {w rest : Worklist} {n : Node}

/-- No two members have the same state, so a pick takes out one. -/
theorem Queued.length_of_pick (hw : w.Queued) (h : w.pick = (some n, rest)) :
    w.members.length = rest.members.length + 1 := by
  obtain ⟨hn, -, hmembers, -⟩ := hw.pick_some h
  have hmem : n.state ∈ w.members.map Node.state := List.mem_map_of_mem hn
  have hone : w.members.countP (·.state == n.state) = 1 := by
    have hcount := List.count_eq_one_of_mem hw.distinct hmem
    rw [List.count, List.countP_map] at hcount
    exact hcount
  have hothers : w.members.countP (fun m => !(m.state == n.state)) = rest.members.length := by
    rw [hmembers, List.countP_eq_length_filter]
    rfl
  have hsplit := List.length_eq_countP_add_countP
    (fun m : Node => m.state == n.state) (l := w.members)
  simp only [Bool.not_eq_true, Bool.decide_eq_false] at hsplit
  omega

end Worklist

namespace Engine

variable {e : Engine} {d : Direction} {g : Graph} {initial : Location} {parent : Node}
  {edge : Edge} {s t : State}

/-! ## Searching engines -/

/-- The engine searches a graph.  It has found nothing but locations that can be got to, one node
    for each, and each node is pending or has been visited. -/
structure Searches (d : Direction) (g : Graph) (initial : Location) (e : Engine) : Prop where
  analysis : e.analysis = .bare d
  source : e.source = .static ⟨g, initial, d⟩
  settings : e.settings = {}
  running : e.stopped = false
  tabled : e.reached.Tabled
  bare : ∀ n ∈ e.reached.toList, n.state.components = []
  found : ∀ n ∈ e.reached.toList, g.Reaches d initial n.location
  origin : ∃ n ∈ e.reached.toList, n.location = initial
  pending : ∀ s, e.IsPending s → e.IsReached s
  count : e.reached.toList.length = e.visited + e.worklist.members.length

/-- The tree, the number of questions and the identities do not matter. -/
theorem Searches.relabel (h : e.Searches d g initial) (tree : Option Tree) (queries nextId : Nat) :
    { e with tree, queries, nextId }.Searches d g initial :=
  ⟨h.analysis, h.source, h.settings, h.running, h.tabled, h.bare, h.found, h.origin, h.pending,
    h.count⟩

theorem Searches.components_of_isReached (h : e.Searches d g initial) (ht : e.IsReached t) :
    t.components = [] := by
  obtain ⟨n, hn, rfl⟩ := h.tabled.contains_iff_mem.1 ht
  exact h.bare n hn

/-- Nothing is absorbed, so a successor is entered unless it has been reached. -/
theorem accept_of_searches (h : e.Searches d g initial) (hs : s.components = []) :
    e.accept parent edge s =
      if e.reached.contains s then (e.newNode s).2
      else ((e.newNode s).2.enter ⟨e.nextId, s⟩).recordChild parent edge ⟨e.nextId, s⟩ := by
  have hnone : (e.newNode s).2.absorbers s = [] := by
    refine List.filterMap_eq_nil_iff.2 fun n _ => ?_
    show (e.analysis.merge s n.state).map (n, ·) = none
    rw [h.analysis, Analysis.merge_bare]
    rfl
  have habsorb : e.absorb parent edge s = (e.newNode s).2 := by
    unfold absorb
    dsimp only
    rw [hnone]
    rfl
  -- What covers a state without components is the state itself.
  have hcovers : e.analysis.covers e.reached s = e.reached.contains s := by
    rw [Bool.eq_iff_iff, Analysis.covers_iff]
    constructor
    · rintro ⟨t, ht, hle⟩
      rw [h.analysis, Analysis.le_bare hs (h.components_of_isReached ht)] at hle
      exact hle ▸ ht
    · exact fun hreached => ⟨s, hreached, Analysis.le_refl _ s⟩
  rw [accept_eq, habsorb]
  show (if e.analysis.covers e.reached s then _ else _) = _
  rw [hcovers]

/-- Entering a node that can be got to. -/
theorem Searches.enter (h : e.Searches d g initial) {n : Node} (hn : n.state.components = [])
    (hfound : g.Reaches d initial n.location) (hnew : ¬ e.reached.contains n.state = true) :
    (e.enter n).Searches d g initial := by
  have hperm := ReachedSet.perm_insert hnew
  have hfresh : ¬ e.worklist.contains n.state = true := fun hp => hnew (h.pending _ hp)
  have hmembers : (e.enter n).worklist.members = n :: e.worklist.members := by
    show (e.worklist.insert n).members = _
    unfold Worklist.insert
    rw [if_neg hfresh]
  have hall {P : Node → Prop} (hnP : P n) (hP : ∀ m ∈ e.reached.toList, P m) :
      ∀ m ∈ (e.enter n).reached.toList, P m := by
    intro m hm
    rcases List.mem_cons.1 (hperm.mem_iff.1 hm) with rfl | hm
    · exact hnP
    · exact hP m hm
  exact {
    analysis := h.analysis
    source := h.source
    settings := h.settings
    running := h.running
    tabled := h.tabled.insert hnew
    bare := hall hn h.bare
    found := hall hfound h.found
    origin := by
      obtain ⟨m, hm, hl⟩ := h.origin
      exact ⟨m, hperm.mem_iff.2 (List.mem_cons_of_mem _ hm), hl⟩
    pending := by
      intro s hs
      refine ReachedSet.contains_insert.2 ?_
      exact (Worklist.contains_insert.1 hs).imp_right (h.pending s)
    count := by
      have hlength := hperm.length_eq
      have hcount := h.count
      rw [List.length_cons] at hlength
      rw [hmembers, List.length_cons]
      show (e.reached.insert n).toList.length = e.visited + (e.worklist.members.length + 1)
      omega }

theorem Searches.accept (h : e.Searches d g initial) (hs : s.components = [])
    (hfound : g.Reaches d initial s.location) :
    (e.accept parent edge s).Searches d g initial := by
  have hnode : (e.newNode s).2.Searches d g initial := h.relabel e.tree e.queries (e.nextId + 1)
  rw [accept_of_searches h hs]
  split
  · exact hnode
  · rename_i hnew
    exact (hnode.enter (n := ⟨e.nextId, s⟩) hs hfound hnew).relabel _ _ _

/-- An expansion along edges to locations that can be got to goes through. -/
theorem Searches.expand (h : e.Searches d g initial) {n m : Node} {es : List Edge}
    (hfound : ∀ edge ∈ es, g.Reaches d initial (d.destination edge)) :
    (e.expand n m es).2 = .ok () ∧ (e.expand n m es).1.Searches d g initial := by
  induction es generalizing e with
  | nil => exact ⟨rfl, h⟩
  | cons edge rest ih =>
      obtain ⟨hedge, hrest⟩ := List.forall_mem_cons.1 hfound
      rw [Engine.expand, h.analysis, Analysis.post_bare]
      exact ih (h.accept rfl hedge) hrest

end Engine

/-- The source is a known graph, and has told all edges at the locations it was asked about. -/
def EdgeSource.Tells (edges : StaticEdges) (source : EdgeSource) (asked : List Query) : Prop :=
  source = .static edges ∧ ∀ q ∈ asked, q.answer = .ok (edges.edgesFrom q.node.location)

theorem EdgeSource.Tells.ask {edges : StaticEdges} {source : EdgeSource} {asked : List Query}
    (h : source.Tells edges asked) (n : Node) :
    (source.edges n).1.Tells edges (asked ++ [⟨n, (source.edges n).2⟩]) := by
  obtain ⟨rfl, hasked⟩ := h
  refine ⟨rfl, fun q hq => ?_⟩
  rcases List.mem_append.1 hq with hq | hq
  · exact hasked q hq
  · rw [List.mem_singleton.1 hq]
    rfl

namespace Exploration

variable {x : Exploration} {d : Direction} {g : Graph} {initial : Location} {n : Node}
  {w : Surroundings}

/-! ## Rounds of a search -/

/-- A picked node has been visited, and is no longer pending. -/
theorem searches_pick (h : x.engine.Searches d g initial) (hfiled : x.engine.Filed)
    {rest : Worklist} (hpick : (x.tick w).engine.worklist.pick = (some n, rest))
    (hpicks : x.Picks n { x.tick w with engine := { (x.tick w).engine with worklist := rest } }) :
    { (x.tick w).engine with worklist := rest }.Searches d g initial := by
  have huntimed : x.engine.settings.timeout = none := by rw [h.settings]
  obtain ⟨-, -, v, hengine, -⟩ := tick_of_untimed w huntimed
  obtain ⟨hqueued, hmembers, -⟩ := queued_tick hfiled w
  have hlength := hqueued.length_of_pick hpick
  rw [hmembers] at hlength
  have hpending := hpicks.isPending_iff
  rw [hengine] at hpending ⊢
  exact {
    analysis := h.analysis
    source := h.source
    settings := h.settings
    running := h.running
    tabled := h.tabled
    bare := h.bare
    found := h.found
    origin := h.origin
    pending := fun s hs => h.pending s ((hpending s).1 hs).2
    count := by
      show x.engine.reached.toList.length = x.engine.visited + 1 + rest.members.length
      have hcount := h.count
      omega }

/-- There is nothing to adjust. -/
theorem adjust_of_searches (h : x.engine.Searches d g initial) (hn : n.state.components = []) :
    x.adjust n =
      .ok (n, { x with precisions := x.precisions.insert n.state.location [.null] }) := by
  unfold adjust
  dsimp only
  rw [h.analysis, Analysis.refine_bare hn]
  simp only [bind, Except.bind, pure, Except.pure, if_pos]

/-- A reached node is visited without a failure. -/
theorem searches_visit (hw : w.stopRequested = fun _ => false)
    (h : x.engine.Searches d g initial) (hn : x.engine.IsReached n.state) :
    (x.visit w n).2 = .ok () ∧ (x.visit w n).1.engine.Searches d g initial := by
  have hreaches : g.Reaches d initial n.location := by
    obtain ⟨m, hm, hstate⟩ := h.tabled.contains_iff_mem.1 hn
    have hfound := h.found m hm
    rwa [Node.location, hstate] at hfound
  have hedges : x.engine.source.edges n =
      (x.engine.source, .ok ((⟨g, initial, d⟩ : StaticEdges).edgesFrom n.location)) := by
    rw [h.source]
    rfl
  unfold visit
  rw [adjust_of_searches h (h.components_of_isReached hn)]
  unfold query
  dsimp only
  rw [hedges, hw]
  dsimp only
  apply Engine.Searches.expand
  · rw [Bool.or_false]
    exact h.relabel _ _ _
  · intro edge hedge
    exact hreaches.tail (StaticEdges.exists_edgesFrom_iff.1 ⟨edge, hedge, rfl⟩)

/-- A round of a search that goes on meets no failure. -/
theorem searches_step (hw : w.stopRequested = fun _ => false)
    (h : x.engine.Searches d g initial) (hfiled : x.engine.Filed) (hgo : x.goesOn = true) :
    ∃ y, step w x = .next y ∧ y.engine.Searches d g initial := by
  obtain ⟨n, rest, hpick, hpicks⟩ := exists_picks (w := w) hfiled hgo
  have hpicked := searches_pick h hfiled hpick hpicks
  have hn : { (x.tick w).engine with worklist := rest }.IsReached n.state := by
    have hreached := h.pending n.state hpicks.pending
    rwa [Engine.IsReached, ← hpicks.reached] at hreached
  obtain ⟨hok, hvisit⟩ := searches_visit
    (x := { x.tick w with engine := { (x.tick w).engine with worklist := rest } }) hw hpicked hn
  refine ⟨_, ?_, hvisit⟩
  unfold step
  rw [if_pos hgo]
  dsimp only
  rw [hpick]
  dsimp only
  generalize visit _ w n = out at hok ⊢
  obtain ⟨y, r⟩ := out
  obtain rfl : r = .ok () := hok
  rfl

/-- A search goes on until nothing is pending. -/
theorem isEmpty_of_not_goesOn (h : x.engine.Searches d g initial) (hgo : x.goesOn = false) :
    x.engine.worklist.isEmpty = true := by
  unfold goesOn at hgo
  rw [h.running, h.settings] at hgo
  simpa using hgo

theorem searches_start (d : Direction) (g : Graph) (initial : Location) (order : Enumeration) :
    (start (.overGraph d g initial [] order)).engine.Searches d g initial := by
  have hreached : (start (.overGraph d g initial [] order)).engine.reached.toList =
      [⟨0, ⟨initial, []⟩⟩] := rfl
  have hmembers : (start (.overGraph d g initial [] order)).engine.worklist.members =
      [⟨0, ⟨initial, []⟩⟩] := rfl
  exact {
    analysis := rfl
    source := rfl
    settings := rfl
    running := rfl
    tabled := by
      apply (ReachedSet.tabled_empty none).insert
      exact Engine.not_isReached_fresh (.bare d) (.static ⟨g, initial, d⟩) .fifo {} order _
    bare := by
      rw [hreached]
      exact List.forall_mem_singleton.2 rfl
    found := by
      rw [hreached]
      exact List.forall_mem_singleton.2 .refl
    origin := by
      rw [hreached]
      exact ⟨_, List.mem_singleton_self _, rfl⟩
    pending := (coherent_start (Engine.coherent_fresh _ _ _ _ _)).reached
    count := by
      rw [hreached, hmembers]
      rfl }

end Exploration

namespace Engine

variable {d : Direction} {g : Graph} {initial : Location} {order : Enumeration} {w : Surroundings}

/-! ## The whole search -/

/-- The loop of a search ends with nothing pending and nothing failed. -/
theorem exists_search_exit (hw : w.stopRequested = fun _ => false) (d : Direction) (g : Graph)
    (initial : Location) (order : Enumeration) :
    ∃ k x, Loop.iterate (Exploration.step w) k (.start (overGraph d g initial [] order)) = .next x ∧
      (overGraph d g initial [] order).run w = finish x (.ok ()) ∧
      x.engine.Searches d g initial ∧ x.engine.worklist.isEmpty = true := by
  have hcoherent : (overGraph d g initial [] order).Coherent := coherent_fresh _ _ _ _ _
  obtain ⟨k, x, y, r, -, hloop, hexit, hrun⟩ := hcoherent.exists_exit w
  have hround (x y : Exploration) (hx : x.engine.Coherent) (h : x.engine.Searches d g initial)
      (hstep : Exploration.step w x = .next y) : y.engine.Searches d g initial := by
    cases hgo : x.goesOn with
    | false => exact absurd ((Exploration.step_of_not_goesOn w hgo).symm.trans hstep) (by simp)
    | true =>
        obtain ⟨z, hz, hsearches⟩ := Exploration.searches_step hw h hx.toFiled hgo
        rw [hz] at hstep
        exact Progress.next.inj hstep ▸ hsearches
  obtain ⟨hx, hsearches⟩ := hcoherent.iterate_invariant
    (motive := fun x => x.engine.Searches d g initial)
    (Exploration.searches_start d g initial order) hround hloop
  -- A round that goes on is not the last, so the last round has found nothing pending.
  cases hgo : x.goesOn with
  | true =>
      obtain ⟨z, hz, -⟩ := Exploration.searches_step hw hsearches hx.toFiled hgo
      exact absurd (hz.symm.trans hexit) (by simp)
  | false =>
      rw [Exploration.step_of_not_goesOn w hgo] at hexit
      obtain ⟨rfl, rfl⟩ := Prod.mk.inj (Progress.done.inj hexit)
      exact ⟨k, x, hloop, hrun, hsearches, Exploration.isEmpty_of_not_goesOn hsearches hgo⟩

/-- What a search has found when nothing is pending any more is closed under steps of travel. -/
theorem Searches.closed {k : Nat} {x : Exploration} (h : x.engine.Searches d g initial)
    (hloop : Loop.iterate (Exploration.step w) k (.start (overGraph d g initial [] order)) =
      .next x)
    (hempty : x.engine.worklist.isEmpty = true) {l m : Location}
    (hl : x.engine.IsReached ⟨l, []⟩) (hop : g.Hop d l m) : x.engine.IsReached ⟨m, []⟩ := by
  have hcoherent : (overGraph d g initial [] order).Coherent := coherent_fresh _ _ _ _ _
  have hsettled : x.engine.Settled ([] ++ x.trace) [] := by
    apply Settled.explores _ hcoherent (hcoherent.explores_iterate hloop)
    exact fun s hs => absurd hs (not_isReached_fresh _ _ _ _ _ s)
  have htold : EdgeSource.Tells ⟨g, initial, d⟩ x.engine.source ([] ++ x.trace) := by
    apply hcoherent.iterate_source (motive := EdgeSource.Tells ⟨g, initial, d⟩) _ _ hloop
    · exact fun source asked m htells => htells.ask m
    · exact ⟨rfl, fun q hq => absurd hq List.not_mem_nil⟩
  rcases hsettled.expanded hempty hl with hexempt | ⟨u, es, hquery, hloc, -, hfollows⟩
  · exact absurd hexempt List.not_mem_nil
  · have hes : es = (⟨g, initial, d⟩ : StaticEdges).edgesFrom l := by
      rw [Except.ok.inj (htold.2 _ hquery)]
      exact congrArg _ hloc
    obtain ⟨edge, hedge, rfl⟩ := (StaticEdges.exists_edgesFrom_iff (s := ⟨g, initial, d⟩)).2 hop
    obtain ⟨o, ho, hcovers⟩ := hfollows edge (hes ▸ hedge)
    rw [h.analysis, Analysis.post_bare] at ho
    obtain ⟨t, ht, hle⟩ := hcovers _ (Except.ok.inj ho).symm
    rw [h.analysis, Analysis.le_bare rfl (h.components_of_isReached ht)] at hle
    rw [hle]
    exact ht

theorem Searches.mem_locations_iff {e : Engine} (h : e.Searches d g initial) {l : Location} :
    l ∈ e.reached.toList.map Node.location ↔ e.IsReached ⟨l, []⟩ := by
  rw [IsReached, h.tabled.contains_iff_mem, List.mem_map]
  refine exists_congr fun n => and_congr_right fun hn => ?_
  constructor
  · rintro rfl
    rw [← h.bare n hn]
    rfl
  · intro hstate
    rw [Node.location, hstate]

/-- A finished search has found the locations that can be got to, and no others. -/
theorem Searches.isReached_iff {k : Nat} {x : Exploration} (h : x.engine.Searches d g initial)
    (hloop : Loop.iterate (Exploration.step w) k (.start (overGraph d g initial [] order)) =
      .next x)
    (hempty : x.engine.worklist.isEmpty = true) {l : Location} :
    x.engine.IsReached ⟨l, []⟩ ↔ g.Reaches d initial l := by
  constructor
  · intro hl
    obtain ⟨n, hn, rfl⟩ := List.mem_map.1 (h.mem_locations_iff.2 hl)
    exact h.found n hn
  · intro hreaches
    -- Along the way from the initial location, one step of travel after the other.
    induction hreaches with
    | refl => exact h.mem_locations_iff.1 (List.mem_map.2 h.origin)
    | tail _ hop ih => exact h.closed hloop hempty ih hop

/-- No two nodes of a search are at the same location. -/
theorem Searches.nodup_locations {e : Engine} (h : e.Searches d g initial) :
    (e.reached.toList.map Node.location).Nodup := by
  have hstates := List.inj_on_of_nodup_map h.tabled.states
  refine List.Nodup.map_on (fun n hn m hm hlocation => hstates hn hm ?_) h.tabled.states.of_map
  have hn' := h.bare n hn
  have hm' := h.bare m hm
  obtain ⟨i, l, cs⟩ := n
  obtain ⟨j, l', cs'⟩ := m
  subst hn' hm'
  exact congrArg (State.mk · []) hlocation

/-- An analysis without components is graph search.  Over every graph, in either direction and from
    every location, the run completes without a failure.  The reached nodes have no components, no
    two of them are at the same location, and the locations are those that can be got to; as many
    states have been visited. -/
theorem run_overGraph_nil (d : Direction) (g : Graph) (initial : Location) (order : Enumeration)
    (elapsed : Nat → Duration) :
    let out := (overGraph d g initial [] order).run ⟨fun _ => false, elapsed⟩
    let locations := out.1.reached.toList.map Node.location
    out.2.result = .ok () ∧ out.1.status = .completed ∧
    (∀ n ∈ out.1.reached.toList, n.state.components = []) ∧
    locations.Nodup ∧ (∀ l, l ∈ locations ↔ g.Reaches d initial l) ∧
    out.1.reached.size = locations.length ∧
    out.1.visited = Set.ncard { l | g.Reaches d initial l } := by
  intro out locations
  obtain ⟨k, x, hloop, hrun, h, hempty⟩ :=
    exists_search_exit (w := ⟨fun _ => false, elapsed⟩) rfl d g initial order
  have hout : out = finish x (.ok ()) := hrun
  have hlocations : locations = x.engine.reached.toList.map Node.location := by
    show out.1.reached.toList.map Node.location = _
    rw [hout]
    rfl
  have hnodup : locations.Nodup := hlocations ▸ h.nodup_locations
  have hmem (l : Location) : l ∈ locations ↔ g.Reaches d initial l := by
    rw [hlocations, h.mem_locations_iff, h.isReached_iff hloop hempty]
  have hlength : locations.length = x.engine.reached.toList.length := by
    rw [hlocations, List.length_map]
  refine ⟨by rw [hout]; rfl, ?_, ?_, hnodup, hmem, ?_, ?_⟩
  · rw [hout]
    exact finalStatus_eq_completed.2 ⟨rfl, hempty⟩
  · rw [hout]
    exact h.bare
  · rw [hout, hlength]
    exact h.tabled.size
  · -- Nothing is pending, so every reached node has been visited.
    have hset : { l | g.Reaches d initial l } = ↑locations.toFinset := by
      ext l
      rw [Finset.mem_coe, List.mem_toFinset, hmem]
      rfl
    have hcount := h.count
    rw [List.isEmpty_iff.1 hempty, List.length_nil, Nat.add_zero] at hcount
    rw [hset, Set.ncard_coe_finset, List.toFinset_card_of_nodup hnodup, hlength, hcount, hout]
    rfl

end Engine

end CodeReach
