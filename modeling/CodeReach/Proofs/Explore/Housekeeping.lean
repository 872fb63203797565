/-
  CodeReach.Proofs.Explore.Housekeeping

  Housekeeping cannot be seen from outside.  Two engines that differ in the number of
  steps between one housekeeping and the next pick the same nodes in the same order and
  end alike.  So does an engine whose worklist is compacted before any rounds whatsoever.

  The engines are kept in lockstep: after every round they are the same up to stale
  entries of their worklists (`Paced`).  What makes this work is that no identity is ever
  queued twice, which `Filed` says of each of the two.
-/
import CodeReach.Proofs.Explore.Resolver
import CodeReach.Proofs.Explore.StaleEntries
import CodeReach.Proofs.Explore.Termination

namespace CodeReach

/-! ## Another step threshold -/

/-- The resolver with another step threshold, which it does not look at. -/
def Resolver.paced (n : Nat) (r : Resolver) : Resolver :=
  { r with settings := { r.settings with stepThreshold := n } }

/-- The source with another step threshold, which it does not look at. -/
def EdgeSource.paced (n : Nat) : EdgeSource → EdgeSource
  | .static s => .static s
  | .resolving r => .resolving (r.paced n)

theorem Resolver.resolveGoto_paced (n : Nat) (r : Resolver) (m : Node) (site : PlacedStmt)
    (g : Goto) : (r.paced n).resolveGoto m site g =
      ((r.resolveGoto m site g).1.paced n, (r.resolveGoto m site g).2) := by
  have hturns : (r.paced n).turns m.state site g = r.turns m.state site g := rfl
  have hdebug : (r.paced n).settings.debug = r.settings.debug := rfl
  unfold resolveGoto
  dsimp only
  rw [hturns, hdebug]
  split
  · rfl
  · rfl

theorem EdgeSource.edges_paced (n : Nat) (source : EdgeSource) (m : Node) :
    (source.paced n).edges m = ((source.edges m).1.paced n, (source.edges m).2) := by
  cases source with
  | static s => rfl
  | resolving r =>
      have hprogram : (r.paced n).program = r.program := rfl
      have hedges : (r.paced n).edges m = ((r.edges m).1.paced n, (r.edges m).2) := by
        unfold Resolver.edges
        dsimp only
        rw [hprogram]
        split
        · rfl
        · split
          · exact Resolver.resolveGoto_paced n
              { r with discovered := r.discovered.insert m.location.label.address } m _ _
          · rfl
      show (EdgeSource.resolving ((r.paced n).edges m).1, ((r.paced n).edges m).2) = _
      rw [hedges]
      rfl

theorem EdgeSource.sound_paced (n : Nat) (source : EdgeSource) :
    (source.paced n).sound = source.sound := by
  cases source with
  | static s => rfl
  | resolving r => rfl

theorem EdgeSource.initial_paced (n : Nat) (source : EdgeSource) :
    (source.paced n).initial = source.initial := by
  cases source with
  | static s => rfl
  | resolving r => rfl

namespace Engine

variable {e e' : Engine} {n : Nat} {m parent node : Node} {edge : Edge} {s : State}

/-! ## Engines in lockstep -/

/-- The second engine has the step threshold `n`.  Apart from that, the engines are the same up to
    stale entries; neither has a time limit. -/
structure Paced (n : Nat) (e e' : Engine) : Prop where
  same : ∃ worklist, e' = { e with
    worklist
    settings := { e.settings with stepThreshold := n }
    source := e.source.paced n }
  alike : e.worklist.Alike e'.worklist
  untimed : e.settings.timeout = none
  filed : e.Filed
  filed' : e'.Filed

theorem Filed.compact (h : e.Filed) : { e with worklist := e.worklist.compact }.Filed where
  queued := Worklist.queued_compact h.queued
  recent k hk := h.recent k (Worklist.mem_queue_of_mem_compact hk)

namespace Paced

theorem newNode (h : e.Paced n e') (s : State) :
    (e.newNode s).1 = (e'.newNode s).1 ∧ (e.newNode s).2.Paced n (e'.newNode s).2 := by
  obtain ⟨⟨worklist, rfl⟩, halike, huntimed, hfiled, hfiled'⟩ := h
  exact ⟨rfl, ⟨worklist, rfl⟩, halike, huntimed, hfiled.newNode s, hfiled'.newNode s⟩

theorem recordChild (h : e.Paced n e') :
    (e.recordChild parent edge m).Paced n (e'.recordChild parent edge m) := by
  obtain ⟨⟨worklist, rfl⟩, halike, huntimed, hfiled, hfiled'⟩ := h
  exact ⟨⟨worklist, rfl⟩, halike, huntimed, ⟨hfiled.queued, hfiled.recent⟩,
    ⟨hfiled'.queued, hfiled'.recent⟩⟩

/-- Both enter a node whose identity neither has queued. -/
theorem enter (h : e.Paced n e') (hid : m.id < e.nextId)
    (hnew : ∀ k ∈ e.worklist.queue, k.id ≠ m.id) (hnew' : ∀ k ∈ e'.worklist.queue, k.id ≠ m.id) :
    (e.enter m).Paced n (e'.enter m) := by
  obtain ⟨⟨worklist, rfl⟩, halike, huntimed, hfiled, hfiled'⟩ := h
  exact ⟨⟨_, rfl⟩, halike.insert hnew hnew', huntimed, hfiled.enter hid hnew,
    hfiled'.enter hid hnew'⟩

theorem discard (h : e.Paced n e') (s : State) : (e.discard s).Paced n (e'.discard s) := by
  obtain ⟨⟨worklist, rfl⟩, halike, huntimed, hfiled, hfiled'⟩ := h
  exact ⟨⟨_, rfl⟩, halike.erase s, huntimed, hfiled.discard s, hfiled'.discard s⟩

/-- Either of them may drop its stale entries. -/
theorem compact_left (h : e.Paced n e') :
    { e with worklist := e.worklist.compact }.Paced n e' := by
  obtain ⟨⟨worklist, rfl⟩, halike, huntimed, hfiled, hfiled'⟩ := h
  exact ⟨⟨worklist, rfl⟩, halike.compact_left, huntimed, hfiled.compact, hfiled'⟩

theorem compact_right (h : e.Paced n e') :
    e.Paced n { e' with worklist := e'.worklist.compact } := by
  obtain ⟨⟨worklist, rfl⟩, halike, huntimed, hfiled, hfiled'⟩ := h
  exact ⟨⟨_, rfl⟩, halike.compact_right, huntimed, hfiled, hfiled'.compact⟩

/-- Both count one more visited state. -/
theorem count (h : e.Paced n e') :
    { e with visited := e.visited + 1 }.Paced n { e' with visited := e'.visited + 1 } := by
  obtain ⟨⟨worklist, rfl⟩, halike, huntimed, hfiled, hfiled'⟩ := h
  exact ⟨⟨worklist, rfl⟩, halike, huntimed, ⟨hfiled.queued, hfiled.recent⟩,
    ⟨hfiled'.queued, hfiled'.recent⟩⟩

theorem reached_eq (h : e.Paced n e') : e'.reached = e.reached := by
  obtain ⟨⟨worklist, rfl⟩, -⟩ := h
  rfl

theorem analysis_eq (h : e.Paced n e') : e'.analysis = e.analysis := by
  obtain ⟨⟨worklist, rfl⟩, -⟩ := h
  rfl

theorem nextId_eq (h : e.Paced n e') : e'.nextId = e.nextId := by
  obtain ⟨⟨worklist, rfl⟩, -⟩ := h
  rfl

theorem absorbers_eq (h : e.Paced n e') (s : State) : e'.absorbers s = e.absorbers s := by
  obtain ⟨⟨worklist, rfl⟩, -⟩ := h
  rfl

theorem enterMerged (h : e.Paced n e') (s : State) :
    (e.enterMerged parent edge s).Paced n (e'.enterMerged parent edge s) := by
  obtain ⟨hnode, hnew⟩ := h.newNode s
  unfold Engine.enterMerged
  dsimp only
  rw [← hnode, hnew.reached_eq]
  split
  · exact hnew
  · -- The identity has just been handed out.
    have hrecent' : ∀ k ∈ e'.worklist.queue, k.id < e.nextId := h.nextId_eq ▸ h.filed'.recent
    apply Paced.recordChild
    refine hnew.enter (Nat.lt_succ_self _) ?_ ?_
    · exact fun k hk => Nat.ne_of_lt (h.filed.recent k hk)
    · exact fun k hk => Nat.ne_of_lt (hrecent' k hk)

theorem discardAll (h : e.Paced n e') (as : List (Node × State)) :
    (e.discardAll as).Paced n (e'.discardAll as) :=
  List.foldl_rel h fun a _ _ _ hx => hx.discard a.1.state

theorem enterAll (h : e.Paced n e') (as : List (Node × State)) :
    (e.enterAll parent edge as).Paced n (e'.enterAll parent edge as) :=
  List.foldl_rel h fun a _ _ _ hx => hx.enterMerged a.2

theorem absorb (h : e.Paced n e') :
    (e.absorb parent edge s).Paced n (e'.absorb parent edge s) := by
  have hnew := (h.newNode s).2
  unfold Engine.absorb
  dsimp only
  rw [hnew.absorbers_eq]
  exact (hnew.discardAll _).enterAll _

/-- Engines in lockstep accept a successor in lockstep. -/
theorem accept (h : e.Paced n e') :
    (e.accept parent edge s).Paced n (e'.accept parent edge s) := by
  have habsorb : (e.absorb parent edge s).Paced n (e'.absorb parent edge s) := h.absorb
  obtain ⟨-, hid, hnew⟩ := @Filed.absorb e parent edge s h.filed
  obtain ⟨-, -, hnew'⟩ := @Filed.absorb e' parent edge s h.filed'
  rw [accept_eq, accept_eq, habsorb.reached_eq, habsorb.analysis_eq, h.nextId_eq]
  rw [h.nextId_eq] at hnew'
  split
  · exact habsorb
  · exact (habsorb.enter hid hnew hnew').recordChild

/-- Engines in lockstep expand a node in lockstep, and the expansions come to the same result. -/
theorem expand (h : e.Paced n e') (edges : List Edge) :
    (e.expand parent node edges).1.Paced n (e'.expand parent node edges).1 ∧
      (e.expand parent node edges).2 = (e'.expand parent node edges).2 := by
  induction edges generalizing e e' with
  | nil => exact ⟨h, rfl⟩
  | cons edge rest ih =>
      rw [Engine.expand, Engine.expand, h.analysis_eq]
      split
      · refine ⟨?_, rfl⟩
        dsimp only
        split
        · exact h
        · exact h.recordChild
      · exact ih h
      · exact ih h.accept

end Paced

end Engine

namespace Exploration

variable {w w' : Surroundings} {x x' : Exploration} {n : Nat} {m : Node}

/-! ## Rounds in lockstep -/

/-- The engines of the explorations are in lockstep, and so are the precisions and questions; the
    housekeepings and what they reported may differ. -/
structure Paced (n : Nat) (x x' : Exploration) : Prop where
  engine : x.engine.Paced n x'.engine
  precisions : x'.precisions = x.precisions
  trace : x'.trace = x.trace

/-- Drops stale entries of the worklist. -/
def tidy (x : Exploration) : Exploration :=
  { x with engine := { x.engine with worklist := x.engine.worklist.compact } }

/-- Without a time limit, a housekeeping drops stale entries and changes nothing else that
    counts. -/
theorem tick_of_untimed (w : Surroundings) (h : x.engine.settings.timeout = none) :
    (x.tick w).precisions = x.precisions ∧ (x.tick w).trace = x.trace ∧
      ∃ worklist, (x.tick w).engine =
          { x.engine with worklist, visited := x.engine.visited + 1 } ∧
        (worklist = x.engine.worklist ∨ worklist = x.engine.worklist.compact) := by
  unfold tick
  dsimp only
  split
  · refine ⟨rfl, rfl, _, ?_, Or.inr rfl⟩
    unfold housekeeping
    dsimp only
    rw [h, Option.any_none, Bool.or_false]
  · exact ⟨rfl, rfl, _, rfl, Or.inl rfl⟩

namespace Paced

theorem tidy_right (h : x.Paced n x') : x.Paced n x'.tidy :=
  ⟨h.engine.compact_right, h.precisions, h.trace⟩

/-- Housekeepings may be due in one of them, in both or in none. -/
theorem tick (h : x.Paced n x') (w w' : Surroundings) : (x.tick w).Paced n (x'.tick w') := by
  have huntimed' : x'.engine.settings.timeout = none := by
    obtain ⟨worklist, hsame⟩ := h.engine.same
    rw [hsame]
    exact h.engine.untimed
  obtain ⟨hprecisions, htrace, v, hengine, hv⟩ := tick_of_untimed w h.engine.untimed
  obtain ⟨hprecisions', htrace', v', hengine', hv'⟩ := tick_of_untimed w' huntimed'
  have hcount := h.engine.count
  refine ⟨?_, ?_, ?_⟩
  · rw [hengine, hengine']
    rcases hv with rfl | rfl <;> rcases hv' with rfl | rfl
    · exact hcount
    · exact hcount.compact_right
    · exact hcount.compact_left
    · exact hcount.compact_left.compact_right
  · rw [hprecisions, hprecisions', h.precisions]
  · rw [htrace, htrace', h.trace]

theorem goesOn_eq (h : x.Paced n x') : x'.goesOn = x.goesOn := by
  obtain ⟨⟨⟨worklist, hsame⟩, halike, -⟩, -, -⟩ := h
  unfold goesOn
  rw [← halike.isEmpty_eq, hsame]
  dsimp only [Engine.isSound]
  rw [EdgeSource.sound_paced]

/-- Rounds that go on pick the same node. -/
theorem pick (h : x.Paced n x') (w w' : Surroundings) (hgo : x.goesOn = true) :
    ∃ m rest rest', (x.tick w).engine.worklist.pick = (some m, rest) ∧
      (x'.tick w').engine.worklist.pick = (some m, rest') ∧
      { x.tick w with engine := { (x.tick w).engine with worklist := rest } }.Paced n
        { x'.tick w' with engine := { (x'.tick w').engine with worklist := rest' } } := by
  obtain ⟨m, rest, hpick, hpicks⟩ := exists_picks (w := w) h.engine.filed hgo
  obtain ⟨m', rest', hpick', hpicks'⟩ :=
    exists_picks (w := w') h.engine.filed' (h.goesOn_eq.trans hgo)
  obtain ⟨⟨⟨worklist, hsame⟩, halike, huntimed, -, -⟩, hprecisions, htrace⟩ := h.tick w w'
  have hnext := halike.pick
  rw [hpick, hpick'] at hnext
  obtain rfl : m = m' := Option.some.inj hnext.1
  refine ⟨m, rest, rest', hpick, hpick', ⟨⟨rest', ?_⟩, hnext.2, huntimed, ?_, ?_⟩, ?_, ?_⟩
  · rw [hsame]
  · exact hpicks.filed
  · exact hpicks'.filed
  · exact hprecisions
  · exact htrace

/-- Both adjust a node alike, or neither can. -/
theorem adjust (h : x.Paced n x') (m : Node) :
    (∃ f, x.adjust m = .error f ∧ x'.adjust m = .error f) ∨
    ∃ k y y', x.adjust m = .ok (k, y) ∧ x'.adjust m = .ok (k, y') ∧ y.Paced n y' := by
  unfold Exploration.adjust
  dsimp only
  rw [h.precisions, h.engine.analysis_eq]
  cases x.engine.analysis.refine m.state
      (x.precisions.getD m.location x.engine.analysis.precision) with
  | error f => exact Or.inl ⟨f, rfl, rfl⟩
  | ok out =>
      obtain ⟨s, p⟩ := out
      right
      simp only [bind, Except.bind, pure, Except.pure]
      by_cases hs : s = m.state
      · rw [if_pos hs, if_pos hs]
        exact ⟨m, _, _, rfl, rfl, h.engine, rfl, h.trace⟩
      · obtain ⟨hnode, hnew⟩ := h.engine.newNode s
        rw [if_neg hs, if_neg hs]
        exact ⟨_, _, _, rfl, congrArg Except.ok (Prod.ext hnode.symm rfl), hnew, rfl, h.trace⟩

/-- Both get the same answer, and both see a stop request that has arrived by then. -/
theorem query (h : x.Paced n x') (hstop : w.stopRequested = w'.stopRequested) (m : Node) :
    (x.query w m).1.Paced n (x'.query w' m).1 ∧ (x.query w m).2 = (x'.query w' m).2 := by
  obtain ⟨⟨⟨worklist, hsame⟩, halike, huntimed, hfiled, hfiled'⟩, hprecisions, htrace⟩ := h
  have hedges : x'.engine.source.edges m =
      ((x.engine.source.edges m).1.paced n, (x.engine.source.edges m).2) := by
    rw [hsame]
    exact EdgeSource.edges_paced n _ m
  unfold Exploration.query
  dsimp only
  rw [hedges]
  refine ⟨⟨⟨⟨worklist, ?_⟩, halike, huntimed, ⟨hfiled.queued, hfiled.recent⟩,
    ⟨hfiled'.queued, hfiled'.recent⟩⟩, hprecisions, ?_⟩, rfl⟩
  · dsimp only
    rw [hsame, hstop]
  · dsimp only
    rw [htrace]

theorem visit (h : x.Paced n x') (hstop : w.stopRequested = w'.stopRequested) (m : Node) :
    (x.visit w m).1.Paced n (x'.visit w' m).1 ∧ (x.visit w m).2 = (x'.visit w' m).2 := by
  unfold Exploration.visit
  rcases h.adjust m with ⟨f, hf, hf'⟩ | ⟨k, y, y', hk, hk', hy⟩
  · rw [hf, hf']
    exact ⟨h, rfl⟩
  · rw [hk, hk']
    dsimp only
    obtain ⟨hquery, hanswer⟩ := hy.query hstop k
    cases hz : y.query w k with
    | mk z answer =>
        cases hz' : y'.query w' k with
        | mk z' answer' =>
            rw [hz, hz'] at hquery hanswer
            obtain rfl : answer = answer' := hanswer
            cases answer with
            | error f => exact ⟨hquery, rfl⟩
            | ok edges =>
                obtain ⟨hexpand, hresult⟩ := hquery.engine.expand edges
                exact ⟨⟨hexpand, hquery.precisions, hquery.trace⟩, hresult⟩

/-- Both are over, with the same result. -/
def Ends (n : Nat) (a b : Exploration × Except Failure Unit) : Prop :=
  a.1.Paced n b.1 ∧ a.2 = b.2

/-- Explorations in lockstep take a round in lockstep. -/
theorem step (h : x.Paced n x') (hstop : w.stopRequested = w'.stopRequested) :
    (step w x).Related (Paced n) (Ends n) (Exploration.step w' x') := by
  cases hgo : x.goesOn with
  | false =>
      rw [step_of_not_goesOn w hgo, step_of_not_goesOn w' (h.goesOn_eq.trans hgo)]
      exact .done ⟨h, rfl⟩
  | true =>
      obtain ⟨m, rest, rest', hpick, hpick', hpicked⟩ := h.pick w w' hgo
      obtain ⟨hvisit, hresult⟩ := hpicked.visit hstop m
      unfold Exploration.step
      rw [if_pos hgo, if_pos (h.goesOn_eq.trans hgo)]
      dsimp only
      rw [hpick, hpick']
      dsimp only
      generalize Exploration.visit _ w m = out at hvisit hresult ⊢
      generalize Exploration.visit _ w' m = out' at hvisit hresult ⊢
      obtain ⟨y, r⟩ := out
      obtain ⟨y', r'⟩ := out'
      obtain rfl : r = r' := hresult
      cases r with
      | ok u => exact .next hvisit
      | error f => exact .done ⟨hvisit, rfl⟩

end Paced

/-- The node that is picked in the next round, if there is one. -/
def turn? (w : Surroundings) (x : Exploration) : Option Node :=
  if x.goesOn then x.picked? w else none

theorem Paced.turn?_eq (h : x.Paced n x') (w w' : Surroundings) : x'.turn? w' = x.turn? w := by
  unfold turn?
  rw [h.goesOn_eq]
  split
  · exact (h.tick w w').engine.alike.pick.1.symm
  · rfl

/-- The round with a number.  Before it, stale entries are dropped if that is due. -/
def tidyStep (due : Nat → Bool) (w : Surroundings) (x : Nat × Exploration) :
    Progress (Nat × Exploration) (Exploration × Except Failure Unit) :=
  (step w (if due x.1 then x.2.tidy else x.2)).map (x.1 + 1, ·)

theorem Paced.tidyStep {s : Nat × Exploration} (h : x.Paced n s.2)
    (hstop : w.stopRequested = w'.stopRequested) (due : Nat → Bool) :
    (Exploration.step w x).Related (fun x s => x.Paced n s.2) (Ends n) (tidyStep due w' s) := by
  have htidied : x.Paced n (if due s.1 then s.2.tidy else s.2) := by
    split
    · exact h.tidy_right
    · exact h
  exact (htidied.step hstop).map_right fun _ _ hpaced => hpaced

end Exploration

namespace Engine

open Exploration (tidyStep)

variable {e e' : Engine} {n : Nat} {w w' : Surroundings}

/-! ## Whole runs -/

/-- The node that is picked where a loop has got to, if it is not over. -/
def pickAfter? {σ ρ : Type} (view : σ → Exploration) (w : Surroundings) :
    Progress σ ρ → Option Node
  | .next s => (view s).turn? w
  | .done _ => none

/-- The engine and the report where a loop has got to. -/
def conclude {σ : Type} (view : σ → Exploration) :
    Progress σ (Exploration × Except Failure Unit) → Engine × Report
  | .next s => finish (view s) (.ok ())
  | .done r => finish r.1 r.2

/-- The node that is picked in the round with the given number, if the run gets there. -/
def pickAt? (e : Engine) (w : Surroundings) (k : Nat) : Option Node :=
  pickAfter? id w (Loop.iterate (Exploration.step w) k (.start e))

/-- The same for a run that drops stale entries before the rounds in which that is due. -/
def pickTidyingAt? (due : Nat → Bool) (e : Engine) (w : Surroundings) (k : Nat) : Option Node :=
  pickAfter? Prod.snd w (Loop.iterate (tidyStep due w) k (0, .start e))

/-- A run that drops stale entries before the rounds in which that is due. -/
def runTidying (due : Nat → Bool) (e : Engine) (w : Surroundings) : Engine × Report :=
  conclude Prod.snd (Loop.deepen (tidyStep due w) e.rounds 1 (0, .start e))

theorem run_eq_conclude (e : Engine) (w : Surroundings) :
    e.run w = conclude id (Loop.deepen (Exploration.step w) e.rounds 1 (.start e)) := by
  unfold Engine.run
  cases Loop.deepen (Exploration.step w) e.rounds 1 (.start e) with
  | next x => rfl
  | done r => rfl

/-- The runs have the same result and leave the same things behind.  The second has the step
    threshold `n`, which its source knows as well. -/
structure EndsAlike (n : Nat) (a b : Engine × Report) : Prop where
  result : b.2.result = a.2.result
  trace : b.2.trace = a.2.trace
  status : b.1.status = a.1.status
  visited : b.1.visited = a.1.visited
  reached : b.1.reached = a.1.reached
  pending : b.1.worklist.toList = a.1.worklist.toList
  pickOrder : b.1.worklist.compact = a.1.worklist.compact
  source : b.1.source = a.1.source.paced n
  tree : b.1.tree = a.1.tree
  stopped : b.1.stopped = a.1.stopped
  queries : b.1.queries = a.1.queries
  nextId : b.1.nextId = a.1.nextId

theorem paced_fresh (a : Analysis) (source : EdgeSource) (policy : Policy) {settings : Settings}
    (order : Enumeration) (h : settings.timeout = none) (n : Nat) :
    (fresh a source policy settings order).Paced n
      (fresh a (source.paced n) policy { settings with stepThreshold := n } order) where
  same := ⟨_, rfl⟩
  alike := .refl (.empty policy)
  untimed := h
  filed := (coherent_fresh _ _ _ _ _).toFiled
  filed' := (coherent_fresh _ _ _ _ _).toFiled

theorem start_eq {s : State} (h : e.analysis.start e.source.initial = s) :
    Exploration.start e =
      ⟨{ (e.newNode s).2.enter ⟨e.nextId, s⟩ with
          tree := e.tree.map (·.setRoot ⟨e.nextId, s⟩), status := .running, visited := 0 },
        (∅ : Std.TreeMap Location Precision).insert s.location e.analysis.precision,
        0, [], []⟩ := by
  subst h
  rfl

theorem Paced.start (h : e.Paced n e') : (Exploration.start e).Paced n (.start e') := by
  have hrecent' : ∀ k ∈ e'.worklist.queue, k.id < e.nextId := h.nextId_eq ▸ h.filed'.recent
  have henter := (h.newNode (Exploration.startState e)).2.enter
    (m := ⟨e.nextId, Exploration.startState e⟩) (Nat.lt_succ_self _)
    (fun k hk => Nat.ne_of_lt (h.filed.recent k hk)) (fun k hk => Nat.ne_of_lt (hrecent' k hk))
  obtain ⟨worklist, hsame⟩ := h.same
  have hinitial : e'.analysis.start e'.source.initial = Exploration.startState e := by
    rw [hsame]
    exact congrArg e.analysis.start (EdgeSource.initial_paced n e.source)
  rw [start_eq hinitial, start_eq (e := e) rfl]
  obtain ⟨-, halike, huntimed, hfiled, hfiled'⟩ := henter
  subst hsame
  exact ⟨⟨⟨_, rfl⟩, halike, huntimed, ⟨hfiled.queued, hfiled.recent⟩,
    ⟨hfiled'.queued, hfiled'.recent⟩⟩, rfl, rfl⟩

theorem Paced.finish {x x' : Exploration} (h : x.Paced n x') (r : Except Failure Unit) :
    EndsAlike n (finish x r) (finish x' r) := by
  have hstatus : x'.engine.finalStatus r = x.engine.finalStatus r := by
    unfold finalStatus
    rw [h.engine.alike.isEmpty_eq]
  obtain ⟨⟨⟨worklist, hsame⟩, halike, -⟩, -, htrace⟩ := h
  unfold Engine.finish
  dsimp only
  rw [hstatus]
  exact {
    result := rfl
    trace := htrace
    status := rfl
    visited := by dsimp only; rw [hsame]
    reached := by dsimp only; rw [hsame]
    pending := halike.toList_eq.symm
    pickOrder := halike.symm
    source := by dsimp only; rw [hsame]
    tree := by dsimp only; rw [hsame]
    stopped := by dsimp only; rw [hsame]
    queries := by dsimp only; rw [hsame]
    nextId := by dsimp only; rw [hsame] }

/-- Two loops in lockstep pick the same node next, and they end alike if they are left now. -/
theorem endsAlike_of_related (w w' : Surroundings) {σ : Type} {view : σ → Exploration}
    {p : Progress Exploration (Exploration × Except Failure Unit)}
    {p' : Progress σ (Exploration × Except Failure Unit)}
    (h : p.Related (fun x s => x.Paced n (view s)) (Exploration.Paced.Ends n) p') :
    pickAfter? view w' p' = pickAfter? id w p ∧ EndsAlike n (conclude id p) (conclude view p') := by
  cases h with
  | next states => exact ⟨states.turn?_eq w w', Paced.finish states (.ok ())⟩
  | @done r r' results =>
      obtain ⟨y, result⟩ := r
      obtain ⟨y', result'⟩ := r'
      obtain ⟨hpaced, rfl⟩ : y.Paced n y' ∧ result = result' := results
      exact ⟨rfl, Paced.finish hpaced result⟩

/-- A loop that stays in lockstep with a run picks the same nodes and ends alike. -/
theorem endsAlike_of_step {σ : Type} (view : σ → Exploration)
    {step' : σ → Progress σ (Exploration × Except Failure Unit)} {s : σ}
    (hstep : ∀ x s, x.Paced n (view s) → (Exploration.step w x).Related
      (fun x s => x.Paced n (view s)) (Exploration.Paced.Ends n) (step' s))
    (hs : (Exploration.start e).Paced n (view s)) :
    (∀ k, pickAfter? view w' (Loop.iterate step' k s) = e.pickAt? w k) ∧
      EndsAlike n (e.run w) (conclude view (Loop.deepen step' e.rounds 1 s)) := by
  refine ⟨fun k => ?_, ?_⟩
  · exact (endsAlike_of_related w w' (Loop.related_iterate hstep hs k)).1
  · rw [run_eq_conclude]
    exact (endsAlike_of_related w w (Loop.related_deepen hstep hs e.rounds 1)).2

/-- Housekeeping is unobservable.  Take a new engine without a time limit, and another that has the
    step threshold `n` and differs in nothing else, so that both go through reached states in the
    same order, whichever it is.  The two pick the same nodes in the same order, and their runs end
    with the same result, status, number of visited states, reached set, pending nodes, source and
    tree.  The same holds if the second drops the stale entries of its worklist before any rounds
    whatsoever. -/
theorem housekeeping_unobservable (a : Analysis) (source : EdgeSource) (policy : Policy)
    (settings : Settings) (order : Enumeration) (htimeout : settings.timeout = none) (n : Nat)
    (stop : Nat → Bool) (elapsed elapsed' : Nat → Duration) :
    let e := fresh a source policy settings order
    let e' := fresh a (source.paced n) policy { settings with stepThreshold := n } order
    (∀ k, e'.pickAt? ⟨stop, elapsed'⟩ k = e.pickAt? ⟨stop, elapsed⟩ k) ∧
    EndsAlike n (e.run ⟨stop, elapsed⟩) (e'.run ⟨stop, elapsed'⟩) ∧
    ∀ due,
      (∀ k, e'.pickTidyingAt? due ⟨stop, elapsed'⟩ k = e.pickAt? ⟨stop, elapsed⟩ k) ∧
      EndsAlike n (e.run ⟨stop, elapsed⟩) (e'.runTidying due ⟨stop, elapsed'⟩) := by
  intro e e'
  have hstart : (Exploration.start e).Paced n (.start e') :=
    (paced_fresh a source policy order htimeout n).start
  have hrounds : e'.rounds = e.rounds := rfl
  have hplain (x x' : Exploration) (h : x.Paced n x') :
      (Exploration.step ⟨stop, elapsed⟩ x).Related (Exploration.Paced n)
        (Exploration.Paced.Ends n) (Exploration.step ⟨stop, elapsed'⟩ x') := h.step rfl
  have htidied (due : Nat → Bool) (x : Exploration) (s : Nat × Exploration)
      (h : x.Paced n s.2) :
      (Exploration.step ⟨stop, elapsed⟩ x).Related (fun x s => x.Paced n s.2)
        (Exploration.Paced.Ends n) (tidyStep due ⟨stop, elapsed'⟩ s) := by
    refine h.tidyStep ?_ due
    rfl
  obtain ⟨hpicks, hends⟩ : (∀ k, e'.pickAt? ⟨stop, elapsed'⟩ k = e.pickAt? ⟨stop, elapsed⟩ k) ∧ _ :=
    endsAlike_of_step id hplain hstart
  refine ⟨hpicks, ?_, fun due => ?_⟩
  · rw [run_eq_conclude e', hrounds]
    exact hends
  · rw [runTidying, hrounds]
    exact endsAlike_of_step Prod.snd (htidied due) hstart

/-- The loop explored with a housekeeping in every round. -/
def onWrapLoopTidied : Engine :=
  .fresh ⟨{}, [.values { program := wrapLoop }]⟩
    (.resolving (.fresh wrapLoop { stepThreshold := 1 })) .fifo { stepThreshold := 1 } .inserted

theorem housekeeping_unobservable_onWrapLoop :
    ({} : Settings).timeout = none ∧
    (∀ k, onWrapLoopTidied.pickAt? (.stopAfter none) k = onWrapLoop.pickAt? (.stopAfter none) k) ∧
    EndsAlike 1 (onWrapLoop.run (.stopAfter none)) (onWrapLoopTidied.run (.stopAfter none)) :=
  have h := housekeeping_unobservable ⟨{}, [.values { program := wrapLoop }]⟩
    (.resolving (.fresh wrapLoop {})) .fifo {} .inserted rfl 1 (fun _ => false) id id
  ⟨rfl, h.1, h.2.1⟩

end Engine

end CodeReach
