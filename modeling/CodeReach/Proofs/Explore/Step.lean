/-
  CodeReach.Proofs.Explore.Step

  One round of the exploration loop, opened once.  A round either finds that the loop
  is over or takes one node from the worklist (`Picks`) and visits it; a visit asks
  for the edges of the adjusted node (`Asks`) and accepts the successors along them.
  `step_of_goesOn` says what can come of a round, and later arguments start from there.
-/
import CodeReach.Explore.Run
import CodeReach.Proofs.Data.Loop
import CodeReach.Proofs.Explore.Accept
import CodeReach.Proofs.Transfer.Successor

namespace CodeReach

namespace Engine

variable {e : Engine} {parent node : Node} {edges : List Edge}

/-! ## Expanding a node -/

/-- An expansion accepts successors until it is through with the edges or following one of them
    faults.  What every acceptance keeps holds where it gets to. -/
theorem expand_cases {motive : Engine → Prop} (h : motive e)
    (haccept : ∀ e edge s, motive e → edge ∈ edges →
      e.analysis.post node.state edge = .ok (some s) → motive (e.accept parent edge s)) :
    ∃ x, motive x ∧ (e.expand parent node edges = (x, .ok ()) ∨
      ∃ edge f, edge ∈ edges ∧ x.analysis.post node.state edge = .error f ∧
        e.expand parent node edges =
          (if node.state = parent.state then x else x.recordChild parent edge node,
            .error ⟨.fault f, some node⟩)) := by
  induction edges generalizing e with
  | nil => exact ⟨e, h, Or.inl rfl⟩
  | cons edge rest ih =>
      rw [expand]
      split
      · rename_i f hf
        exact ⟨e, h, Or.inr ⟨edge, f, List.mem_cons_self, hf, rfl⟩⟩
      · obtain ⟨x, hx, hok | ⟨edge', f, hmem, hpost, heq⟩⟩ :=
          ih h fun e edge s he hedge => haccept e edge s he (List.mem_cons_of_mem _ hedge)
        · exact ⟨x, hx, Or.inl hok⟩
        · exact ⟨x, hx, Or.inr ⟨edge', f, List.mem_cons_of_mem _ hmem, hpost, heq⟩⟩
      · rename_i s hs
        obtain ⟨x, hx, hok | ⟨edge', f, hmem, hpost, heq⟩⟩ :=
          ih (haccept e edge s h List.mem_cons_self hs)
            fun e edge s he hedge => haccept e edge s he (List.mem_cons_of_mem _ hedge)
        · exact ⟨x, hx, Or.inl hok⟩
        · exact ⟨x, hx, Or.inr ⟨edge', f, List.mem_cons_of_mem _ hmem, hpost, heq⟩⟩

/-- What every acceptance of a successor keeps, an expansion keeps. -/
theorem expand_invariant {motive : Engine → Prop} (h : motive e)
    (hrecord : ∀ e edge child, motive e → motive (e.recordChild parent edge child))
    (haccept : ∀ e edge s, motive e → edge ∈ edges →
      e.analysis.post node.state edge = .ok (some s) → motive (e.accept parent edge s)) :
    motive (e.expand parent node edges).1 := by
  obtain ⟨x, hx, hok | ⟨edge, f, -, -, heq⟩⟩ := expand_cases h haccept
  · rw [hok]
    exact hx
  · rw [heq]
    dsimp only
    split
    · exact hx
    · exact hrecord x edge node hx

theorem refiled_expand : e.Refiled (e.expand parent node edges).1 :=
  expand_invariant (motive := e.Refiled) (.refl e)
    (fun _ _ _ h => h.trans ⟨_, _, _, _, rfl⟩) fun _ _ _ h _ _ => h.trans refiled_accept

/-- An expansion keeps the engine coherent and lets it grow. -/
theorem Coherent.expand (h : e.Coherent) (hnode : e.analysis.Fits node.state) :
    (e.expand parent node edges).1.Coherent ∧ e.Grows (e.expand parent node edges).1 := by
  refine expand_invariant (motive := fun x => x.Coherent ∧ e.Grows x) ⟨h, .refl e⟩ ?_ ?_
  · rintro x edge child ⟨hx, hgrows⟩
    exact ⟨⟨⟨hx.queued, hx.recent⟩, hx.fits, hx.reached⟩,
      hgrows.trans ⟨rfl, (Grows.refl x).covered, (Grows.refl x).fresh, (Grows.refl x).kept⟩⟩
  · rintro x edge s ⟨hx, hgrows⟩ - hpost
    rw [hgrows.analysis] at hpost
    have hs : x.analysis.Fits s := hgrows.analysis ▸ Analysis.fits_post hnode hpost
    exact ⟨hx.accept hs, hgrows.trans (hx.grows_accept hs)⟩

/-- The edge can be followed, and if it leads anywhere, what it leads to is covered. -/
def Follows (e : Engine) (s : State) (edge : Edge) : Prop :=
  ∃ o, e.analysis.post s edge = .ok o ∧ ∀ t, o = some t → e.Covers t

theorem Grows.follows {e' : Engine} (h : e.Grows e') {s : State} {edge : Edge}
    (hs : e.Follows s edge) : e'.Follows s edge := by
  obtain ⟨o, ho, hcov⟩ := hs
  exact ⟨o, h.analysis ▸ ho, fun t ht => h.covers (hcov t ht)⟩

/-- An expansion that goes through has followed all edges. -/
theorem Coherent.follows_expand (h : e.Coherent) (hnode : e.analysis.Fits node.state)
    (hok : (e.expand parent node edges).2 = .ok ()) :
    ∀ edge ∈ edges, (e.expand parent node edges).1.Follows node.state edge := by
  induction edges generalizing e with
  | nil => exact fun edge hedge => absurd hedge List.not_mem_nil
  | cons edge rest ih =>
      rw [Engine.expand] at hok ⊢
      split at hok
      · exact absurd hok (by simp)
      · rename_i hpost
        refine List.forall_mem_cons.2 ⟨?_, ih h hnode hok⟩
        exact (h.expand hnode).2.follows ⟨none, hpost, fun t ht => absurd ht (by simp)⟩
      · rename_i s hpost
        have hs : e.analysis.Fits s := Analysis.fits_post hnode hpost
        have hgrows : e.Grows (e.accept parent edge s) := h.grows_accept hs
        have hnode' : (e.accept parent edge s).analysis.Fits node.state := hgrows.analysis ▸ hnode
        refine List.forall_mem_cons.2 ⟨?_, ih (h.accept hs) hnode' hok⟩
        apply ((h.accept hs).expand hnode').2.follows
        refine ⟨some s, hgrows.analysis ▸ hpost, fun t ht => ?_⟩
        obtain rfl := Option.some.inj ht
        exact covers_accept

end Engine

namespace Exploration

variable {w : Surroundings} {x y : Exploration} {n : Node}

/-! ## Picking a node -/

/-- The node whose turn it is in the next round, if there is one. -/
def picked? (w : Surroundings) (x : Exploration) : Option Node :=
  (x.tick w).engine.worklist.pick.1

/-- `y` is `x` after `n` was taken from the worklist. -/
structure Picks (x : Exploration) (n : Node) (y : Exploration) : Prop where
  member : n ∈ x.engine.worklist.members
  members_subset : y.engine.worklist.members ⊆ x.engine.worklist.members
  isPending_iff : ∀ s, y.engine.IsPending s ↔ s ≠ n.state ∧ x.engine.IsPending s
  reached : y.engine.reached = x.engine.reached
  tree : y.engine.tree = x.engine.tree
  nextId : y.engine.nextId = x.engine.nextId
  analysis : y.engine.analysis = x.engine.analysis
  source : y.engine.source = x.engine.source
  precisions : y.precisions = x.precisions
  trace : y.trace = x.trace
  filed : y.engine.Filed

theorem Picks.pending (h : x.Picks n y) : x.engine.IsPending n.state :=
  Worklist.contains_iff.2 ⟨n, h.member, rfl⟩

/-- Counting a visited state can drop stale entries of the queue and can set the stop flag. -/
theorem tick_engine (w : Surroundings) (x : Exploration) :
    ((x.tick w).trace = x.trace ∧ (x.tick w).precisions = x.precisions) ∧
      ∃ worklist stopped visited,
        (x.tick w).engine = { x.engine with worklist, stopped, visited } ∧
          (worklist = x.engine.worklist ∨ worklist = x.engine.worklist.compact) := by
  unfold tick
  dsimp only
  split
  · exact ⟨⟨rfl, rfl⟩, _, _, _, rfl, Or.inr rfl⟩
  · exact ⟨⟨rfl, rfl⟩, _, _, _, rfl, Or.inl rfl⟩

/-- Housekeeping leaves the members alone, and the queue still has all of them. -/
theorem queued_tick (hx : x.engine.Filed) (w : Surroundings) :
    (x.tick w).engine.worklist.Queued ∧
      (x.tick w).engine.worklist.members = x.engine.worklist.members ∧
      (x.tick w).engine.worklist.queue ⊆ x.engine.worklist.queue := by
  obtain ⟨-, worklist, stopped, visited, hengine, hw⟩ := tick_engine w x
  rw [hengine]
  rcases hw with rfl | rfl
  · exact ⟨hx.queued, rfl, List.Subset.refl _⟩
  · exact ⟨Worklist.queued_compact hx.queued, rfl, fun _ => Worklist.mem_queue_of_mem_compact⟩

/-- A round that goes on has a node to pick. -/
theorem exists_picks (hx : x.engine.Filed) (hgo : x.goesOn = true) :
    ∃ n rest, (x.tick w).engine.worklist.pick = (some n, rest) ∧
      x.Picks n { x.tick w with engine := { (x.tick w).engine with worklist := rest } } := by
  obtain ⟨⟨htrace, hprecisions⟩, worklist, stopped, visited, hengine, -⟩ := tick_engine w x
  obtain ⟨hqueued, hmembers, hsub⟩ := queued_tick hx w
  rw [hengine] at hqueued hmembers hsub
  have hcontains : ∀ s, worklist.contains s = x.engine.worklist.contains s := by
    intro s
    rw [Worklist.contains, hmembers, Worklist.contains]
  rw [hengine]
  cases hpick : worklist.pick with
  | mk picked rest =>
      cases picked with
      | none =>
          have hempty := (hqueued.pick_none hpick).1
          rw [hmembers] at hempty
          simp [goesOn, Worklist.isEmpty, hempty] at hgo
      | some n =>
          obtain ⟨hmember, -, hrest, hqueue, hkeeps⟩ := hqueued.pick_some hpick
          have hothers : ∀ s, rest.contains s = (worklist.erase n.state).contains s := by
            intro s
            rw [Worklist.contains, hrest]
            rfl
          refine ⟨n, rest, rfl, ?_⟩
          exact {
            member := hmembers ▸ hmember
            members_subset := by
              rw [← hmembers, hrest]
              exact List.filter_subset_self _
            isPending_iff := fun s => by
              show rest.contains s = true ↔ s ≠ n.state ∧ x.engine.worklist.contains s = true
              rw [hothers, Worklist.contains_erase, hcontains]
            reached := rfl
            tree := rfl
            nextId := rfl
            analysis := rfl
            source := rfl
            precisions := hprecisions
            trace := htrace
            filed := ⟨hkeeps, fun k hk => hx.recent k (hsub (hqueue k hk))⟩ }

/-! ## Visiting a node -/

/-- `z` is `x` after the edges of `m` were asked for, where `m` is `n` adjusted to the precision of
    its location; a node that the adjustment changed has a new identity. -/
structure Asks (x : Exploration) (n m : Node) (z : Exploration) : Prop where
  adjusted : ∃ q, x.engine.analysis.refine n.state
      (x.precisions.getD n.location x.engine.analysis.precision) = .ok (m.state, q) ∧
    z.precisions = x.precisions.insert m.location q
  renamed : (m = n ∧ z.engine.nextId = x.engine.nextId) ∨
    (m.state ≠ n.state ∧ m.id = x.engine.nextId ∧ z.engine.nextId = x.engine.nextId + 1)
  reached : z.engine.reached = x.engine.reached
  worklist : z.engine.worklist = x.engine.worklist
  tree : z.engine.tree = x.engine.tree
  analysis : z.engine.analysis = x.engine.analysis
  source : z.engine.source = (x.engine.source.edges m).1
  trace : z.trace = x.trace ++ [⟨m, (x.engine.source.edges m).2⟩]

theorem Asks.nextId {m : Node} (h : x.Asks n m y) : x.engine.nextId ≤ y.engine.nextId := by
  rcases h.renamed with ⟨-, hid⟩ | ⟨-, -, hid⟩ <;> omega

/-- What can come of visiting `n`: it cannot be adjusted, its edges cannot be told, or it is
    expanded along them. -/
inductive Visits (x : Exploration) (n : Node) : Exploration → Except Failure Unit → Prop where
  | stuck (f : Fault) : Visits x n x (.error ⟨.fault f, some n⟩)
  | refused {m : Node} {z : Exploration} {f : Failure} (asks : x.Asks n m z)
      (answer : (x.engine.source.edges m).2 = .error f) : Visits x n z (.error (f.attach m))
  | expanded {m : Node} {z : Exploration} {es : List Edge} (asks : x.Asks n m z)
      (answer : (x.engine.source.edges m).2 = .ok es) :
      Visits x n { z with engine := (z.engine.expand n m es).1 } (z.engine.expand n m es).2

/-- Asking for the edges of the adjusted node. -/
theorem asks_query {m : Node} {y : Exploration} (w : Surroundings) (h : x.adjust n = .ok (m, y)) :
    x.Asks n m (y.query w m).1 ∧ (y.query w m).2 = (x.engine.source.edges m).2 := by
  obtain ⟨⟨s, q⟩, hrefine, h⟩ := bind_eq_ok.1 h
  dsimp only at h
  by_cases hs : s = n.state
  · rw [if_pos hs] at h
    obtain ⟨rfl, rfl⟩ := Prod.mk.inj (Except.ok.inj h)
    subst hs
    exact ⟨⟨⟨q, hrefine, rfl⟩, Or.inl ⟨rfl, rfl⟩, rfl, rfl, rfl, rfl, rfl, rfl⟩, rfl⟩
  · rw [if_neg hs] at h
    obtain ⟨rfl, rfl⟩ := Prod.mk.inj (Except.ok.inj h)
    exact ⟨⟨⟨q, hrefine, rfl⟩, Or.inr ⟨hs, rfl, rfl⟩, rfl, rfl, rfl, rfl, rfl, rfl⟩, rfl⟩

theorem visits_visit (w : Surroundings) (x : Exploration) (n : Node) :
    x.Visits n (x.visit w n).1 (x.visit w n).2 := by
  unfold visit
  cases hadjust : x.adjust n with
  | error f => exact .stuck _
  | ok out =>
      obtain ⟨m, y⟩ := out
      obtain ⟨hasks, hanswer⟩ := asks_query w hadjust
      dsimp only
      cases hquery : y.query w m with
      | mk z answer =>
          rw [hquery] at hasks hanswer
          cases answer with
          | error f => exact .refused hasks hanswer.symm
          | ok es => exact .expanded hasks hanswer.symm

/-! ## One round -/

/-- A round that goes on picks a node and visits it; a failure ends the loop. -/
theorem step_of_goesOn (w : Surroundings) (hx : x.engine.Filed) (hgo : x.goesOn = true) :
    ∃ n x₁ y r, x.picked? w = some n ∧ x.Picks n x₁ ∧ x₁.Visits n y r ∧
      step w x = match r with
        | .ok () => .next y
        | .error f => .done (y, .error f) := by
  obtain ⟨n, rest, hpick, hpicks⟩ := exists_picks (w := w) hx hgo
  refine ⟨n, _, _, _, congrArg Prod.fst hpick, hpicks, visits_visit w _ n, ?_⟩
  unfold step
  rw [if_pos hgo]
  dsimp only
  rw [hpick]
  dsimp only
  split
  · rename_i heq
    rw [heq]
  · rename_i heq
    rw [heq]

theorem step_of_not_goesOn (w : Surroundings) (hgo : x.goesOn = false) :
    step w x = .done (x, .ok ()) := by
  unfold step
  rw [hgo]
  rfl

end Exploration

end CodeReach
