/-
  CodeReach.Proofs.Explore.Provenance

  What the reachability tree of an engine records.

  Along every life of an engine that keeps a tree, each reached and each pending node
  has an entry of its own, identities differ, and each link has a reason (`Links`): the
  edge was told for a node at the place of the parent, and either the child lies where
  that edge leads, or following the edge faulted and the child is the very node for
  which it was told.  This is `Traced`; `Traced.accept` is the step, and
  `History.traced` the whole life.

  Identities are handed out once each but not always recorded, and the identity of a
  successor is handed out before and recorded after those of the states it is merged
  into.  So an acceptance is described by what it adds to the tree (`Tree.Extends`).
-/
import CodeReach.Proofs.Explore.History
import CodeReach.Proofs.Explore.Tree

namespace CodeReach

/-- Why a tree shows `child` as reached from `parent` through an edge. -/
inductive Links (a : Analysis) (asked : List Query) (parent : Node) (edge : Edge) (child : Node) :
    Prop where
  /-- The edge leads to the place of the child. -/
  | followed {m : Node} {es : List Edge} {s : State} (told : ⟨m, .ok es⟩ ∈ asked)
      (mem : edge ∈ es) (place : m.location = parent.location)
      (post : a.post m.state edge = .ok (some s)) (lands : child.location = s.location)
  /-- The edge could not be followed from the child, which is the adjusted parent. -/
  | faulted {es : List Edge} {f : Fault} (told : ⟨child, .ok es⟩ ∈ asked) (mem : edge ∈ es)
      (place : child.location = parent.location) (post : a.post child.state edge = .error f)

theorem Links.mono {a : Analysis} {asked asked' : List Query} {parent child : Node} {edge : Edge}
    (h : Links a asked parent edge child) (hsub : asked ⊆ asked') :
    Links a asked' parent edge child := by
  cases h with
  | followed told mem place post lands => exact .followed (hsub told) mem place post lands
  | faulted told mem place post => exact .faulted (hsub told) mem place post

/-- `t'` is `t` with entries added that are no roots and have the identity `id` or a later one. -/
structure Tree.Extends (t : Tree) (id : Nat) (t' : Tree) : Prop where
  kept : t.entries ⊆ t'.entries
  added : ∀ c ∈ t'.entries, c ∈ t.entries ∨ (id ≤ c.node.id ∧ c.parent ≠ none)

namespace Tree.Extends

variable {t t' t'' : Tree} {id id' : Nat}

theorem refl (t : Tree) (id : Nat) : t.Extends id t :=
  ⟨fun _ hc => hc, fun _ hc => Or.inl hc⟩

theorem trans (h : t.Extends id t') (hid : id ≤ id') (h' : t'.Extends id' t'') :
    t.Extends id t'' where
  kept := fun _ hc => h'.kept (h.kept hc)
  added c hc := by
    rcases h'.added c hc with hc | ⟨hle, hparent⟩
    · exact h.added c hc
    · exact Or.inr ⟨by omega, hparent⟩

theorem shows {n : Node} (h : t.Extends id t') (hn : t.Shows n) : t'.Shows n := by
  obtain ⟨c, hc, rfl⟩ := hn
  exact ⟨c, h.kept hc, rfl⟩

/-- An identity that was handed out earlier and is not in use stays so. -/
theorem unused {i : Nat} (h : t.Extends id t') (hi : i < id) (hunused : t.Unused i) :
    t'.Unused i := by
  intro c hc
  rcases h.added c hc with hc | ⟨hle, -⟩
  · exact hunused c hc
  · omega

end Tree.Extends

namespace Engine

/-- The tree `t` of the engine shows all its nodes, and every link has a reason. -/
structure Traced (e : Engine) (a : Analysis) (asked : List Query) (t : Tree) : Prop where
  analysis : e.analysis = a
  tree : e.tree = some t
  distinct : t.Distinct
  recent : ∀ c ∈ t.entries, c.node.id < e.nextId
  pending : ∀ n ∈ e.worklist.members, t.Shows n
  reached : ∀ n ∈ e.reached.toList, t.Shows n
  linked : t.Linked (Links a asked)

variable {e e' : Engine} {a : Analysis} {asked asked' : List Query} {t : Tree}
  {parent node child : Node} {edge : Edge} {edges : List Edge} {s m : State}

theorem Traced.unused_nextId (h : e.Traced a asked t) : t.Unused e.nextId := by
  intro c hc
  have hlt := h.recent c hc
  omega

theorem Traced.mono (h : e.Traced a asked t) (hsub : asked ⊆ asked') : e.Traced a asked' t :=
  { h with linked := h.linked.mono fun _ _ _ hlink => hlink.mono hsub }

/-! ## Recording one child -/

/-- A child with an identity that is not in use yet is recorded below a node that is shown.  It may
    have been entered into the containers just before. -/
theorem Traced.record (h : e.Traced a asked t) (e' : Engine) (child : Node)
    (htree : e'.tree = e.tree) (hanalysis : e'.analysis = e.analysis)
    (hnext : e'.nextId = e.nextId)
    (hpending : ∀ n ∈ e'.worklist.members, n = child ∨ n ∈ e.worklist.members)
    (hreached : ∀ n ∈ e'.reached.toList, n = child ∨ n ∈ e.reached.toList)
    (hparent : t.Shows parent) (hid : child.id < e.nextId) (hnew : t.Unused child.id)
    (hlink : Links a asked parent edge child) :
    ∃ i, (e'.recordChild parent edge child).Traced a asked (t.attach i edge child) := by
  obtain ⟨i, d, hposition, hentry, hd⟩ := hparent.exists_position h.distinct
  have hold : ∀ n, t.Shows n → (t.attach i edge child).Shows n := by
    rintro n ⟨c, hc, rfl⟩
    exact ⟨c, List.mem_cons_of_mem _ hc, rfl⟩
  have hself : (t.attach i edge child).Shows child := ⟨_, List.mem_cons_self, rfl⟩
  refine ⟨i, ?_⟩
  exact {
    analysis := hanalysis.trans h.analysis
    tree := by
      show e'.tree.map _ = _
      rw [htree, h.tree, Option.map_some, Tree.addChild, hposition]
    distinct := by
      refine List.nodup_cons.2 ⟨fun hmem => ?_, h.distinct⟩
      obtain ⟨c, hc, hcid⟩ := List.mem_map.1 hmem
      exact hnew c hc hcid
    recent := by
      intro c hc
      show c.node.id < e'.nextId
      rw [hnext]
      rcases List.mem_cons.1 hc with rfl | hc
      · exact hid
      · exact h.recent c hc
    pending := by
      intro n hn
      rcases hpending n hn with rfl | hn
      · exact hself
      · exact hold n (h.pending n hn)
    reached := by
      intro n hn
      rcases hreached n hn with rfl | hn
      · exact hself
      · exact hold n (h.reached n hn)
    linked := by
      refine h.linked.cons rfl fun j edge' hj => ?_
      obtain ⟨rfl, rfl⟩ := Prod.mk.inj (Option.some.inj hj)
      exact ⟨d, hentry, hd ▸ hlink⟩ }

theorem extends_attach {i : Nat} (hid : e.nextId ≤ child.id) :
    t.Extends e.nextId (t.attach i edge child) where
  kept := fun _ hc => List.mem_cons_of_mem _ hc
  added c hc := by
    rcases List.mem_cons.1 hc with rfl | hc
    · exact Or.inr ⟨hid, by simp⟩
    · exact Or.inl hc

/-! ## Accepting a successor -/

theorem Traced.newNode (h : e.Traced a asked t) (s : State) : (e.newNode s).2.Traced a asked t :=
  { h with recent := fun c hc => Nat.lt_succ_of_lt (h.recent c hc) }

theorem Traced.discardAll (h : e.Traced a asked t) (as : List (Node × State)) :
    (e.discardAll as).Traced a asked t := by
  refine List.foldlRecOn (motive := fun x : Engine => x.Traced a asked t) as _ h ?_
  intro x hx b _
  exact { hx with
    pending := fun n hn => hx.pending n (List.mem_filter.1 hn).1
    reached := fun n hn => hx.reached n (ReachedSet.toList_erase_subset _ _ hn) }

/-- A merged state is recorded if it was not reached before. -/
theorem Traced.enterMerged (h : e.Traced a asked t) (hparent : t.Shows parent)
    (hlink : Links a asked parent edge ⟨e.nextId, m⟩) :
    (e.enterMerged parent edge m).nextId = e.nextId + 1 ∧
      ∃ t', (e.enterMerged parent edge m).Traced a asked t' ∧ t.Extends e.nextId t' := by
  unfold Engine.enterMerged
  dsimp only [Engine.newNode]
  split
  · exact ⟨rfl, t, h.newNode m, .refl t _⟩
  · obtain ⟨i, hi⟩ := (h.newNode m).record ((e.newNode m).2.enter ⟨e.nextId, m⟩)
      ⟨e.nextId, m⟩ rfl rfl rfl (fun n hn => Worklist.mem_members_insert hn)
      (fun n hn => ReachedSet.mem_toList_insert hn) hparent (Nat.lt_succ_self _)
      h.unused_nextId hlink
    exact ⟨rfl, _, hi, extends_attach (Nat.le_refl _)⟩

/-- Everything that a successor is merged into gets a later identity than the successor itself. -/
theorem Traced.absorb (h : e.Traced a asked t) (hparent : t.Shows parent)
    (hlink : ∀ child : Node, child.location = s.location → Links a asked parent edge child) :
    e.nextId < (e.absorb parent edge s).nextId ∧
      ∃ t', (e.absorb parent edge s).Traced a asked t' ∧ t.Extends (e.nextId + 1) t' := by
  refine List.foldlRecOn (motive := fun x : Engine => e.nextId < x.nextId ∧
    ∃ t', x.Traced a asked t' ∧ t.Extends (e.nextId + 1) t') _ _ ?_ ?_
  · refine ⟨?_, t, (h.newNode s).discardAll _, .refl t _⟩
    rw [discardAll_nextId]
    exact Nat.lt_succ_self _
  · rintro x ⟨hlt, t', hx, hextends⟩ ⟨r, m⟩ hm
    obtain ⟨-, hmerge⟩ := mem_absorbers.1 ⟨(r, m), hm, rfl, rfl⟩
    obtain ⟨hnext, t'', hx', hextends'⟩ := hx.enterMerged (m := m) (hextends.shows hparent)
      (hlink ⟨x.nextId, m⟩ (Analysis.location_of_merge hmerge))
    refine ⟨?_, t'', hx', hextends.trans (by omega) hextends'⟩
    show e.nextId < (x.enterMerged parent edge m).nextId
    omega

/-- An accepted successor is recorded below its parent, and so is what it is merged into. -/
theorem Traced.accept (h : e.Traced a asked t) (hparent : t.Shows parent)
    (hlink : ∀ child : Node, child.location = s.location → Links a asked parent edge child) :
    e.nextId < (e.accept parent edge s).nextId ∧
      ∃ t', (e.accept parent edge s).Traced a asked t' ∧ t.Extends e.nextId t' := by
  obtain ⟨hlt, t', habsorb, hextends⟩ := h.absorb hparent hlink
  have hextends' : t.Extends e.nextId t' :=
    (Tree.Extends.refl t e.nextId).trans (Nat.le_succ _) hextends
  rw [accept_eq]
  split
  · exact ⟨hlt, t', habsorb, hextends'⟩
  · -- The identity of the successor was handed out first and is still not in use.
    have hnew : t'.Unused e.nextId := hextends.unused (Nat.lt_succ_self _) h.unused_nextId
    obtain ⟨i, hi⟩ := habsorb.record ((e.absorb parent edge s).enter ⟨e.nextId, s⟩)
      ⟨e.nextId, s⟩ rfl rfl rfl (fun n hn => Worklist.mem_members_insert hn)
      (fun n hn => ReachedSet.mem_toList_insert hn) (hextends.shows hparent) hlt hnew
      (hlink _ rfl)
    exact ⟨hlt, _, hi, hextends'.trans (Nat.le_refl _) (extends_attach (Nat.le_refl _))⟩

/-! ## Expanding a node -/

/-- An expansion of `node`, which is `parent` or its adjusted copy with an identity that is not in
    use yet.  If following an edge faults, the node is shown at the end in either case. -/
theorem Traced.expand (h : e.Traced a asked t) (hparent : t.Shows parent)
    (hnode : node = parent ∨
      (node.state ≠ parent.state ∧ node.id < e.nextId ∧ t.Unused node.id))
    (hplace : node.location = parent.location) (htold : ⟨node, .ok edges⟩ ∈ asked) :
    e.nextId ≤ (e.expand parent node edges).1.nextId ∧
    ∃ t', (e.expand parent node edges).1.Traced a asked t' ∧
      (((e.expand parent node edges).2 = .ok () ∧ t.Extends e.nextId t') ∨
        ∃ edge ∈ edges, ∃ f, a.post node.state edge = .error f ∧
          (e.expand parent node edges).2 = .error ⟨.fault f, some node⟩ ∧
          t'.Shows parent ∧ t'.Shows node) := by
  obtain ⟨x, ⟨hle, t', hx, hextends⟩, hok | ⟨edge, f, hmem, hpost, hfault⟩⟩ :=
    @expand_cases e parent node edges
      (fun x => e.nextId ≤ x.nextId ∧ ∃ t', x.Traced a asked t' ∧ t.Extends e.nextId t')
      ⟨Nat.le_refl _, t, h, .refl t _⟩
      (by
        rintro x edge s ⟨hle, t', hx, hextends⟩ hmem hpost
        rw [hx.analysis] at hpost
        obtain ⟨hlt, t'', hx', hextends'⟩ := hx.accept (s := s)
          (hextends.shows hparent) fun child hchild =>
            .followed htold hmem hplace hpost hchild
        exact ⟨by omega, t'', hx', hextends.trans hle hextends'⟩)
  · rw [hok]
    exact ⟨hle, t', hx, Or.inl ⟨rfl, hextends⟩⟩
  · rw [hx.analysis] at hpost
    rw [hfault]
    by_cases hstate : node.state = parent.state
    · -- The node was not changed by its adjustment, so it is the parent itself.
      rw [if_pos hstate]
      have hself : node = parent := hnode.resolve_right fun hne => hne.1 hstate
      have hshows := hextends.shows hparent
      exact ⟨hle, t', hx, Or.inr ⟨edge, hmem, f, hpost, rfl, hshows, hself ▸ hshows⟩⟩
    · rw [if_neg hstate]
      obtain ⟨-, hid, hunused⟩ := hnode.resolve_left fun heq => hstate (congrArg Node.state heq)
      obtain ⟨i, hi⟩ := hx.record x node rfl rfl rfl
        (fun n hn => Or.inr hn) (fun n hn => Or.inr hn) (hextends.shows hparent) (by omega)
        (hextends.unused hid hunused) (.faulted htold hmem hplace hpost)
      obtain ⟨c, hc, rfl⟩ := hextends.shows hparent
      exact ⟨hle, _, hi, Or.inr ⟨edge, hmem, f, hpost, rfl,
        ⟨c, List.mem_cons_of_mem _ hc, rfl⟩, _, List.mem_cons_self, rfl⟩⟩

end Engine

namespace Exploration

variable {w : Surroundings} {x y z : Exploration} {n m : Node} {r : Except Failure Unit}
  {a : Analysis} {asked : List Query} {t : Tree}

/-! ## One round -/

theorem Picks.traced (h : x.Picks n y) (hx : x.engine.Traced a (asked ++ x.trace) t) :
    y.engine.Traced a (asked ++ y.trace) t where
  analysis := h.analysis.trans hx.analysis
  tree := h.tree.trans hx.tree
  distinct := hx.distinct
  recent := h.nextId ▸ hx.recent
  pending k hk := hx.pending k (h.members_subset hk)
  reached := h.reached ▸ hx.reached
  linked := h.trace ▸ hx.linked

theorem Asks.asked_subset (h : x.Asks n m z) (asked : List Query) :
    asked ++ x.trace ⊆ asked ++ z.trace := by
  rw [h.trace, ← List.append_assoc]
  exact List.subset_append_left _ _

theorem Asks.traced (h : x.Asks n m z) (hx : x.engine.Traced a (asked ++ x.trace) t) :
    z.engine.Traced a (asked ++ z.trace) t where
  analysis := h.analysis.trans hx.analysis
  tree := h.tree.trans hx.tree
  distinct := hx.distinct
  recent c hc := Nat.lt_of_lt_of_le (hx.recent c hc) h.nextId
  pending := h.worklist ▸ hx.pending
  reached := h.reached ▸ hx.reached
  linked := (hx.mono (h.asked_subset asked)).linked

/-- The adjusted node is the picked one, or a copy with an identity that is not in use yet. -/
theorem Asks.node_cases (h : x.Asks n m z) (hx : x.engine.Traced a (asked ++ x.trace) t) :
    m = n ∨ (m.state ≠ n.state ∧ m.id < z.engine.nextId ∧ t.Unused m.id) := by
  rcases h.renamed with ⟨hm, -⟩ | ⟨hne, hid, hnext⟩
  · exact Or.inl hm
  · exact Or.inr ⟨hne, by omega, hid ▸ hx.unused_nextId⟩

theorem Asks.location_eq (h : x.Asks n m z) : m.location = n.location := by
  obtain ⟨q, hrefine, -⟩ := h.adjusted
  obtain ⟨out, -, hout⟩ := bind_eq_ok.1 hrefine
  rw [Node.location, ← (Prod.mk.inj (Except.ok.inj hout)).1]
  rfl

theorem Asks.told (h : x.Asks n m z) {es : List Edge}
    (answer : (x.engine.source.edges m).2 = .ok es) : ⟨m, .ok es⟩ ∈ asked ++ z.trace := by
  rw [h.trace, answer]
  exact List.mem_append_right _ (List.mem_append_right _ (List.mem_singleton_self _))

/-- A visit keeps the engine traced; one that goes through only adds what it has accepted. -/
theorem Visits.traced (h : x.Visits n y r) (hx : x.engine.Traced a (asked ++ x.trace) t)
    (hn : t.Shows n) :
    ∃ t', y.engine.Traced a (asked ++ y.trace) t' ∧
      (r = .ok () → x.engine.nextId ≤ y.engine.nextId ∧ t.Extends x.engine.nextId t') := by
  cases h with
  | stuck f => exact ⟨t, hx, fun hr => absurd hr (by simp)⟩
  | refused asks answer => exact ⟨t, asks.traced hx, fun hr => absurd hr (by simp)⟩
  | @expanded m z es asks answer =>
      obtain ⟨hle, t', hz, ⟨-, hextends⟩ | ⟨edge, -, f, -, hfault, -, -⟩⟩ :=
        (asks.traced hx).expand hn (asks.node_cases hx) asks.location_eq (asks.told answer)
      · have hnext := asks.nextId
        refine ⟨t', hz, fun _ => ⟨Nat.le_trans hnext hle, ?_⟩⟩
        exact (Tree.Extends.refl t _).trans hnext hextends
      · exact ⟨t', hz, fun hr => absurd (hfault.symm.trans hr) (by simp)⟩

/-! ## Runs -/

/-- The node a run starts from. -/
def startNode (e : Engine) : Node :=
  ⟨e.nextId, startState e⟩

theorem traced_start {e : Engine} (h : e.Traced a asked t) :
    (start e).engine.Traced a (asked ++ (start e).trace) (t.setRoot (startNode e)) where
  analysis := h.analysis
  tree := by
    show e.tree.map _ = _
    rw [h.tree]
    rfl
  distinct := by
    refine List.nodup_cons.2 ⟨fun hmem => ?_, h.distinct⟩
    obtain ⟨c, hc, hid⟩ := List.mem_map.1 hmem
    exact h.unused_nextId c hc hid
  recent c hc := by
    show c.node.id < e.nextId + 1
    rcases List.mem_cons.1 hc with rfl | hc
    · exact Nat.lt_succ_self _
    · exact Nat.lt_succ_of_lt (h.recent c hc)
  pending n hn := by
    rcases Worklist.mem_members_insert hn with rfl | hn
    · exact ⟨_, List.mem_cons_self, rfl⟩
    · obtain ⟨c, hc, rfl⟩ := h.pending n hn
      exact ⟨c, List.mem_cons_of_mem _ hc, rfl⟩
  reached n hn := by
    rcases ReachedSet.mem_toList_insert hn with rfl | hn
    · exact ⟨_, List.mem_cons_self, rfl⟩
    · obtain ⟨c, hc, rfl⟩ := h.reached n hn
      exact ⟨c, List.mem_cons_of_mem _ hc, rfl⟩
  linked := by
    rw [show (start e).trace = [] from rfl, List.append_nil]
    exact h.linked.cons rfl fun i edge hparent => absurd hparent (by simp)

end Exploration

namespace Engine

variable {a : Analysis} {source : EdgeSource} {policy : Policy} {settings : Settings} {e : Engine}
  {asked : List Query} {failed : List State} {w : Surroundings} {k : Nat} {x : Exploration}
  {t : Tree}

/-- At each head of the loop the tree is that of the start with accepted nodes added. -/
theorem Traced.iterate (h : e.Traced a asked t) (hcoherent : e.Coherent)
    (hk : Loop.iterate (Exploration.step w) k (.start e) = .next x) :
    ∃ t', x.engine.Traced a (asked ++ x.trace) t' ∧
      (t.setRoot (Exploration.startNode e)).Extends (e.nextId + 1) t' := by
  refine (hcoherent.iterate_invariant
    (motive := fun x => e.nextId + 1 ≤ x.engine.nextId ∧
      ∃ t', x.engine.Traced a (asked ++ x.trace) t' ∧
        (t.setRoot (Exploration.startNode e)).Extends (e.nextId + 1) t')
    ⟨Nat.le_refl _, _, Exploration.traced_start h, .refl _ _⟩ ?_ hk).2.2
  rintro x y hx ⟨hle, t', htraced, hextends⟩ hstep
  obtain ⟨n, x₁, hpicks, hvisits⟩ := Exploration.visits_of_step_next hx hstep
  obtain ⟨t'', hy, hok⟩ :=
    hvisits.traced (hpicks.traced htraced) (htraced.pending n hpicks.member)
  obtain ⟨hle', hextends'⟩ := hok rfl
  rw [hpicks.nextId] at hle' hextends'
  exact ⟨Nat.le_trans hle hle', t'', hy, hextends.trans hle hextends'⟩

theorem traced_fresh (htree : (settings.needsTree || a.tracksVpc) = true)
    (order : Enumeration) : (fresh a source policy settings order).Traced a [] .empty where
  analysis := rfl
  tree := by
    show (if settings.needsTree || a.tracksVpc then some Tree.empty else none) = _
    rw [if_pos htree]
  distinct := List.nodup_nil
  recent c hc := absurd hc List.not_mem_nil
  pending n hn := absurd hn List.not_mem_nil
  reached n hn := absurd hn List.not_mem_nil
  linked j c i edge hc _ := absurd hc (by simp [Tree.entryAt?, Tree.empty])

/-- Along its whole life, an engine that keeps a tree is traced by it. -/
theorem History.traced (h : History a source policy settings e asked failed)
    (htree : (settings.needsTree || a.tracksVpc) = true) : ∃ t, e.Traced a asked t := by
  induction h with
  | built order => exact ⟨_, traced_fresh htree order⟩
  | stop _ ih =>
      obtain ⟨t, ht⟩ := ih
      exact ⟨t, { ht with }⟩
  | run before loop exit ih =>
      obtain ⟨t, ht⟩ := ih
      obtain ⟨t', hx, -⟩ := ht.iterate before.coherent loop
      rcases Exploration.visits_of_step_done (before.coherent.iterate loop).1 exit with
        ⟨-, rfl, -⟩ | ⟨n, x₁, f, -, hpicks, hvisits, -⟩
      · exact ⟨t', { hx with }⟩
      · obtain ⟨t'', hy, -⟩ := hvisits.traced (hpicks.traced hx) (hx.pending n hpicks.member)
        exact ⟨t'', { hy with }⟩

end Engine

end CodeReach
