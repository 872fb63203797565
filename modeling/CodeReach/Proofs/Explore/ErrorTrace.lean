/-
  CodeReach.Proofs.Explore.ErrorTrace

  Which failures can be explained by a path of the reachability tree.

  A run that fails names a node: the one that it picked, or the copy of it that the
  adjustment to the precision of its location made.  The picked node always has a
  path.  The copy gets an entry only if following one of its edges faults; where the
  source of edges itself refuses to answer, the copy is named but was never recorded
  (`failed_run_path_iff`, `refused_copy_has_no_path`).
-/
import CodeReach.Proofs.Explore.Provenance
import CodeReach.Proofs.Explore.Resolver
import CodeReach.Proofs.Explore.Termination
import CodeReach.Proofs.Transfer.Faults

namespace CodeReach

/-- The source of edges refused to answer: control left the code, or a target is not known. -/
def Cause.isRefusal : Cause → Bool
  | .fault (.missingStatement _) => true
  | .unresolved _ => true
  | _ => false

/-! ## Faults of the analysis -/

theorem ValueAnalysis.not_isRefusal_of_step {v : ValueAnalysis} {s : Registers} {stmt : Stmt}
    {f : Fault} (h : v.step s stmt = .error f) : (Cause.fault f).isRefusal = false := by
  obtain ⟨x, rfl, -⟩ := fault_of_step h
  rfl

theorem ComponentAnalysis.not_isRefusal_of_post {c : ComponentAnalysis} {s : State} {i : Nat}
    {edge : Edge} {f : Fault} (h : c.post s i edge = .error f) :
    (Cause.fault f).isRefusal = false := by
  cases c with
  | values v =>
      rcases bind_eq_error.1 h with h | ⟨r, -, h⟩
      · unfold registersAt at h
        split at h
        · exact absurd h (by simp)
        · rw [← Except.error.inj h]
          rfl
      · rcases bind_eq_error.1 h with h | ⟨_, -, h⟩
        · exact ValueAnalysis.not_isRefusal_of_step h
        · exact absurd h (by simp [pure, Except.pure])
  | calls k =>
      rcases bind_eq_error.1 h with h | ⟨_, -, h⟩
      · unfold callsAt at h
        split at h
        · exact absurd h (by simp)
        · rw [← Except.error.inj h]
          rfl
      · exact absurd h (by simp [pure, Except.pure])

/-- The analysis itself never finds that control left the code. -/
theorem Analysis.not_isRefusal_of_post {a : Analysis} {s : State} {edge : Edge} {f : Fault}
    (h : a.post s edge = .error f) : (Cause.fault f).isRefusal = false := by
  rcases bind_eq_error.1 h with h | ⟨_, -, h⟩
  · have hfrom : ∀ i, ∀ cs : List ComponentAnalysis, postFrom s edge i cs = .error f →
        (Cause.fault f).isRefusal = false := by
      intro i cs
      induction cs generalizing i with
      | nil => exact fun h => absurd h (by simp [postFrom, pure, Except.pure])
      | cons c rest ih =>
          intro h
          rw [postFrom] at h
          rcases bind_eq_error.1 h with h | ⟨o, -, h⟩
          · exact ComponentAnalysis.not_isRefusal_of_post h
          · cases o with
            | none => exact absurd h (by simp [pure, Except.pure])
            | some d =>
                rcases bind_eq_error.1 h with h | ⟨_, -, h⟩
                · exact ih (i + 1) h
                · exact absurd h (by simp [pure, Except.pure])
    exact hfrom 1 a.components h
  · exact absurd h (by simp [pure, Except.pure])

/-! ## Refusals of the source -/

/-- Whatever the source answers instead of edges is a refusal, and names the node it was asked
    about or none. -/
theorem EdgeSource.refusal_of_edges {source : EdgeSource} {n : Node} {f : Failure}
    (h : (source.edges n).2 = .error f) :
    f.cause.isRefusal = true ∧ (f.attach n).node = some n := by
  cases source with
  | static s => exact absurd h (by simp [edges])
  | resolving r =>
      replace h : (r.edges n).2 = .error f := h
      rcases r.edges_cases n with ⟨-, heq⟩ | ⟨site, g, -, -, heq⟩ | ⟨site, -, -, heq⟩
      · rw [heq] at h
        obtain rfl := Except.error.inj h
        exact ⟨rfl, rfl⟩
      · rw [heq] at h
        unfold Resolver.resolveGoto at h
        dsimp only at h
        split at h
        · obtain rfl := Except.error.inj h
          exact ⟨rfl, rfl⟩
        · exact absurd h (by simp)
      · rw [heq] at h
        exact absurd h (by simp)

namespace Exploration

variable {x y : Exploration} {n m : Node} {f : Failure} {a : Analysis} {asked : List Query}
  {t : Tree}

/-- `m` is `n` itself, or has the state of `n` adjusted to the precision of its location. -/
def AdjustsTo (x : Exploration) (n m : Node) : Prop :=
  m = n ∨ ∃ q, x.engine.analysis.refine n.state
    (x.precisions.getD n.location x.engine.analysis.precision) = .ok (m.state, q)

theorem Asks.adjustsTo (h : x.Asks n m y) : x.AdjustsTo n m := by
  obtain ⟨q, hrefine, -⟩ := h.adjusted
  exact Or.inr ⟨q, hrefine⟩

theorem Picks.adjustsTo (h : x.Picks n y) (hy : y.AdjustsTo n m) : x.AdjustsTo n m := by
  rw [AdjustsTo, h.analysis, h.precisions] at hy
  exact hy

/-- A visit that fails names the picked node or its adjusted copy.  The tree shows the picked node,
    and it shows the named one unless the source refused to answer for a copy. -/
theorem Visits.failure (h : x.Visits n y (.error f))
    (hx : x.engine.Traced a (asked ++ x.trace) t) (hn : t.Shows n) :
    ∃ t' m, y.engine.tree = some t' ∧ f.node = some m ∧ x.AdjustsTo n m ∧
      m.location = n.location ∧ (t'.pathTo? n).isSome = true ∧
      ((t'.pathTo? m).isSome = true ↔ f.cause.isRefusal = false ∨ m.state = n.state) := by
  generalize hr : (Except.error f : Except Failure Unit) = r at h
  cases h with
  | stuck g =>
      obtain rfl := Except.error.inj hr
      have hpath := hn.pathTo?_isSome
      exact ⟨t, n, hx.tree, rfl, Or.inl rfl, rfl, hpath, iff_of_true hpath (Or.inr rfl)⟩
  | @refused m z g asks answer =>
      obtain rfl := Except.error.inj hr
      obtain ⟨hrefusal, hnode⟩ := EdgeSource.refusal_of_edges answer
      have hpath := hn.pathTo?_isSome
      refine ⟨t, m, asks.tree.trans hx.tree, hnode, asks.adjustsTo, asks.location_eq, hpath, ?_⟩
      rcases asks.node_cases hx with rfl | ⟨hne, -, hunused⟩
      · exact iff_of_true hpath (Or.inr rfl)
      · -- The copy has an identity of its own, which no entry of the tree has.
        refine iff_of_false (fun hsome => ?_) ?_
        · obtain ⟨c, hc, hid⟩ := Tree.pathTo?_isSome.1 hsome
          exact hunused c hc hid
        · rintro (hcause | hstate)
          · exact absurd (hrefusal.symm.trans hcause) (by decide)
          · exact hne hstate
  | @expanded m z es asks answer =>
      obtain ⟨-, t', hz, ⟨hok, -⟩ | ⟨edge, -, g, hpost, hfault, hparent, hnode⟩⟩ :=
        (asks.traced hx).expand hn (asks.node_cases hx) asks.location_eq (asks.told answer)
      · exact absurd (hr.trans hok) (by simp)
      · obtain rfl := Except.error.inj (hr.trans hfault)
        refine ⟨t', m, hz.tree, rfl, asks.adjustsTo, asks.location_eq, hparent.pathTo?_isSome, ?_⟩
        exact iff_of_true hnode.pathTo?_isSome (Or.inl (Analysis.not_isRefusal_of_post hpost))

end Exploration

namespace Engine

variable {a : Analysis} {source : EdgeSource} {policy : Policy} {settings : Settings} {e : Engine}
  {asked : List Query} {failed : List State}

/-- Failed runs and their paths.  Whatever made a run of any engine with a tree fail, the engine is
    left failed, and the failure names the node that the failing round has picked or its adjusted
    copy.  There is a path to the picked node; to the named one there is a path exactly if the
    source of edges did not refuse to answer or the adjustment left the picked state as it was. -/
theorem History.failed_run_path_iff (h : History a source policy settings e asked failed)
    (htree : (settings.needsTree || a.tracksVpc) = true) (w : Surroundings) {f : Failure}
    (hfailed : (e.run w).2.result = .error f) :
    (e.run w).1.status = .failed ∧
    ∃ k x y n m t, Loop.iterate (Exploration.step w) k (.start e) = .next x ∧
      Exploration.step w x = .done (y, .error f) ∧ e.run w = finish y (.error f) ∧
      x.picked? w = some n ∧ f.node = some m ∧ x.AdjustsTo n m ∧ m.location = n.location ∧
      (e.run w).1.tree = some t ∧ (t.pathTo? n).isSome = true ∧
      ((t.pathTo? m).isSome = true ↔ f.cause.isRefusal = false ∨ m.state = n.state) := by
  obtain ⟨k, x, y, r, -, hloop, hexit, hrun⟩ := h.coherent.exists_exit w
  rw [hrun] at hfailed ⊢
  obtain rfl : r = .error f := hfailed
  refine ⟨rfl, k, x, y, ?_⟩
  obtain ⟨t, ht⟩ := h.traced htree
  obtain ⟨t', hx, -⟩ := ht.iterate h.coherent hloop
  rcases Exploration.visits_of_step_done (h.coherent.iterate hloop).1 hexit with
    ⟨-, -, hr⟩ | ⟨n, x₁, g, hpicked, hpicks, hvisits, hr⟩
  · exact absurd hr (by simp)
  · obtain rfl := Except.error.inj hr
    obtain ⟨t'', m, htree', hnode, hadjusts, hplace, hpath, hiff⟩ :=
      hvisits.failure (hpicks.traced hx) (hx.pending n hpicks.member)
    exact ⟨n, m, t'', hloop, hexit, rfl, hpicked, hnode, hpicks.adjustsTo hadjusts, hplace, htree',
      hpath, hiff⟩

/-- Code that puts a constant into `r1` before it goes on with the given items. -/
def afterConstant (items : List Item) : Program :=
  .assemble 0x1000 (.instruction 0x1000 4 "mov" [.assign 1 (.imm 5)] :: items)

/-- An engine that records the tree and whose adjustment forgets every constant. -/
def forgetful (p : Program) : Engine :=
  .fresh ⟨{}, [.values { program := p, threshold := 0 }]⟩
    (.resolving (.fresh p { errorTrace := true })) .fifo { errorTrace := true } .inserted

theorem history_forgetful (p : Program) : History ⟨{}, [.values { program := p, threshold := 0 }]⟩
    (.resolving (.fresh p { errorTrace := true })) .fifo { errorTrace := true } (forgetful p)
    [] [] :=
  .built .inserted

/-- A store to the null page at the address after the constant. -/
def nullStore : Item :=
  .instruction 0x1004 4 "st" [.store (.imm 0x10) (.reg 1) 8]

/-- The node in which the constant was forgotten, with the identity that it gets. -/
def forgottenConstant : Node :=
  ⟨2, .plain (Label.start 0x1004), [.values .unknown]⟩

theorem result_nullStore :
    ((forgetful (afterConstant [nullStore])).run (.stopAfter none)).2.result =
      .error ⟨.fault (.invalidAccess 0x10), some forgottenConstant⟩ := by
  decide +kernel

/-- A store that faults after its state was adjusted: the failure names the copy, which has a
    path. -/
theorem failed_run_path_nullStore : ∃ f m t,
    ((forgetful (afterConstant [nullStore])).run (.stopAfter none)).2.result = .error f ∧
      f.node = some m ∧
      ((forgetful (afterConstant [nullStore])).run (.stopAfter none)).1.tree = some t ∧
      (t.pathTo? m).isSome = true := by
  obtain ⟨-, _, _, _, _, m, t, -, -, -, -, hm, -, -, ht, -, hiff⟩ :=
    (history_forgetful (afterConstant [nullStore])).failed_run_path_iff rfl (.stopAfter none)
      result_nullStore
  exact ⟨_, m, t, result_nullStore, hm, ht, hiff.2 (Or.inl rfl)⟩

/-- Code that ends after the constant: the run fails because no statement follows, and it names the
    copy in which the constant was forgotten, which has no path. -/
theorem refused_copy_has_no_path :
    ((forgetful (afterConstant [])).run (.stopAfter none)).2.result =
        .error ⟨.fault (.missingStatement (Label.start 0x1004)), some forgottenConstant⟩ ∧
      ((forgetful (afterConstant [])).run (.stopAfter none)).1.status = .failed ∧
      ((forgetful (afterConstant [])).run (.stopAfter none)).1.tree.map
        (·.pathTo? forgottenConstant) = some none := by
  decide +kernel

end Engine

end CodeReach
