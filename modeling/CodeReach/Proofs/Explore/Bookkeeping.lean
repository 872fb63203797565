/-
  CodeReach.Proofs.Explore.Bookkeeping

  What a resolver knows about itself after any sequence of questions: the flag that all
  gotos could be resolved, the labels of those that could not, and the graph of the edges
  it has handed out.

  The three are updated at different points, and a question can fail halfway.  They agree
  all the same (`Booked`), in a way that depends on the mode.  Where unknown targets are
  given up, the flag is down exactly if some label was noted, and every edge is certain.
  Where unknown targets are followed everywhere, no label is noted, and the flag is down
  exactly if some edge is a guess; this needs that there is code to guess, and a program
  with a statement has some.

  `keeps_books` puts this together with what a question never does: it takes nothing
  back, it records nothing but what it answers, and a missing statement leaves no trace.
-/
import CodeReach.Proofs.Code.Assemble
import CodeReach.Proofs.Explore.Resolver
import CodeReach.Proofs.Flow.Graph

namespace CodeReach

theorem OrdSet.insert_ne_empty {α : Type} [Ord α] [Std.TransOrd α] [Std.LawfulEqOrd α]
    (s : OrdSet α) (x : α) : s.insert x ≠ .empty := by
  intro h
  have hx : x ∈ s.insert x := OrdSet.mem_insert.2 (Or.inl rfl)
  rw [h] at hx
  exact OrdSet.not_mem_empty hx

namespace Resolver

variable {r : Resolver} {n : Node} {site : PlacedStmt} {g : Goto} {s : State} {t : Turn}

/-! ## Turns of a resolver -/

/-- Where unknown targets are given up, a turn is certain or lost, and its edges are certain. -/
theorem turn_of_not_allEdges (hmode : r.settings.allEdges = false) (ht : t ∈ r.turns s site g) :
    (t.isCertain = false ↔ t = .lost) ∧ ∀ e ∈ t.edges, e.kind = .must := by
  obtain ⟨c, y, -, rfl⟩ := mem_turns.1 ht
  rcases g.turn_cases site r.program.codeAddresses r.settings.allEdges c y with
    h | ⟨-, -, ⟨hall, -⟩ | ⟨-, h⟩⟩
  · rw [h]
    exact ⟨by simp [Turn.isCertain],
      fun e he => Goto.kind_of_certainEdge? (Option.mem_toList.1 he)⟩
  · rw [hmode] at hall
    contradiction
  · rw [h]
    exact ⟨by simp [Turn.isCertain], fun e he => absurd he List.not_mem_nil⟩

/-- Where unknown targets are followed everywhere, no turn is lost, and a turn is uncertain exactly
    if it has a may edge. -/
theorem turn_of_allEdges (hmode : r.settings.allEdges = true)
    (hcode : r.program.codeAddresses ≠ []) (ht : t ∈ r.turns s site g) :
    t ≠ .lost ∧ (t.isCertain = false ↔ ∃ e ∈ t.edges, e.kind = .may) := by
  obtain ⟨c, y, -, rfl⟩ := mem_turns.1 ht
  rcases g.turn_cases site r.program.codeAddresses r.settings.allEdges c y with
    h | ⟨-, -, ⟨-, h⟩ | ⟨hall, -⟩⟩
  · rw [h]
    refine ⟨by simp, iff_of_false (by simp [Turn.isCertain]) ?_⟩
    rintro ⟨e, he, hkind⟩
    rw [Goto.kind_of_certainEdge? (Option.mem_toList.1 he)] at hkind
    contradiction
  · rw [h]
    obtain ⟨a, ha⟩ := List.exists_mem_of_ne_nil _ hcode
    exact ⟨by simp, iff_of_true rfl ⟨g.guessed site a, List.mem_map_of_mem ha, rfl⟩⟩
  · rw [hmode] at hall
    contradiction

theorem kind_of_mem_callReturnEdges {e : Edge} (h : e ∈ r.callReturnEdges site g) :
    e.kind = .must := by
  unfold callReturnEdges at h
  split at h
  · obtain ⟨l, -, rfl⟩ := Option.map_eq_some_iff.1 (Option.mem_toList.1 h)
    rfl
  · exact absurd h List.not_mem_nil

theorem kind_of_mem_straightEdges {e : Edge} (h : e ∈ site.straightEdges) : e.kind = .must := by
  unfold PlacedStmt.straightEdges at h
  split at h
  · exact absurd h List.not_mem_nil
  · obtain ⟨l, -, rfl⟩ := Option.map_eq_some_iff.1 (Option.mem_toList.1 h)
    rfl

/-! ## One question -/

/-- Resolving a goto notes its label if a turn is lost.  It records the edges of the turns and the
    edge over a whole call, unless debug mode makes a lost turn a failure. -/
theorem resolveGoto_books (r : Resolver) (n : Node) (site : PlacedStmt) (g : Goto) :
    (r.resolveGoto n site g).1.unresolved =
      (if .lost ∈ r.turns n.state site g then r.unresolved.insert site.label else r.unresolved) ∧
    ∀ e, e ∈ (r.resolveGoto n site g).1.graph.edges ↔ e ∈ r.graph.edges ∨
      (¬ (.lost ∈ r.turns n.state site g ∧ r.settings.debug = true) ∧
        (e ∈ r.callReturnEdges site g ∨ ∃ t ∈ r.turns n.state site g, e ∈ t.edges)) := by
  unfold resolveGoto
  dsimp only
  simp only [List.contains_iff_mem, Bool.and_eq_true]
  split
  · rename_i hfail
    exact ⟨rfl, fun e => (or_iff_left fun htold => htold.1 hfail).symm⟩
  · rename_i htold
    refine ⟨rfl, fun e => ?_⟩
    simp only [htold, not_false_eq_true, true_and]
    rw [record, Graph.mem_insertAll, List.mem_eraseDups, List.mem_append, List.mem_flatMap, or_comm]
    rfl

/-- The flag, the labels and the graph agree with each other, as the mode has it. -/
structure Booked (r : Resolver) : Prop where
  givenUp : r.settings.allEdges = false →
    (r.sound = false ↔ r.unresolved ≠ .empty) ∧ ∀ e ∈ r.graph.edges, e.kind = .must
  followed : r.settings.allEdges = true →
    r.unresolved = .empty ∧ (r.sound = false ↔ ∃ e ∈ r.graph.edges, e.kind = .may)

theorem booked_fresh (program : Program) (settings : Settings) :
    (fresh program settings).Booked where
  givenUp _ := ⟨by simp [fresh], fun e he => absurd he (by simp [fresh, Graph.empty])⟩
  followed _ := ⟨rfl, by simp [fresh, Graph.empty]⟩

theorem Booked.resolveGoto (h : r.Booked) (hcode : r.program.codeAddresses ≠ []) (n : Node)
    (site : PlacedStmt) (g : Goto) : (r.resolveGoto n site g).1.Booked := by
  obtain ⟨-, hsettings, hsound⟩ := resolveGoto_fst r n site g
  obtain ⟨hunresolved, hgraph⟩ := resolveGoto_books r n site g
  have hflag : (r.resolveGoto n site g).1.sound = false ↔
      r.sound = false ∨ ∃ t ∈ r.turns n.state site g, t.isCertain = false := by
    rw [hsound, Bool.and_eq_false_iff, List.all_eq_false]
    simp only [Bool.not_eq_true]
  constructor
  · -- The flag goes down with the first label that is noted.
    intro hmode
    rw [hsettings] at hmode
    obtain ⟨hbefore, hmust⟩ := h.givenUp hmode
    have hlost : (∃ t ∈ r.turns n.state site g, t.isCertain = false) ↔
        .lost ∈ r.turns n.state site g := by
      constructor
      · rintro ⟨t, ht, hcertain⟩
        rwa [← (turn_of_not_allEdges hmode ht).1.1 hcertain]
      · exact fun ht => ⟨.lost, ht, rfl⟩
    refine ⟨?_, fun e he => ?_⟩
    · rw [hflag, hlost, hbefore, hunresolved]
      split
      · rename_i hmem
        exact iff_of_true (Or.inr hmem) (OrdSet.insert_ne_empty _ _)
      · rename_i hmem
        exact or_iff_left hmem
    · rcases (hgraph e).1 he with hold | ⟨-, hcall | ⟨t, ht, het⟩⟩
      · exact hmust e hold
      · exact kind_of_mem_callReturnEdges hcall
      · exact (turn_of_not_allEdges hmode ht).2 e het
  · -- The flag goes down with the first edge that is a guess.
    intro hmode
    rw [hsettings] at hmode
    obtain ⟨hempty, hbefore⟩ := h.followed hmode
    have hlost : .lost ∉ r.turns n.state site g := fun ht =>
      (turn_of_allEdges hmode hcode ht).1 rfl
    refine ⟨?_, ?_⟩
    · rw [hunresolved, if_neg hlost]
      exact hempty
    · rw [hflag, hbefore]
      constructor
      · rintro (⟨e, he, hmay⟩ | ⟨t, ht, hcertain⟩)
        · exact ⟨e, (hgraph e).2 (Or.inl he), hmay⟩
        · obtain ⟨e, he, hmay⟩ := (turn_of_allEdges hmode hcode ht).2.1 hcertain
          have htold : ¬ (.lost ∈ r.turns n.state site g ∧ r.settings.debug = true) :=
            fun hfail => hlost hfail.1
          exact ⟨e, (hgraph e).2 (Or.inr ⟨htold, Or.inr ⟨t, ht, he⟩⟩), hmay⟩
      · rintro ⟨e, he, hmay⟩
        rcases (hgraph e).1 he with hold | ⟨-, hcall | ⟨t, ht, het⟩⟩
        · exact Or.inl ⟨e, hold, hmay⟩
        · rw [kind_of_mem_callReturnEdges hcall] at hmay
          contradiction
        · exact Or.inr ⟨t, ht, (turn_of_allEdges hmode hcode ht).2.2 ⟨e, het, hmay⟩⟩

/-- Certain edges leave the books in order. -/
theorem Booked.record (h : r.Booked) {es : List Edge} (hes : ∀ e ∈ es, e.kind = .must) :
    (r.record es).Booked where
  givenUp hmode := by
    refine ⟨(h.givenUp hmode).1, fun e he => ?_⟩
    rcases Graph.mem_insertAll.1 he with hnew | hold
    · exact hes e hnew
    · exact (h.givenUp hmode).2 e hold
  followed hmode := by
    refine ⟨(h.followed hmode).1, (h.followed hmode).2.trans ?_⟩
    constructor
    · rintro ⟨e, he, hmay⟩
      exact ⟨e, Graph.mem_insertAll.2 (Or.inr he), hmay⟩
    · rintro ⟨e, he, hmay⟩
      rcases Graph.mem_insertAll.1 he with hnew | hold
      · rw [hes e hnew] at hmay
        contradiction
      · exact ⟨e, hold, hmay⟩

/-- A question keeps the books in order, if there is code wherever there is a statement. -/
theorem Booked.edges (h : r.Booked)
    (hcode : ∀ l site, r.program.statement? l = some site → r.program.codeAddresses ≠ [])
    (n : Node) : (r.edges n).1.Booked := by
  have hmet : { r with discovered := r.discovered.insert n.location.label.address }.Booked :=
    ⟨h.givenUp, h.followed⟩
  rcases edges_cases r n with ⟨-, heq⟩ | ⟨site, g, hsite, -, heq⟩ | ⟨site, -, -, heq⟩
  · rw [heq]
    exact h
  · rw [heq]
    exact hmet.resolveGoto (hcode _ site hsite) n site g
  · rw [heq]
    exact hmet.record fun e he => kind_of_mem_straightEdges he

/-- A question takes no label back. -/
theorem mem_unresolved_edges {l : Label} (hl : l ∈ r.unresolved) (n : Node) :
    l ∈ (r.edges n).1.unresolved := by
  rcases edges_cases r n with ⟨-, heq⟩ | ⟨site, g, -, -, heq⟩ | ⟨site, -, -, heq⟩
  · rw [heq]
    exact hl
  · rw [heq, (resolveGoto_books _ n site g).1]
    split
    · exact OrdSet.mem_insert.2 (Or.inr hl)
    · exact hl
  · rw [heq]
    exact hl

/-- The two failures of a question: a missing statement leaves the resolver as it was, and a goto
    that could not be resolved has a lost turn, which there is only where unknown targets are given
    up. -/
theorem failure_of_edges {f : Failure} (h : (r.edges n).2 = .error f) :
    (f.cause = .fault (.missingStatement n.location.label) ∧ (r.edges n).1 = r) ∨
    (∃ l, f.cause = .unresolved l ∧ r.settings.allEdges = false) := by
  rcases edges_cases r n with ⟨-, heq⟩ | ⟨site, g, -, -, heq⟩ | ⟨site, -, -, heq⟩
  · rw [heq] at h ⊢
    rw [← Except.error.inj h]
    exact Or.inl ⟨rfl, rfl⟩
  · right
    rw [heq] at h
    unfold Resolver.resolveGoto at h
    dsimp only at h
    split at h
    · rename_i hfail
      rw [Bool.and_eq_true, List.contains_iff_mem] at hfail
      rw [← Except.error.inj h]
      refine ⟨site.label, rfl, ?_⟩
      obtain ⟨c, y, -, hturn⟩ := mem_turns.1 hfail.1
      rcases g.turn_cases site r.program.codeAddresses r.settings.allEdges c y with
        hcertain | ⟨-, -, ⟨-, hspread⟩ | ⟨hmode, -⟩⟩
      · exact absurd (hturn.trans hcertain) (by simp)
      · exact absurd (hturn.trans hspread) (by simp)
      · exact hmode
    · exact absurd h (by simp)
  · rw [heq] at h
    exact absurd h (by simp)

/-! ## Any sequence of questions -/

/-- The resolver after it was asked about the nodes one after the other. -/
def after (r : Resolver) (ns : List Node) : Resolver :=
  ns.foldl (fun r n => (r.edges n).1) r

/-- The answers to these questions. -/
def answers (r : Resolver) : List Node → List (Except Failure (List Edge))
  | [] => []
  | n :: ns => (r.edges n).2 :: answers (r.edges n).1 ns

/-- The edges that were handed out, answer after answer. -/
def handedOut (r : Resolver) (ns : List Node) : List Edge :=
  ((r.answers ns).filterMap Except.toOption).flatten

/-- What every question keeps holds after any sequence of them. -/
theorem after_invariant {motive : Resolver → Prop} (h : motive r)
    (hask : ∀ r n, motive r → motive (r.edges n).1) (ns : List Node) : motive (r.after ns) :=
  List.foldlRecOn (motive := motive) ns _ h fun r hr n _ => hask r n hr

theorem handedOut_cons (r : Resolver) (n : Node) (ns : List Node) :
    r.handedOut (n :: ns) =
      (r.edges n).2.toOption.getD [] ++ (r.edges n).1.handedOut ns := by
  unfold handedOut
  rw [answers]
  cases (r.edges n).2 with
  | error f => rfl
  | ok es => rfl

theorem after_append (r : Resolver) (before later : List Node) :
    r.after (before ++ later) = (r.after before).after later :=
  List.foldl_append

/-- The flag stays down. -/
theorem sound_after (h : r.sound = false) (ns : List Node) : (r.after ns).sound = false :=
  after_invariant (motive := fun r => r.sound = false) h
    (fun r n hr => by rw [sound_edges, hr, Bool.false_and]) ns

/-- No label is taken back. -/
theorem mem_unresolved_after {l : Label} (h : l ∈ r.unresolved) (ns : List Node) :
    l ∈ (r.after ns).unresolved :=
  after_invariant (motive := fun r => l ∈ r.unresolved) h
    (fun _ n hr => mem_unresolved_edges hr n) ns

/-- The graph grows by exactly what is handed out. -/
theorem graph_after (r : Resolver) (ns : List Node) :
    (r.after ns).graph = r.graph.insertAll (r.handedOut ns) := by
  induction ns generalizing r with
  | nil => rfl
  | cons n ns ih =>
      show ((r.edges n).1.after ns).graph = _
      rw [ih, graph_edges, Graph.insertAll_insertAll, handedOut_cons]

/-- The books of an assembled program's resolver are in order after any sequence of questions. -/
theorem booked_after (entry : Word) (items : List Item) (settings : Settings) (ns : List Node) :
    ((fresh (.assemble entry items) settings).after ns).Booked ∧
      ((fresh (.assemble entry items) settings).after ns).settings = settings := by
  refine (after_invariant (motive := fun r => r.program = .assemble entry items ∧
    r.Booked ∧ r.settings = settings) ⟨rfl, booked_fresh _ _, rfl⟩ ?_ ns).2
  rintro r n ⟨hprogram, hbooked, hsettings⟩
  refine ⟨(program_edges r n).trans hprogram, hbooked.edges ?_ n,
    (settings_edges r n).trans hsettings⟩
  intro l site hsite hnone
  rw [hprogram] at hsite hnone
  have hmem := Program.mem_codeAddresses.2 (Program.isCode_of_statement? hsite)
  rw [hnone] at hmem
  exact absurd hmem List.not_mem_nil

/-- Over any sequence of questions to a new resolver, the flag never comes up again, labels are
    only added, and edges are only appended.  The graph lists what the answers said, each edge once.
    A failing question adds no edge, and one about a missing statement changes nothing.  If unknown
    targets are given up, the flag is down exactly if a label was noted, and every edge is certain.
    If they are followed everywhere, no label is noted, no question fails for its control flow, and
    the flag is down exactly if some edge is a guess. -/
theorem keeps_books (entry : Word) (items : List Item) (settings : Settings)
    (before later : List Node) :
    let r := fresh (.assemble entry items) settings
    let q := r.after before
    let z := r.after (before ++ later)
    (q.sound = false → z.sound = false) ∧
    (∀ l ∈ q.unresolved, l ∈ z.unresolved) ∧
    q.graph.edges.toList <+: z.graph.edges.toList ∧
    q.graph.edges.toList = (r.handedOut before).eraseDups ∧
    (∀ n f, (q.edges n).2 = .error f → (q.edges n).1.graph = q.graph) ∧
    (∀ n f l, (q.edges n).2 = .error f → f.cause = .fault (.missingStatement l) →
      (q.edges n).1 = q) ∧
    (settings.allEdges = false →
      (q.sound = false ↔ q.unresolved ≠ .empty) ∧ ∀ e ∈ q.graph.edges, e.kind ≠ .may) ∧
    (settings.allEdges = true →
      q.unresolved = .empty ∧
      (∀ n f l, (q.edges n).2 = .error f → f.cause ≠ .unresolved l) ∧
      (q.sound = false ↔ ∃ e ∈ q.graph.edges, e.kind = .may)) := by
  intro r q z
  have hz : z = q.after later := after_append r before later
  obtain ⟨hbooked, hsettings⟩ : q.Booked ∧ q.settings = settings :=
    booked_after entry items settings before
  refine ⟨?_, ?_, ?_, ?_, ?_, ?_, ?_, ?_⟩
  · intro h
    rw [hz]
    exact sound_after h later
  · intro l hl
    rw [hz]
    exact mem_unresolved_after hl later
  · rw [hz, graph_after q later]
    exact Graph.prefix_insertAll _ _
  · show (r.after before).graph.edges.toList = _
    rw [graph_after]
    exact Graph.toList_ofList _
  · intro n f h
    rw [graph_edges, h]
    rfl
  · intro n f l h hcause
    rcases failure_of_edges h with ⟨-, hsame⟩ | ⟨l', hcause', -⟩
    · exact hsame
    · rw [hcause'] at hcause
      contradiction
  · intro hmode
    obtain ⟨hflag, hmust⟩ := hbooked.givenUp (hsettings ▸ hmode)
    refine ⟨hflag, fun e he hmay => ?_⟩
    rw [hmust e he] at hmay
    contradiction
  · intro hmode
    obtain ⟨hempty, hflag⟩ := hbooked.followed (hsettings ▸ hmode)
    refine ⟨hempty, fun n f l h hcause => ?_, hflag⟩
    rcases failure_of_edges h with ⟨hcause', -⟩ | ⟨l', -, hmode'⟩
    · rw [hcause'] at hcause
      contradiction
    · rw [hsettings, hmode] at hmode'
      contradiction

end Resolver

end CodeReach
