/-
  CodeReach.Proofs.Transfer.CallNesting

  Bounded call stacks against the full nesting of calls.

  `openCalls` follows a path of edges and keeps every call that has not returned,
  however many there are.  A call stack of the analysis forgets the outermost call
  when it grows past its bound, so it can run empty while calls are still open.  What
  it holds is always the innermost part of the open calls (`Remembers`), and this is
  enough for it to take every return that the full nesting takes.  As long as the
  bound was never exceeded the two agree, also on the returns that they refuse.
-/
import CodeReach.Proofs.Transfer.Successor
import Mathlib.Data.List.Induction
import Mathlib.Data.List.Infix

namespace CodeReach

/-! ## The full nesting -/

/-- What an edge does to the nesting of calls. -/
inductive Nesting where
  /-- A call begins, which is to return to the address `back`. -/
  | call (back : Word)
  /-- A call ends. -/
  | ret
  /-- No call begins or ends. -/
  | level
deriving DecidableEq

namespace Edge

/-- A call edge begins a call if the address after the call is known and is not the one that the
    edge leads to.  Every return edge ends one. -/
def nesting (e : Edge) : Nesting :=
  match e.stmt.origin? with
  | some ⟨.call, some next⟩ =>
    if next.address = e.target.address then .level else .call next.address
  | some ⟨.ret, _⟩ => .ret
  | _ => .level

/-- The open calls after an edge, the innermost first, given those before it.  A return has to lead
    to where the innermost call is to return, or to anywhere if no call is open. -/
def nest (e : Edge) (calls : List Word) : Option (List Word) :=
  match e.nesting, calls with
  | .level, calls => some calls
  | .call back, calls => some (back :: calls)
  | .ret, [] => some []
  | .ret, top :: outer => if top = e.target.address then some outer else none

end Edge

/-- The calls that are open after a path, the innermost first, or nothing if some return on the path
    leads to another place than the innermost call. -/
def openCalls (path : List Edge) : Option (List Word) :=
  path.foldlM (fun calls e => e.nest calls) []

theorem openCalls_append_singleton (path : List Edge) (e : Edge) :
    openCalls (path ++ [e]) = (openCalls path).bind e.nest := by
  simp [openCalls, List.foldlM_append]

namespace CallAnalysis

variable {a : CallAnalysis} {k next : CallStack} {e : Edge} {calls calls' : List Word}
  {path : List Edge}

/-! ## One edge -/

/-- A step looks at nothing of an edge but its nesting and its target. -/
theorem step_cases (a : CallAnalysis) (k : CallStack) (e : Edge) :
    (e.nesting = .level ∧ a.step k e = some k) ∨
    (∃ back, e.nesting = .call back ∧ a.step k e = some (k.push back a.maxDepth)) ∨
    (e.nesting = .ret ∧ k.frames = [] ∧ a.step k e = some k) ∨
    (∃ top outer, e.nesting = .ret ∧ k.frames = top :: outer ∧
      a.step k e = if top = e.target.address then some ⟨outer⟩ else none) := by
  obtain ⟨frames⟩ := k
  unfold Edge.nesting step
  rcases e.stmt.origin? with _ | ⟨kind, next?⟩
  · exact Or.inl ⟨rfl, rfl⟩
  · cases kind with
    | jump => exact Or.inl ⟨rfl, rfl⟩
    | call =>
        cases next? with
        | none => exact Or.inl ⟨rfl, rfl⟩
        | some next =>
            by_cases hsame : next.address = e.target.address
            · exact Or.inl ⟨if_pos hsame, if_pos hsame⟩
            · exact Or.inr (Or.inl ⟨next.address, if_neg hsame, if_neg hsame⟩)
    | ret =>
        cases frames with
        | nil => exact Or.inr (Or.inr (Or.inl ⟨rfl, rfl, rfl⟩))
        | cons top outer => exact Or.inr (Or.inr (Or.inr ⟨top, outer, rfl, rfl, rfl⟩))

/-- The stack holds the innermost part of the open calls, within the bound. -/
structure Remembers (a : CallAnalysis) (k : CallStack) (calls : List Word) : Prop where
  innermost : k.frames <+: calls
  bounded : k.depth ≤ a.maxDepth

theorem remembers_empty (a : CallAnalysis) : a.Remembers .empty [] :=
  ⟨List.prefix_rfl, Nat.zero_le _⟩

/-- After a push the stack is again the innermost part, also where it has forgotten a call. -/
theorem innermost_push (h : k.frames <+: calls) (back : Word) (d : Nat) :
    (k.push back d).frames <+: back :: calls := by
  have hcons : back :: k.frames <+: back :: calls := List.cons_prefix_cons.2 ⟨rfl, h⟩
  unfold CallStack.push
  dsimp only
  split
  · exact (List.dropLast_prefix _).trans hcons
  · exact hcons

/-- An edge that the full nesting takes is taken by every stack that holds the innermost part. -/
theorem Remembers.step (h : a.Remembers k calls) (hnest : e.nest calls = some calls') :
    ∃ next, a.step k e = some next ∧ a.Remembers next calls' := by
  suffices hstep : ∃ next, a.step k e = some next ∧ next.frames <+: calls' by
    obtain ⟨next, hnext, hinner⟩ := hstep
    exact ⟨next, hnext, hinner, depth_step h.bounded hnext⟩
  have hinner := h.innermost
  rcases step_cases a k e with ⟨hn, hs⟩ | ⟨back, hn, hs⟩ | ⟨hn, hk, hs⟩ | ⟨top, outer, hn, hk, hs⟩
  · obtain rfl : calls = calls' := by simpa [Edge.nest, hn] using hnest
    exact ⟨k, hs, hinner⟩
  · obtain rfl : back :: calls = calls' := by simpa [Edge.nest, hn] using hnest
    exact ⟨_, hs, innermost_push hinner back a.maxDepth⟩
  · -- The stack has run empty; the call that returns, if there is one, was forgotten before.
    refine ⟨k, hs, ?_⟩
    rw [hk]
    exact List.nil_prefix
  · -- What the stack holds on top is the innermost open call.
    rw [hk] at hinner
    obtain ⟨rest, rfl⟩ := hinner
    rw [List.cons_append] at hnest
    have htop : top = e.target.address ∧ outer ++ rest = calls' := by
      simpa [Edge.nest, hn] using hnest
    rw [if_pos htop.1] at hs
    exact ⟨⟨outer⟩, hs, htop.2 ▸ List.prefix_append outer rest⟩

/-- A stack that has forgotten nothing refuses what the full nesting refuses. -/
theorem step_eq_none_iff (a : CallAnalysis) (k : CallStack) (e : Edge) :
    a.step k e = none ↔ e.nest k.frames = none := by
  rcases step_cases a k e with ⟨hn, hs⟩ | ⟨back, hn, hs⟩ | ⟨hn, hk, hs⟩ | ⟨top, outer, hn, hk, hs⟩
  · simp [Edge.nest, hn, hs]
  · simp [Edge.nest, hn, hs]
  · simp [Edge.nest, hn, hk, hs]
  · simp [Edge.nest, hn, hk, hs]

/-- A stack that has forgotten nothing forgets nothing, unless the edge takes the calls past the
    bound. -/
theorem frames_of_step (hnest : e.nest k.frames = some calls') (hdepth : calls'.length ≤ a.maxDepth)
    (hstep : a.step k e = some next) : next.frames = calls' := by
  rcases step_cases a k e with ⟨hn, hs⟩ | ⟨back, hn, hs⟩ | ⟨hn, hk, hs⟩ | ⟨top, outer, hn, hk, hs⟩
  · obtain rfl : k = next := Option.some.inj (hs.symm.trans hstep)
    simpa [Edge.nest, hn] using hnest
  · obtain rfl : k.push back a.maxDepth = next := Option.some.inj (hs.symm.trans hstep)
    obtain rfl : back :: k.frames = calls' := by simpa [Edge.nest, hn] using hnest
    rw [CallStack.push, if_neg (Nat.not_lt.2 hdepth)]
  · obtain rfl : k = next := Option.some.inj (hs.symm.trans hstep)
    rw [hk]
    simpa [Edge.nest, hn, hk] using hnest
  · have htop : top = e.target.address ∧ outer = calls' := by simpa [Edge.nest, hn, hk] using hnest
    rw [if_pos htop.1] at hs
    obtain rfl : (⟨outer⟩ : CallStack) = next := Option.some.inj (hs.symm.trans hstep)
    exact htop.2

/-! ## Paths -/

theorem post_calls {s : State} {i : Nat} (h : s.component? i = some (.calls k)) (e : Edge) :
    (ComponentAnalysis.calls a).post s i e = .ok ((a.step k e).map .calls) := by
  have hcalls : (ComponentAnalysis.calls a).callsAt s i = .ok k := by
    rw [ComponentAnalysis.callsAt, h]
    rfl
  rw [ComponentAnalysis.post, hcalls]
  rfl

/-- A state with the stack `k` at any position has exactly one successor there along the edge, the
    stack `next`. -/
def Leads (a : CallAnalysis) (e : Edge) (k next : CallStack) : Prop :=
  ∀ s i, s.component? i = some (.calls k) →
    (ComponentAnalysis.calls a).post s i e = .ok (some (.calls next))

theorem leads_iff : a.Leads e k next ↔ a.step k e = some next := by
  constructor
  · intro h
    have hpost := h ⟨e.source, [.calls k]⟩ 1 rfl
    rw [post_calls rfl] at hpost
    obtain ⟨t, ht, heq⟩ := Option.map_eq_some_iff.1 (Except.ok.inj hpost)
    rw [ht, Component.calls.inj heq]
  · intro h s i hs
    rw [post_calls hs, h]
    rfl

/-- The path leads from the empty stack to a stack, with exactly one successor at every edge. -/
inductive Follows (a : CallAnalysis) : List Edge → CallStack → Prop where
  | start : a.Follows [] .empty
  | edge {path : List Edge} {k : CallStack} {e : Edge} {next : CallStack} :
      a.Follows path k → a.Leads e k next → a.Follows (path ++ [e]) next

/-- The calls open after an edge come from those open before it. -/
theorem exists_openCalls (h : openCalls (path ++ [e]) = some calls') :
    ∃ calls, openCalls path = some calls ∧ e.nest calls = some calls' := by
  rw [openCalls_append_singleton] at h
  exact Option.bind_eq_some_iff.1 h

/-- A stack that a path leads to holds the innermost part of the calls open after it. -/
theorem Follows.remembers (h : a.Follows path k) (hopen : openCalls path = some calls) :
    a.Remembers k calls := by
  induction h generalizing calls with
  | start =>
      obtain rfl : [] = calls := Option.some.inj hopen
      exact remembers_empty a
  | edge _ hleads ih =>
      obtain ⟨before, hbefore, hnest⟩ := exists_openCalls hopen
      obtain ⟨next, hnext, hremembers⟩ := (ih hbefore).step hnest
      obtain rfl := Option.some.inj ((leads_iff.1 hleads).symm.trans hnext)
      exact hremembers

/-- Every path that the full nesting takes leads to a stack. -/
theorem exists_follows (a : CallAnalysis) (hopen : openCalls path = some calls) :
    ∃ k, a.Follows path k := by
  induction path using List.reverseRecOn generalizing calls with
  | nil => exact ⟨.empty, .start⟩
  | append_singleton path e ih =>
      obtain ⟨before, hbefore, hnest⟩ := exists_openCalls hopen
      obtain ⟨k, hk⟩ := ih hbefore
      obtain ⟨next, hnext, -⟩ := (hk.remembers hbefore).step hnest
      exact ⟨next, hk.edge (leads_iff.2 hnext)⟩

/-- There were never more open calls on the path than the stack has room for. -/
def Suffices (a : CallAnalysis) (path : List Edge) : Prop :=
  ∀ before calls, before <+: path → openCalls before = some calls → calls.length ≤ a.maxDepth

/-- With enough room for all open calls, nothing is forgotten. -/
theorem Follows.frames_eq (h : a.Follows path k) (hopen : openCalls path = some calls)
    (hroom : a.Suffices path) : k.frames = calls := by
  induction h generalizing calls with
  | start => exact Option.some.inj hopen
  | @edge path k e next _ hleads ih =>
      obtain ⟨before, hbefore, hnest⟩ := exists_openCalls hopen
      have hroom' : a.Suffices path := fun q c hq => hroom q c (hq.trans (List.prefix_append _ _))
      obtain rfl := ih hbefore hroom'
      exact frames_of_step hnest (hroom _ calls List.prefix_rfl hopen) (leads_iff.1 hleads)

/-- No return that matches its call is ever pruned.  On every path that the full nesting takes, each
    edge has exactly one successor stack, and each stack is the innermost part of the open calls and
    within the bound.  While the open calls have never exceeded the bound, the stack holds all of
    them, and it refuses an edge exactly if the full nesting does. -/
theorem matched_returns_followed (a : CallAnalysis) (path : List Edge) (calls : List Word)
    (hopen : openCalls path = some calls) :
    (∃ k, a.Follows path k) ∧
      ∀ k, a.Follows path k →
        k.frames <+: calls ∧ k.depth ≤ a.maxDepth ∧
        (a.Suffices path →
          k.frames = calls ∧
          ∀ e s i, s.component? i = some (.calls k) →
            ((ComponentAnalysis.calls a).post s i e = .ok none ↔
              openCalls (path ++ [e]) = none)) := by
  refine ⟨exists_follows a hopen, fun k hk => ?_⟩
  have hremembers := hk.remembers hopen
  refine ⟨hremembers.innermost, hremembers.bounded, fun hroom => ?_⟩
  have hframes := hk.frames_eq hopen hroom
  refine ⟨hframes, fun e s i hs => ?_⟩
  have hrefuses : (ComponentAnalysis.calls a).post s i e = .ok none ↔ a.step k e = none := by
    rw [post_calls hs, Except.ok.injEq, Option.map_eq_none_iff]
  rw [hrefuses, step_eq_none_iff, hframes, openCalls_append_singleton, hopen]
  rfl

/-- A taken transfer of control, with the address after it where one is given. -/
def taken (kind : GotoKind) (source target : Word) (after : Option Word) : Edge :=
  .must (.start source) (.start target) (.assume (.imm 1) (some ⟨kind, after.map .start⟩))

/-- Three calls inside each other, of which the inner two have returned. -/
def threeDeep : List Edge :=
  [taken .call 0x1000 0x2000 (some 0x1005), taken .call 0x2000 0x3000 (some 0x2005),
    taken .call 0x3000 0x4000 (some 0x3005), taken .ret 0x4000 0x3005 none,
    taken .ret 0x3005 0x2005 none]

/-- With room for two calls, the outermost one is forgotten and both returns are followed; with room
    for three, it is still on the stack and no other place can be returned to. -/
theorem matched_returns_followed_threeDeep :
    openCalls threeDeep = some [0x1005] ∧
      (∃ k, (bounded 2).Follows threeDeep k ∧ k.frames <+: [0x1005] ∧ k.depth ≤ 2) ∧
      ∃ k, (bounded 3).Follows threeDeep k ∧ k.frames = [0x1005] ∧
        (ComponentAnalysis.calls (bounded 3)).post ⟨.plain (.start 0x2005), [.calls k]⟩ 1
          (taken .ret 0x2005 0x1006 none) = .ok none := by
  have hopen : openCalls threeDeep = some [0x1005] := by decide
  have hroom : (bounded 3).Suffices threeDeep := by
    intro before calls hbefore hcalls
    have hall : ∀ q ∈ threeDeep.inits, ∀ c ∈ openCalls q, c.length ≤ 3 := by decide
    exact hall before ((List.mem_inits _ _).2 hbefore) calls hcalls
  obtain ⟨⟨k, hk⟩, htwo⟩ := matched_returns_followed (bounded 2) threeDeep _ hopen
  obtain ⟨⟨l, hl⟩, hthree⟩ := matched_returns_followed (bounded 3) threeDeep _ hopen
  obtain ⟨-, -, hexact⟩ := hthree l hl
  obtain ⟨hframes, hrefuses⟩ := hexact hroom
  exact ⟨hopen, ⟨k, hk, (htwo k hk).1, (htwo k hk).2.1⟩, l, hl, hframes,
    (hrefuses _ _ _ rfl).2 (by decide)⟩

end CallAnalysis

end CodeReach
