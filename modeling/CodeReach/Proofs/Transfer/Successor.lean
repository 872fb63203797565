/-
  CodeReach.Proofs.Transfer.Successor

  What adjusting a state to a precision and following an edge do to it.  An adjustment
  looks at each component on its own (`refine_of_handles`).  Both keep a state fitting,
  and an adjustment only goes up (`refine_bounds`).

  Following an edge is sound for register values (`describes_post`): whatever
  executing the edge's statement can do to the registers, the state after the edge
  describes the result.
-/
import CodeReach.Proofs.Transfer.Order

namespace CodeReach

/-- What executing a statement on the way along an edge can do to the registers. -/
inductive Stmt.Effect (μ : Memory) (ρ : RegFile) : Stmt → RegFile → Prop where
  | assign (r : Reg) (e : Expr) : Effect μ ρ (.assign r e) (ρ.set r (e.value ρ μ))
  | havoc (r : Reg) (w : Word) : Effect μ ρ (.havoc r) (ρ.set r w)
  | store (addr value : Expr) (width : Byte) : Effect μ ρ (.store addr value width) ρ
  | assume {e : Expr} (holds : e.value ρ μ ≠ 0) (origin : Option Branch) :
      Effect μ ρ (.assume e origin) ρ
  | skip : Effect μ ρ .skip ρ

namespace ValueAnalysis

/-- Widening only goes up. -/
theorem le_widen (s : Registers) (p : ValuePrecision) : s.le (widen s p).1 = true := by
  unfold widen
  -- The invariant of the loop over the known registers is that `s` is below what is left.
  refine List.foldlRecOn (motive := fun out : Registers × ValuePrecision =>
    s.le out.1 = true) _ _ (Registers.le_refl s) ?_
  rintro ⟨t, q⟩ ht ⟨r, ws⟩ -
  dsimp only
  split
  · exact Registers.le_set_unknown ht _
  · exact ht

/-- Whatever a statement can do to the registers is described after it. -/
theorem describes_step {a : ValueAnalysis} {s : Registers} {stmt : Stmt} {ρ ρ' : RegFile}
    {μ : Memory} (hμ : μ.Agrees a.program) (hs : s.Describes ρ) (heff : stmt.Effect μ ρ ρ')
    {o : Option Registers} (h : a.step s stmt = .ok o) : ∃ t, o = some t ∧ t.Describes ρ' := by
  have hprogram : ∀ p ∈ some a.program, μ.Agrees p := fun p hp => Option.some.inj hp ▸ hμ
  cases heff with
  | assign r e =>
      obtain ⟨v, hv, h⟩ := bind_eq_ok.1 h
      obtain rfl := Except.ok.inj h
      exact ⟨_, rfl, Registers.describes_set hs (Registers.allows_eval hprogram hs hv)⟩
  | havoc r w =>
      obtain rfl := Except.ok.inj h
      exact ⟨_, rfl, Registers.describes_set hs (ValueSet.allows_unknown w)⟩
  | store addr value width =>
      -- Both expressions are only evaluated for the faults they may raise.
      obtain ⟨v, -, h⟩ := bind_eq_ok.1 h
      obtain ⟨_, -, h⟩ := bind_eq_ok.1 h
      obtain ⟨_, -, h⟩ := bind_eq_ok.1 h
      obtain rfl := Except.ok.inj h
      exact ⟨s, rfl, hs⟩
  | assume holds origin => exact Registers.describes_assume hprogram hs holds h
  | skip =>
      obtain rfl := Except.ok.inj h
      exact ⟨s, rfl, hs⟩

end ValueAnalysis

/-- A call stack within its bound stays within it. -/
theorem CallAnalysis.depth_step {a : CallAnalysis} {s t : CallStack} {e : Edge}
    (hs : s.depth ≤ a.maxDepth) (h : a.step s e = some t) : t.depth ≤ a.maxDepth := by
  unfold step at h
  split at h
  · split at h
    · obtain rfl := Option.some.inj h
      exact hs
    · -- A push past the bound forgets the outermost call.
      obtain rfl := Option.some.inj h
      simp only [CallStack.depth, CallStack.push] at hs ⊢
      split
      · simp only [List.length_dropLast, List.length_cons]
        omega
      · simp only [List.length_cons] at *
        omega
  · split at h
    · obtain rfl := Option.some.inj h
      exact hs
    · split at h
      · obtain rfl := Option.some.inj h
        simp only [CallStack.depth, CallStack.pop, List.length_tail] at hs ⊢
        omega
      · exact absurd h (by simp)
  · obtain rfl := Option.some.inj h
    exact hs

/-- A component after an adjustment, with its precision after that.  Only registers are adjusted,
    and only where there is a precision for them. -/
def Component.adjusted (c : Component) (p : ComponentPrecision) : Component × ComponentPrecision :=
  match c, p with
  | .values r, .values q =>
    (.values (ValueAnalysis.widen r q).1, .values (ValueAnalysis.widen r q).2)
  | c, p => (c, p)

namespace ComponentAnalysis

variable {a : ComponentAnalysis} {s : State} {i : Nat} {c d : Component}

theorem registersAt_eq_ok {r : Registers} (hc : s.component? i = some c)
    (h : a.registersAt s i = .ok r) : c = .values r := by
  unfold registersAt at h
  rw [hc] at h
  cases c with
  | values q => exact congrArg Component.values (Except.ok.inj h)
  | location l => exact absurd h (by simp [Component.values?])
  | calls k => exact absurd h (by simp [Component.values?])

theorem callsAt_eq_ok {k : CallStack} (hc : s.component? i = some c)
    (h : a.callsAt s i = .ok k) : c = .calls k := by
  unfold callsAt at h
  rw [hc] at h
  cases c with
  | calls q => exact congrArg Component.calls (Except.ok.inj h)
  | location l => exact absurd h (by simp [Component.calls?])
  | values r => exact absurd h (by simp [Component.calls?])

/-- On components of its own kind an adjustment never fails, and it only looks at the component and
    its precision. -/
theorem refine_of_handles {p : ComponentPrecision} (hc : s.component? i = some c)
    (h : a.Handles c) : a.refine s i p = .ok (c.adjusted p) := by
  cases a with
  | values v =>
      cases c with
      | location l => exact h.elim
      | calls k => exact h.elim
      | values r =>
          have hr : (values v).registersAt s i = .ok r := by
            rw [registersAt, hc]
            rfl
          rw [refine, hr]
          cases p <;> rfl
  | calls k =>
      cases c with
      | location l => exact h.elim
      | values r => exact h.elim
      | calls r =>
          rw [refine, hc]
          cases p <;> rfl

/-- Adjusting a component goes up. -/
theorem le_adjusted (h : a.Handles c) (p : ComponentPrecision) :
    a.le c (c.adjusted p).1 = true := by
  cases c with
  | location l => exact le_refl _ _
  | calls k => exact le_refl _ _
  | values r =>
      cases p with
      | null => exact le_refl _ _
      | values q =>
          cases a with
          | values v => exact ValueAnalysis.le_widen r q
          | calls k => exact h.elim

/-- Adjusting a component keeps it fitting and goes up. -/
theorem refine_bounds {p q : ComponentPrecision} (hc : s.component? i = some c) (hfits : a.Fits c)
    (h : a.refine s i p = .ok (d, q)) : a.Fits d ∧ a.le c d = true := by
  have hhandles := handles_of_fits hfits
  have hadjusted := Except.ok.inj ((refine_of_handles hc hhandles).symm.trans h)
  have hle := le_adjusted hhandles p
  rw [hadjusted] at hle
  exact ⟨fits_of_le hfits hle, hle⟩

/-- Following an edge keeps a component fitting. -/
theorem fits_post {e : Edge} (hc : s.component? i = some c) (hfits : a.Fits c)
    (h : a.post s i e = .ok (some d)) : a.Fits d := by
  cases a with
  | values v =>
      obtain ⟨r, -, h⟩ := bind_eq_ok.1 h
      obtain ⟨o, -, h⟩ := bind_eq_ok.1 h
      obtain ⟨t, -, rfl⟩ := Option.map_eq_some_iff.1 (Except.ok.inj h)
      exact trivial
  | calls k =>
      obtain ⟨r, hr, h⟩ := bind_eq_ok.1 h
      obtain rfl := callsAt_eq_ok hc hr
      obtain ⟨t, ht, rfl⟩ := Option.map_eq_some_iff.1 (Except.ok.inj h)
      exact CallAnalysis.depth_step hfits ht

end ComponentAnalysis

/-- The components of a state, each adjusted to the precision at its position. -/
def State.adjustedComponents (s : State) (p : Precision) : List (Component × ComponentPrecision) :=
  s.components.mapIdx fun i c => c.adjusted (p.component (i + 1))

/-- A state after an adjustment, with the precision after that. -/
def State.adjusted (s : State) (p : Precision) : State × Precision :=
  (⟨s.location, (s.adjustedComponents p).map (·.1)⟩, .null :: (s.adjustedComponents p).map (·.2))

namespace Analysis

variable {a : Analysis} {s t : State}

/-! ## Positions -/

/-- The components that are left from a position on. -/
theorem component?_of_drop {i : Nat} {c : Component} {cs : List Component}
    (h : s.parts.drop i = c :: cs) :
    s.component? i = some c ∧ s.parts.drop (i + 1) = cs := by
  constructor
  · have hzero : (s.parts.drop i)[0]? = some c := by rw [h]; rfl
    rw [List.getElem?_drop] at hzero
    exact hzero
  · rw [← List.drop_drop, h]
    rfl

/-! ## Adjustment -/

theorem refineFrom_of_handles {p : Precision} {as : List ComponentAnalysis} {cs : List Component}
    {i : Nat} (h : List.Forall₂ ComponentAnalysis.Handles as cs) (hparts : s.parts.drop i = cs) :
    refineFrom s p i as = .ok (cs.mapIdx fun j c => c.adjusted (p.component (j + i))) := by
  induction h generalizing i with
  | nil => rfl
  | @cons a c as cs hac _ ih =>
      obtain ⟨hc, hrest⟩ := component?_of_drop hparts
      have hindex : ∀ j, j + (i + 1) = j + 1 + i := fun j => by omega
      rw [refineFrom, ComponentAnalysis.refine_of_handles hc hac, ih hrest, List.mapIdx_cons,
        Nat.zero_add]
      simp only [hindex]
      rfl

/-- On states that the analysis handles an adjustment never fails. -/
theorem refine_of_handles (hs : a.Handles s) (p : Precision) :
    a.refine s p = .ok (s.adjusted p) := by
  rw [refine, refineFrom_of_handles hs rfl]
  rfl

theorem componentsLe_adjusted {as : List ComponentAnalysis} {cs : List Component}
    (h : List.Forall₂ ComponentAnalysis.Handles as cs) (p : Nat → ComponentPrecision) :
    componentsLe as cs ((cs.mapIdx fun i c => c.adjusted (p i)).map (·.1)) = true := by
  induction h generalizing p with
  | nil => rfl
  | cons hac _ ih =>
      rw [List.mapIdx_cons, List.map_cons, componentsLe, ComponentAnalysis.le_adjusted hac,
        ih fun i => p (i + 1), Bool.and_self]

/-- Adjusting a state goes up. -/
theorem le_adjusted (hs : a.Handles s) (p : Precision) : a.le s (s.adjusted p).1 = true := by
  refine le_iff.2 ⟨rfl, ?_, componentsLe_adjusted hs _⟩
  rw [State.adjusted, List.length_map, State.adjustedComponents, List.length_mapIdx]

/-- Adjusting a state to a precision keeps it fitting and goes up. -/
theorem refine_bounds {p q : Precision} (hs : a.Fits s) (h : a.refine s p = .ok (t, q)) :
    a.Fits t ∧ a.le s t = true := by
  have hhandles := handles_of_fits hs
  obtain ⟨rfl, -⟩ := Prod.mk.inj (Except.ok.inj ((refine_of_handles hhandles p).symm.trans h))
  have hle := le_adjusted hhandles p
  exact ⟨fits_of_le hs hle, hle⟩

/-! ## Successors -/

theorem fits_postFrom {e : Edge} {as : List ComponentAnalysis} {cs ds : List Component} {i : Nat}
    (hfits : List.Forall₂ ComponentAnalysis.Fits as cs) (hparts : s.parts.drop i = cs)
    (h : postFrom s e i as = .ok (some ds)) : List.Forall₂ ComponentAnalysis.Fits as ds := by
  induction hfits generalizing i ds with
  | nil =>
      obtain rfl := Option.some.inj (Except.ok.inj h)
      exact List.Forall₂.nil
  | cons hac _ ih =>
      obtain ⟨hc, hrest⟩ := component?_of_drop hparts
      obtain ⟨o, ho, h⟩ := bind_eq_ok.1 h
      cases o with
      | none => exact absurd (Except.ok.inj h) (by simp)
      | some d =>
          obtain ⟨o', ho', h⟩ := bind_eq_ok.1 h
          obtain ⟨ds', rfl, rfl⟩ := Option.map_eq_some_iff.1 (Except.ok.inj h)
          exact List.Forall₂.cons (ComponentAnalysis.fits_post hc hac ho) (ih hrest ho')

/-- Following an edge keeps a state fitting. -/
theorem fits_post {e : Edge} (hs : a.Fits s) (h : a.post s e = .ok (some t)) : a.Fits t := by
  obtain ⟨o, ho, h⟩ := bind_eq_ok.1 h
  obtain ⟨cs, rfl, rfl⟩ := Option.map_eq_some_iff.1 (Except.ok.inj h)
  exact fits_postFrom hs rfl ho

theorem location_post {e : Edge} (h : a.post s e = .ok (some t)) :
    t.location = a.placement.step s e := by
  obtain ⟨o, -, h⟩ := bind_eq_ok.1 h
  obtain ⟨cs, -, rfl⟩ := Option.map_eq_some_iff.1 (Except.ok.inj h)
  rfl

/-- Forward, an edge leads to the label of its target, whether or not locations are split. -/
theorem label_step {p : Placement} (hp : p.direction = .forward) (s : State) (e : Edge) :
    (p.step s e).label = e.target.label := by
  unfold Placement.step
  rw [hp]
  dsimp only
  split
  · rfl
  · split <;> rfl

/-- Following an edge forward with one component of register values: whatever the edge's statement
    can do to the registers, there is a successor at the edge's target that describes it. -/
theorem describes_post {v : ValueAnalysis} (hcomponents : a.components = [.values v])
    (hforward : a.placement.direction = .forward) (hs : a.Fits s) {e : Edge} {ρ ρ' : RegFile}
    {μ : Memory} (hμ : μ.Agrees v.program) (hd : s.Describes ρ) (heff : e.stmt.Effect μ ρ ρ')
    {o : Option State} (h : a.post s e = .ok o) :
    ∃ t, o = some t ∧ t.location.label = e.target.label ∧ t.Describes ρ' := by
  obtain ⟨l, cs⟩ := s
  rw [Fits, hcomponents] at hs
  obtain ⟨c, _, hc, hnil, hcons⟩ := List.forall₂_cons_left_iff.1 hs
  obtain rfl := List.forall₂_nil_left_iff.1 hnil
  obtain rfl : cs = [c] := hcons
  cases c with
  | location m => exact absurd hc (by simp [ComponentAnalysis.Fits])
  | calls k => exact absurd hc (by simp [ComponentAnalysis.Fits])
  | values r =>
      unfold post at h
      rw [hcomponents] at h
      obtain ⟨o', ho', h⟩ := bind_eq_ok.1 h
      obtain ⟨o₁, ho₁, ho'⟩ := bind_eq_ok.1 ho'
      -- The one component is asked for its successor.
      obtain ⟨r', hr', ho₁⟩ := bind_eq_ok.1 ho₁
      obtain rfl : r = r' := Except.ok.inj hr'
      obtain ⟨o₂, ho₂, ho₁⟩ := bind_eq_ok.1 ho₁
      obtain ⟨u, rfl, hu⟩ :=
        ValueAnalysis.describes_step hμ (hd r (List.mem_singleton_self _)) heff ho₂
      obtain rfl := Except.ok.inj ho₁
      obtain rfl := Except.ok.inj ho'
      obtain rfl := Except.ok.inj h
      refine ⟨_, rfl, label_step hforward _ e, ?_⟩
      intro w hw
      obtain rfl := Component.values.inj (List.mem_singleton.1 hw)
      exact hu

end Analysis

end CodeReach
