/-
  CodeReach.Proofs.Domain.Projection

  Which values a projection lists.  The opinions of the components are intersected tuple
  by tuple, but what comes out can be read off entry by entry (`mem_projection_iff`): a
  tuple is listed exactly if each of its entries is.  An entry is open if no component
  knows the values of its expression, and else it holds a word that every component
  allows (`Lists`).

  So no tuple of values is missed.  In every machine state that an abstract state
  describes, the values that the expressions really have are listed, where an open entry
  stands for any value (`exists_mem_projection`).
-/
import CodeReach.Domain.Projection
import CodeReach.Proofs.Domain.Registers
import Mathlib.Data.List.Forall2
import Mathlib.Tactic.Choose

namespace CodeReach

namespace Valuation

/-- Every entry is open or holds the word at its place. -/
def Matches (v : Valuation) (ws : List Word) : Prop :=
  List.Forall₂ (fun x w => x = none ∨ x = some w) v ws

/-- A product chooses one entry from each list. -/
theorem mem_product {choices : List (List (Option Word))} {v : Valuation} :
    v ∈ product choices ↔ List.Forall₂ (fun x xs => x ∈ xs) v choices := by
  induction choices generalizing v with
  | nil => simp [product]
  | cons xs rest ih =>
      rw [product, List.mem_flatMap, List.forall₂_cons_right_iff]
      constructor
      · rintro ⟨x, hx, hv⟩
        obtain ⟨u, hu, rfl⟩ := List.mem_map.1 hv
        exact ⟨x, u, hx, ih.1 hu, rfl⟩
      · rintro ⟨x, u, hx, hu, rfl⟩
        exact ⟨x, hx, List.mem_map_of_mem (ih.2 hu)⟩

/-! ## Intersections -/

/-- The entry is filled from an entry of each side, and these are not fixed differently. -/
def Agreed {α : Type} (P Q : Option Word → α → Prop) (z : Option Word) (a : α) : Prop :=
  ∃ x y, P x a ∧ Q y a ∧ (x = none ∨ y = none ∨ x = y) ∧ z = (x <|> y)

theorem compatible_cons {x y : Option Word} {a b : Valuation} :
    compatible (x :: a) (y :: b) = true ↔
      (x = none ∨ y = none ∨ x = y) ∧ compatible a b = true := by
  simp [compatible, or_assoc]

/-- Compatible tuples are compatible entry by entry, and are filled entry by entry. -/
theorem forall₂_agreed_iff {α : Type} {P Q : Option Word → α → Prop} {v : Valuation}
    {as : List α} :
    List.Forall₂ (Agreed P Q) v as ↔
      ∃ a b, List.Forall₂ P a as ∧ List.Forall₂ Q b as ∧ compatible a b = true ∧ v = fill a b := by
  induction as generalizing v with
  | nil => simp [compatible, fill]
  | cons c as ih =>
      rw [List.forall₂_cons_right_iff]
      constructor
      · rintro ⟨_, u, ⟨x, y, hx, hy, hxy, rfl⟩, hu, rfl⟩
        obtain ⟨a, b, ha, hb, hab, rfl⟩ := ih.1 hu
        exact ⟨x :: a, y :: b, .cons hx ha, .cons hy hb, compatible_cons.2 ⟨hxy, hab⟩, rfl⟩
      · rintro ⟨_, _, hxa, hyb, hall, rfl⟩
        obtain ⟨x, a, hx, ha, rfl⟩ := List.forall₂_cons_right_iff.1 hxa
        obtain ⟨y, b, hy, hb, rfl⟩ := List.forall₂_cons_right_iff.1 hyb
        obtain ⟨hxy, hab⟩ := compatible_cons.1 hall
        exact ⟨x <|> y, fill a b, ⟨x, y, hx, hy, hxy, rfl⟩, ih.2 ⟨a, b, ha, hb, hab, rfl⟩, rfl⟩

/-- If both sides are given entry by entry, so is their intersection. -/
theorem mem_intersect_iff {α : Type} {P Q : Option Word → α → Prop} {as : List α}
    {s t : OrdSet Valuation} (hs : ∀ v, v ∈ s ↔ List.Forall₂ P v as)
    (ht : ∀ v, v ∈ t ↔ List.Forall₂ Q v as) (v : Valuation) :
    v ∈ intersect s t ↔ List.Forall₂ (Agreed P Q) v as := by
  rw [forall₂_agreed_iff, intersect, OrdSet.mem_ofList, List.mem_flatMap]
  constructor
  · rintro ⟨a, ha, hv⟩
    obtain ⟨b, hb, rfl⟩ := List.mem_map.1 hv
    obtain ⟨hb, hab⟩ := List.mem_filter.1 hb
    exact ⟨a, b, (hs a).1 ha, (ht b).1 hb, hab, rfl⟩
  · rintro ⟨a, b, ha, hb, hab, rfl⟩
    exact ⟨a, (hs a).2 ha, List.mem_map_of_mem (List.mem_filter.2 ⟨(ht b).2 hb, hab⟩)⟩

end Valuation

namespace Registers

/-- The register file knows the possible values of the expression. -/
def Knows (s : Registers) (p : Program) (e : Expr) : Prop :=
  ∃ v, s.eval (some p) e = .ok v ∧ v.isKnown = true

variable {s : Registers} {p : Program} {ρ : RegFile} {μ : Memory} {e : Expr} {w : Word}

/-! ## One register file -/

theorem some_mem_candidates_iff : some w ∈ s.candidates p e ↔
    ∃ v, s.eval (some p) e = .ok v ∧ v ≠ .unknown ∧ v.Allows w := by
  unfold candidates
  cases s.eval (some p) e with
  | error f => simp
  | ok v =>
      cases v with
      | unknown => simp [ValueSet.constants?]
      | known ws hws => simp [ValueSet.constants?, OrdSet.mem_def]

theorem none_mem_candidates_iff : none ∈ s.candidates p e ↔
    ∀ v, s.eval (some p) e = .ok v → v = .unknown := by
  unfold candidates
  cases s.eval (some p) e with
  | error f => simp
  | ok v =>
      cases v with
      | unknown => simp [ValueSet.constants?]
      | known ws hws => simp [ValueSet.constants?]

/-- An expression has known values, or its one candidate is open. -/
theorem eval_of_none_not_mem (h : none ∉ s.candidates p e) :
    ∃ v, s.eval (some p) e = .ok v ∧ v ≠ .unknown := by
  rw [none_mem_candidates_iff] at h
  obtain ⟨v, hv⟩ := not_forall.1 h
  exact ⟨v, Classical.not_imp.1 hv⟩

theorem knows_iff : s.Knows p e ↔ ∃ v, s.eval (some p) e = .ok v ∧ v ≠ .unknown := by
  refine exists_congr fun v => and_congr_right fun _ => ?_
  cases v with
  | unknown => simp [ValueSet.isKnown, ValueSet.constants?]
  | known ws hws => simp [ValueSet.isKnown, ValueSet.constants?]

/-- The value of an expression is among its candidates. -/
theorem exists_candidate (hμ : μ.Agrees p) (hs : s.Describes ρ) (e : Expr) :
    ∃ x ∈ s.candidates p e, x = none ∨ x = some (e.value ρ μ) := by
  by_cases hopen : none ∈ s.candidates p e
  · exact ⟨none, hopen, Or.inl rfl⟩
  · obtain ⟨v, hv, hne⟩ := eval_of_none_not_mem hopen
    have hallows : v.Allows (e.value ρ μ) :=
      allows_eval (fun q hq => Option.some.inj hq ▸ hμ) hs hv
    exact ⟨_, some_mem_candidates_iff.2 ⟨v, hv, hne, hallows⟩, Or.inr rfl⟩

theorem mem_projection {es : List Expr} {v : Valuation} :
    v ∈ s.projection p es ↔ List.Forall₂ (fun x e => x ∈ s.candidates p e) v es := by
  rw [projection, OrdSet.mem_ofList, Valuation.mem_product, List.forall₂_map_right_iff]

/-! ## Several register files -/

/-- What several register files say about an expression together: the entry is open exactly if none
    of them knows the values, and else it holds a word that none of them rules out. -/
structure Listed (rs : List Registers) (p : Program) (e : Expr) (x : Option Word) : Prop where
  open_iff : x = none ↔ ∀ r ∈ rs, ¬ r.Knows p e
  allowed : ∀ w, x = some w → ∀ r ∈ rs, ∀ v, r.eval (some p) e = .ok v → v.Allows w

variable {rs qs : List Registers} {x : Option Word}

theorem listed_singleton_iff : Listed [s] p e x ↔ x ∈ s.candidates p e := by
  have hopen : none ∈ s.candidates p e ↔ ¬ s.Knows p e := by
    rw [none_mem_candidates_iff, knows_iff]
    simp
  constructor
  · rintro ⟨hnone, hsome⟩
    rw [List.forall_mem_singleton] at hnone
    cases x with
    | none => exact hopen.2 (hnone.1 rfl)
    | some w =>
        obtain ⟨v, hv, hne⟩ := knows_iff.1 (not_not.1 fun h => absurd (hnone.2 h) (by simp))
        exact some_mem_candidates_iff.2
          ⟨v, hv, hne, hsome w rfl s (List.mem_singleton_self s) v hv⟩
  · intro hx
    cases x with
    | none =>
        exact ⟨by simpa using hopen.1 hx, fun w hw => absurd hw (by simp)⟩
    | some w =>
        obtain ⟨v, hv, hne, hw⟩ := some_mem_candidates_iff.1 hx
        have hknows : s.Knows p e := knows_iff.2 ⟨v, hv, hne⟩
        refine ⟨by simpa using hknows, fun w' hw' r hr v' hv' => ?_⟩
        obtain rfl := List.mem_singleton.1 hr
        obtain rfl := Except.ok.inj (hv.symm.trans hv')
        exact Option.some.inj hw' ▸ hw

theorem mem_projection_iff_listed {es : List Expr} {v : Valuation} :
    v ∈ s.projection p es ↔ List.Forall₂ (fun x e => Listed [s] p e x) v es := by
  simp only [listed_singleton_iff]
  exact mem_projection

/-- An entry that is open rules nothing out, since the register files know nothing. -/
theorem Listed.allows (h : Listed rs p e x) (hx : x = none ∨ x = some w) {r : Registers}
    (hr : r ∈ rs) {v : ValueSet} (hv : r.eval (some p) e = .ok v) : v.Allows w := by
  rcases hx with hx | hx
  · have hunknown : v = .unknown := by
      by_contra hne
      exact h.open_iff.1 hx r hr (knows_iff.2 ⟨v, hv, hne⟩)
    rw [hunknown]
    exact ValueSet.allows_unknown w
  · exact h.allowed w hx r hr v hv

/-- Some of the register files by themselves list the entry, or leave it open. -/
theorem Listed.exists_of_subset (h : Listed qs p e x) (hsub : rs ⊆ qs) :
    ∃ y, Listed rs p e y ∧ (y = none ∧ (∀ r ∈ rs, ¬ r.Knows p e) ∨ y = x ∧ x ≠ none) := by
  by_cases hknows : ∀ r ∈ rs, ¬ r.Knows p e
  · exact ⟨none, ⟨iff_of_true rfl hknows, fun w hw => absurd hw (by simp)⟩, Or.inl ⟨rfl, hknows⟩⟩
  · have hne : x ≠ none := fun hx => hknows fun r hr => h.open_iff.1 hx r (hsub hr)
    exact ⟨x, ⟨iff_of_false hne hknows, fun w hw r hr => h.allowed w hw r (hsub hr)⟩,
      Or.inr ⟨rfl, hne⟩⟩

/-- Two groups of register files agree on the entries that all of them list together. -/
theorem agreed_listed_iff :
    Valuation.Agreed (fun x e => Listed rs p e x) (fun x e => Listed qs p e x) x e ↔
      Listed (rs ++ qs) p e x := by
  constructor
  · rintro ⟨y, z, hy, hz, hyz, rfl⟩
    refine ⟨?_, fun w hw r hr v hv => ?_⟩
    · rw [List.forall_mem_append, ← hy.open_iff, ← hz.open_iff]
      cases y <;> simp
    · -- The word was filled in from one side, and the other side is open or holds it too.
      have hboth : (y = none ∨ y = some w) ∧ (z = none ∨ z = some w) := by
        cases y <;> cases z <;> simp_all
      rcases List.mem_append.1 hr with hr | hr
      · exact hy.allows hboth.1 hr hv
      · exact hz.allows hboth.2 hr hv
  · intro h
    -- Each side is open where it knows nothing, and holds the entry where it knows something.
    obtain ⟨y, hy, hyx⟩ := h.exists_of_subset (List.subset_append_left rs qs)
    obtain ⟨z, hz, hzx⟩ := h.exists_of_subset (List.subset_append_right rs qs)
    refine ⟨y, z, hy, hz, ?_, ?_⟩
    · rcases hyx with ⟨hy, -⟩ | ⟨hy, -⟩
      · exact Or.inl hy
      · rcases hzx with ⟨hz, -⟩ | ⟨hz, -⟩
        · exact Or.inr (Or.inl hz)
        · exact Or.inr (Or.inr (hy.trans hz.symm))
    · rcases hyx with ⟨rfl, hrs⟩ | ⟨rfl, hne⟩
      · rcases hzx with ⟨rfl, hqs⟩ | ⟨rfl, -⟩
        · exact h.open_iff.2 (List.forall_mem_append.2 ⟨hrs, hqs⟩)
        · rfl
      · cases y with
        | none => exact absurd rfl hne
        | some w => rfl

/-- Intersecting the opinions of register files one after the other. -/
theorem mem_foldl_intersect_iff {es : List Expr} {first : OrdSet Valuation}
    (hfirst : ∀ v, v ∈ first ↔ List.Forall₂ (fun x e => Listed qs p e x) v es) (v : Valuation) :
    v ∈ (rs.map (·.projection p es)).foldl Valuation.intersect first ↔
      List.Forall₂ (fun x e => Listed (qs ++ rs) p e x) v es := by
  -- `first` is what the register files `qs` say; each step adds one to them.
  induction rs generalizing qs first with
  | nil => simpa using hfirst v
  | cons r rs ih =>
      have hboth : ∀ u, u ∈ Valuation.intersect first (r.projection p es) ↔
          List.Forall₂ (fun x e => Listed (qs ++ [r]) p e x) u es := by
        intro u
        rw [Valuation.mem_intersect_iff hfirst fun u => mem_projection_iff_listed]
        exact ⟨.imp fun _ _ => agreed_listed_iff.1, .imp fun _ _ => agreed_listed_iff.2⟩
      have hrest := ih hboth
      rwa [List.append_assoc] at hrest

end Registers

namespace State

/-- Some component knows the possible values of the expression. -/
def Knows (s : State) (p : Program) (e : Expr) : Prop :=
  ∃ r, Component.values r ∈ s.components ∧ r.Knows p e

/-- What a state says about an expression. -/
structure Lists (s : State) (p : Program) (e : Expr) (x : Option Word) : Prop where
  /-- Where no component tracks registers, only constants are known. -/
  folded : (∀ r, Component.values r ∉ s.components) → x = e.simplify.const?
  /-- Where one does, the entry is open exactly if none of them knows the values. -/
  open_iff : (∃ r, Component.values r ∈ s.components) → (x = none ↔ ¬ s.Knows p e)
  /-- No component rules the entry out. -/
  allowed : ∀ w, x = some w → ∀ r, Component.values r ∈ s.components →
    ∀ v, r.eval (some p) e = .ok v → v.Allows w

variable {s : State} {p : Program} {ρ : RegFile} {μ : Memory} {e : Expr} {es : List Expr}
  {v : Valuation}

/-! ## States -/

/-- The components that track registers. -/
theorem mem_filterMap_values? {cs : List Component} {r : Registers} :
    r ∈ cs.filterMap Component.values? ↔ Component.values r ∈ cs := by
  rw [List.mem_filterMap]
  constructor
  · rintro ⟨c, hc, hr⟩
    cases c with
    | values q =>
        obtain rfl := Option.some.inj hr
        exact hc
    | location l => exact absurd hr (by simp [Component.values?])
    | calls k => exact absurd hr (by simp [Component.values?])
  · exact fun h => ⟨_, h, rfl⟩

/-- Without a component that tracks registers, a state lists the constant that is left of the
    expression. -/
theorem lists_iff_of_untracked (h : ∀ r, Component.values r ∉ s.components) {x : Option Word} :
    s.Lists p e x ↔ x = e.simplify.const? :=
  ⟨fun hx => hx.folded h, fun hx => ⟨fun _ => hx, fun ⟨r, hr⟩ => absurd hr (h r),
    fun _ _ r hr => absurd hr (h r)⟩⟩

/-- Else it lists what these components list together. -/
theorem lists_iff_of_tracked (h : ∃ r, Component.values r ∈ s.components) {x : Option Word} :
    s.Lists p e x ↔ Registers.Listed (s.components.filterMap Component.values?) p e x := by
  have hknows : (∀ r ∈ s.components.filterMap Component.values?, ¬ r.Knows p e) ↔
      ¬ s.Knows p e := by
    simp only [mem_filterMap_values?, Knows, not_exists, not_and]
  constructor
  · rintro ⟨-, hopen, hallowed⟩
    exact ⟨(hopen h).trans hknows.symm,
      fun w hw r hr => hallowed w hw r (mem_filterMap_values?.1 hr)⟩
  · rintro ⟨hopen, hallowed⟩
    refine ⟨fun hnone => ?_, fun _ => hopen.trans hknows,
      fun w hw r hr => hallowed w hw r (mem_filterMap_values?.2 hr)⟩
    obtain ⟨r, hr⟩ := h
    exact absurd hr (hnone r)

/-- A word that no component rules out is listed, if some component knows the values. -/
theorem Knows.lists_some (h : s.Knows p e) {w : Word}
    (hw : ∀ r, Component.values r ∈ s.components → ∀ v, r.eval (some p) e = .ok v → v.Allows w) :
    s.Lists p e (some w) := by
  have hopen : some w = none ↔ ¬ s.Knows p e := iff_of_false (by simp) (not_not.2 h)
  obtain ⟨r, hr, -⟩ := h
  refine ⟨fun hnone => absurd hr (hnone r), fun _ => hopen, fun w' hw' => ?_⟩
  rw [← Option.some.inj hw']
  exact hw

/-- A tuple is listed exactly if each of its entries is. -/
theorem mem_projection_iff :
    v ∈ s.projection p es ↔ List.Forall₂ (fun x e => s.Lists p e x) v es := by
  by_cases htracked : ∃ r, Component.values r ∈ s.components
  · obtain ⟨r, hr⟩ := htracked
    simp only [lists_iff_of_tracked ⟨r, hr⟩]
    unfold projection
    have hmem := mem_filterMap_values?.2 hr
    cases hlist : s.components.filterMap Component.values? with
    | nil =>
        rw [hlist] at hmem
        exact absurd hmem List.not_mem_nil
    | cons first rest =>
        exact Registers.mem_foldl_intersect_iff
          (fun u => Registers.mem_projection_iff_listed) v
  · have hnone : ∀ r, Component.values r ∉ s.components := not_exists.1 htracked
    have hlist : s.components.filterMap Component.values? = [] :=
      List.eq_nil_iff_forall_not_mem.2 fun r hr => hnone r (mem_filterMap_values?.1 hr)
    simp only [lists_iff_of_untracked hnone]
    rw [projection, hlist, List.map_nil, List.mem_singleton, ← List.forall₂_map_right_iff,
      List.forall₂_eq_eq_eq]

/-- The value of an expression is listed, or its entry is open. -/
theorem exists_lists (hμ : μ.Agrees p) (hs : s.Describes ρ) (e : Expr) :
    ∃ x, s.Lists p e x ∧ (x = none ∨ x = some (e.value ρ μ)) := by
  by_cases htracked : ∃ r, Component.values r ∈ s.components
  · by_cases hknows : s.Knows p e
    · refine ⟨some (e.value ρ μ), hknows.lists_some fun r hr v hv => ?_, Or.inr rfl⟩
      exact Registers.allows_eval (fun q hq => Option.some.inj hq ▸ hμ) (hs r hr) hv
    · exact ⟨none, ⟨fun hnone => absurd htracked (not_exists.2 hnone),
        fun _ => iff_of_true rfl hknows, fun w hw => absurd hw (by simp)⟩, Or.inl rfl⟩
  · refine ⟨_, (lists_iff_of_untracked (not_exists.1 htracked)).2 rfl, ?_⟩
    -- A constant has its own value, and folding has not changed it.
    cases hc : e.simplify.const? with
    | none => exact Or.inl rfl
    | some w =>
        have hval := Expr.value_of_const? (ρ := ρ) (μ := μ) hc
        rw [Expr.value_simplify] at hval
        rw [hval]
        exact Or.inr rfl

/-- In every machine state that is described, the values that the expressions have are listed. -/
theorem exists_mem_projection (hμ : μ.Agrees p) (hs : s.Describes ρ) (es : List Expr) :
    ∃ v ∈ s.projection p es, v.Matches (es.map (Expr.value ρ μ)) := by
  choose entry hlists hvalue using exists_lists (p := p) hμ hs
  refine ⟨es.map entry, mem_projection_iff.2 ?_, ?_⟩
  · rw [List.forall₂_map_left_iff, List.forall₂_same]
    exact fun e _ => hlists e
  · rw [Valuation.Matches, List.forall₂_map_left_iff, List.forall₂_map_right_iff,
      List.forall₂_same]
    exact fun e _ => hvalue e

/-- Where some component tracks registers, an entry is open exactly if none of them knows the
    values of its expression. -/
theorem forall₂_open_iff (hs : ∃ r, Component.values r ∈ s.components)
    (hv : v ∈ s.projection p es) :
    List.Forall₂ (fun x e => x = none ↔ ¬ s.Knows p e) v es :=
  (mem_projection_iff.1 hv).imp fun _ _ h => h.open_iff hs

/-- No tuple of values is missed.  In every machine state that is described, some listed tuple has
    one entry for each expression, and each entry is open or holds the value of its expression
    there.  And a tuple is listed exactly if each of its entries is: an entry that some component
    knows is never open, and no component rules it out. -/
theorem projection_misses_nothing (s : State) (p : Program) (es : List Expr) (ρ : RegFile)
    (μ : Memory) (hs : s.Describes ρ) (hμ : μ.Agrees p) :
    (∃ v ∈ s.projection p es, v.length = es.length ∧
      ∀ (i : Nat) (e : Expr) (x : Option Word), es[i]? = some e → v[i]? = some x →
        x = none ∨ x = some (e.value ρ μ)) ∧
    ∀ v, v ∈ s.projection p es ↔ List.Forall₂ (fun x e => s.Lists p e x) v es := by
  refine ⟨?_, fun v => mem_projection_iff⟩
  obtain ⟨v, hv, hmatch⟩ := exists_mem_projection hμ hs es
  rw [Valuation.Matches, List.forall₂_map_right_iff] at hmatch
  refine ⟨v, hv, hmatch.length_eq, fun i e x he hx => ?_⟩
  obtain ⟨hi, rfl⟩ := List.getElem?_eq_some_iff.1 hx
  obtain ⟨hj, rfl⟩ := List.getElem?_eq_some_iff.1 he
  exact hmatch.get hi hj

/-- Two components that know different things about `r1`, with a call stack between them; only the
    second one knows `r2`. -/
def twoOpinions : State :=
  ⟨.plain (Label.start 0x1000), [.values (Registers.unknown.set 1 (.ofList [1, 2])), .calls .empty,
    .values ((Registers.unknown.set 1 (.ofList [2, 3])).set 2 (.const 7))]⟩

/-- Only two is left for `r1`.  The sum is known to one component, which takes each operand for
    itself; and a read from the null page is open. -/
theorem projection_misses_nothing_twoOpinions :
    let es : List Expr := [.reg 1, .binary .add (.reg 1) (.reg 2), .mem (.imm 0x10) 8]
    let ρ := RegFile.set (fun _ => 7) 1 2
    twoOpinions.projection (.blank 0x1000) es =
        [[some 2, some 9, none], [some 2, some 10, none]] ∧
      twoOpinions.Describes ρ ∧
      ∃ v ∈ twoOpinions.projection (.blank 0x1000) es, v.length = 3 ∧
        ∀ (i : Nat) (e : Expr) (x : Option Word), es[i]? = some e → v[i]? = some x →
          x = none ∨ x = some (e.value ρ fun _ _ => 0) := by
  intro es ρ
  have hd : twoOpinions.Describes ρ := by
    intro v hv
    rcases mem_filterMap_values?.2 hv with _ | ⟨_, _ | ⟨_, ⟨⟩⟩⟩
    · exact Registers.describes_set_self (Registers.describes_unknown _) (by decide)
    · exact Registers.describes_set_self (Registers.describes_set_self
        (Registers.describes_unknown _) (by decide)) (by decide)
  exact ⟨by decide, hd, (projection_misses_nothing twoOpinions (.blank 0x1000) es ρ _ hd
    (Memory.agrees_of_segments_eq_nil rfl)).1⟩

end State

end CodeReach
