/-
  CodeReach.Proofs.Transfer.ValueStates

  The analysis of register values alone, followed forward through plain locations.  Its
  states are a location and one register file (`State.ofRegisters`), and each operation
  of a composite analysis is an operation on register files: the order, a merge, a
  successor and an adjustment.

  Two facts about it are not true of composite analyses in general.  Whoever knows more
  before a statement knows more after it (`step_le`); and where the threshold is at
  least the size of a value set, an adjustment changes nothing as long as the constants
  noted at a location are among those that are possible there now (`widen_eq`).
-/
import CodeReach.Proofs.Domain.Monotone
import CodeReach.Proofs.Transfer.Successor

namespace CodeReach

/-- The state that knows `s` about the registers at `l` and nothing else. -/
def State.ofRegisters (l : Location) (s : Registers) : State :=
  ⟨l, [.values s]⟩

/-- The analysis of values alone, followed forward through plain locations. -/
def Analysis.ofValues (v : ValueAnalysis) : Analysis :=
  ⟨⟨.forward, none⟩, [.values v]⟩

namespace State

variable {l m : Location} {s t : Registers}

@[simp] theorem location_ofRegisters : (ofRegisters l s).location = l := rfl

theorem ofRegisters_inj : ofRegisters l s = ofRegisters m t ↔ l = m ∧ s = t := by
  simp [ofRegisters]

end State

namespace Analysis

variable {v : ValueAnalysis} {l m : Location} {s t : Registers} {u : State}

/-! ## Operations on register files -/

theorem fits_ofRegisters : (ofValues v).Fits (.ofRegisters l s) :=
  List.Forall₂.cons trivial List.Forall₂.nil

/-- Every state of the analysis is a location and a register file. -/
theorem eq_ofRegisters_of_fits (h : (ofValues v).Fits u) :
    ∃ s, u = .ofRegisters u.location s := by
  obtain ⟨l, cs⟩ := u
  obtain ⟨c, _, hc, hnil, hcons⟩ := List.forall₂_cons_left_iff.1 h
  obtain rfl := List.forall₂_nil_left_iff.1 hnil
  obtain rfl : cs = [c] := hcons
  cases c with
  | values s => exact ⟨s, rfl⟩
  | location m => exact hc.elim
  | calls k => exact hc.elim

theorem le_ofRegisters : (ofValues v).le (.ofRegisters l s) (.ofRegisters m t) = true ↔
    l = m ∧ s.le t = true := by
  rw [le_iff]
  simp [State.ofRegisters, ofValues, componentsLe, ComponentAnalysis.le]

/-- What is above a state is one at the same location. -/
theorem eq_ofRegisters_of_le (h : (ofValues v).le (.ofRegisters l s) u = true) :
    ∃ t, u = .ofRegisters l t ∧ s.le t = true := by
  obtain ⟨t, ht⟩ := eq_ofRegisters_of_fits (fits_of_le fits_ofRegisters h)
  rw [ht, le_ofRegisters] at h
  exact ⟨t, by rw [h.1]; exact ht, h.2⟩

/-- In join mode a state that is not covered is joined with the one reached at its location. -/
theorem merge_ofRegisters (hmerge : v.merge = .join) :
    (ofValues v).merge (.ofRegisters l s) (.ofRegisters l t) =
      if s.le t = true then none else some (.ofRegisters l (s.join t)) := by
  have hcombine : v.combine s t = s.join t := by
    rw [ValueAnalysis.combine, hmerge]
  have hjoin := Registers.join_eq_right_iff (s := s) (t := t)
  by_cases hle : s.le t = true
  · -- The merge would change nothing, so the reached state stays.
    have heq : s.join t = t := hjoin.2 hle
    simp [merge, State.ofRegisters, ofValues, mergeComponents, ComponentAnalysis.merge,
      ComponentAnalysis.le, hcombine, heq, hle]
  · have hne : s.join t ≠ t := fun heq => hle (hjoin.1 heq)
    simp [merge, State.ofRegisters, ofValues, mergeComponents, ComponentAnalysis.merge,
      hcombine, hne, hle]

theorem post_ofRegisters (e : Edge) : (ofValues v).post (.ofRegisters l s) e =
    (v.step s e.stmt).map fun o => o.map (State.ofRegisters e.target) := by
  have hregisters : (ComponentAnalysis.values v).registersAt (.ofRegisters l s) 1 = .ok s := rfl
  unfold post ofValues
  simp only [postFrom, ComponentAnalysis.post, hregisters, bind, Except.bind]
  cases v.step s e.stmt with
  | error f => rfl
  | ok o => cases o <;> rfl

/-- A successor is the register file after the statement, at the target of the edge. -/
theorem exists_of_post {e : Edge} (h : (ofValues v).post (.ofRegisters l s) e = .ok (some u)) :
    ∃ t, u = .ofRegisters e.target t ∧ v.step s e.stmt = .ok (some t) := by
  rw [post_ofRegisters] at h
  cases hstep : v.step s e.stmt with
  | error f =>
      rw [hstep] at h
      exact absurd h (by simp [Except.map])
  | ok o =>
      rw [hstep] at h
      obtain ⟨t, rfl, ht⟩ := Option.map_eq_some_iff.1 (Except.ok.inj h)
      exact ⟨t, ht.symm, rfl⟩

theorem refine_ofRegisters (q : ValuePrecision) :
    (ofValues v).refine (.ofRegisters l s) [.null, .values q] =
      .ok (.ofRegisters l (ValueAnalysis.widen s q).1,
        [.null, .values (ValueAnalysis.widen s q).2]) := rfl

end Analysis

namespace ValueAnalysis

variable {v : ValueAnalysis} {s t s' : Registers} {stmt : Stmt} {q : ValuePrecision}

/-! ## Statements -/

/-- A statement that is passed below is passed above, if it does not fault there, and more is known
    after it below. -/
theorem step_le (hs : s.Possible) (hle : s.le t = true) (h : v.step s stmt = .ok (some s'))
    {o : Option Registers} (ho : v.step t stmt = .ok o) :
    ∃ t', o = some t' ∧ s'.le t' = true ∧ s'.Possible := by
  cases stmt with
  | assign r e =>
      obtain ⟨a, ha, h⟩ := bind_eq_ok.1 h
      obtain ⟨b, hb, ho⟩ := bind_eq_ok.1 ho
      obtain rfl := Option.some.inj (Except.ok.inj h)
      refine ⟨t.set r b, (Except.ok.inj ho).symm, ?_, hs.set (hs.eval ha)⟩
      exact Registers.set_le_set hle (Registers.eval_le_eval hs hle ha hb)
  | havoc r =>
      obtain rfl := Option.some.inj (Except.ok.inj h)
      refine ⟨t.set r .unknown, (Except.ok.inj ho).symm, ?_, ?_⟩
      · exact Registers.set_le_set hle (ValueSet.le_refl _)
      · exact hs.set ⟨0, ValueSet.allows_unknown 0⟩
  | store addr value width =>
      -- The expressions are only evaluated for the faults they may raise.
      obtain ⟨_, -, h⟩ := bind_eq_ok.1 h
      obtain ⟨_, -, h⟩ := bind_eq_ok.1 h
      obtain ⟨_, -, h⟩ := bind_eq_ok.1 h
      obtain ⟨_, -, ho⟩ := bind_eq_ok.1 ho
      obtain ⟨_, -, ho⟩ := bind_eq_ok.1 ho
      obtain ⟨_, -, ho⟩ := bind_eq_ok.1 ho
      obtain rfl := Option.some.inj (Except.ok.inj h)
      exact ⟨t, (Except.ok.inj ho).symm, hle, hs⟩
  | assume condition origin => exact Registers.assume_le hs hle h ho
  | callReturn =>
      rw [show v.step t .callReturn = v.step s .callReturn from rfl, h] at ho
      refine ⟨s', (Except.ok.inj ho).symm, Registers.le_refl s', ?_⟩
      have hunknown : (if v.atomicCalls then some Registers.unknown else none) = some s' :=
        Except.ok.inj h
      split at hunknown
      · obtain rfl := Option.some.inj hunknown
        exact Registers.possible_unknown
      · exact absurd hunknown (by simp)
  | goto g =>
      obtain rfl := Option.some.inj (Except.ok.inj h)
      exact ⟨t, (Except.ok.inj ho).symm, hle, hs⟩
  | skip =>
      obtain rfl := Option.some.inj (Except.ok.inj h)
      exact ⟨t, (Except.ok.inj ho).symm, hle, hs⟩
  | halt =>
      obtain rfl := Option.some.inj (Except.ok.inj h)
      exact ⟨t, (Except.ok.inj ho).symm, hle, hs⟩

theorem possible_of_step (hs : s.Possible) (h : v.step s stmt = .ok (some s')) : s'.Possible := by
  obtain ⟨-, -, -, hs'⟩ := step_le hs (Registers.le_refl s) h h
  exact hs'

end ValueAnalysis

/-! ## Adjustment -/

/-- Inserting the elements of a list one by one into a set. -/
theorem OrdSet.toList_insertAll {α : Type} [Ord α] [Std.TransOrd α] [Std.LawfulEqOrd α]
    (u : OrdSet α) (xs : List α) :
    (u.insertAll xs).toList = xs.foldr Ascending.insert u.toList := by
  induction xs with
  | nil => rfl
  | cons x xs ih => exact congrArg (Ascending.insert x) ih

namespace Registers

variable {s : Registers} {r : Reg} {ws : List Word}

/-- The listed constants are those of the known registers. -/
theorem constants?_of_mem_constants (h : (r, ws) ∈ s.constants) :
    (s.get r).constants? = some ws := by
  obtain ⟨i, -, hi⟩ := List.mem_filterMap.1 h
  obtain ⟨xs, hxs, heq⟩ := Option.map_eq_some_iff.1 hi
  obtain ⟨rfl, rfl⟩ := Prod.mk.inj heq
  have hlt : (BitVec.ofNat 8 i.val).toNat < trackedRegs := by
    rw [toNat_ofNat_of_lt i.isLt]
    exact i.isLt
  rw [get_of_lt s hlt, ← hxs]
  congr 2
  exact toNat_ofNat_of_lt i.isLt

end Registers

namespace ValuePrecision

variable {p : ValuePrecision} {s t : Registers} {r : Reg} {ws : List Word}

/-- Every constant that was noted is possible in `s`. -/
def NotedBy (p : ValuePrecision) (s : Registers) : Prop :=
  ∀ r, Ascending (p.seen.get r) ∧ ∀ w ∈ p.seen.get r, (s.get r).Allows w

theorem notedBy_fresh (threshold : Nat) (s : Registers) : (fresh threshold).NotedBy s := by
  intro r
  exact ⟨List.Pairwise.nil, fun w hw => absurd hw List.not_mem_nil⟩

theorem NotedBy.of_le (h : p.NotedBy s) (hle : s.le t = true) : p.NotedBy t := by
  intro r
  exact ⟨(h r).1, fun w hw => ValueSet.allows_of_le (Registers.le_iff.1 hle r) ((h r).2 w hw)⟩

/-- Noting the constants of a register. -/
theorem NotedBy.observe (h : p.NotedBy s) (hws : (s.get r).constants? = some ws) :
    (p.observe r ws).NotedBy s := by
  intro j
  have hget : (p.observe r ws).seen.get j =
      if r = j then ws.foldr Ascending.insert (p.seen.get j) else p.seen.get j :=
    Buckets.get_modify _ _ _ _
  rw [hget]
  split
  · rename_i hj
    subst hj
    obtain ⟨hasc, hall⟩ := h r
    rw [← OrdSet.toList_insertAll ⟨p.seen.get r, hasc⟩ ws]
    refine ⟨OrdSet.ascending _, fun w hw => ?_⟩
    rcases OrdSet.mem_insertAll.1 hw with hw | hw
    · exact (ValueSet.allows_iff_of_constants? hws).2 hw
    · exact hall w hw
  · exact h j

/-- No more constants are noted in a known register than it can hold. -/
theorem NotedBy.seenCount_le (h : p.NotedBy s) (hws : (s.get r).constants? = some ws) :
    p.seenCount r ≤ maxConstants := by
  obtain ⟨hasc, hall⟩ := h r
  have hsub : p.seen.get r ⊆ ws := fun w hw =>
    (ValueSet.allows_iff_of_constants? hws).1 (hall w hw)
  have hlength : ws.length ≤ maxConstants := by
    cases hget : s.get r with
    | unknown => exact absurd (hget ▸ hws) (by simp [ValueSet.constants?])
    | known xs hxs =>
        rw [hget] at hws
        obtain rfl := Option.some.inj hws
        exact hxs
  -- The noted constants are all different.
  exact Nat.le_trans (List.Nodup.subperm hasc.nodup hsub).length_le hlength

end ValuePrecision

/-- Where as many constants are tolerated as a value set can have, and all that were noted are still
    possible, an adjustment changes nothing; and all that are noted after it are possible. -/
theorem ValueAnalysis.widen_eq {s : Registers} {q : ValuePrecision} (h : q.NotedBy s)
    (hthreshold : maxConstants ≤ q.threshold) :
    (widen s q).1 = s ∧ (widen s q).2.NotedBy s ∧ (widen s q).2.threshold = q.threshold := by
  unfold widen
  -- The loop over the known registers forgets none, since none has shown too many constants.
  refine List.foldlRecOn (motive := fun out : Registers × ValuePrecision =>
    out.1 = s ∧ out.2.NotedBy s ∧ out.2.threshold = q.threshold) _ _ ⟨rfl, h, rfl⟩ ?_
  rintro ⟨t, p⟩ ⟨ht, hp, hpq⟩ ⟨r, ws⟩ hmem
  obtain rfl : t = s := ht
  have hws := Registers.constants?_of_mem_constants hmem
  have hnoted : (p.observe r ws).NotedBy t := hp.observe hws
  have hkept : ¬ (p.observe r ws).exceeded r = true := by
    have hcount := hnoted.seenCount_le hws
    have hsame : (p.observe r ws).threshold = q.threshold := hpq
    rw [ValuePrecision.exceeded, decide_eq_true_iff, hsame]
    omega
  exact ⟨if_neg hkept, hnoted, hpq⟩

end CodeReach
