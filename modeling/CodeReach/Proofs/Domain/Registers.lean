/-
  CodeReach.Proofs.Domain.Registers

  What abstract register files mean.  Everything is said about the value sets of the
  single registers: `get_set`, `get_join` and `le_iff` open the operations, and the
  order and the meaning of register files follow from those of value sets.

  Evaluation is sound (`allows_eval`): the value of an expression is one of those
  computed for it, in every register file that is described and every memory that
  agrees with the read-only data.  Assumptions are sound (`describes_assume`): no
  register file in which the condition holds is lost.
-/
import CodeReach.Proofs.Domain.ValueSet
import CodeReach.Proofs.Expr.Folding

namespace CodeReach

/-- A computation that may fail succeeds exactly if both of its parts do. -/
theorem bind_eq_ok {ε α β : Type} {x : Except ε α} {f : α → Except ε β} {b : β} :
    x >>= f = .ok b ↔ ∃ a, x = .ok a ∧ f a = .ok b := by
  cases x with
  | error e => simp [bind, Except.bind]
  | ok a => simp [bind, Except.bind]

/-- It fails as its first part does, or as the second part does after the first has succeeded. -/
theorem bind_eq_error {ε α β : Type} {x : Except ε α} {f : α → Except ε β} {err : ε} :
    x >>= f = .error err ↔ x = .error err ∨ ∃ a, x = .ok a ∧ f a = .error err := by
  cases x with
  | error e => simp [bind, Except.bind]
  | ok a => simp [bind, Except.bind]

/-- Every memory agrees with a program that has no read-only data. -/
theorem Memory.agrees_of_segments_eq_nil {μ : Memory} {p : Program} (h : p.segments = []) :
    μ.Agrees p := by
  intro addr width w hread
  rw [Program.read?, h] at hread
  exact absurd hread (by simp)

namespace Registers

variable {s t : Registers} {ρ : RegFile} {μ : Memory} {program : Option Program}

/-! ## Single registers -/

theorem get_of_lt (s : Registers) {r : Reg} (h : r.toNat < trackedRegs) :
    s.get r = s.sets[r.toNat] := by
  rw [get, Vector.getElem?_eq_getElem h, Option.getD_some]

theorem get_of_not_lt (s : Registers) {r : Reg} (h : ¬ r.toNat < trackedRegs) :
    s.get r = .unknown := by
  rw [get, Vector.getElem?_eq_none (Nat.le_of_not_lt h), Option.getD_none]

/-- The register with a given number. -/
theorem toNat_ofNat_of_lt {i : Nat} (h : i < trackedRegs) : (BitVec.ofNat 8 i).toNat = i := by
  rw [BitVec.toNat_ofNat]
  apply Nat.mod_eq_of_lt
  have : trackedRegs = 32 := rfl
  omega

@[simp] theorem get_unknown (r : Reg) : unknown.get r = .unknown := by
  by_cases h : r.toNat < trackedRegs
  · rw [get_of_lt unknown h]
    simp [unknown]
  · exact get_of_not_lt unknown h

/-- Learning about a register changes what is known about that one, if it is tracked. -/
theorem get_set (s : Registers) (q r : Reg) (v : ValueSet) :
    (s.set q v).get r = if q = r ∧ r.toNat < trackedRegs then v else s.get r := by
  by_cases h : r.toNat < trackedRegs
  · rw [get_of_lt _ h, get_of_lt s h]
    simp only [set, Vector.getElem_setIfInBounds]
    by_cases hq : q = r
    · subst hq
      simp [h]
    · have hne : q.toNat ≠ r.toNat := fun he => hq (BitVec.eq_of_toNat_eq he)
      simp [hq, hne]
  · rw [get_of_not_lt _ h, get_of_not_lt s h, if_neg fun hc => h hc.2]

/-- A join is made register by register. -/
theorem get_join (s t : Registers) (r : Reg) : (s.join t).get r = (s.get r).merge (t.get r) := by
  by_cases h : r.toNat < trackedRegs
  · rw [get_of_lt _ h, get_of_lt s h, get_of_lt t h]
    simp [join]
  · rw [get_of_not_lt _ h, get_of_not_lt s h, get_of_not_lt t h]
    rfl

/-- Register files that know the same about each register are equal. -/
theorem ext_get (h : ∀ r, s.get r = t.get r) : s = t := by
  obtain ⟨xs⟩ := s
  obtain ⟨ys⟩ := t
  congr 1
  ext i hi
  have hr := toNat_ofNat_of_lt hi
  have hget := h (BitVec.ofNat 8 i)
  rw [get_of_lt _ (by omega), get_of_lt _ (by omega)] at hget
  simpa only [hr] using hget

/-! ## Order -/

/-- The order is that of the value sets of all registers. -/
theorem le_iff : s.le t = true ↔ ∀ r, (s.get r).le (t.get r) = true := by
  rw [le, List.all_eq_true]
  constructor
  · intro h r
    by_cases hr : r.toNat < trackedRegs
    · rw [get_of_lt s hr, get_of_lt t hr]
      exact h ⟨r.toNat, hr⟩ (List.mem_finRange _)
    · rw [get_of_not_lt t hr]
      exact ValueSet.le_unknown _
  · intro h i _
    have hi := toNat_ofNat_of_lt i.isLt
    have hle := h (BitVec.ofNat 8 i.val)
    rw [get_of_lt s (by omega), get_of_lt t (by omega)] at hle
    show s.sets[i.val].le t.sets[i.val] = true
    simpa only [hi] using hle

theorem le_refl (s : Registers) : s.le s = true :=
  le_iff.2 fun _ => ValueSet.le_refl _

theorem le_trans {u : Registers} (hst : s.le t = true) (htu : t.le u = true) :
    s.le u = true :=
  le_iff.2 fun r => ValueSet.le_trans (le_iff.1 hst r) (le_iff.1 htu r)

theorem le_antisymm (hst : s.le t = true) (hts : t.le s = true) : s = t :=
  ext_get fun r => ValueSet.le_antisymm (le_iff.1 hst r) (le_iff.1 hts r)

theorem le_join_left (s t : Registers) : s.le (s.join t) = true :=
  le_iff.2 fun r => by
    rw [get_join]
    exact ValueSet.le_merge_left _ _

theorem le_join_right (s t : Registers) : t.le (s.join t) = true :=
  le_iff.2 fun r => by
    rw [get_join]
    exact ValueSet.le_merge_right _ _

/-- Forgetting a register goes up. -/
theorem le_set_unknown (h : s.le t = true) (r : Reg) : s.le (t.set r .unknown) = true := by
  rw [le_iff] at h ⊢
  intro q
  rw [get_set]
  split
  · exact ValueSet.le_unknown _
  · exact h q

/-! ## Meaning -/

theorem describes_unknown (ρ : RegFile) : unknown.Describes ρ := by
  intro r
  rw [get_unknown]
  exact ValueSet.allows_unknown _

/-- A register file above another describes what that one describes. -/
theorem describes_of_le (h : s.le t = true) (hs : s.Describes ρ) : t.Describes ρ :=
  fun r => ValueSet.allows_of_le (le_iff.1 h r) (hs r)

/-- An assignment of an allowed word is described by learning the value. -/
theorem describes_set {r : Reg} {v : ValueSet} {w : Word} (hs : s.Describes ρ) (hv : v.Allows w) :
    (s.set r v).Describes (ρ.set r w) := by
  intro q
  rw [get_set, RegFile.set]
  by_cases hq : q = r
  · subst hq
    rw [if_pos rfl]
    by_cases h : q.toNat < trackedRegs
    · rw [if_pos ⟨rfl, h⟩]
      exact hv
    · rw [if_neg fun hc => h hc.2, get_of_not_lt s h]
      exact ValueSet.allows_unknown _
  · rw [if_neg fun hc => hq hc.1.symm, if_neg hq]
    exact hs q

/-- Learning something true about a register loses no register file. -/
theorem describes_set_self {r : Reg} {v : ValueSet} (hs : s.Describes ρ) (hv : v.Allows (ρ r)) :
    (s.set r v).Describes ρ := by
  have hρ : ρ.set r (ρ r) = ρ := by
    funext q
    rw [RegFile.set]
    split
    · rename_i hq
      rw [hq]
    · rfl
  have h := describes_set (r := r) hs hv
  rwa [hρ] at h

/-! ## Evaluation -/

/-- If every element has an image, the images are those of the elements, one by one. -/
theorem map_eq_of_mapM {α β : Type} {f : α → Option β} {xs : List α} {ys : List β}
    (h : xs.mapM f = some ys) : xs.map f = ys.map some := by
  induction xs generalizing ys with
  | nil =>
      rw [← Option.some.inj h]
      rfl
  | cons a as ih =>
      rw [List.mapM_cons] at h
      obtain ⟨b, hb, h⟩ := Option.bind_eq_some_iff.1 h
      obtain ⟨bs, hbs, h⟩ := Option.bind_eq_some_iff.1 h
      obtain rfl := Option.some.inj h
      rw [List.map_cons, List.map_cons, hb, ih hbs]

theorem mem_of_mapM_eq_some {α β : Type} {f : α → Option β} {xs : List α} {ys : List β}
    (h : xs.mapM f = some ys) {x : α} (hx : x ∈ xs) : ∃ y ∈ ys, f x = some y := by
  have hfx : f x ∈ ys.map some := map_eq_of_mapM h ▸ List.mem_map_of_mem hx
  obtain ⟨y, hy, heq⟩ := List.mem_map.1 hfx
  exact ⟨y, hy, heq.symm⟩

/-- A load allows what the memory holds at an allowed address. -/
theorem allows_load (hμ : ∀ p ∈ program, μ.Agrees p) {addresses v : ValueSet} {addr : Word}
    {width : Byte} (ha : addresses.Allows addr) (h : load program addresses width = .ok v) :
    v.Allows (μ addr width) := by
  obtain ⟨_, -, hload⟩ := bind_eq_ok.1 h
  split at hload
  · rename_i ws p hws
    obtain rfl := Except.ok.inj hload
    cases hread : ws.mapM (p.read? · width.toNat) with
    | none => exact ValueSet.allows_unknown _
    | some ys =>
        obtain ⟨y, hy, hay⟩ :=
          mem_of_mapM_eq_some hread ((ValueSet.allows_iff_of_constants? hws).1 ha)
        rw [hμ p rfl addr width y hay]
        exact ValueSet.allows_ofList hy
  · obtain rfl := Except.ok.inj hload
    exact ValueSet.allows_unknown _

theorem allows_combine (op : BinaryOp) {l r : ValueSet} {x y : Word} (hx : l.Allows x)
    (hy : r.Allows y) : (combine op l r).Allows (op.apply x y) := by
  unfold combine
  split
  · rename_i h
    obtain ⟨rfl, h⟩ := h
    rw [ValueSet.allows_const]
    rcases h with h | h
    · rw [ValueSet.eq_of_single? h hx]
      simp [BinaryOp.apply, Word.ofBool]
    · rw [ValueSet.eq_of_single? h hy]
      simp [BinaryOp.apply, Word.ofBool]
  · exact ValueSet.allows_combine op.apply hx hy

/-- The value of an expression is one of those that are computed for it. -/
theorem allows_eval (hμ : ∀ p ∈ program, μ.Agrees p) (hs : s.Describes ρ) {e : Expr}
    {v : ValueSet} (h : s.eval program e = .ok v) : v.Allows (e.value ρ μ) := by
  induction e generalizing v with
  | imm w =>
      obtain rfl := Except.ok.inj h
      exact ValueSet.allows_const.2 rfl
  | reg r =>
      obtain rfl := Except.ok.inj h
      exact hs r
  | mem addr width ih =>
      obtain ⟨addresses, ha, h⟩ := bind_eq_ok.1 h
      exact allows_load hμ (ih ha) h
  | unary op e ih =>
      obtain ⟨x, hx, h⟩ := bind_eq_ok.1 h
      obtain rfl := Except.ok.inj h
      exact ValueSet.allows_map op.apply (ih hx)
  | binary op l r ihl ihr =>
      obtain ⟨x, hx, h⟩ := bind_eq_ok.1 h
      obtain ⟨y, hy, h⟩ := bind_eq_ok.1 h
      obtain rfl := Except.ok.inj h
      exact allows_combine op (ihl hx) (ihr hy)

/-! ## Assumptions -/

/-- Narrowing to the constant that the register holds loses nothing. -/
theorem describes_restrict (hs : s.Describes ρ) {r : Reg} {w : Word} (hw : ρ r = w) :
    ∃ t, s.restrict r w = some t ∧ t.Describes ρ := by
  have hset : (s.set r (.const w)).Describes ρ :=
    describes_set_self hs (ValueSet.allows_const.2 hw)
  unfold restrict
  split
  · rename_i ws hws
    have hmem : w ∈ ws := (ValueSet.allows_iff_of_constants? hws).1 (hw ▸ hs r)
    rw [if_pos (List.contains_iff_mem.2 hmem)]
    exact ⟨_, rfl, hset⟩
  · exact ⟨_, rfl, hset⟩

/-- Excluding a constant that the register does not hold loses nothing. -/
theorem describes_exclude (hs : s.Describes ρ) {r : Reg} {w : Word} (hw : ρ r ≠ w) :
    ∃ t, s.exclude r w = some t ∧ t.Describes ρ := by
  unfold exclude
  have hr := hs r
  split
  · exact ⟨s, rfl, hs⟩
  · rename_i ws hws heq
    rw [heq, ValueSet.allows_known] at hr
    have hmem : ρ r ∈ ws.filter (· != w) := OrdSet.mem_filter.2 ⟨hr, bne_iff_ne.2 hw⟩
    have hne : (ws.filter (· != w)).toList ≠ [] := List.ne_nil_of_mem hmem
    refine ⟨s.set r (.ofSet (ws.filter (· != w))), ?_, ?_⟩
    · simp only [List.isEmpty_iff]
      rw [if_neg hne]
    · exact describes_set_self hs (ValueSet.allows_ofSet hmem)

/-- Following the comparisons of a condition that holds loses nothing. -/
theorem describes_refine {c : Expr} (hs : s.Describes ρ) (hc : c.value ρ μ ≠ 0) :
    ∃ t, s.refine c = some t ∧ t.Describes ρ := by
  fun_induction refine s c with
  | case1 s l r ihl ihr =>
      obtain ⟨hl, hr⟩ := BinaryOp.apply_logicalAnd_ne_zero.1 hc
      obtain ⟨t, ht, htd⟩ := ihl hs hl
      rw [ht]
      exact ihr t htd hr
  | case2 s r w => exact describes_restrict hs (BinaryOp.apply_eq_ne_zero.1 hc)
  | case3 s r w => exact describes_restrict hs (BinaryOp.apply_eq_ne_zero.1 hc).symm
  | case4 s r w => exact describes_exclude hs (BinaryOp.apply_ne_ne_zero.1 hc)
  | case5 s r w => exact describes_exclude hs (BinaryOp.apply_ne_ne_zero.1 hc).symm
  | case6 => exact ⟨_, rfl, hs⟩

/-- An assumption that can be evaluated is refused if it is certainly zero; otherwise the registers
    that it compares are narrowed. -/
theorem assume_of_eval {c : Expr} {v : ValueSet} (h : s.eval program c = .ok v) :
    s.assume program c = .ok (if v.le (.const 0) = true then none else s.refine c) := by
  unfold assume
  rw [h]
  cases v with
  | unknown => rfl
  | known ws hws =>
      have hzero : (ValueSet.known ws hws).le (.const 0) = ws.toList.all (· == 0) := by
        show ws.toList.all [0].contains = _
        refine congrArg ws.toList.all (funext fun x => ?_)
        rw [List.contains_cons, List.contains_nil, Bool.or_false]
      rw [hzero]
      by_cases hall : ws.toList.all (· == 0) = true
      · rw [if_pos hall]
        exact if_pos hall
      · rw [if_neg hall]
        exact if_neg hall

/-- An assumption that is passed is not certainly zero, and the registers that it compares have been
    narrowed. -/
theorem exists_eval_of_assume {c : Expr} (h : s.assume program c = .ok (some t)) :
    ∃ v, s.eval program c = .ok v ∧ ¬ v.le (.const 0) = true ∧ s.refine c = some t := by
  obtain ⟨v, hv, -⟩ := bind_eq_ok.1 h
  have heq := Except.ok.inj ((assume_of_eval hv).symm.trans h)
  split at heq
  · exact absurd heq (by simp)
  · rename_i hzero
    exact ⟨v, hv, hzero, heq⟩

/-- An assumption that holds is passed, and the register file is still described after it. -/
theorem describes_assume (hμ : ∀ p ∈ program, μ.Agrees p) (hs : s.Describes ρ) {c : Expr}
    (hc : c.value ρ μ ≠ 0) {o : Option Registers} (h : s.assume program c = .ok o) :
    ∃ t, o = some t ∧ t.Describes ρ := by
  obtain ⟨v, hv, -⟩ := bind_eq_ok.1 h
  have hle : ¬ v.le (.const 0) = true := fun hle =>
    hc (ValueSet.allows_const.1 (ValueSet.allows_of_le hle (allows_eval hμ hs hv)))
  rw [assume_of_eval hv, if_neg hle] at h
  rw [← Except.ok.inj h]
  exact describes_refine hs hc

end Registers

end CodeReach
