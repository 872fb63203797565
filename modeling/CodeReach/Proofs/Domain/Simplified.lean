/-
  CodeReach.Proofs.Domain.Simplified

  Folding an expression loses no precision.  Where a folded expression can be evaluated
  in a register file, the result is below that of the expression itself in any larger
  register file in which that one can be evaluated (`eval_simplify_le`).

  Folding may drop an operand that faults.  Then an assumption can be evaluated although
  its condition cannot, and the theorem says that nothing comes of it that is not there
  in the larger register file too: if the condition is known there not to have the value
  that is assumed, the assumption is certainly zero (`eval_conditionIs_le_zero`,
  `eval_taken_le_zero`).
-/
import CodeReach.Explore.Resolver
import CodeReach.Proofs.Domain.Monotone

namespace CodeReach

namespace ValueSet

variable {l r v w : ValueSet} {f : Word → Word → Word} {g : Word → Word} {x y c : Word}

/-! ## Operands that are not known -/

theorem combine_eq_unknown_of_left (h : l.constants? = none) : combine f l r = unknown := by
  rw [combine, h]

theorem combine_eq_unknown_of_right (h : r.constants? = none) : combine f l r = unknown := by
  rw [combine, h]
  cases l.constants? <;> rfl

theorem map_id (v : ValueSet) : v.map id = v := by
  cases v with
  | unknown => rfl
  | known s hs =>
      have hset : OrdSet.ofList (s.toList.map id) = s := by
        refine OrdSet.ext_mem fun x => ?_
        rw [OrdSet.mem_ofList, List.map_id, OrdSet.mem_def]
      show ofSet (OrdSet.ofList (s.toList.map id)) = _
      rw [hset, ofSet, dif_pos hs]

/-! ## Operands that fold away -/

/-- With one operand fixed, a combination has at least the results of the other operand. -/
theorem map_le_combine_of_left (hc : l.Allows c) (hle : v.le r = true)
    (hfg : v ≠ unknown → ∀ y, v.Allows y → f c y = g y) : (v.map g).le (combine f l r) = true := by
  cases hls : l.constants? with
  | none =>
      rw [combine_eq_unknown_of_left hls]
      exact le_unknown _
  | some ls =>
      rcases le_cases hle with rfl | ⟨xs, ys, hxs, hys, hsub⟩
      · rw [combine_eq_unknown_of_right rfl]
        exact le_unknown _
      · have hne : v ≠ unknown := by
          rintro rfl
          exact absurd hxs (by simp [constants?])
        rw [map, hxs, combine, hls, hys]
        refine ofList_le_ofList fun z hz => ?_
        obtain ⟨y, hy, rfl⟩ := List.mem_map.1 hz
        refine List.mem_flatMap.2 ⟨c, (allows_iff_of_constants? hls).1 hc, ?_⟩
        exact List.mem_map.2 ⟨y, hsub hy, hfg hne y ((allows_iff_of_constants? hxs).2 hy)⟩

theorem le_combine_of_left (hc : l.Allows c) (hle : v.le r = true)
    (hf : v ≠ unknown → ∀ y, v.Allows y → f c y = y) : v.le (combine f l r) = true := by
  have h := map_le_combine_of_left (g := id) hc hle hf
  rwa [map_id] at h

theorem le_combine_of_right (hc : r.Allows c) (hle : v.le l = true)
    (hf : v ≠ unknown → ∀ x, v.Allows x → f x c = x) : v.le (combine f l r) = true := by
  cases hrs : r.constants? with
  | none =>
      rw [combine_eq_unknown_of_right hrs]
      exact le_unknown _
  | some rs =>
      rcases le_cases hle with rfl | ⟨xs, ys, hxs, hys, hsub⟩
      · exact le_unknown _
      · cases v with
        | unknown => exact absurd hxs (by simp [constants?])
        | known s hs =>
            obtain rfl := Option.some.inj hxs
            rw [combine, hys, hrs]
            refine known_le_ofSet fun x hx => OrdSet.mem_ofList.2 (List.mem_flatMap.2 ?_)
            refine ⟨x, hsub hx, List.mem_map.2 ⟨c, (allows_iff_of_constants? hrs).1 hc, ?_⟩⟩
            exact hf (by simp) x hx

/-- A function of the results of a combination has all results of the composition. -/
theorem combine_le_map_combine {h : Word → Word → Word} (hgf : ∀ x y, h x y = g (f x y)) :
    (combine h l r).le ((combine f l r).map g) = true := by
  cases hls : l.constants? with
  | none =>
      rw [combine_eq_unknown_of_left (f := f) hls]
      exact le_unknown _
  | some ls =>
      cases hrs : r.constants? with
      | none =>
          rw [combine_eq_unknown_of_right (f := f) hrs]
          exact le_unknown _
      | some rs =>
          rw [combine, hls, hrs, combine, hls, hrs]
          dsimp only
          cases hf : ofList (ls.flatMap fun x => rs.map (f x)) with
          | unknown => exact le_unknown _
          | known s hs =>
              refine ofList_le_ofList fun z hz => ?_
              obtain ⟨x, hx, hz⟩ := List.mem_flatMap.1 hz
              obtain ⟨y, hy, rfl⟩ := List.mem_map.1 hz
              have hmem : f x y ∈ s.toList := by
                have hallows : (ofList (ls.flatMap fun x => rs.map (f x))).Allows (f x y) :=
                  allows_ofList (List.mem_flatMap.2 ⟨x, hx, List.mem_map_of_mem hy⟩)
                rwa [hf] at hallows
              exact List.mem_map.2 ⟨f x y, hmem, (hgf x y).symm⟩

end ValueSet

theorem Expr.eq_imm_of_const? {e : Expr} {w : Word} (h : e.const? = some w) : e = .imm w := by
  cases e with
  | imm v => exact congrArg imm (Option.some.inj h)
  | _ => exact absurd h (by simp [const?])

namespace Registers

variable {s t : Registers} {program : Option Program} {e l r : Expr} {v vl vr : ValueSet}
  {op : BinaryOp} {c w : Word}

theorem combine_of_ne (h : op ≠ .logicalAnd) : combine op vl vr = ValueSet.combine op.apply vl vr :=
  if_neg fun hand => h hand.1

/-- An expression that is zero or one by its form is known to be that, if anything is known. -/
theorem eq_zero_or_one_of_eval (hb : e.isBoolean = true) (he : s.eval program e = .ok v)
    (hne : v ≠ .unknown) (hw : v.Allows w) : w = 0 ∨ w = 1 := by
  cases e with
  | imm x =>
      obtain rfl := Except.ok.inj he
      rw [ValueSet.allows_const.1 hw]
      exact Expr.value_of_isBoolean (ρ := fun _ => 0) (μ := fun _ _ => 0) hb
  | reg r => exact absurd hb (by simp [Expr.isBoolean])
  | mem addr width => exact absurd hb (by simp [Expr.isBoolean])
  | unary op e =>
      have hop : op = .logicalNot := by simpa [Expr.isBoolean] using hb
      subst hop
      obtain ⟨v₁, -, he⟩ := bind_eq_ok.1 he
      obtain rfl := Except.ok.inj he
      obtain ⟨x, -, rfl⟩ := ValueSet.exists_of_allows_map hne hw
      exact Word.ofBool_cases _
  | binary op l r =>
      obtain ⟨v₁, -, he⟩ := bind_eq_ok.1 he
      obtain ⟨v₂, -, he⟩ := bind_eq_ok.1 he
      obtain rfl := Except.ok.inj he
      by_cases hzero : op = .logicalAnd ∧ (v₁.single? = some 0 ∨ v₂.single? = some 0)
      · rw [combine, if_pos hzero] at hw
        exact Or.inl (ValueSet.allows_const.1 hw)
      · rw [combine, if_neg hzero] at hw hne
        obtain ⟨x, y, -, -, rfl⟩ := ValueSet.exists_of_allows_combine hne hw
        exact BinaryOp.apply_of_isBoolean hb x y

/-- Beside a side that can be a nonzero word, a conjunction has all truth values of the other. -/
theorem le_combine_logicalAnd_of_left (hc : vl.Allows c) (hne : c ≠ 0) (hle : v.le vr = true)
    (hbool : v ≠ .unknown → ∀ y, v.Allows y → y = 0 ∨ y = 1) :
    v.le (combine .logicalAnd vl vr) = true := by
  unfold combine
  split
  · rename_i hzero
    rcases hzero.2 with hzero | hzero
    · exact absurd (ValueSet.eq_of_single? hzero hc) hne
    · rwa [← ValueSet.single?_eq_some_iff.1 hzero]
  · exact ValueSet.le_combine_of_left hc hle fun hv y hy =>
      (Expr.apply_logicalAnd_of_boolean hne (hbool hv y hy)).1

theorem le_combine_logicalAnd_of_right (hc : vr.Allows c) (hne : c ≠ 0) (hle : v.le vl = true)
    (hbool : v ≠ .unknown → ∀ y, v.Allows y → y = 0 ∨ y = 1) :
    v.le (combine .logicalAnd vl vr) = true := by
  unfold combine
  split
  · rename_i hzero
    rcases hzero.2 with hzero | hzero
    · rwa [← ValueSet.single?_eq_some_iff.1 hzero]
    · exact absurd (ValueSet.eq_of_single? hzero hc) hne
  · exact ValueSet.le_combine_of_right hc hle fun hv y hy =>
      (Expr.apply_logicalAnd_of_boolean hne (hbool hv y hy)).2

/-! ## Folding constructors

The operands of a folded node are compared with value sets `vl` and `vr` that they are known to be
below; a node that has become a constant is compared by its value. -/

section
variable (hs : s.Possible) (hl : ∀ v, s.eval program l = .ok v → v.le vl = true)
  (hr : ∀ v, s.eval program r = .ok v → v.le vr = true)

theorem allows_of_imm {x : Expr} (h : ∀ v, s.eval program x = .ok v → v.le vl = true)
    (hx : x = .imm c) : vl.Allows c := by
  subst hx
  exact ValueSet.const_le_iff.1 (h _ rfl)

include hl hr in
/-- The left operand, left alone beside a neutral constant. -/
theorem eval_left_le (hop : op ≠ .logicalAnd) (hneutral : ∀ x, op.apply x c = x) (hc : r = .imm c)
    (h : s.eval program l = .ok v) : v.le (combine op vl vr) = true := by
  rw [combine_of_ne hop]
  exact ValueSet.le_combine_of_right (allows_of_imm hr hc) (hl v h) fun _ x _ => hneutral x

include hl hr in
/-- The right operand, left alone beside a neutral constant. -/
theorem eval_right_le (hop : op ≠ .logicalAnd) (hneutral : ∀ x, op.apply c x = x)
    (hc : l = .imm c) (h : s.eval program r = .ok v) : v.le (combine op vl vr) = true := by
  rw [combine_of_ne hop]
  exact ValueSet.le_combine_of_left (allows_of_imm hl hc) (hr v h) fun _ x _ => hneutral x

include hs hl hr in
theorem eval_foldBinary_le
    (hconst : ∀ w, Expr.foldBinary op l r = .imm w → (combine op vl vr).Allows w)
    (h : s.eval program (Expr.foldBinary op l r) = .ok v) : v.le (combine op vl vr) = true := by
  fun_cases Expr.foldBinary op l r with
  | case1 x y =>
      obtain rfl := Except.ok.inj h
      exact ValueSet.const_le_iff.2 (hconst _ rfl)
  | case2 l r hne =>
      rw [Expr.foldBinary] at h
      · obtain ⟨v₁, hv₁, h⟩ := bind_eq_ok.1 h
        obtain ⟨v₂, hv₂, h⟩ := bind_eq_ok.1 h
        obtain rfl := Except.ok.inj h
        exact combine_le_combine op (hl v₁ hv₁) (hr v₂ hv₂) (hs.eval hv₁) (hs.eval hv₂)
      · exact hne

theorem eval_foldUnary_le {op : UnaryOp} {u : ValueSet}
    (hconst : ∀ w, Expr.foldUnary op l = .imm w → u.Allows w)
    (hmap : ∀ v, s.eval program l = .ok v → (v.map op.apply).le u = true)
    (h : s.eval program (Expr.foldUnary op l) = .ok v) : v.le u = true := by
  unfold Expr.foldUnary at h hconst
  split at h
  · obtain rfl := Except.ok.inj h
    exact ValueSet.const_le_iff.2 (hconst _ rfl)
  · obtain ⟨v₁, hv₁, h⟩ := bind_eq_ok.1 h
    obtain rfl := Except.ok.inj h
    exact hmap v₁ hv₁

include hs hl hr in
theorem eval_mkLogicalAnd_le
    (hconst : ∀ w, Expr.mkLogicalAnd l r = .imm w → (combine .logicalAnd vl vr).Allows w)
    (h : s.eval program (Expr.mkLogicalAnd l r) = .ok v) :
    v.le (combine .logicalAnd vl vr) = true := by
  unfold Expr.mkLogicalAnd at h hconst
  split at h
  · rename_i hzero
    obtain rfl := Except.ok.inj h
    exact ValueSet.const_le_iff.2 (hconst 0 (if_pos hzero))
  · rename_i hzero
    rw [if_neg hzero] at hconst
    rw [not_or] at hzero
    split at h
    · rename_i hside
      obtain ⟨x, hx⟩ := Option.isSome_iff_exists.1 hside.1
      have hlx : l = .imm x := Expr.eq_imm_of_const? hx
      have hne : x ≠ 0 := fun h0 => hzero.1 (h0 ▸ hlx)
      refine le_combine_logicalAnd_of_left (allows_of_imm hl hlx) hne (hr v h) fun hv y hy => ?_
      exact eq_zero_or_one_of_eval hside.2 h hv hy
    · rename_i hside
      rw [if_neg hside] at hconst
      split at h
      · rename_i hside'
        obtain ⟨x, hx⟩ := Option.isSome_iff_exists.1 hside'.1
        have hrx : r = .imm x := Expr.eq_imm_of_const? hx
        have hne : x ≠ 0 := fun h0 => hzero.2 (h0 ▸ hrx)
        refine le_combine_logicalAnd_of_right (allows_of_imm hr hrx) hne (hl v h) fun hv y hy => ?_
        exact eq_zero_or_one_of_eval hside'.2 h hv hy
      · rename_i hside'
        rw [if_neg hside'] at hconst
        exact eval_foldBinary_le hs hl hr hconst h

include hs hl hr in
/-- A folded binary node is below the combination of what its operands are below. -/
theorem eval_mkBinary_le
    (hconst : ∀ w, Expr.mkBinary op l r = .imm w → (combine op vl vr).Allows w)
    (h : s.eval program (Expr.mkBinary op l r) = .ok v) : v.le (combine op vl vr) = true := by
  cases op with
  | logicalAnd => exact eval_mkLogicalAnd_le hs hl hr hconst h
  | ltu => exact eval_foldBinary_le hs hl hr hconst h
  | lt => exact eval_foldBinary_le hs hl hr hconst h
  | add | or | xor =>
      simp only [Expr.mkBinary] at h hconst
      split at h
      · rename_i hz
        exact eval_left_le hl hr (by decide) (by simp [BinaryOp.apply]) hz h
      · rename_i hz
        rw [if_neg hz] at hconst
        split at h
        · rename_i hz'
          exact eval_right_le hl hr (by decide) (by simp [BinaryOp.apply]) hz' h
        · rename_i hz'
          rw [if_neg hz'] at hconst
          exact eval_foldBinary_le hs hl hr hconst h
  | sub =>
      simp only [Expr.mkBinary] at h hconst
      split at h
      · rename_i hz
        exact eval_left_le hl hr (by decide) (by simp [BinaryOp.apply]) hz h
      · rename_i hz
        rw [if_neg hz] at hconst
        split at h
        · -- A difference from zero has become a negation, which may have folded on its own.
          rename_i hz'
          rw [if_pos hz'] at hconst
          rw [combine_of_ne (by decide)] at hconst ⊢
          refine eval_foldUnary_le hconst (fun v₁ hv₁ => ?_) h
          exact ValueSet.map_le_combine_of_left (allows_of_imm hl hz') (hr v₁ hv₁) fun _ y _ => by
            simp [BinaryOp.apply, UnaryOp.apply]
        · rename_i hz'
          rw [if_neg hz'] at hconst
          exact eval_foldBinary_le hs hl hr hconst h
  | mul =>
      simp only [Expr.mkBinary] at h hconst
      split at h
      · rename_i hz
        obtain rfl := Except.ok.inj h
        exact ValueSet.const_le_iff.2 (hconst 0 (if_pos hz))
      · rename_i hz
        rw [if_neg hz] at hconst
        split at h
        · rename_i ho
          exact eval_left_le hl hr (by decide) (by simp [BinaryOp.apply]) ho h
        · rename_i ho
          rw [if_neg ho] at hconst
          split at h
          · rename_i ho'
            exact eval_right_le hl hr (by decide) (by simp [BinaryOp.apply]) ho' h
          · rename_i ho'
            rw [if_neg ho'] at hconst
            exact eval_foldBinary_le hs hl hr hconst h
  | and =>
      simp only [Expr.mkBinary] at h hconst
      split at h
      · rename_i hz
        obtain rfl := Except.ok.inj h
        exact ValueSet.const_le_iff.2 (hconst 0 (if_pos hz))
      · rename_i hz
        rw [if_neg hz] at hconst
        exact eval_foldBinary_le hs hl hr hconst h
  | shl | shr =>
      simp only [Expr.mkBinary] at h hconst
      split at h
      · rename_i hz
        exact eval_left_le hl hr (by decide) (by simp [BinaryOp.apply]) hz h
      · rename_i hz
        rw [if_neg hz] at hconst
        exact eval_foldBinary_le hs hl hr hconst h
  | eq | ne =>
      simp only [Expr.mkBinary] at h hconst
      split at h
      · rename_i heq
        obtain rfl := Except.ok.inj h
        exact ValueSet.const_le_iff.2 (hconst _ (if_pos heq))
      · rename_i hne
        rw [if_neg hne] at hconst
        exact eval_foldBinary_le hs hl hr hconst h

/-- The negation of a comparison, folded into the opposite comparison. -/
theorem eval_negated_le {f g : BinaryOp} {a b : Expr} {u : ValueSet} (hf : f ≠ .logicalAnd)
    (hg : g ≠ .logicalAnd)
    (hfg : ∀ x y, g.apply x y = UnaryOp.logicalNot.apply (f.apply x y))
    (hconst : ∀ w, Expr.foldBinary g a b = .imm w → u.Allows w)
    (hmap : ∀ v, s.eval program (.binary f a b) = .ok v →
      (v.map UnaryOp.logicalNot.apply).le u = true)
    (h : s.eval program (Expr.foldBinary g a b) = .ok v) : v.le u = true := by
  unfold Expr.foldBinary at h hconst
  split at h
  · obtain rfl := Except.ok.inj h
    exact ValueSet.const_le_iff.2 (hconst _ rfl)
  · obtain ⟨v₁, hv₁, h⟩ := bind_eq_ok.1 h
    obtain ⟨v₂, hv₂, h⟩ := bind_eq_ok.1 h
    obtain rfl := Except.ok.inj h
    have hcompare : s.eval program (.binary f a b) = .ok (combine f v₁ v₂) := by
      rw [eval, hv₁, hv₂]
      rfl
    refine ValueSet.le_trans ?_ (hmap _ hcompare)
    rw [combine_of_ne hf, combine_of_ne hg]
    exact ValueSet.combine_le_map_combine hfg

include hl in
/-- A folded unary node is below the image of what its operand is below. -/
theorem eval_mkUnary_le {op : UnaryOp}
    (hconst : ∀ w, Expr.mkUnary op l = .imm w → (vl.map op.apply).Allows w)
    (h : s.eval program (Expr.mkUnary op l) = .ok v) : v.le (vl.map op.apply) = true := by
  have hmap : ∀ v₁, s.eval program l = .ok v₁ → (v₁.map op.apply).le (vl.map op.apply) = true :=
    fun v₁ hv₁ => ValueSet.map_le_map op.apply (hl v₁ hv₁)
  cases op with
  | not => exact eval_foldUnary_le hconst hmap h
  | neg => exact eval_foldUnary_le hconst hmap h
  | logicalNot =>
      unfold Expr.mkUnary Expr.mkLogicalNot at h hconst
      dsimp only at h hconst
      split at h
      · -- The negation of an equality has become an inequality.
        exact eval_negated_le (by decide) (by decide) BinaryOp.apply_ne_eq_not hconst hmap h
      · exact eval_negated_le (by decide) (by decide) BinaryOp.apply_eq_eq_not hconst hmap h
      · rename_i hne hne'
        refine eval_foldUnary_le (fun w hw => hconst w ?_) hmap h
        split
        · exact absurd rfl (hne _ _)
        · exact absurd rfl (hne' _ _)
        · exact hw

end

/-! ## Whole expressions -/

/-- Folding loses no precision: evaluated below, a folded expression has at most the values that the
    expression itself has above. -/
theorem eval_simplify_le (hs : s.Possible) (hle : s.le t = true) {u : ValueSet}
    (ht : t.eval program e = .ok u) (h : s.eval program e.simplify = .ok v) : v.le u = true := by
  -- A folded constant is the value of the expression in every register file described above.
  have hvalue : ∀ {e : Expr} {u : ValueSet}, t.eval program e = .ok u →
      ∀ w, e.simplify = .imm w → u.Allows w := by
    intro e u ht w hw
    obtain ⟨ρ, hρ⟩ := hs.of_le hle
    obtain ⟨μ, hμ⟩ := Memory.exists_agrees program
    have hallows := allows_eval hμ hρ ht
    rwa [← Expr.value_simplify, hw] at hallows
  induction e generalizing u v with
  | imm x =>
      rw [← Except.ok.inj ht, ← Except.ok.inj h]
      exact ValueSet.le_refl _
  | reg r =>
      rw [← Except.ok.inj ht, ← Except.ok.inj h]
      exact le_iff.1 hle r
  | mem addr width ih =>
      obtain ⟨u₁, hu₁, ht⟩ := bind_eq_ok.1 ht
      obtain ⟨v₁, hv₁, h⟩ := bind_eq_ok.1 h
      exact load_le_load (ih hu₁ hv₁) h ht
  | unary op e ih =>
      obtain ⟨u₁, hu₁, ht'⟩ := bind_eq_ok.1 ht
      obtain rfl := Except.ok.inj ht'
      exact eval_mkUnary_le (fun v hv => ih hu₁ hv) (hvalue ht) h
  | binary op l r ihl ihr =>
      obtain ⟨u₁, hu₁, ht'⟩ := bind_eq_ok.1 ht
      obtain ⟨u₂, hu₂, ht'⟩ := bind_eq_ok.1 ht'
      obtain rfl := Except.ok.inj ht'
      exact eval_mkBinary_le hs (fun v hv => ihl hu₁ hv) (fun v hv => ihr hu₂ hv) (hvalue ht) h

/-! ## Assumptions about gotos -/

section
variable {cond target : Expr} {f : Fault} {u : ValueSet}

/-- An assumption that is certainly zero is not passed. -/
theorem assume_eq_none (h : s.eval program e = .ok v) (hv : v.le (.const 0) = true) :
    s.assume program e = .ok none := by
  rw [assume_of_eval h, if_pos hv]

/-- A comparison of something that faults is not folded. -/
theorem mkBinary_eq_of_error (hfault : s.eval program cond = .error f) :
    Expr.mkBinary .eq cond (.imm c) = .binary .eq cond (.imm c) := by
  have hne : ∀ x, cond ≠ .imm x := by
    rintro x rfl
    exact absurd hfault (by simp [eval, pure, Except.pure])
  rw [Expr.mkBinary, if_neg (hne c), Expr.foldBinary]
  exact fun x y hx _ => hne x hx

/-- A comparison with a word that the other side cannot be is zero. -/
theorem combine_eq_const_le_zero (hu : u ≠ .unknown) (hc : ¬ u.Allows c) :
    (combine .eq u (.const c)).le (.const 0) = true := by
  rw [combine_of_ne (by decide)]
  cases u with
  | unknown => exact absurd rfl hu
  | known ws hws =>
      show (ValueSet.ofList (ws.toList.flatMap fun x => [BinaryOp.eq.apply x c])).le
        (ValueSet.ofList [0]) = true
      refine ValueSet.ofList_le_ofList fun z hz => ?_
      obtain ⟨x, hx, hz⟩ := List.mem_flatMap.1 hz
      obtain rfl := List.mem_singleton.1 hz
      have hxc : x ≠ c := fun heq => hc (heq ▸ hx)
      exact List.mem_singleton.2 (by simp [BinaryOp.apply, Word.ofBool, hxc])

variable (hs : s.Possible) (hle : s.le t = true) (hfault : s.eval program cond = .error f)
  (ht : t.eval program cond = .ok u) (hu : u ≠ .unknown) (hc : ¬ u.Allows c)

include hs hle ht hu hc in
theorem eval_simplified_eq_le_zero
    (h : s.eval program (Expr.simplify (.binary .eq cond (.imm c))) = .ok v) :
    v.le (.const 0) = true := by
  have heval : t.eval program (.binary .eq cond (.imm c)) = .ok (combine .eq u (.const c)) := by
    rw [eval, ht]
    rfl
  exact ValueSet.le_trans (eval_simplify_le hs hle heval h) (combine_eq_const_le_zero hu hc)

include hs hle hfault ht hu hc in
/-- The assumption that a condition has a value which it is known above not to have. -/
theorem eval_conditionIs_le_zero {g : Goto} (hg : g.condition = cond)
    (h : s.eval program (g.conditionIs c).simplify = .ok v) : v.le (.const 0) = true := by
  rw [Goto.conditionIs, hg, mkBinary_eq_of_error hfault] at h
  exact eval_simplified_eq_le_zero hs hle ht hu hc h

/-- A conjunction with a side that is zero, whether or not the other side can be evaluated. -/
theorem eval_mkLogicalAnd_le_zero {a b : Expr} (hs : s.Possible)
    (ha : ∀ v, s.eval program a = .ok v → v.le (.const 0) = true)
    (h : s.eval program (Expr.mkLogicalAnd a b) = .ok v) : v.le (.const 0) = true := by
  unfold Expr.mkLogicalAnd at h
  split at h
  · obtain rfl := Except.ok.inj h
    exact ValueSet.le_refl _
  · rename_i hzero
    -- A constant side would be zero, and that has been dealt with.
    have hconst : ∀ x, a ≠ .imm x := by
      rintro x rfl
      have hx := ValueSet.allows_const.1 (ValueSet.const_le_iff.1 (ha _ rfl))
      exact hzero (Or.inl (congrArg Expr.imm hx))
    split at h
    · rename_i hside
      obtain ⟨x, hx⟩ := Option.isSome_iff_exists.1 hside.1
      exact absurd (Expr.eq_imm_of_const? hx) (hconst x)
    · split at h
      · exact ha v h
      · rw [Expr.foldBinary] at h
        · obtain ⟨v₁, hv₁, h⟩ := bind_eq_ok.1 h
          obtain ⟨v₂, -, h⟩ := bind_eq_ok.1 h
          obtain rfl := Except.ok.inj h
          have hv₁' : v₁ = .const 0 := ValueSet.eq_const_of_le (ha v₁ hv₁) (hs.eval hv₁)
          rw [combine, if_pos ⟨rfl, Or.inl (ValueSet.single?_eq_some_iff.2 hv₁')⟩]
          exact ValueSet.le_refl _
        · exact fun x y hx _ => hconst x hx

include hs hle hfault ht hu hc in
/-- The same assumption, together with one about the target. -/
theorem eval_taken_le_zero {g : Goto} (hg : g.condition = cond) {w : Word}
    (h : s.eval program
      (Expr.mkBinary .logicalAnd (g.conditionIs c) (g.targetIs w)).simplify = .ok v) :
    v.le (.const 0) = true := by
  have hcond : g.conditionIs c = .binary .eq cond (.imm c) := by
    rw [Goto.conditionIs, hg, mkBinary_eq_of_error hfault]
  have hzero := fun v => eval_simplified_eq_le_zero (v := v) hs hle ht hu hc
  rw [hcond] at h
  -- The conjunction is folded once when it is built and once more when it is simplified.
  change s.eval program (Expr.mkLogicalAnd (.binary .eq cond (.imm c)) (g.targetIs w)).simplify = _
    at h
  unfold Expr.mkLogicalAnd at h
  split at h
  · obtain rfl := Except.ok.inj h
    exact ValueSet.le_refl _
  · split at h
    · rename_i hside
      exact absurd hside.1 (by simp [Expr.const?])
    · split at h
      · exact hzero v h
      · exact eval_mkLogicalAnd_le_zero hs hzero h

end

end Registers

end CodeReach
