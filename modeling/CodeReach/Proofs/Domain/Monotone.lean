/-
  CodeReach.Proofs.Domain.Monotone

  The operations on value sets and register files are monotone: whoever knows more to
  begin with knows at least as much afterwards.  A merge is the least value set above
  both of its sides.

  One operation is monotone only on what can be real: a conjunction with a side that is
  zero is zero, but if the other side allows no word at all, its bare combination allows
  no word either, or every word.  So evaluation is compared at register files that
  describe something (`Possible`), and every operation keeps them so.
-/
import CodeReach.Proofs.Domain.Registers
import Mathlib.Data.List.Perm.Subperm

namespace CodeReach

theorem Ascending.nodup {α : Type} [Ord α] [Std.TransOrd α] {xs : List α} (h : Ascending xs) :
    xs.Nodup := by
  refine List.Pairwise.imp (fun {a b} hlt => ?_) h
  rintro rfl
  rw [Std.ReflOrd.compare_self] at hlt
  exact absurd hlt (by decide)

/-- A smaller set has at most as many members. -/
theorem OrdSet.size_le_of_subset {α : Type} [Ord α] [Std.TransOrd α] {s t : OrdSet α}
    (h : ∀ x, x ∈ s → x ∈ t) : s.size ≤ t.size :=
  (List.Nodup.subperm s.ascending.nodup fun x hx => h x hx).length_le

namespace ValueSet

variable {u v w : ValueSet} {x : Word}

/-! ## Order -/

/-- Below a value set that is not known entirely, the words are known and among its own. -/
theorem le_cases (h : v.le w = true) : w = unknown ∨ ∃ xs ys,
    v.constants? = some xs ∧ w.constants? = some ys ∧ xs ⊆ ys := by
  cases w with
  | unknown => exact Or.inl rfl
  | known t ht =>
      cases v with
      | unknown => exact absurd (unknown_le.1 h) (by simp)
      | known s hs => exact Or.inr ⟨_, _, rfl, rfl, known_le_known.1 h⟩

theorem const_le_iff : (const x).le v = true ↔ v.Allows x := by
  constructor
  · exact fun h => allows_of_le h (allows_const.2 rfl)
  · intro h
    cases v with
    | unknown => exact le_unknown _
    | known s hs =>
        refine known_le_known.2 fun y hy => ?_
        obtain rfl := OrdSet.mem_singleton.1 hy
        exact h

theorem single?_eq_some_iff : v.single? = some x ↔ v = const x := by
  constructor
  · intro h
    unfold single? at h
    split at h
    · rename_i y hy
      obtain rfl := Option.some.inj h
      cases v with
      | unknown => exact absurd hy (by simp [constants?])
      | known s hs =>
          have hlist : s.toList = [y] := Option.some.inj hy
          have hset : s = OrdSet.singleton y := by
            refine OrdSet.ext_mem fun z => ?_
            rw [OrdSet.mem_def, hlist, List.mem_singleton, OrdSet.mem_singleton]
          subst hset
          rfl
    · exact absurd h (by simp)
  · rintro rfl
    rfl

/-- What lies below a constant and allows something is that constant. -/
theorem eq_const_of_le (h : v.le (const x) = true) (hv : ∃ y, v.Allows y) : v = const x := by
  obtain ⟨y, hy⟩ := hv
  obtain rfl := allows_const.1 (allows_of_le h hy)
  exact le_antisymm h (const_le_iff.2 hy)

/-- A value set allows something unless it is the empty set of constants. -/
theorem exists_allows_iff : (∃ y, v.Allows y) ↔ v.constants? ≠ some [] := by
  cases v with
  | unknown => simp [constants?]
  | known s hs =>
      have hempty : (∃ y, y ∈ s) ↔ s.toList ≠ [] := by
        rw [ne_eq, List.eq_nil_iff_forall_not_mem, not_forall_not]
        rfl
      simpa [constants?] using hempty

theorem ofSet_le_ofSet {s t : OrdSet Word} (h : ∀ y, y ∈ s → y ∈ t) :
    (ofSet s).le (ofSet t) = true := by
  by_cases ht : t.size ≤ maxConstants
  · have hs : s.size ≤ maxConstants := Nat.le_trans (OrdSet.size_le_of_subset h) ht
    rw [ofSet, dif_pos hs, ofSet, dif_pos ht]
    exact known_le_known.2 h
  · rw [ofSet.eq_1 t, dif_neg ht]
    exact le_unknown _

theorem ofList_le_ofList {xs ys : List Word} (h : xs ⊆ ys) : (ofList xs).le (ofList ys) = true :=
  ofSet_le_ofSet fun _ hy => OrdSet.mem_ofList.2 (h (OrdSet.mem_ofList.1 hy))

/-! ## Operations -/

theorem map_le_map (f : Word → Word) (h : v.le w = true) : (v.map f).le (w.map f) = true := by
  rcases le_cases h with rfl | ⟨xs, ys, hxs, hys, hsub⟩
  · exact le_unknown _
  · rw [map, hxs, map, hys]
    exact ofList_le_ofList (List.map_subset f hsub)

theorem combine_le_combine (f : Word → Word → Word) {v' w' : ValueSet} (hv : v.le v' = true)
    (hw : w.le w' = true) : (combine f v w).le (combine f v' w') = true := by
  rcases le_cases hv with rfl | ⟨xs, xs', hxs, hxs', hx⟩
  · exact le_unknown _
  · rcases le_cases hw with rfl | ⟨ys, ys', hys, hys', hy⟩
    · rw [combine.eq_1 f v', hxs']
      exact le_unknown _
    · rw [combine, hxs, hys, combine, hxs', hys']
      refine ofList_le_ofList fun z hz => ?_
      obtain ⟨a, ha, hz⟩ := List.mem_flatMap.1 hz
      obtain ⟨b, hb, rfl⟩ := List.mem_map.1 hz
      exact List.mem_flatMap.2 ⟨a, hx ha, List.mem_map_of_mem (hy hb)⟩

/-- A merge is below everything that is above both of its sides. -/
theorem merge_le (hv : v.le u = true) (hw : w.le u = true) : (v.merge w).le u = true := by
  cases u with
  | unknown => exact le_unknown _
  | known t ht =>
      cases v with
      | unknown => exact absurd (unknown_le.1 hv) (by simp)
      | known r hr =>
          cases w with
          | unknown => exact absurd (unknown_le.1 hw) (by simp)
          | known s hs =>
              have hsub : ∀ y, y ∈ r.insertAll s.toList → y ∈ t := by
                intro y hy
                rcases OrdSet.mem_insertAll.1 hy with hy | hy
                · exact known_le_known.1 hw y hy
                · exact known_le_known.1 hv y hy
              have hle := ofSet_le_ofSet hsub
              rwa [ofSet.eq_1 t, dif_pos ht] at hle

end ValueSet

/-- The memory that has the read-only data and is zero everywhere else. -/
def Program.rom (p : Program) : Memory :=
  fun addr width => (p.read? addr width.toNat).getD 0

theorem Program.agrees_rom (p : Program) : p.rom.Agrees p := by
  intro addr width w h
  rw [Program.rom, h, Option.getD_some]

/-- Whether or not there is a program, some memory has its read-only data. -/
theorem Memory.exists_agrees (program : Option Program) :
    ∃ μ : Memory, ∀ p ∈ program, μ.Agrees p := by
  cases program with
  | none => exact ⟨fun _ _ => 0, fun _ hp => absurd hp (by simp)⟩
  | some p => exact ⟨p.rom, fun _ hp => Option.some.inj hp ▸ p.agrees_rom⟩

namespace Registers

variable {s t : Registers} {p : Program} {c e : Expr} {q : Reg}

/-! ## Possible register files -/

/-- Some register file is described: no register is without a possible word. -/
def Possible (s : Registers) : Prop :=
  ∃ ρ, s.Describes ρ

/-- A register file is possible exactly if none of its value sets is empty. -/
theorem possible_iff : s.Possible ↔ ∀ q, (s.get q).constants? ≠ some [] := by
  constructor
  · rintro ⟨ρ, hρ⟩ q
    exact ValueSet.exists_allows_iff.1 ⟨ρ q, hρ q⟩
  · intro h
    choose ρ hρ using fun q => ValueSet.exists_allows_iff.2 (h q)
    exact ⟨ρ, hρ⟩

theorem possible_unknown : unknown.Possible :=
  ⟨fun _ => 0, describes_unknown _⟩

theorem Possible.of_le (h : s.Possible) (hle : s.le t = true) : t.Possible := by
  obtain ⟨ρ, hρ⟩ := h
  exact ⟨ρ, describes_of_le hle hρ⟩

theorem Possible.set (h : s.Possible) {v : ValueSet} (hv : ∃ w, v.Allows w) :
    (s.set q v).Possible := by
  obtain ⟨ρ, hρ⟩ := h
  obtain ⟨w, hw⟩ := hv
  exact ⟨ρ.set q w, describes_set hρ hw⟩

/-- Everything that can be evaluated has a value. -/
theorem Possible.eval (h : s.Possible) {program : Option Program} {v : ValueSet}
    (hv : s.eval program e = .ok v) : ∃ w, v.Allows w := by
  obtain ⟨ρ, hρ⟩ := h
  obtain ⟨μ, hμ⟩ := Memory.exists_agrees program
  exact ⟨_, allows_eval hμ hρ hv⟩

theorem set_le_set (h : s.le t = true) {v w : ValueSet} (hvw : v.le w = true) :
    (s.set q v).le (t.set q w) = true := by
  rw [le_iff] at h ⊢
  intro r
  rw [get_set, get_set]
  split
  · exact hvw
  · exact h r

/-- A join is below everything that is above both of its sides. -/
theorem join_le {u : Registers} (hs : s.le u = true) (ht : t.le u = true) :
    (s.join t).le u = true := by
  rw [le_iff] at hs ht ⊢
  intro r
  rw [get_join]
  exact ValueSet.merge_le (hs r) (ht r)

/-- Nothing but itself is above the register file that knows nothing. -/
theorem eq_unknown_of_le (h : unknown.le s = true) : s = unknown := by
  refine le_antisymm (le_iff.2 fun r => ?_) h
  rw [get_unknown]
  exact ValueSet.le_unknown _

theorem join_eq_right_iff : s.join t = t ↔ s.le t = true := by
  constructor
  · intro h
    rw [← h]
    exact le_join_left s t
  · exact fun h => le_antisymm (join_le h (le_refl t)) (le_join_right s t)

/-! ## Evaluation -/

/-- If every element of a list has an image, so has every element of a part of it. -/
theorem mapM_of_subset {α β : Type} {f : α → Option β} {xs xs' : List α} {ys' : List β}
    (h : xs'.mapM f = some ys') (hsub : xs ⊆ xs') : ∃ ys, xs.mapM f = some ys ∧ ys ⊆ ys' := by
  induction xs with
  | nil => exact ⟨[], rfl, List.nil_subset _⟩
  | cons a as ih =>
      obtain ⟨b, hb, hab⟩ := mem_of_mapM_eq_some h (hsub List.mem_cons_self)
      obtain ⟨bs, hbs, hbsub⟩ := ih fun x hx => hsub (List.mem_cons_of_mem _ hx)
      refine ⟨b :: bs, ?_, List.cons_subset.2 ⟨hb, hbsub⟩⟩
      rw [List.mapM_cons, hab, hbs]
      rfl

/-- What is loaded without a program is not known. -/
theorem eq_unknown_of_load_none {v w : ValueSet} {width : Byte} (h : load none v width = .ok w) :
    w = .unknown := by
  obtain ⟨-, -, h⟩ := bind_eq_ok.1 h
  split at h
  · contradiction
  · exact (Except.ok.inj h).symm

theorem load_le_load {program : Option Program} {v w v' w' : ValueSet} {width : Byte}
    (hle : v.le w = true) (hv : load program v width = .ok v')
    (hw : load program w width = .ok w') : v'.le w' = true := by
  cases program with
  | none =>
      rw [eq_unknown_of_load_none hw]
      exact ValueSet.le_unknown _
  | some p =>
      obtain ⟨-, -, hv⟩ := bind_eq_ok.1 hv
      obtain ⟨-, -, hw⟩ := bind_eq_ok.1 hw
      rcases ValueSet.le_cases hle with rfl | ⟨xs, ys, hxs, hys, hsub⟩
      · obtain rfl := Except.ok.inj hw
        exact ValueSet.le_unknown _
      · rw [hxs] at hv
        rw [hys] at hw
        obtain rfl := Except.ok.inj hv
        obtain rfl := Except.ok.inj hw
        cases hread : ys.mapM (p.read? · width.toNat) with
        | none => exact ValueSet.le_unknown _
        | some zs =>
            obtain ⟨zs', hread', hzs⟩ := mapM_of_subset hread hsub
            rw [hread']
            exact ValueSet.ofList_le_ofList hzs

theorem combine_le_combine (op : BinaryOp) {l r l' r' : ValueSet} (hl : l.le l' = true)
    (hr : r.le r' = true) (hlw : ∃ x, l.Allows x) (hrw : ∃ y, r.Allows y) :
    (combine op l r).le (combine op l' r') = true := by
  obtain ⟨x, hx⟩ := hlw
  obtain ⟨y, hy⟩ := hrw
  by_cases hzero' : op = .logicalAnd ∧ (l'.single? = some 0 ∨ r'.single? = some 0)
  · -- What is certainly zero above is certainly zero below.
    have hzero : l.single? = some 0 ∨ r.single? = some 0 := by
      rcases hzero'.2 with h | h
      · rw [ValueSet.single?_eq_some_iff] at h
        exact Or.inl (ValueSet.single?_eq_some_iff.2 (ValueSet.eq_const_of_le (h ▸ hl) ⟨x, hx⟩))
      · rw [ValueSet.single?_eq_some_iff] at h
        exact Or.inr (ValueSet.single?_eq_some_iff.2 (ValueSet.eq_const_of_le (h ▸ hr) ⟨y, hy⟩))
    rw [combine, if_pos ⟨hzero'.1, hzero⟩, combine, if_pos hzero']
    exact ValueSet.le_refl _
  · rw [combine.eq_1 op l', if_neg hzero']
    by_cases hzero : op = .logicalAnd ∧ (l.single? = some 0 ∨ r.single? = some 0)
    · rw [combine, if_pos hzero, ValueSet.const_le_iff]
      have hallows := ValueSet.allows_combine op.apply (ValueSet.allows_of_le hl hx)
        (ValueSet.allows_of_le hr hy)
      have hvalue : op.apply x y = 0 := by
        rw [hzero.1]
        rcases hzero.2 with h | h
        · rw [ValueSet.eq_of_single? h hx]
          simp [BinaryOp.apply, Word.ofBool]
        · rw [ValueSet.eq_of_single? h hy]
          simp [BinaryOp.apply, Word.ofBool]
      rwa [hvalue] at hallows
    · rw [combine, if_neg hzero]
      exact ValueSet.combine_le_combine op.apply hl hr

/-- Where an expression can be evaluated on both sides, more is known on the smaller one, also if
    the larger one cannot look at the read-only data. -/
theorem eval_le_eval_of {program : Option Program} (hprogram : ∀ q ∈ program, q = p)
    (hs : s.Possible) (hle : s.le t = true) {v w : ValueSet} (hv : s.eval (some p) e = .ok v)
    (hw : t.eval program e = .ok w) : v.le w = true := by
  induction e generalizing v w with
  | imm x =>
      rw [← Except.ok.inj hv, ← Except.ok.inj hw]
      exact ValueSet.le_refl _
  | reg r =>
      rw [← Except.ok.inj hv, ← Except.ok.inj hw]
      exact le_iff.1 hle r
  | mem addr width ih =>
      obtain ⟨v₁, hv₁, hv⟩ := bind_eq_ok.1 hv
      obtain ⟨w₁, hw₁, hw⟩ := bind_eq_ok.1 hw
      cases program with
      | none =>
          rw [eq_unknown_of_load_none hw]
          exact ValueSet.le_unknown v
      | some q =>
          obtain rfl := hprogram q rfl
          exact load_le_load (ih hv₁ hw₁) hv hw
  | unary op e ih =>
      obtain ⟨v₁, hv₁, hv⟩ := bind_eq_ok.1 hv
      obtain ⟨w₁, hw₁, hw⟩ := bind_eq_ok.1 hw
      rw [← Except.ok.inj hv, ← Except.ok.inj hw]
      exact ValueSet.map_le_map op.apply (ih hv₁ hw₁)
  | binary op l r ihl ihr =>
      obtain ⟨v₁, hv₁, hv⟩ := bind_eq_ok.1 hv
      obtain ⟨v₂, hv₂, hv⟩ := bind_eq_ok.1 hv
      obtain ⟨w₁, hw₁, hw⟩ := bind_eq_ok.1 hw
      obtain ⟨w₂, hw₂, hw⟩ := bind_eq_ok.1 hw
      rw [← Except.ok.inj hv, ← Except.ok.inj hw]
      exact combine_le_combine op (ihl hv₁ hw₁) (ihr hv₂ hw₂) (hs.eval hv₁) (hs.eval hv₂)

theorem eval_le_eval (hs : s.Possible) (hle : s.le t = true) {v w : ValueSet}
    (hv : s.eval (some p) e = .ok v) (hw : t.eval (some p) e = .ok w) : v.le w = true :=
  eval_le_eval_of (fun _ hq => (Option.some.inj hq).symm) hs hle hv hw

/-! ## Assumptions -/

/-- A register that can be narrowed to a constant can hold that constant. -/
theorem restrict_eq_some {w : Word} (h : s.restrict q w = some t) :
    t = s.set q (.const w) ∧ (s.get q).Allows w := by
  unfold restrict at h
  split at h
  · rename_i ws hws
    split at h
    · rename_i hmem
      have hw : w ∈ ws := List.contains_iff_mem.1 hmem
      exact ⟨(Option.some.inj h).symm, (ValueSet.allows_iff_of_constants? hws).2 hw⟩
    · exact absurd h (by simp)
  · rename_i hnone
    refine ⟨(Option.some.inj h).symm, ?_⟩
    cases hget : s.get q with
    | unknown => exact ValueSet.allows_unknown w
    | known ws hws =>
        rw [hget] at hnone
        exact absurd hnone (by simp [ValueSet.constants?])

theorem restrict_le {w : Word} (hs : s.Possible) (hle : s.le t = true) {s' : Registers}
    (h : s.restrict q w = some s') :
    ∃ t', t.restrict q w = some t' ∧ s'.le t' = true ∧ s'.Possible := by
  obtain ⟨rfl, hallows⟩ := restrict_eq_some h
  have hset := set_le_set (q := q) hle (ValueSet.le_refl (.const w))
  have hpossible : (s.set q (.const w)).Possible := hs.set ⟨w, ValueSet.allows_const.2 rfl⟩
  refine ⟨t.set q (.const w), ?_, hset, hpossible⟩
  unfold restrict
  rcases ValueSet.le_cases (le_iff.1 hle q) with hq | ⟨xs, ys, hxs, hys, hsub⟩
  · rw [hq]
    rfl
  · have hmem : w ∈ ys := hsub ((ValueSet.allows_iff_of_constants? hxs).1 hallows)
    rw [hys]
    dsimp only
    rw [if_pos (List.contains_iff_mem.2 hmem)]

theorem exclude_le {w : Word} (hs : s.Possible) (hle : s.le t = true) {s' : Registers}
    (h : s.exclude q w = some s') :
    ∃ t', t.exclude q w = some t' ∧ s'.le t' = true ∧ s'.Possible := by
  unfold exclude at h
  have hq := le_iff.1 hle q
  split at h
  · rename_i hsq
    rw [hsq, ValueSet.unknown_le] at hq
    obtain rfl := Option.some.inj h
    refine ⟨t, ?_, hle, hs⟩
    rw [exclude, hq]
  · rename_i ws hws hsq
    dsimp only at h
    split at h
    · exact absurd h (by simp)
    · rename_i hrest
      obtain rfl := Option.some.inj h
      obtain ⟨x, hx⟩ := List.exists_mem_of_ne_nil _ (fun hnil => hrest (List.isEmpty_iff.2 hnil))
      have hpossible : (s.set q (.ofSet (ws.filter (· != w)))).Possible :=
        hs.set ⟨x, ValueSet.allows_ofSet hx⟩
      rw [hsq] at hq
      cases htq : t.get q with
      | unknown =>
          -- Nothing is excluded above, and what is left below is below that.
          refine ⟨t, by rw [exclude, htq], ?_, hpossible⟩
          have hset := set_le_set (q := q) hle (ValueSet.le_unknown (.ofSet (ws.filter (· != w))))
          refine le_trans hset (le_iff.2 fun r => ?_)
          rw [get_set]
          split
          · rename_i hr
            rw [← hr.1, htq]
            exact ValueSet.le_refl _
          · exact ValueSet.le_refl _
      | known vs hvs =>
          rw [htq, ValueSet.known_le_known] at hq
          have hsub : ∀ y, y ∈ ws.filter (· != w) → y ∈ vs.filter (· != w) := by
            intro y hy
            rw [OrdSet.mem_filter] at hy ⊢
            exact ⟨hq y hy.1, hy.2⟩
          have hne : ¬ (vs.filter (· != w)).toList.isEmpty = true := by
            rw [List.isEmpty_iff]
            exact List.ne_nil_of_mem (hsub x hx)
          refine ⟨_, by rw [exclude, htq]; exact if_neg hne, ?_, hpossible⟩
          exact set_le_set hle (ValueSet.ofSet_le_ofSet hsub)

/-- Following the comparisons of a condition. -/
theorem refine_le (hs : s.Possible) (hle : s.le t = true) {s' : Registers}
    (h : s.refine c = some s') :
    ∃ t', t.refine c = some t' ∧ s'.le t' = true ∧ s'.Possible := by
  fun_induction refine s c generalizing t s' with
  | case1 s l r ihl ihr =>
      obtain ⟨u, hu, hr⟩ := Option.bind_eq_some_iff.1 h
      obtain ⟨u', hu', hule, hup⟩ := ihl hs hle hu
      obtain ⟨t', ht', hle', hp'⟩ := ihr u hup hule hr
      refine ⟨t', ?_, hle', hp'⟩
      rw [refine, hu']
      exact ht'
  | case2 s r w => exact restrict_le hs hle h
  | case3 s r w => exact restrict_le hs hle h
  | case4 s r w => exact exclude_le hs hle h
  | case5 s r w => exact exclude_le hs hle h
  | case6 s c hand heq heq' hne hne' =>
      obtain rfl := Option.some.inj h
      refine ⟨t, ?_, hle, hs⟩
      rw [refine]
      all_goals assumption

/-- Narrowing what is known about one register goes down. -/
theorem set_le_self {v : ValueSet} (h : v.le (s.get q) = true) : (s.set q v).le s = true := by
  rw [le_iff]
  intro r
  rw [get_set]
  split
  · rename_i hr
    rw [← hr.1]
    exact h
  · exact ValueSet.le_refl _

theorem le_of_restrict {w : Word} (h : s.restrict q w = some t) : t.le s = true := by
  obtain ⟨rfl, hallows⟩ := restrict_eq_some h
  exact set_le_self (ValueSet.const_le_iff.2 hallows)

theorem le_of_exclude {w : Word} (h : s.exclude q w = some t) : t.le s = true := by
  unfold exclude at h
  split at h
  · rw [← Option.some.inj h]
    exact le_refl s
  · rename_i ws hws hq
    dsimp only at h
    split at h
    · exact absurd h (by simp)
    · rw [← Option.some.inj h]
      refine set_le_self ?_
      -- What is left after the exclusion is among what was there before.
      have hle : (ValueSet.ofSet (ws.filter (· != w))).le (.ofSet ws) = true :=
        ValueSet.ofSet_le_ofSet fun y hy => (OrdSet.mem_filter.1 hy).1
      rw [ValueSet.ofSet.eq_1 ws, dif_pos hws] at hle
      rw [hq]
      exact hle

/-- Following the comparisons of a condition only goes down. -/
theorem le_of_refine (h : s.refine c = some t) : t.le s = true := by
  fun_induction refine s c generalizing t with
  | case1 s l r ihl ihr =>
      obtain ⟨u, hu, hr⟩ := Option.bind_eq_some_iff.1 h
      exact le_trans (ihr u hr) (ihl hu)
  | case2 s r w => exact le_of_restrict h
  | case3 s r w => exact le_of_restrict h
  | case4 s r w => exact le_of_exclude h
  | case5 s r w => exact le_of_exclude h
  | case6 =>
      rw [← Option.some.inj h]
      exact le_refl _

/-- An assumption that is passed only goes down. -/
theorem le_of_assume {program : Option Program} (h : s.assume program c = .ok (some t)) :
    t.le s = true := by
  obtain ⟨_, -, -, hrefine⟩ := exists_eval_of_assume h
  exact le_of_refine hrefine

/-- An assumption that is passed below is passed above, if it can be evaluated there. -/
theorem assume_le (hs : s.Possible) (hle : s.le t = true) {s' : Registers} {o : Option Registers}
    (h : s.assume (some p) c = .ok (some s')) (ho : t.assume (some p) c = .ok o) :
    ∃ t', o = some t' ∧ s'.le t' = true ∧ s'.Possible := by
  obtain ⟨v, hv, hv0, hrefine⟩ := exists_eval_of_assume h
  obtain ⟨w, hw, -⟩ := bind_eq_ok.1 ho
  obtain ⟨t', ht', hle', hp'⟩ := refine_le hs hle hrefine
  refine ⟨t', ?_, hle', hp'⟩
  -- What is certainly zero above is certainly zero below.
  have hw0 : ¬ w.le (.const 0) = true := fun hw0 =>
    hv0 (ValueSet.le_trans (eval_le_eval hs hle hv hw) hw0)
  rw [assume_of_eval hw, if_neg hw0, ht'] at ho
  exact (Except.ok.inj ho).symm

end Registers

end CodeReach
