/-
  CodeReach.Proofs.Domain.NullPage

  When evaluation faults.  An access is refused exactly if there are candidates for its
  address and all of them lie in the null page (`checkAccess_cases`), and evaluation
  faults only because one of its reads is refused (`exists_refused_of_eval`).

  Refusals are definite: the candidates include the real address, so every machine that
  is described accesses the null page (`lt_of_refused`).  They go down: who knows more has
  fewer candidates, so what can be evaluated below can be evaluated above
  (`exists_eval_of_le`).  And where nothing is left open, evaluation goes through the
  reads one after the other, and faults at the first one from the null page
  (`eval_of_tracks`).
-/
import CodeReach.Proofs.Domain.Evaluation

namespace CodeReach

/-! ## Accesses that are refused -/

/-- There are candidates for the address, and all of them lie in the null page. -/
def ValueSet.InNullPage (v : ValueSet) : Prop :=
  (∃ w, v.Allows w) ∧ ∀ w, v.Allows w → w < nullPageEnd

/-- With fewer candidates, if there are any, the access stays in the null page. -/
theorem ValueSet.InNullPage.of_le {v w : ValueSet} (h : w.InNullPage) (hle : v.le w = true)
    (hv : ∃ x, v.Allows x) : v.InNullPage :=
  ⟨hv, fun x hx => h.2 x (ValueSet.allows_of_le hle hx)⟩

namespace Registers

variable {s t : Registers} {ρ : RegFile} {μ : Memory} {program : Option Program} {p : Program}
  {e : Expr} {f : Fault}

/-- An access is refused, with one of its candidates, if all of them lie in the null page; else it
    is let through. -/
theorem checkAccess_cases (v : ValueSet) :
    (checkAccess v = .ok () ∧ ¬ v.InNullPage) ∨
      ∃ a, checkAccess v = .error (.invalidAccess a) ∧ v.Allows a ∧ v.InNullPage := by
  unfold checkAccess
  split
  · rename_i first rest hconstants
    have hallows : ∀ w, v.Allows w ↔ w ∈ first :: rest := fun w =>
      ValueSet.allows_iff_of_constants? hconstants
    have hfirst : v.Allows first := (hallows first).2 List.mem_cons_self
    have hall : (first :: rest).all (· < nullPageEnd) = true ↔
        ∀ w, v.Allows w → w < nullPageEnd := by
      simp only [List.all_eq_true, decide_eq_true_iff, hallows]
    split
    · rename_i hnull
      exact Or.inr ⟨first, rfl, hfirst, ⟨first, hfirst⟩, hall.1 hnull⟩
    · rename_i hnull
      exact Or.inl ⟨rfl, fun h => hnull (hall.2 h.2)⟩
  · rename_i hnone
    refine Or.inl ⟨rfl, ?_⟩
    rintro ⟨⟨w, hw⟩, hnull⟩
    cases v with
    | unknown =>
        -- Any address is possible, also the first one after the null page.
        exact absurd (hnull nullPageEnd trivial) (by decide)
    | known ws hws =>
        obtain ⟨first, rest, hcons⟩ := List.exists_cons_of_ne_nil (List.ne_nil_of_mem hw)
        exact hnone first rest (congrArg some hcons)

theorem checkAccess_eq_ok_iff {v : ValueSet} : checkAccess v = .ok () ↔ ¬ v.InNullPage := by
  rcases checkAccess_cases v with ⟨hok, hnull⟩ | ⟨a, herror, -, hnull⟩
  · exact iff_of_true hok hnull
  · rw [herror]
    exact iff_of_false (by simp) (not_not_intro hnull)

/-- The fault of an access that is refused names one of the candidates. -/
theorem fault_of_checkAccess {v : ValueSet} (h : checkAccess v = .error f) :
    ∃ a, f = .invalidAccess a ∧ v.Allows a ∧ v.InNullPage := by
  rcases checkAccess_cases v with ⟨hok, -⟩ | ⟨a, herror, ha, hnull⟩
  · exact absurd (hok.symm.trans h) (by simp)
  · exact ⟨a, Except.error.inj (h.symm.trans herror), ha, hnull⟩

/-- Past the check of its address, a read has an answer. -/
theorem exists_load (program : Option Program) {v : ValueSet} (width : Byte)
    (h : ¬ v.InNullPage) :
    ∃ w, load program v width = .ok w := by
  unfold load
  rw [checkAccess_eq_ok_iff.2 h]
  simp only [bind, Except.bind]
  split <;> exact ⟨_, rfl⟩

/-- A read is refused because its address is. -/
theorem checkAccess_of_load {v : ValueSet} {width : Byte} (h : load program v width = .error f) :
    checkAccess v = .error f := by
  rcases bind_eq_error.1 h with hcheck | ⟨_, -, h⟩
  · exact hcheck
  · split at h <;> exact absurd h (by simp [pure, Except.pure])

end Registers

/-! ## Faults are definite -/

namespace Expr

/-- The expressions for the addresses from which an expression reads, in the order of the reads. -/
def reads : Expr → List Expr
  | .imm _ | .reg _ => []
  | .mem addr _ => addr.reads ++ [addr]
  | .unary _ e => e.reads
  | .binary _ l r => l.reads ++ r.reads

/-- The addresses from which evaluating the expression reads. -/
def accesses (ρ : RegFile) (μ : Memory) (e : Expr) : List Word :=
  e.reads.map (·.value ρ μ)

theorem accesses_mem (ρ : RegFile) (μ : Memory) (addr : Expr) (width : Byte) :
    (Expr.mem addr width).accesses ρ μ = addr.accesses ρ μ ++ [addr.value ρ μ] :=
  List.map_append

theorem accesses_binary (ρ : RegFile) (μ : Memory) (op : BinaryOp) (l r : Expr) :
    (Expr.binary op l r).accesses ρ μ = l.accesses ρ μ ++ r.accesses ρ μ :=
  List.map_append

end Expr

namespace Registers

variable {s t : Registers} {ρ : RegFile} {μ : Memory} {program : Option Program} {p : Program}
  {e : Expr} {f : Fault}

/-- Evaluation faults because the address of one of the reads is refused. -/
theorem exists_refused_of_eval (h : s.eval program e = .error f) :
    ∃ addr ∈ e.reads, ∃ v, s.eval program addr = .ok v ∧ checkAccess v = .error f := by
  induction e with
  | imm w => exact absurd h (by simp [eval, pure, Except.pure])
  | reg r => exact absurd h (by simp [eval, pure, Except.pure])
  | mem addr width ih =>
      rcases bind_eq_error.1 h with h | ⟨v, hv, h⟩
      · obtain ⟨d, hd, hrefused⟩ := ih h
        exact ⟨d, List.mem_append_left _ hd, hrefused⟩
      · exact ⟨addr, List.mem_append_right _ List.mem_cons_self, v, hv, checkAccess_of_load h⟩
  | unary op e ih =>
      rcases bind_eq_error.1 h with h | ⟨v, -, h⟩
      · exact ih h
      · exact absurd h (by simp [pure, Except.pure])
  | binary op l r ihl ihr =>
      rcases bind_eq_error.1 h with h | ⟨v, -, h⟩
      · obtain ⟨d, hd, hrefused⟩ := ihl h
        exact ⟨d, List.mem_append_left _ hd, hrefused⟩
      · rcases bind_eq_error.1 h with h | ⟨w, -, h⟩
        · obtain ⟨d, hd, hrefused⟩ := ihr h
          exact ⟨d, List.mem_append_right _ hd, hrefused⟩
        · exact absurd h (by simp [pure, Except.pure])

/-- An address that is refused lies in the null page in every machine that is described. -/
theorem lt_of_refused (hμ : ∀ p ∈ program, μ.Agrees p) (hs : s.Describes ρ) {v : ValueSet}
    (hv : s.eval program e = .ok v) (hcheck : checkAccess v = .error f) :
    e.value ρ μ < nullPageEnd := by
  obtain ⟨a, -, -, hnull⟩ := fault_of_checkAccess hcheck
  exact hnull.2 _ (allows_eval hμ hs hv)

/-! ## Faults go down -/

/-- What can be evaluated below can be evaluated above: more candidates for an address do not make
    it worse. -/
theorem exists_eval_of_le (hs : s.Possible) (hle : s.le t = true) {v : ValueSet}
    (hv : s.eval (some p) e = .ok v) : ∃ w, t.eval (some p) e = .ok w := by
  induction e generalizing v with
  | imm w => exact ⟨_, rfl⟩
  | reg r => exact ⟨_, rfl⟩
  | mem addr width ih =>
      obtain ⟨v₁, hv₁, hv⟩ := bind_eq_ok.1 hv
      obtain ⟨w₁, hw₁⟩ := ih hv₁
      have hbelow : ¬ v₁.InNullPage := by
        obtain ⟨_, hcheck, -⟩ := bind_eq_ok.1 hv
        exact checkAccess_eq_ok_iff.1 hcheck
      have habove : ¬ w₁.InNullPage := fun hnull =>
        hbelow (hnull.of_le (eval_le_eval hs hle hv₁ hw₁) (hs.eval hv₁))
      obtain ⟨w, hw⟩ := exists_load (some p) width habove
      refine ⟨w, ?_⟩
      rw [eval, hw₁]
      exact hw
  | unary op e ih =>
      obtain ⟨v₁, hv₁, -⟩ := bind_eq_ok.1 hv
      obtain ⟨w₁, hw₁⟩ := ih hv₁
      refine ⟨w₁.map op.apply, ?_⟩
      rw [eval, hw₁]
      rfl
  | binary op l r ihl ihr =>
      obtain ⟨v₁, hv₁, hv⟩ := bind_eq_ok.1 hv
      obtain ⟨v₂, hv₂, -⟩ := bind_eq_ok.1 hv
      obtain ⟨w₁, hw₁⟩ := ihl hv₁
      obtain ⟨w₂, hw₂⟩ := ihr hv₂
      refine ⟨combine op w₁ w₂, ?_⟩
      rw [eval, hw₁, hw₂]
      rfl

/-! ## Faults where nothing is left open -/

/-- Nothing is left open about the addresses that are read: the registers are known to be the words
    they hold, and what is read outside the null page is read-only data. -/
def Tracks (s : Registers) (p : Program) (ρ : RegFile) (μ : Memory) : Expr → Prop
  | .imm _ => True
  | .reg r => s.get r = .const (ρ r)
  | .mem addr width => s.Tracks p ρ μ addr ∧ (addr.value ρ μ < nullPageEnd ∨
      (p.read? (addr.value ρ μ) width.toNat).isSome = true)
  | .unary _ e => s.Tracks p ρ μ e
  | .binary _ l r => s.Tracks p ρ μ l ∧ s.Tracks p ρ μ r

/-- One access after the other, at known addresses: the first one in the null page is refused. -/
def checkAll : List Word → Except Fault Unit
  | [] => .ok ()
  | x :: xs => if x < nullPageEnd then .error (.invalidAccess x) else checkAll xs

theorem checkAll_append (xs ys : List Word) :
    checkAll (xs ++ ys) = checkAll xs >>= fun _ => checkAll ys := by
  induction xs with
  | nil => rfl
  | cons x xs ih =>
      rw [List.cons_append, checkAll, checkAll]
      by_cases hnull : x < nullPageEnd
      · rw [if_pos hnull, if_pos hnull]
        rfl
      · rw [if_neg hnull, if_neg hnull]
        exact ih

theorem checkAll_eq_error_iff {xs : List Word} {x : Word} :
    checkAll xs = .error (.invalidAccess x) ↔ xs.find? (· < nullPageEnd) = some x := by
  induction xs with
  | nil => exact iff_of_false (by simp [checkAll]) (by simp)
  | cons y ys ih =>
      rw [checkAll]
      by_cases hnull : y < nullPageEnd
      · rw [if_pos hnull, List.find?_cons_of_pos (by simpa using hnull)]
        simp
      · rw [if_neg hnull, List.find?_cons_of_neg (by simpa using hnull)]
        exact ih

theorem checkAccess_const (x : Word) : checkAccess (.const x) = checkAll [x] := by
  show (if [x].all (· < nullPageEnd) then _ else _) = _
  rw [checkAll, checkAll]
  by_cases hnull : x < nullPageEnd
  · simp [hnull]
  · simp [hnull]

/-- Where nothing is left open, evaluation checks the reads one after the other and then gives the
    value. -/
theorem eval_of_tracks (hμ : μ.Agrees p) (h : s.Tracks p ρ μ e) :
    s.eval (some p) e =
      checkAll (e.accesses ρ μ) >>= fun _ => .ok (.const (e.value ρ μ)) := by
  induction e with
  | imm w => rfl
  | reg r => exact congrArg Except.ok h
  | mem addr width ih =>
      obtain ⟨haddr, hread⟩ := h
      rw [eval, ih haddr, Expr.accesses_mem, checkAll_append]
      cases checkAll (addr.accesses ρ μ) with
      | error f => rfl
      | ok _ =>
          show load (some p) (.const (addr.value ρ μ)) width =
            checkAll [addr.value ρ μ] >>= fun _ => .ok (.const (μ (addr.value ρ μ) width))
          by_cases hnull : addr.value ρ μ < nullPageEnd
          · -- The read is refused before the memory is looked at.
            have hall : checkAll [addr.value ρ μ] = .error (.invalidAccess (addr.value ρ μ)) :=
              if_pos hnull
            unfold load
            rw [checkAccess_const, hall]
            rfl
          · obtain ⟨w, hw⟩ := Option.isSome_iff_exists.1 (hread.resolve_left hnull)
            have hall : checkAll [addr.value ρ μ] = .ok () := if_neg hnull
            rw [hall, hμ _ _ w hw]
            exact load_const hnull hw
  | unary op e ih =>
      have haccesses : (Expr.unary op e).accesses ρ μ = e.accesses ρ μ := rfl
      rw [eval, ih h, haccesses]
      cases checkAll (e.accesses ρ μ) with
      | error f => rfl
      | ok _ => exact congrArg Except.ok (ValueSet.map_const op.apply _)
  | binary op l r ihl ihr =>
      rw [eval, ihl h.1, ihr h.2, Expr.accesses_binary, checkAll_append]
      cases checkAll (l.accesses ρ μ) with
      | error f => rfl
      | ok _ =>
          cases checkAll (r.accesses ρ μ) with
          | error f => rfl
          | ok _ => exact congrArg Except.ok (combine_const op _ _)

end Registers

end CodeReach
