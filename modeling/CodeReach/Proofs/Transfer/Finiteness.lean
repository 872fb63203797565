/-
  CodeReach.Proofs.Transfer.Finiteness

  How many states can fit an analysis.  A value set is one of finitely many because
  it has at most sixteen members, a call stack because its depth is bounded; so there
  are at most `2 ^ stateBits` states in all (`atMost_fits`).

  The counting is done with `AtMost n p`, which says that some finite set with at most
  `n` members has everything that satisfies `p`.
-/
import CodeReach.Explore.Run
import CodeReach.Proofs.Transfer.Order
import Mathlib.Data.Finset.Prod
import Mathlib.Data.Finset.Card
import Mathlib.Tactic.Ring

namespace CodeReach

/-- At most `n` values satisfy `p`. -/
def AtMost {α : Type} (n : Nat) (p : α → Prop) : Prop :=
  ∃ u : Finset α, (∀ x, p x → x ∈ u) ∧ u.card ≤ n

namespace AtMost

variable {α β : Type} {m n : Nat} {p q : α → Prop}

/-! ## Rules of counting -/

theorem weaken (h : AtMost m p) (hle : m ≤ n) (himp : ∀ x, q x → p x) : AtMost n q := by
  obtain ⟨u, hu, hcard⟩ := h
  exact ⟨u, fun x hx => hu x (himp x hx), hcard.trans hle⟩

theorem of_eq (x : α) : AtMost 1 (· = x) :=
  ⟨{x}, fun _ hy => Finset.mem_singleton.2 hy, (Finset.card_singleton x).le⟩

/-- What is built by `f` from few values is few. -/
theorem image [DecidableEq β] (h : AtMost n p) (f : α → β) {q : β → Prop}
    (hf : ∀ y, q y → ∃ x, p x ∧ f x = y) : AtMost n q := by
  obtain ⟨u, hu, hcard⟩ := h
  refine ⟨u.image f, fun y hy => ?_, Finset.card_image_le.trans hcard⟩
  obtain ⟨x, hx, rfl⟩ := hf y hy
  exact Finset.mem_image_of_mem f (hu x hx)

theorem or [DecidableEq α] (hp : AtMost m p) (hq : AtMost n q) :
    AtMost (m + n) fun x => p x ∨ q x := by
  obtain ⟨u, hu, hucard⟩ := hp
  obtain ⟨v, hv, hvcard⟩ := hq
  refine ⟨u ∪ v, fun x hx => ?_, (Finset.card_union_le u v).trans (Nat.add_le_add hucard hvcard)⟩
  exact Finset.mem_union.2 (hx.imp (hu x) (hv x))

theorem prod {q : β → Prop} (hp : AtMost m p) (hq : AtMost n q) :
    AtMost (m * n) fun x : α × β => p x.1 ∧ q x.2 := by
  obtain ⟨u, hu, hucard⟩ := hp
  obtain ⟨v, hv, hvcard⟩ := hq
  refine ⟨u ×ˢ v, fun x hx => ?_, ?_⟩
  · exact Finset.mem_product.2 ⟨hu _ hx.1, hv _ hx.2⟩
  · rw [Finset.card_product]
    exact Nat.mul_le_mul hucard hvcard

theorem bitVec (w : Nat) : AtMost (2 ^ w) fun _ : BitVec w => True := by
  refine ⟨(Finset.range (2 ^ w)).image (BitVec.ofNat w), fun x _ => ?_, ?_⟩
  · refine Finset.mem_image.2 ⟨x.toNat, Finset.mem_range.2 x.isLt, ?_⟩
    rw [BitVec.ofNat_toNat, BitVec.setWidth_eq]
  · exact Finset.card_image_le.trans (Finset.card_range _).le

/-- Lists of one length. -/
theorem lists [DecidableEq α] (h : AtMost n fun _ : α => True) (k : Nat) :
    AtMost (n ^ k) fun xs : List α => xs.length = k := by
  induction k with
  | zero => exact (of_eq []).weaken (Nat.le_refl _) fun _ => List.eq_nil_of_length_eq_zero
  | succ k ih =>
      rw [Nat.pow_succ']
      refine (h.prod ih).image (fun x => x.1 :: x.2) fun xs hxs => ?_
      obtain ⟨x, rest, rfl⟩ := List.exists_cons_of_length_eq_add_one hxs
      exact ⟨(x, rest), ⟨trivial, Nat.succ.inj hxs⟩, rfl⟩

/-- Lists up to one length, over an alphabet with two letters or more. -/
theorem listsUpTo [DecidableEq α] (h : AtMost n fun _ : α => True) (hn : 2 ≤ n) (d : Nat) :
    AtMost (2 * n ^ d - 1) fun xs : List α => xs.length ≤ d := by
  induction d with
  | zero =>
      exact (of_eq []).weaken (by simp) fun _ hxs =>
        List.eq_nil_of_length_eq_zero (Nat.le_zero.1 hxs)
  | succ d ih =>
      -- A list is empty, or it is a letter and a list that may be shorter by one.
      have hcons : AtMost (n * (2 * n ^ d - 1)) fun xs : List α =>
          ∃ x rest, xs = x :: rest ∧ rest.length ≤ d := by
        refine (h.prod ih).image (fun x => x.1 :: x.2) fun xs hxs => ?_
        obtain ⟨x, rest, rfl, hrest⟩ := hxs
        exact ⟨(x, rest), ⟨trivial, hrest⟩, rfl⟩
      refine ((of_eq []).or hcons).weaken ?_ fun xs hxs => ?_
      · have hpos : 1 ≤ n ^ d := Nat.one_le_pow _ _ (by omega)
        have hpow : n * (2 * n ^ d - 1) = 2 * n ^ (d + 1) - n := by
          rw [Nat.mul_sub, Nat.mul_one]
          congr 1
          ring
        have hle : n ≤ n ^ (d + 1) := Nat.le_self_pow (by omega) n
        omega
      · cases xs with
        | nil => exact Or.inl rfl
        | cons x rest => exact Or.inr ⟨x, rest, rfl, Nat.le_of_succ_le_succ hxs⟩

end AtMost

/-! ## Components -/

theorem atMost_valueSet : AtMost (2 ^ (64 * maxConstants + 8)) fun _ : ValueSet => True := by
  have hlists := (AtMost.bitVec 64).listsUpTo (by decide) maxConstants
  -- A value set is determined by its constants, if it has any.
  have hknown : AtMost (2 * (2 ^ 64) ^ maxConstants - 1) fun v : ValueSet =>
      v.constants?.isSome = true := by
    refine hlists.image ValueSet.ofList fun v hv => ?_
    cases v with
    | unknown => exact absurd hv (by simp [ValueSet.constants?])
    | known s hs =>
        have hset : OrdSet.ofList s.toList = s := OrdSet.ext_mem fun w => OrdSet.mem_ofList
        refine ⟨s.toList, hs, ?_⟩
        rw [ValueSet.ofList, hset]
        exact dif_pos hs
  refine ((AtMost.of_eq ValueSet.unknown).or hknown).weaken ?_ fun v _ => ?_
  · rw [Nat.pow_add, Nat.pow_mul]
    have hpos : 1 ≤ (2 ^ 64) ^ maxConstants := Nat.one_le_pow _ _ (by decide)
    omega
  · cases v with
    | unknown => exact Or.inl rfl
    | known s hs => exact Or.inr rfl

theorem atMost_registers :
    AtMost (2 ^ (trackedRegs * (64 * maxConstants + 8))) fun _ : Registers => True := by
  have hbits (b : Nat) : 2 ^ (trackedRegs * b) = (2 ^ b) ^ trackedRegs := by
    rw [← Nat.pow_mul, Nat.mul_comm]
  rw [hbits]
  refine AtMost.image (atMost_valueSet.lists trackedRegs)
    (fun vs => if h : vs.length = trackedRegs then ⟨⟨vs.toArray, h⟩⟩ else Registers.unknown) ?_
  intro s _
  refine ⟨s.sets.toList, s.sets.length_toList, ?_⟩
  rw [dif_pos s.sets.length_toList]
  rfl

theorem atMost_callStack (d : Nat) :
    AtMost (2 ^ (64 * d + 64)) fun s : CallStack => s.depth ≤ d := by
  have hlists := (AtMost.bitVec 64).listsUpTo (by decide) d
  refine AtMost.weaken (hlists.image CallStack.mk fun s hs => ⟨s.frames, hs, rfl⟩) ?_ fun _ h => h
  rw [Nat.pow_add, Nat.pow_mul]
  have hpos : 1 ≤ (2 ^ 64) ^ d := Nat.one_le_pow _ _ (by decide)
  omega

theorem ComponentAnalysis.atMost_fits (a : ComponentAnalysis) :
    AtMost (2 ^ a.stateBits) a.Fits := by
  cases a with
  | values v =>
      refine atMost_registers.image Component.values fun c hc => ?_
      cases c with
      | values s => exact ⟨s, trivial, rfl⟩
      | location l => exact hc.elim
      | calls s => exact hc.elim
  | calls k =>
      refine (atMost_callStack k.maxDepth).image Component.calls fun c hc => ?_
      cases c with
      | calls s => exact ⟨s, hc, rfl⟩
      | location l => exact hc.elim
      | values s => exact hc.elim

theorem atMost_location : AtMost (2 ^ 160) fun _ : Location => True := by
  have hlabel : AtMost (2 ^ 64 * 2 ^ 16) fun _ : Label => True :=
    ((AtMost.bitVec 64).prod (AtMost.bitVec 16)).image (fun x => ⟨x.1, x.2⟩)
      fun l _ => ⟨(l.address, l.index), ⟨trivial, trivial⟩, rfl⟩
  have hplain : AtMost (2 ^ 64 * 2 ^ 16) fun l : Location => ∃ label, l = .plain label :=
    hlabel.image Location.plain fun l ⟨label, hl⟩ => ⟨label, trivial, hl.symm⟩
  have hsplit : AtMost (2 ^ 64 * 2 ^ 16 * 2 ^ 64) fun l : Location =>
      ∃ label vpc, l = .split label vpc :=
    (hlabel.prod (AtMost.bitVec 64)).image (fun x => .split x.1 x.2)
      fun l ⟨label, vpc, hl⟩ => ⟨(label, vpc), ⟨trivial, trivial⟩, hl.symm⟩
  refine (hplain.or hsplit).weaken (by decide) fun l _ => ?_
  cases l with
  | plain label => exact Or.inl ⟨label, rfl⟩
  | split label vpc => exact Or.inr ⟨label, vpc, rfl⟩

/-! ## States -/

/-- Each component adds its bits to those of what stands before it. -/
theorem atMost_components {β : Type} [DecidableEq β] {q : β → Prop} {bits : Nat}
    (as : List ComponentAnalysis) (h : AtMost (2 ^ bits) q) :
    AtMost (2 ^ as.foldl (fun b a => b + a.stateBits) bits) fun x : β × List Component =>
      q x.1 ∧ List.Forall₂ ComponentAnalysis.Fits as x.2 := by
  induction as generalizing β bits with
  | nil =>
      refine h.image (fun b => (b, [])) fun x hx => ⟨x.1, hx.1, ?_⟩
      rw [← List.forall₂_nil_left_iff.1 hx.2]
  | cons a as ih =>
      -- The first component joins what stands before the others.
      have hfirst : AtMost (2 ^ (bits + a.stateBits)) fun x : β × Component =>
          q x.1 ∧ a.Fits x.2 := by
        rw [Nat.pow_add]
        exact h.prod a.atMost_fits
      rw [List.foldl_cons]
      refine (ih hfirst).image (fun x => (x.1.1, x.1.2 :: x.2)) fun x hx => ?_
      obtain ⟨b, cs⟩ := x
      obtain ⟨c, rest, hc, hrest, rfl⟩ := List.forall₂_cons_left_iff.1 hx.2
      exact ⟨((b, c), rest), ⟨⟨hx.1, hc⟩, hrest⟩, rfl⟩

/-- The states that fit the analysis of an engine can be written down with its `stateBits`. -/
theorem Engine.atMost_fits (e : Engine) : AtMost (2 ^ e.stateBits) e.analysis.Fits :=
  (atMost_components e.analysis.components atMost_location).image (fun x => ⟨x.1, x.2⟩)
    fun s hs => ⟨(s.location, s.components), ⟨trivial, hs⟩, rfl⟩

end CodeReach
