/-
  CodeReach.Proofs.Transfer.CanonicalValues

  What the value sets of a description of the registers look like, whatever made it.

  A description is made from the one that knows nothing by putting value sets into
  registers, by joining, by assuming conditions, and by following edges, merging and
  adjusting to a precision in an analysis of register values, in any order and with any
  analyses (`Registers.Obtained`).  Each of its value sets is in canonical form.  And if
  every value set that was put in allows a word, then so does every value set that comes
  out; without any that was put in, this is what an exploration reaches.
-/
import CodeReach.Proofs.Domain.Canonical
import CodeReach.Proofs.Transfer.Faults

namespace CodeReach

namespace Registers

variable {s t : Registers} {c : Expr} {program : Option Program} {given : ValueSet → Prop}

/-- The descriptions that can be made with value sets of a given kind. -/
inductive Obtained (given : ValueSet → Prop) : Registers → Prop where
  | start : Obtained given unknown
  | set {s : Registers} {v : ValueSet} (r : Reg) :
      Obtained given s → given v → Obtained given (s.set r v)
  | join {s t : Registers} : Obtained given s → Obtained given t → Obtained given (s.join t)
  | assume {s t : Registers} {program : Option Program} {c : Expr} :
      Obtained given s → s.assume program c = .ok (some t) → Obtained given t
  | post {s t : Registers} {a : ValueAnalysis} {u : State} {i : Nat} {e : Edge} :
      Obtained given s → u.component? i = some (.values s) →
      (ComponentAnalysis.values a).post u i e = .ok (some (.values t)) → Obtained given t
  | merge {s t m : Registers} {a : ValueAnalysis} :
      Obtained given s → Obtained given t →
      (ComponentAnalysis.values a).merge (.values s) (.values t) = .values m → Obtained given m
  | prec {s t : Registers} {a : ValueAnalysis} {u : State} {i : Nat} {p q : ComponentPrecision} :
      Obtained given s → u.component? i = some (.values s) →
      (ComponentAnalysis.values a).refine u i p = .ok (.values t, q) → Obtained given t

/-! ## Something stays possible -/

theorem possible_of_assume (hs : s.Possible) (h : s.assume program c = .ok (some t)) :
    t.Possible := by
  obtain ⟨_, -, -, hrefine⟩ := exists_eval_of_assume h
  obtain ⟨_, -, -, ht⟩ := refine_le hs (le_refl s) hrefine
  exact ht

/-- Each operation leaves something possible in every register, if the value sets that were put in
    allow something. -/
theorem Obtained.possible (hgiven : ∀ v, given v → ∃ x, v.Allows x) (h : Obtained given s) :
    s.Possible := by
  induction h with
  | start => exact possible_unknown
  | set r _ hv ih => exact ih.set (hgiven _ hv)
  | join _ _ ihs _ => exact ihs.of_le (le_join_left _ _)
  | assume _ ht ih => exact possible_of_assume ih ht
  | post _ hs ht ih =>
      rw [ComponentAnalysis.post_values hs] at ht
      obtain ⟨o, ho, ht⟩ := bind_eq_ok.1 ht
      obtain ⟨t', rfl, heq⟩ := Option.map_eq_some_iff.1 (Except.ok.inj ht)
      obtain rfl := Component.values.inj heq
      exact ValueAnalysis.possible_of_step ih ho
  | @merge s t m a _ _ hm ihs iht =>
      obtain rfl : a.combine s t = m := Component.values.inj hm
      unfold ValueAnalysis.combine
      split
      · exact ihs.of_le (le_join_left _ _)
      · exact iht
  | @prec s t a u i p q _ hs ht ih =>
      -- An adjustment only forgets.
      have hfits : (ComponentAnalysis.values a).Fits (.values s) := trivial
      obtain ⟨-, hle⟩ := ComponentAnalysis.refine_bounds hs hfits ht
      exact ih.of_le hle

/-! ## Canonical value sets -/

/-- Value sets stay canonical and keep something possible.  Whatever value sets are made of, they
    are in canonical form and know exactly the words that were put in; two of them are equal exactly
    if they allow the same words.  In every description that is obtained, all value sets are in
    canonical form, and none is empty unless an empty one was put in. -/
theorem obtained_canonical :
    (∀ b : ValueSet.Recipe, b.build.Canonical ∧ b.build.words? = b.collect) ∧
    (∀ v w : ValueSet, v = w ↔ ∀ x, v.Allows x ↔ w.Allows x) ∧
    ∀ (given : ValueSet → Prop) (s : Registers), Obtained given s →
      (∀ r, (s.get r).Canonical) ∧
      ((∀ v, given v → ∃ x, v.Allows x) → ∀ r, (s.get r).constants? ≠ some []) := by
  refine ⟨?_, ?_, ?_⟩
  · intro b
    exact ⟨b.build.canonical, b.words?_build⟩
  · intro v w
    exact ValueSet.eq_iff_allows
  · intro given s hs
    refine ⟨fun r => (s.get r).canonical, fun hgiven => ?_⟩
    exact possible_iff.1 (hs.possible hgiven)

/-- As many words as can be told apart. -/
def sixteenWords : ValueSet.Recipe :=
  .ofList ((List.range 16).map (BitVec.ofNat 64))

/-- What an exploration knows behind a test of one register and a computation with it. -/
def tested (w : Word) : Registers :=
  (unknown.set 1 (.const w)).set 2 (.const (w + 1))

theorem obtained_tested (w : Word) : Obtained (fun _ => False) (tested w) := by
  have htest : Obtained (fun _ => False) (unknown.set 1 (.const w)) :=
    .post (a := ComponentAnalysis.overTwoWords) (i := 2)
      (u := ComponentAnalysis.behindCalls unknown)
      (e := .must (Label.start 0x1000) (Label.start 0x1004)
        (.assume (.binary .eq (.reg 1) (.imm w)) none))
      .start rfl rfl
  exact .post (a := ComponentAnalysis.overTwoWords) (i := 2)
    (u := ComponentAnalysis.behindCalls (unknown.set 1 (.const w)))
    (e := .must (Label.start 0x1004) (Label.start 0x1008)
      (.assign 2 (.binary .add (.reg 1) (.imm 1))))
    htest rfl rfl

/-- One word more is one too many, but a word that is there already is not; and after two branches
    have been merged, the computed register still holds something. -/
theorem obtained_canonical_twoBranches :
    (ValueSet.Recipe.insert sixteenWords 3).build.words? = sixteenWords.collect ∧
      (ValueSet.Recipe.insert sixteenWords 1000).build.words? = none ∧
      ((tested 5).join (tested 7)).get 2 = .ofList [6, 8] ∧
      (((tested 5).join (tested 7)).get 2).constants? ≠ some [] := by
  have hmerged : Obtained (fun _ => False) ((tested 5).join (tested 7)) :=
    .merge (a := ComponentAnalysis.overTwoWords) (obtained_tested 5) (obtained_tested 7) rfl
  obtain ⟨hrecipe, -, hobtained⟩ := obtained_canonical
  refine ⟨?_, ?_, by decide +kernel, (hobtained _ _ hmerged).2 (fun _ h => h.elim) 2⟩
  · rw [(hrecipe _).2]
    decide +kernel
  · rw [(hrecipe _).2]
    decide +kernel

end Registers

end CodeReach
