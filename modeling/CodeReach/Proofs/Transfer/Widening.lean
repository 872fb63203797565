/-
  CodeReach.Proofs.Transfer.Widening

  What a location lets through.  States that arrive at a location are adjusted one after
  the other, and the constants that they show are noted in the precision of the location.

  One adjustment treats each register on its own (`widen_of_known`, `widen_of_unknown`):
  its constants are noted, and it is forgotten if too many have been noted by then.
  Noted constants are never dropped (`seen_subset_widen`), so a register that was
  forgotten once is forgotten each time, and all constants that a register kept were
  noted when there were not too many of them yet.
-/
import CodeReach.Proofs.Data.Buckets
import CodeReach.Proofs.Transfer.Finiteness
import CodeReach.Proofs.Transfer.ValueStates

namespace CodeReach

/-- In a growing chain of lists without repetitions, what the short ones list is little. -/
theorem AtMost.of_chain {α : Type} {xs : Nat → List α} (hnodup : ∀ n, (xs n).Nodup)
    (hmono : ∀ m n, m ≤ n → xs m ⊆ xs n) (k : Nat) :
    AtMost k fun x => ∃ n, (xs n).length ≤ k ∧ x ∈ xs n := by
  classical
  by_cases hshort : ∃ n, (xs n).length ≤ k
  · obtain ⟨n, hn⟩ := hshort
    -- The longest of the short lists lists everything.
    let reached := fun l => ∃ n, (xs n).length = l
    obtain ⟨top, htop⟩ : reached (Nat.findGreatest reached k) := Nat.findGreatest_spec hn ⟨n, rfl⟩
    have hle : (xs top).length ≤ k := htop ▸ Nat.findGreatest_le k
    refine ⟨(xs top).toFinset, ?_, (xs top).toFinset_card_le.trans hle⟩
    rintro x ⟨m, hm, hx⟩
    rw [List.mem_toFinset]
    have hlength : (xs m).length ≤ (xs top).length := htop ▸ Nat.le_findGreatest hm ⟨m, rfl⟩
    rcases Nat.le_total m top with h | h
    · exact hmono m top h hx
    · have hsub := (hnodup top).subperm (hmono top m h)
      exact (hsub.perm_of_length_le hlength).mem_iff.2 hx
  · exact ⟨∅, fun x hx => absurd (hx.imp fun _ h => h.1) hshort, Nat.zero_le _⟩

namespace Ascending

variable {α : Type} [Ord α] [Std.LawfulEqOrd α] {xs ys : List α} {y : α}

/-! ## Inserting several elements -/

theorem mem_foldr_insert : y ∈ xs.foldr insert ys ↔ y ∈ xs ∨ y ∈ ys := by
  induction xs with
  | nil => simp
  | cons x xs ih => rw [List.foldr_cons, mem_insert, ih, List.mem_cons, or_assoc]

variable [Std.TransOrd α]

theorem ascending_foldr_insert (h : Ascending ys) : Ascending (xs.foldr insert ys) := by
  induction xs with
  | nil => exact h
  | cons x xs ih => exact ascending_insert ih

/-- Elements that are there are not repeated. -/
theorem foldr_insert_eq_self (h : Ascending ys) (hsub : xs ⊆ ys) : xs.foldr insert ys = ys := by
  refine eq_of_mem_iff (ascending_foldr_insert h) h fun y => ?_
  rw [mem_foldr_insert]
  exact or_iff_right_of_imp fun hy => hsub hy

end Ascending

namespace ValueSet

variable {v : ValueSet} {w : Word} {ws : List Word}

/-! ## Constants of a value -/

/-- `w` is one of the constants of `v`. -/
def Shows (v : ValueSet) (w : Word) : Prop :=
  ∃ ws, v.constants? = some ws ∧ w ∈ ws

theorem shows_iff_of_constants? (h : v.constants? = some ws) : v.Shows w ↔ w ∈ ws := by
  rw [Shows, h]
  simp

theorem eq_unknown_of_constants? (h : v.constants? = none) : v = .unknown := by
  cases v with
  | unknown => rfl
  | known s hs => exact absurd h (by simp [constants?])

theorem shows_const (w x : Word) : (const w).Shows x ↔ x = w := by
  have hconstants : (const w).constants? = some [w] := rfl
  rw [shows_iff_of_constants? hconstants, List.mem_singleton]

end ValueSet

namespace Registers

variable {s : Registers} {r : Reg} {ws : List Word}

/-! ## Known registers -/

/-- Only tracked registers are known. -/
theorem lt_of_constants? (h : (s.get r).constants? = some ws) : r.toNat < trackedRegs := by
  by_contra hr
  rw [get_of_not_lt s hr] at h
  exact absurd h (by simp [ValueSet.constants?])

theorem mem_constants_iff : (r, ws) ∈ s.constants ↔ (s.get r).constants? = some ws := by
  refine ⟨constants?_of_mem_constants, fun h => ?_⟩
  have hr := lt_of_constants? h
  rw [get_of_lt s hr] at h
  refine List.mem_filterMap.2 ⟨⟨r.toNat, hr⟩, List.mem_finRange _, ?_⟩
  show Option.map _ (s.sets[r.toNat].constants?) = _
  rw [h, Option.map_some, BitVec.ofNat_toNat, BitVec.setWidth_eq]

/-- Each register is listed at most once. -/
theorem nodup_constants (s : Registers) : (s.constants.map Prod.fst).Nodup := by
  rw [constants, List.map_filterMap]
  refine List.Nodup.filterMap ?_ (List.nodup_finRange _)
  -- The register under which a position is listed has the number of the position.
  have hlisted : ∀ (i : Fin trackedRegs) (r : Reg),
      (s.sets[i].constants?.map fun ws => (BitVec.ofNat 8 i.val, ws)).map Prod.fst = some r →
        i.val = r.toNat := by
    intro i r hr
    rw [Option.map_map, Option.map_eq_some_iff] at hr
    obtain ⟨_, -, rfl⟩ := hr
    exact (toNat_ofNat_of_lt i.isLt).symm
  intro i j r hi hj
  exact Fin.ext ((hlisted i r hi).trans (hlisted j r hj).symm)

end Registers

namespace ValuePrecision

variable {p : ValuePrecision} {r q : Reg} {ws : List Word}

/-! ## Noting constants -/

theorem get_observe (p : ValuePrecision) (q r : Reg) (ws : List Word) :
    (p.observe q ws).seen.get r =
      if q = r then ws.foldr Ascending.insert (p.seen.get r) else p.seen.get r :=
  Buckets.get_modify _ _ _ _

/-- The registers for which there is a row. -/
def noted (p : ValuePrecision) : List Reg :=
  p.seen.rows.map Prod.fst

theorem mem_noted_observe : r ∈ (p.observe q ws).noted ↔ r = q ∨ r ∈ p.noted := by
  show r ∈ (Buckets.modifyRows _ _ p.seen.rows).map Prod.fst ↔ _
  rw [Buckets.keys_modifyRows]
  split
  · rename_i hq
    exact (or_iff_right_of_imp fun hr => hr ▸ hq).symm
  · rw [List.mem_append, List.mem_singleton, or_comm]
    rfl

/-- The constants of each register are listed once and in order. -/
def Sorted (p : ValuePrecision) : Prop :=
  ∀ r, Ascending (p.seen.get r)

theorem sorted_fresh (threshold : Nat) : (fresh threshold).Sorted :=
  fun _ => List.Pairwise.nil

theorem Sorted.observe (h : p.Sorted) (q : Reg) (ws : List Word) : (p.observe q ws).Sorted := by
  intro r
  rw [get_observe]
  split
  · exact Ascending.ascending_foldr_insert (h r)
  · exact h r

/-- Noting what has been noted changes nothing. -/
theorem observe_eq_self (h : p.Sorted) (hr : r ∈ p.noted) (hws : ws ⊆ p.seen.get r) :
    p.observe r ws = p := by
  have hseen : (p.seen.modify r fun xs => ws.foldr Ascending.insert xs) = p.seen :=
    Buckets.modify_eq_self hr (Ascending.foldr_insert_eq_self (h r) hws)
  rw [observe, hseen]

end ValuePrecision

namespace ValueAnalysis

variable {s : Registers} {p : ValuePrecision} {known : List (Reg × List Word)} {r : Reg}
  {ws : List Word}

/-! ## One adjustment -/

/-- One step of an adjustment: the constants of a register are noted, and the register is forgotten
    if these are too many. -/
def note (out : Registers × ValuePrecision) (known : Reg × List Word) :
    Registers × ValuePrecision :=
  let q := out.2.observe known.1 known.2
  (if q.exceeded known.1 then out.1.set known.1 .unknown else out.1, q)

theorem widen_eq_foldl (s : Registers) (p : ValuePrecision) :
    widen s p = s.constants.foldl note (s, p) :=
  rfl

/-- What is noted of other registers leaves a register alone. -/
theorem foldl_note_of_not_mem (out : Registers × ValuePrecision) (h : r ∉ known.map Prod.fst) :
    (known.foldl note out).1.get r = out.1.get r ∧
      (known.foldl note out).2.seen.get r = out.2.seen.get r := by
  refine List.foldlRecOn (motive := fun o : Registers × ValuePrecision =>
    o.1.get r = out.1.get r ∧ o.2.seen.get r = out.2.seen.get r) _ _ ⟨rfl, rfl⟩ ?_
  rintro ⟨t, q⟩ ⟨ht, hq⟩ ⟨k, ws⟩ hmem
  have hk : k ≠ r := fun hkr => h (hkr ▸ List.mem_map_of_mem hmem)
  refine ⟨?_, ?_⟩
  · show (if (q.observe k ws).exceeded k = true then t.set k .unknown else t).get r = _
    split
    · rw [Registers.get_set, if_neg fun hc => hk hc.1]
      exact ht
    · exact ht
  · show (q.observe k ws).seen.get r = _
    rw [ValuePrecision.get_observe, if_neg hk]
    exact hq

theorem threshold_foldl_note (known : List (Reg × List Word)) (out : Registers × ValuePrecision) :
    (known.foldl note out).2.threshold = out.2.threshold :=
  List.foldlRecOn (motive := fun o : Registers × ValuePrecision => o.2.threshold = out.2.threshold)
    known note rfl fun _ h _ _ => h

theorem threshold_widen (s : Registers) (p : ValuePrecision) :
    (widen s p).2.threshold = p.threshold :=
  threshold_foldl_note s.constants (s, p)

theorem sorted_widen (h : p.Sorted) (s : Registers) : (widen s p).2.Sorted :=
  List.foldlRecOn (motive := fun o : Registers × ValuePrecision => o.2.Sorted)
    s.constants note h fun _ ho _ _ => ho.observe _ _

theorem mem_noted_widen (h : (s.get r).constants? = some ws) : r ∈ (widen s p).2.noted := by
  have hkeys : ∀ {known : List (Reg × List Word)} {out : Registers × ValuePrecision},
      r ∈ known.map Prod.fst ∨ r ∈ out.2.noted → r ∈ (known.foldl note out).2.noted := by
    intro known
    induction known with
    | nil => exact fun h => h.resolve_left List.not_mem_nil
    | cons k known ih =>
        intro out h
        refine ih ?_
        rw [List.map_cons, List.mem_cons, or_right_comm] at h
        exact h.symm.imp_right ValuePrecision.mem_noted_observe.2
  exact hkeys (Or.inl (List.mem_map_of_mem (Registers.mem_constants_iff.2 h)))

/-- The constants of a known register are noted, and the register is forgotten exactly if too many
    have been noted then. -/
theorem widen_of_known (h : (s.get r).constants? = some ws) :
    (widen s p).2.seen.get r = ws.foldr Ascending.insert (p.seen.get r) ∧
      (widen s p).1.get r = if (widen s p).2.exceeded r = true then .unknown else s.get r := by
  have hnodup := Registers.nodup_constants s
  obtain ⟨before, after, hsplit⟩ := List.append_of_mem (Registers.mem_constants_iff.2 h)
  rw [hsplit, List.map_append, List.map_cons, List.nodup_append, List.nodup_cons] at hnodup
  obtain ⟨-, ⟨hafter, -⟩, hbefore⟩ := hnodup
  have hbefore : r ∉ before.map Prod.fst := fun hr => hbefore r hr r List.mem_cons_self rfl
  -- Of the whole loop only the step for the register itself counts.
  have hwiden : widen s p = after.foldl note (note (before.foldl note (s, p)) (r, ws)) := by
    rw [widen_eq_foldl, hsplit, List.foldl_append, List.foldl_cons]
  have hthreshold := threshold_foldl_note before (s, p)
  obtain ⟨hget, hseen⟩ := foldl_note_of_not_mem (s, p) hbefore
  generalize before.foldl note (s, p) = mid at hwiden hthreshold hget hseen
  obtain ⟨hget', hseen'⟩ := foldl_note_of_not_mem (note mid (r, ws)) hafter
  rw [← hwiden] at hget' hseen'
  have hexceeded : (mid.2.observe r ws).exceeded r = (widen s p).2.exceeded r := by
    rw [ValuePrecision.exceeded, ValuePrecision.exceeded, threshold_widen, ValuePrecision.seenCount,
      ValuePrecision.seenCount, hseen', ← hthreshold]
    rfl
  refine ⟨?_, ?_⟩
  · rw [hseen', ← hseen]
    exact (ValuePrecision.get_observe _ _ _ _).trans (if_pos rfl)
  · rw [hget', ← hexceeded]
    show (if (mid.2.observe r ws).exceeded r = true then mid.1.set r .unknown else mid.1).get r = _
    split
    · have hr : r.toNat < trackedRegs := Registers.lt_of_constants? h
      rw [Registers.get_set, if_pos ⟨rfl, hr⟩]
    · exact hget

/-- An unknown register is left alone. -/
theorem widen_of_unknown (h : (s.get r).constants? = none) :
    (widen s p).2.seen.get r = p.seen.get r ∧ (widen s p).1.get r = .unknown := by
  have hr : r ∉ s.constants.map Prod.fst := by
    intro hr
    obtain ⟨⟨q, ws⟩, hmem, rfl⟩ := List.mem_map.1 hr
    rw [Registers.mem_constants_iff, h] at hmem
    exact absurd hmem (by simp)
  obtain ⟨hget, hseen⟩ := foldl_note_of_not_mem (s, p) hr
  exact ⟨hseen, hget.trans (ValueSet.eq_unknown_of_constants? h)⟩

/-- What has been noted stays noted. -/
theorem seen_subset_widen (s : Registers) (p : ValuePrecision) (r : Reg) :
    p.seen.get r ⊆ (widen s p).2.seen.get r := by
  cases hconstants : (s.get r).constants? with
  | none =>
      rw [(widen_of_unknown hconstants).1]
      exact List.Subset.refl _
  | some ws =>
      rw [(widen_of_known hconstants).1]
      exact fun w hw => Ascending.mem_foldr_insert.2 (Or.inr hw)

/-- A register that is still known after an adjustment was left as it was: all its constants have
    been noted, and these are not too many. -/
theorem widen_kept (h : ((widen s p).1.get r).constants? = some ws) :
    (s.get r).constants? = some ws ∧ ws ⊆ (widen s p).2.seen.get r ∧
      (widen s p).2.exceeded r = false := by
  cases hconstants : (s.get r).constants? with
  | none =>
      rw [(widen_of_unknown hconstants).2] at h
      exact absurd h (by simp [ValueSet.constants?])
  | some xs =>
      obtain ⟨hseen, hget⟩ := widen_of_known (p := p) hconstants
      rw [hget] at h
      split at h
      · exact absurd h (by simp [ValueSet.constants?])
      · rename_i hexceeded
        obtain rfl := Option.some.inj (hconstants.symm.trans h)
        refine ⟨rfl, ?_, by simpa using hexceeded⟩
        rw [hseen]
        exact fun w hw => Ascending.mem_foldr_insert.2 (Or.inl hw)

/-- A second adjustment to the precision after the first changes neither the registers nor the
    precision. -/
theorem widen_widen (h : p.Sorted) (s : Registers) :
    widen (widen s p).1 (widen s p).2 = widen s p := by
  rw [widen_eq_foldl (widen s p).1]
  -- The second loop changes nothing in any step: what is still known has been noted, and there is
  -- not too much of it.
  refine List.foldlRecOn (motive := (· = widen s p)) _ _ rfl ?_
  rintro _ rfl ⟨r, ws⟩ hmem
  obtain ⟨hconstants, hsub, hexceeded⟩ := widen_kept (Registers.mem_constants_iff.1 hmem)
  have hobserve : (widen s p).2.observe r ws = (widen s p).2 :=
    ValuePrecision.observe_eq_self (sorted_widen h s) (mem_noted_widen hconstants) hsub
  rw [note, hobserve, hexceeded]
  rfl

/-! ## Adjustments one after the other -/

/-- The precision before each adjustment of a sequence. -/
def precisions (p : ValuePrecision) (s : Nat → Registers) : Nat → ValuePrecision
  | 0 => p
  | n + 1 => (widen (s n) (precisions p s n)).2

variable {s : Nat → Registers} {m n : Nat}

theorem sorted_precisions (h : p.Sorted) (s : Nat → Registers) (n : Nat) :
    (precisions p s n).Sorted := by
  induction n with
  | zero => exact h
  | succ n ih => exact sorted_widen ih (s n)

theorem threshold_precisions (p : ValuePrecision) (s : Nat → Registers) (n : Nat) :
    (precisions p s n).threshold = p.threshold := by
  induction n with
  | zero => rfl
  | succ n ih => exact (threshold_widen _ _).trans ih

theorem seen_subset_precisions (p : ValuePrecision) (s : Nat → Registers) (r : Reg) (h : m ≤ n) :
    (precisions p s m).seen.get r ⊆ (precisions p s n).seen.get r := by
  induction n, h using Nat.le_induction with
  | base => exact List.Subset.refl _
  | succ n _ ih => exact List.Subset.trans ih (seen_subset_widen (s n) _ r)

theorem exceeded_precisions (hp : p.Sorted) (h : m ≤ n)
    (hexceeded : (precisions p s m).exceeded r = true) :
    (precisions p s n).exceeded r = true := by
  have hnodup := (sorted_precisions hp s m r).nodup
  have hlength := (hnodup.subperm (seen_subset_precisions p s r h)).length_le
  rw [ValuePrecision.exceeded, decide_eq_true_iff, threshold_precisions] at hexceeded ⊢
  exact hexceeded.trans_le hlength

/-- A register that was known and forgotten is not known again. -/
theorem widen_precisions_of_forgotten (hp : p.Sorted) (h : m ≤ n)
    (hknown : (s m).get r ≠ .unknown)
    (hforgotten : (widen (s m) (precisions p s m)).1.get r = .unknown) :
    (widen (s n) (precisions p s n)).1.get r = .unknown := by
  cases hm : ((s m).get r).constants? with
  | none => exact absurd (ValueSet.eq_unknown_of_constants? hm) hknown
  | some ws =>
      -- It was forgotten because too many constants had been noted, and these stay noted.
      have hexceeded : (precisions p s (m + 1)).exceeded r = true := by
        by_contra hnot
        exact hknown (((widen_of_known hm).2.trans (if_neg hnot)).symm.trans hforgotten)
      have hlater := exceeded_precisions hp (Nat.succ_le_succ h) hexceeded
      cases hn : ((s n).get r).constants? with
      | none => exact (widen_of_unknown hn).2
      | some xs => exact (widen_of_known hn).2.trans (if_pos hlater)

/-- The constants of a register that are let through are at most as many as are tolerated. -/
theorem atMost_widen_precisions (hp : p.Sorted) (s : Nat → Registers) (r : Reg) :
    AtMost p.threshold fun w => ∃ n, ((widen (s n) (precisions p s n)).1.get r).Shows w := by
  have hchain := AtMost.of_chain (fun n => (sorted_precisions hp s n r).nodup)
    (fun _ _ h => seen_subset_precisions p s r h) p.threshold
  refine hchain.weaken (Nat.le_refl _) ?_
  -- What is let through has been noted, at a time when there was not too much.
  rintro w ⟨n, ws, hconstants, hw⟩
  obtain ⟨-, hsub, hexceeded⟩ := widen_kept hconstants
  refine ⟨n + 1, ?_, hsub hw⟩
  rw [ValuePrecision.exceeded, decide_eq_false_iff_not, Nat.not_lt, threshold_widen,
    threshold_precisions] at hexceeded
  exact hexceeded

/-- What has been noted was noted at the start or shown since. -/
theorem shows_of_mem_seen (s : Nat → Registers) {w : Word}
    (h : w ∈ (precisions p s n).seen.get r) :
    w ∈ p.seen.get r ∨ ∃ m, m < n ∧ ((s m).get r).Shows w := by
  induction n with
  | zero => exact Or.inl h
  | succ n ih =>
      have hearlier (h : w ∈ (precisions p s n).seen.get r) :
          w ∈ p.seen.get r ∨ ∃ m, m < n + 1 ∧ ((s m).get r).Shows w :=
        (ih h).imp_right fun ⟨m, hm, hshows⟩ => ⟨m, hm.trans n.lt_succ_self, hshows⟩
      rw [precisions] at h
      cases hconstants : ((s n).get r).constants? with
      | none =>
          rw [(widen_of_unknown hconstants).1] at h
          exact hearlier h
      | some ws =>
          rw [(widen_of_known hconstants).1, Ascending.mem_foldr_insert] at h
          rcases h with hnew | hold
          · exact Or.inr ⟨n, n.lt_succ_self, ws, hconstants, hnew⟩
          · exact hearlier hold

/-- As long as a register has not shown more constants than are tolerated, it is let through. -/
theorem widen_precisions_of_atMost {threshold : Nat}
    (h : AtMost threshold fun w => ∃ m, m ≤ n ∧ ((s m).get r).Shows w) :
    (widen (s n) (precisions (.fresh threshold) s n)).1.get r = (s n).get r := by
  cases hconstants : ((s n).get r).constants? with
  | none => rw [(widen_of_unknown hconstants).2, ValueSet.eq_unknown_of_constants? hconstants]
  | some ws =>
      obtain ⟨u, hu, hcard⟩ := h
      have hnodup := (sorted_precisions (ValuePrecision.sorted_fresh threshold) s (n + 1) r).nodup
      -- Everything that has been noted was shown, so there is not too much of it.
      have hsub : ((precisions (.fresh threshold) s (n + 1)).seen.get r).toFinset ⊆ u := by
        intro w hw
        rcases shows_of_mem_seen s (List.mem_toFinset.1 hw) with hstart | ⟨m, hm, hshows⟩
        · exact absurd hstart List.not_mem_nil
        · exact hu w ⟨m, Nat.le_of_lt_succ hm, hshows⟩
      have hlength : ((precisions (.fresh threshold) s (n + 1)).seen.get r).length ≤ threshold := by
        rw [← List.toFinset_card_of_nodup hnodup]
        exact (Finset.card_le_card hsub).trans hcard
      refine (widen_of_known hconstants).2.trans (if_neg ?_)
      rw [ValuePrecision.exceeded, decide_eq_true_iff, threshold_widen, threshold_precisions]
      exact Nat.not_lt.2 hlength

end ValueAnalysis

/-! ## States -/

/-- Where there are constants, each register's are listed once and in order. -/
def ComponentPrecision.Sorted (p : ComponentPrecision) : Prop :=
  ∀ q, p = .values q → q.Sorted

theorem ComponentPrecision.sorted_null : null.Sorted :=
  fun _ h => absurd h (by simp)

namespace Component

variable {p : ComponentPrecision}

theorem sorted_adjusted (h : p.Sorted) (c : Component) : (c.adjusted p).2.Sorted := by
  cases c with
  | location l => exact h
  | calls k => exact h
  | values r =>
      cases p with
      | null => exact h
      | values q =>
          rintro _ ⟨⟩
          exact ValueAnalysis.sorted_widen (h q rfl) r

theorem adjusted_adjusted (h : p.Sorted) (c : Component) :
    (c.adjusted p).1.adjusted (c.adjusted p).2 = c.adjusted p := by
  cases c with
  | location l => rfl
  | calls k => rfl
  | values r =>
      cases p with
      | null => rfl
      | values q => simp only [adjusted, ValueAnalysis.widen_widen (h q rfl) r]

end Component

/-- The precisions of all components are sorted. -/
def Precision.Sorted (p : Precision) : Prop :=
  ∀ i, (p.component i).Sorted

namespace State

variable {p : Precision}

theorem getElem?_adjustedComponents (s : State) (p : Precision) (i : Nat) :
    (s.adjustedComponents p)[i]? =
      (s.components[i]?).map fun c => c.adjusted (p.component (i + 1)) :=
  List.getElem?_mapIdx

theorem getElem?_adjusted (s : State) (p : Precision) (i : Nat) :
    (s.adjusted p).1.components[i]? =
      (s.components[i]?).map fun c => (c.adjusted (p.component (i + 1))).1 := by
  show ((s.adjustedComponents p).map (·.1))[i]? = _
  rw [List.getElem?_map, getElem?_adjustedComponents, Option.map_map]
  rfl

theorem component_adjusted (s : State) (p : Precision) (i : Nat) :
    (s.adjusted p).2.component (i + 1) =
      ((s.components[i]?).map fun c => (c.adjusted (p.component (i + 1))).2).getD .null := by
  show (ComponentPrecision.null :: (s.adjustedComponents p).map (·.2)).getD (i + 1) _ = _
  rw [List.getD_cons_succ, List.getD_eq_getElem?_getD, List.getElem?_map,
    getElem?_adjustedComponents, Option.map_map]
  rfl

theorem sorted_adjusted (h : p.Sorted) (s : State) : (s.adjusted p).2.Sorted := by
  intro i
  cases i with
  | zero => exact ComponentPrecision.sorted_null
  | succ i =>
      rw [component_adjusted]
      cases s.components[i]? with
      | none => exact ComponentPrecision.sorted_null
      | some c => exact c.sorted_adjusted (h (i + 1))

/-- A second adjustment to the precision after the first changes neither the state nor the
    precision. -/
theorem adjusted_adjusted (h : p.Sorted) (s : State) :
    (s.adjusted p).1.adjusted (s.adjusted p).2 = s.adjusted p := by
  have hcomponents :
      (s.adjusted p).1.adjustedComponents (s.adjusted p).2 = s.adjustedComponents p := by
    refine List.ext_getElem? fun i => ?_
    rw [getElem?_adjustedComponents, getElem?_adjustedComponents, getElem?_adjusted,
      component_adjusted]
    cases s.components[i]? with
    | none => rfl
    | some c => exact congrArg some (c.adjusted_adjusted (h (i + 1)))
  rw [adjusted, hcomponents]
  rfl

/-- The precision before each adjustment of a sequence. -/
def precisions (p : Precision) (s : Nat → State) : Nat → Precision
  | 0 => p
  | n + 1 => ((s n).adjusted (precisions p s n)).2

theorem sorted_precisions (h : p.Sorted) (s : Nat → State) (n : Nat) :
    (precisions p s n).Sorted := by
  induction n with
  | zero => exact h
  | succ n ih => exact sorted_adjusted ih (s n)

/-- The precision of register values only depends on the registers at its position. -/
theorem component_precisions {s : Nat → State} {i : Nat} {known : Nat → Registers}
    (hknown : ∀ n, (s n).components[i]? = some (.values (known n))) {q : ValuePrecision}
    (hq : p.component (i + 1) = .values q) (n : Nat) :
    (precisions p s n).component (i + 1) = .values (ValueAnalysis.precisions q known n) := by
  induction n with
  | zero => exact hq
  | succ n ih =>
      rw [precisions, component_adjusted, hknown, ih]
      rfl

end State

namespace Analysis

variable {a : Analysis} {i : Nat} {v : ValueAnalysis}

theorem component_precision (a : Analysis) (i : Nat) :
    a.precision.component (i + 1) =
      ((a.components[i]?).map ComponentAnalysis.precision).getD .null := by
  show (ComponentPrecision.null :: a.components.map ComponentAnalysis.precision).getD (i + 1) _ = _
  rw [List.getD_cons_succ, List.getD_eq_getElem?_getD, List.getElem?_map]

theorem sorted_precision (a : Analysis) : a.precision.Sorted := by
  intro i
  cases i with
  | zero => exact ComponentPrecision.sorted_null
  | succ i =>
      rw [component_precision]
      cases a.components[i]? with
      | none => exact ComponentPrecision.sorted_null
      | some c =>
          cases c with
          | calls k => exact ComponentPrecision.sorted_null
          | values v =>
              rintro _ ⟨⟩
              exact ValuePrecision.sorted_fresh v.threshold

/-- The states of an analysis have registers wherever it tracks register values. -/
theorem exists_registers {s : State} (hs : a.Handles s)
    (hv : a.components[i]? = some (.values v)) :
    ∃ r, s.components[i]? = some (.values r) := by
  obtain ⟨hi, hget⟩ := List.getElem?_eq_some_iff.1 hv
  have hi' : i < s.components.length := List.Forall₂.length_eq hs ▸ hi
  have hhandles : (ComponentAnalysis.values v).Handles s.components[i] :=
    hget ▸ List.Forall₂.get hs hi hi'
  rw [List.getElem?_eq_getElem hi']
  cases hc : s.components[i] with
  | values r => exact ⟨r, rfl⟩
  | location l => exact (hc ▸ hhandles : (ComponentAnalysis.values v).Handles (.location l)).elim
  | calls k => exact (hc ▸ hhandles : (ComponentAnalysis.values v).Handles (.calls k)).elim

/-- Adjusting the states that arrive at a location one after the other, from the precision of a
    location that has not been visited.  No adjustment fails; each one stays at the location, goes
    up and has nothing left to do when it is repeated.  Wherever register values are tracked, a
    register is let through until it has shown more constants than the threshold says; once it was
    forgotten it is unknown from then on; and the constants of it that are let through are at most
    as many as the threshold says. -/
theorem constants_bounded_by_threshold (a : Analysis) (s : Nat → State)
    (hs : ∀ n, a.Handles (s n)) :
    ∃ (t : Nat → State) (p : Nat → Precision), p 0 = a.precision ∧
      (∀ n, a.refine (s n) (p n) = .ok (t n, p (n + 1)) ∧
        (t n).location = (s n).location ∧ a.le (s n) (t n) = true ∧
        a.refine (t n) (p (n + 1)) = .ok (t n, p (n + 1))) ∧
      ∀ (i : Nat) (v : ValueAnalysis), a.components[i]? = some (.values v) →
        ∃ known kept : Nat → Registers,
          (∀ n, (s n).components[i]? = some (.values (known n)) ∧
            (t n).components[i]? = some (.values (kept n))) ∧
          ∀ r,
            (∀ n, (AtMost v.threshold fun w => ∃ m, m ≤ n ∧ ((known m).get r).Shows w) →
              (kept n).get r = (known n).get r) ∧
            (∀ m n, m ≤ n → (known m).get r ≠ .unknown → (kept m).get r = .unknown →
              (kept n).get r = .unknown) ∧
            AtMost v.threshold fun w => ∃ n, ((kept n).get r).Shows w := by
  let p := State.precisions a.precision s
  have hsorted : ∀ n, (p n).Sorted := State.sorted_precisions a.sorted_precision s
  refine ⟨fun n => ((s n).adjusted (p n)).1, p, rfl, fun n => ?_, fun i v hv => ?_⟩
  · have hle := le_adjusted (hs n) (p n)
    refine ⟨refine_of_handles (hs n) (p n), rfl, hle, ?_⟩
    rw [refine_of_handles (handles_of_le (hs n) hle)]
    exact congrArg Except.ok (State.adjusted_adjusted (hsorted n) (s n))
  · choose known hknown using fun n => exists_registers (hs n) hv
    have hstart : a.precision.component (i + 1) = .values (.fresh v.threshold) := by
      rw [component_precision, hv]
      rfl
    have hprecision := State.component_precisions hknown hstart
    have hfresh := ValuePrecision.sorted_fresh v.threshold
    refine ⟨known, fun n => (ValueAnalysis.widen (known n) (ValueAnalysis.precisions
      (.fresh v.threshold) known n)).1, fun n => ⟨hknown n, ?_⟩, fun r =>
        ⟨fun n h => ?_, fun m n h => ?_, ?_⟩⟩
    · rw [State.getElem?_adjusted, hknown, hprecision]
      rfl
    · exact ValueAnalysis.widen_precisions_of_atMost h
    · exact ValueAnalysis.widen_precisions_of_forgotten hfresh h
    · exact ValueAnalysis.atMost_widen_precisions hfresh known r

/-- Calls, and register values with two constants for each register and location. -/
def twoConstants : Analysis :=
  ⟨{}, [.calls {}, .values { program := .blank 0x1000, threshold := 2 }]⟩

/-- A state of that analysis with one open call that knows `r1`. -/
def arrivingWith (n : Nat) : State :=
  ⟨.plain (.start 0x1000),
    [.calls ⟨[0x1005]⟩, .values (Registers.unknown.set 1 (.const (BitVec.ofNat 64 n)))]⟩

theorem handles_arrivingWith (n : Nat) : twoConstants.Handles (arrivingWith n) :=
  .cons trivial (.cons trivial .nil)

/-- Of the states that bring one constant after the other, the first two are let through as they
    are, and `r1` is unknown in all the others. -/
theorem constants_bounded_by_threshold_arrivingWith :
    ∃ (t : Nat → State) (p : Nat → Precision), p 0 = twoConstants.precision ∧
      (∀ n, twoConstants.refine (arrivingWith n) (p n) = .ok (t n, p (n + 1)) ∧
        twoConstants.refine (t n) (p (n + 1)) = .ok (t n, p (n + 1))) ∧
      ∃ kept : Nat → Registers, (∀ n, (t n).components[1]? = some (.values (kept n))) ∧
        (kept 0).get 1 = .const 0 ∧ (kept 1).get 1 = .const 1 ∧
        ∀ n, 2 ≤ n → (kept n).get 1 = .unknown := by
  obtain ⟨t, p, hstart, hrefine, hbound⟩ :=
    constants_bounded_by_threshold twoConstants arrivingWith handles_arrivingWith
  obtain ⟨known, kept, hcomponents, hr⟩ := hbound 1 _ rfl
  obtain ⟨hshown, hforgotten, -⟩ := hr 1
  have hknown (n : Nat) : known n = Registers.unknown.set 1 (.const (BitVec.ofNat 64 n)) :=
    (Component.values.inj (Option.some.inj (hcomponents n).1)).symm
  have hget (n : Nat) : (known n).get 1 = .const (BitVec.ofNat 64 n) := by
    rw [hknown, Registers.get_set, if_pos (by decide)]
  -- Up to the second arrival two constants have been shown.
  have hfew (n : Nat) (hn : n ≤ 1) : AtMost 2 fun w => ∃ m, m ≤ n ∧ ((known m).get 1).Shows w := by
    refine ⟨{0, 1}, ?_, by decide⟩
    rintro w ⟨m, hm, hw⟩
    rw [hget, ValueSet.shows_const] at hw
    obtain rfl | rfl : m = 0 ∨ m = 1 := by omega
    · simp [hw]
    · simp [hw]
  have hnext (n : Nat) : (arrivingWith n).adjusted (p n) = (t n, p (n + 1)) :=
    Except.ok.inj ((refine_of_handles (handles_arrivingWith n) (p n)).symm.trans (hrefine n).1)
  have hp (n : Nat) : p n = State.precisions twoConstants.precision arrivingWith n := by
    induction n with
    | zero => exact hstart
    | succ n ih => rw [State.precisions, ← ih, hnext]
  have hthird : (kept 2).get 1 = .unknown := by
    have heval : ((arrivingWith 2).adjusted (State.precisions twoConstants.precision arrivingWith
        2)).1.components[1]? = some (.values .unknown) := by
      decide +kernel
    rw [← hp, hnext, (hcomponents 2).2] at heval
    rw [Component.values.inj (Option.some.inj heval)]
    rfl
  refine ⟨t, p, hstart, fun n => ⟨(hrefine n).1, (hrefine n).2.2.2⟩, kept,
    fun n => (hcomponents n).2, ?_, ?_, fun n hn => ?_⟩
  · exact (hshown 0 (hfew 0 (by decide))).trans (hget 0)
  · exact (hshown 1 (hfew 1 (by decide))).trans (hget 1)
  · refine hforgotten 2 n hn ?_ hthird
    rw [hget]
    exact fun h => by cases h

end Analysis

end CodeReach
