/-
  CodeReach.Proofs.Code.WellFormed

  Assembled programs are well formed.  Statements and instruction records are two
  tables, and items may write over each other in either; the tables still fit together
  (`WellFormed`), because each item on its own leaves them so, and what an item leaves
  at a label or an address can be replaced there but never taken away.

  In particular the first statement of every known instruction is there, so that
  exploration never misses a statement at a code address (`assembled_well_formed`).
-/
import CodeReach.Proofs.Code.Assemble
import CodeReach.Proofs.Explore.Resolver

namespace CodeReach

/-! ## One item -/

namespace Item

variable {entry : Word} {item : Item} {s : PlacedStmt} {n : Label}

theorem exists_start_mem_layout (address : Word) (size : Byte) (stmts : List Stmt) :
    ∃ s ∈ layout address size stmts, s.label = Label.start address :=
  ⟨_, mem_layout.2 ⟨0, List.length_pos_iff.2 (body_ne_nil stmts), rfl⟩, rfl⟩

theorem next_of_halt_mem_layout {address : Word} {size : Byte} {stmts : List Stmt}
    (h : s ∈ layout address size stmts) (hhalt : s.stmt = .halt) : s.next = none := by
  obtain ⟨k, hk, rfl⟩ := mem_layout.1 h
  exact if_pos hhalt

/-- A label of the same instruction that a statement falls through to has a statement. -/
theorem exists_next_mem_layout {address : Word} {size : Byte} {stmts : List Stmt}
    (h : s ∈ layout address size stmts) (hnext : s.next = some n) (hn : n.address = address) :
    ∃ t ∈ layout address size stmts, t.label = n := by
  obtain ⟨k, hk, rfl⟩ := mem_layout.1 h
  simp only [numbered] at hnext
  split at hnext
  · exact absurd hnext (by simp)
  · split at hnext
    · rename_i hlater
      rw [← Option.some.inj hnext]
      exact ⟨_, mem_layout.2 ⟨k + 1, hlater, rfl⟩, rfl⟩
    · -- The last statement leaves the instruction, unless the instruction has no size.
      obtain ⟨a, -, rfl⟩ := Option.map_eq_some_iff.1 hnext
      have ha : a = address := hn
      rw [ha]
      exact exists_start_mem_layout address size stmts

/-- Where an item has an instruction on record, it has a first statement. -/
theorem exists_start_of_mem_records (entry : Word) {r : Instruction} (h : r ∈ item.records) :
    ∃ s ∈ item.placed entry, s.label = Label.start r.address := by
  cases item with
  | instruction address size mnemonic stmts =>
      rw [List.mem_singleton.1 h]
      exact exists_start_mem_layout address size stmts
  | segment start data => exact absurd h List.not_mem_nil
  | symbol address name => exact absurd h List.not_mem_nil
  | harness address =>
      rcases List.mem_cons.1 h with rfl | hcall
      · obtain ⟨s, hs, hstart⟩ := exists_start_mem_layout
          (Word.addClamped address Program.harnessSize.toNat) Program.harnessSize [.halt]
        exact ⟨s, List.mem_cons_of_mem _ hs, hstart⟩
      · rw [List.mem_singleton.1 hcall]
        exact ⟨_, List.mem_cons_self, rfl⟩

theorem next_of_halt_mem_placed (h : s ∈ item.placed entry) (hhalt : s.stmt = .halt) :
    s.next = none := by
  cases item with
  | instruction address size mnemonic stmts => exact next_of_halt_mem_layout h hhalt
  | segment start data => exact absurd h List.not_mem_nil
  | symbol address name => exact absurd h List.not_mem_nil
  | harness address =>
      rcases List.mem_cons.1 h with rfl | h
      · rfl
      · exact next_of_halt_mem_layout h hhalt

theorem exists_next_mem_placed (h : s ∈ item.placed entry) (hnext : s.next = some n)
    (hn : n.address = s.label.address) : ∃ t ∈ item.placed entry, t.label = n := by
  cases item with
  | instruction address size mnemonic stmts =>
      exact exists_next_mem_layout h hnext (hn.trans (address_of_mem_layout h))
  | segment start data => exact absurd h List.not_mem_nil
  | symbol address name => exact absurd h List.not_mem_nil
  | harness address =>
      rcases List.mem_cons.1 h with rfl | h
      · exact absurd hnext (by simp)
      · obtain ⟨t, ht, hlabel⟩ :=
          exists_next_mem_layout h hnext (hn.trans (address_of_mem_layout h))
        exact ⟨t, List.mem_cons_of_mem _ ht, hlabel⟩

theorem exists_records_of_harness? {h : Harness} (hh : item.harness? = some h) :
    (∃ r ∈ item.records, r.address = h.callAddress) ∧
    (∃ r ∈ item.records, r.address = h.haltAddress) := by
  cases item with
  | harness address =>
      rw [← Option.some.inj hh]
      exact ⟨⟨_, List.mem_cons_of_mem _ (List.mem_singleton_self _), rfl⟩,
        ⟨_, List.mem_cons_self, rfl⟩⟩
  | instruction address size mnemonic stmts => exact absurd hh (by simp [harness?])
  | segment start data => exact absurd hh (by simp [harness?])
  | symbol address name => exact absurd hh (by simp [harness?])

end Item

/-! ## All items -/

namespace Program

variable {p : Program} {entry : Word} {items : List Item}

/-- The tables of a program fit together. -/
structure WellFormed (p : Program) : Prop where
  /-- A statement is found under its own label. -/
  placed : ∀ l s, p.statement? l = some s → s.label = l
  /-- An instruction is found under its own address. -/
  recorded : ∀ a i, p.instruction? a = some i → i.address = a
  /-- The addresses that have statements are those at which instructions start. -/
  addresses : ∀ a, (∃ l s, p.statement? l = some s ∧ l.address = a) ↔ a ∈ p.codeAddresses
  /-- Every instruction has a first statement. -/
  entered : ∀ a ∈ p.codeAddresses, (p.statement? (Label.start a)).isSome = true
  /-- Inside an instruction, every statement falls through to one that is there. -/
  chained : ∀ l s n, p.statement? l = some s → s.next = some n → n.address = l.address →
    (p.statement? n).isSome = true
  /-- Nothing comes after a halt. -/
  halts : ∀ l s, p.statement? l = some s → s.stmt = .halt → s.next = none
  /-- Both instructions of the harness are on record. -/
  harnessed : ∀ h, p.harness = some h →
    h.callAddress ∈ p.codeAddresses ∧ h.haltAddress ∈ p.codeAddresses

theorem harness_assemble (entry : Word) (items : List Item) :
    (assemble entry items).harness = items.reverse.findSome? Item.harness? := by
  rw [assemble_eq]
  exact Option.or_none

theorem entered_assemble {a : Word} (h : a ∈ (assemble entry items).codeAddresses) :
    ((assemble entry items).statement? (Label.start a)).isSome = true := by
  obtain ⟨item, hitem, r, hr, rfl⟩ := isCode_assemble.1 (mem_codeAddresses.1 h)
  obtain ⟨s, hs, hstart⟩ := Item.exists_start_of_mem_records entry hr
  exact hstart ▸ exists_statement?_of_mem_placed hitem hs

theorem wellFormed_assemble (entry : Word) (items : List Item) :
    (assemble entry items).WellFormed where
  placed := placed_assemble entry items
  recorded a i h := by
    rw [instruction?_assemble] at h
    have haddress := List.find?_some h
    exact of_decide_eq_true haddress
  addresses a := by
    rw [mem_codeAddresses]
    constructor
    · rintro ⟨l, s, hs, rfl⟩
      exact isCode_of_statement? hs
    · intro ha
      obtain ⟨s, hs⟩ := Option.isSome_iff_exists.1 (entered_assemble (mem_codeAddresses.2 ha))
      exact ⟨Label.start a, s, hs, rfl⟩
  entered _ h := entered_assemble h
  chained l s n hs hnext hn := by
    obtain ⟨rfl, item, hitem, hmem⟩ := mem_placed_of_statement? hs
    obtain ⟨t, ht, rfl⟩ := Item.exists_next_mem_placed hmem hnext hn
    exact exists_statement?_of_mem_placed hitem ht
  halts l s hs hhalt := by
    obtain ⟨-, item, -, hmem⟩ := mem_placed_of_statement? hs
    exact Item.next_of_halt_mem_placed hmem hhalt
  harnessed h hh := by
    rw [harness_assemble] at hh
    obtain ⟨item, hitem, hitem'⟩ := List.exists_of_findSome?_eq_some hh
    obtain ⟨hcall, hhalt⟩ := Item.exists_records_of_harness? hitem'
    simp only [mem_codeAddresses, isCode_assemble]
    exact ⟨⟨item, List.mem_reverse.1 hitem, hcall⟩, ⟨item, List.mem_reverse.1 hitem, hhalt⟩⟩

end Program

/-! ## Exploration -/

/-- A missing statement is only reported where there is none. -/
theorem Resolver.statement?_eq_none_of_missing {r : Resolver} {n : Node} {f : Failure} {l : Label}
    (hf : (r.edges n).2 = .error f) (hmissing : f.cause = .fault (.missingStatement l)) :
    r.program.statement? n.location.label = none := by
  cases hsite : r.program.statement? n.location.label with
  | none => rfl
  | some site =>
      cases hg : site.stmt.goto? with
      | none =>
          rw [answer_of_straight hsite hg] at hf
          exact absurd hf (by simp)
      | some g =>
          rw [answer_of_goto hsite (Stmt.eq_of_goto? hg)] at hf
          split at hf
          · rw [← Except.error.inj hf] at hmissing
            exact absurd hmissing (by simp)
          · exact absurd hf (by simp)

namespace Program

/-- However the items of a program write over each other, its tables fit together.  Hence no state
    at the first statement of a known instruction makes exploration miss a statement. -/
theorem assembled_well_formed (entry : Word) (items : List Item) :
    (assemble entry items).WellFormed ∧
    ∀ (r : Resolver) (n : Node) (a : Word), r.program = assemble entry items →
      a ∈ r.program.codeAddresses → n.location.label = Label.start a →
      ∀ f l, (r.edges n).2 = .error f → f.cause ≠ .fault (.missingStatement l) := by
  refine ⟨wellFormed_assemble entry items, ?_⟩
  intro r n a hr ha hn f l hf hmissing
  have hnone := Resolver.statement?_eq_none_of_missing hf hmissing
  rw [hn, hr] at hnone
  have hfirst := entered_assemble (hr ▸ ha)
  rw [hnone] at hfirst
  exact absurd hfirst (by simp)

/-- Items that collide: a harness at the highest address, whose two instructions fall together
    there, on top of an instruction with more statements; and an instruction without size or
    statements. -/
def collided : List Item :=
  [.instruction 0xffffffffffffffff 4 "pair" [.havoc 1, .havoc 2], .harness 0xffffffffffffffff,
    .instruction 0x1000 0 "nop" []]

theorem assembled_well_formed_collided :
    (assemble 0x1000 collided).WellFormed ∧
    0xffffffffffffffff ∈ (assemble 0x1000 collided).codeAddresses ∧
    ∀ settings f l,
      ((Resolver.fresh (assemble 0x1000 collided) settings).edges
        ⟨0, ⟨.plain (Label.start 0xffffffffffffffff), []⟩⟩).2 = .error f →
      f.cause ≠ .fault (.missingStatement l) := by
  obtain ⟨hformed, hfound⟩ := assembled_well_formed 0x1000 collided
  have hcode : 0xffffffffffffffff ∈ (assemble 0x1000 collided).codeAddresses := by decide
  exact ⟨hformed, hcode, fun settings => hfound (.fresh _ settings) _ _ rfl hcode rfl⟩

end Program

end CodeReach
