/-
  CodeReach.Proofs.Code.Assemble

  Assembled programs.  Each item brings statements, instruction records and perhaps
  one thing of another kind, and the program is what all of them bring, written one
  after the other (`assemble_eq`).  A later statement replaces an earlier one at the
  same label, and a later record one at the same address, so that the last is found
  (`statement?_assemble`, `instruction?_assemble`).  However the items overlap, a
  statement is then found at its own label and nowhere else, and an instruction is on
  record at its address.
-/
import CodeReach.Code.Assemble

namespace CodeReach

/-! ## Tables filled one entry after the other -/

/-- In a table that is filled with entries under their keys, the last entry under a key is
    found. -/
theorem getElem?_foldl_insert {κ α : Type} [Ord κ] [Std.TransOrd κ] [Std.LawfulEqOrd κ]
    [DecidableEq κ] (key : α → κ) (xs : List α) (table : Std.TreeMap κ α) (k : κ) :
    (xs.foldl (fun t x => t.insert (key x) x) table)[k]? =
      (xs.reverse.find? fun x => key x = k).or table[k]? := by
  induction xs generalizing table with
  | nil => rfl
  | cons x xs ih =>
      rw [List.foldl_cons, ih, Std.TreeMap.getElem?_insert, List.reverse_cons, List.find?_append,
        Option.or_assoc]
      congr 1
      by_cases hkey : key x = k
      · simp [hkey]
      · simp [hkey]

/-! ## What an item brings -/

namespace Item

/-- The statements that an item brings, in the order in which they are written. -/
def placed (entry : Word) : Item → List PlacedStmt
  | .instruction address size _ stmts => layout address size stmts
  | .harness address =>
      ⟨Label.start address, none, .goto (.always .call (.imm entry))⟩ ::
        layout (Word.addClamped address Program.harnessSize.toNat) Program.harnessSize [.halt]
  | .segment .. | .symbol .. => []

/-- The instruction records that an item brings, in the order in which they are written. -/
def records : Item → List Instruction
  | .instruction address size mnemonic _ => [⟨address, size, mnemonic⟩]
  | .harness address =>
      [⟨Word.addClamped address Program.harnessSize.toNat, Program.harnessSize, "halt"⟩,
        ⟨address, Program.harnessSize, "call"⟩]
  | .segment .. | .symbol .. => []

/-- The segment that an item brings. -/
def segment? : Item → Option Segment
  | .segment start data => some ⟨start, data⟩
  | .instruction .. | .symbol .. | .harness .. => none

/-- The name that an item gives to an address. -/
def symbol? : Item → Option (Word × String)
  | .symbol address name => some (address, name)
  | .instruction .. | .segment .. | .harness .. => none

/-- The harness that an item installs. -/
def harness? : Item → Option Harness
  | .harness address => some ⟨address, Word.addClamped address Program.harnessSize.toNat⟩
  | .instruction .. | .segment .. | .symbol .. => none

/-- The statement with number `k` out of `count`: it falls through to the next one, the last to
    `after`, and a halt to nothing. -/
def numbered (address : Word) (after : Option Label) (count k : Nat) (s : Stmt) : PlacedStmt :=
  ⟨⟨address, BitVec.ofNat 16 k⟩,
    if s = .halt then none
    else if k + 1 < count then some ⟨address, BitVec.ofNat 16 (k + 1)⟩
    else after,
    s⟩

theorem chain_eq_mapIdx (address : Word) (after : Option Label) (i : Nat) (stmts : List Stmt) :
    chain address after i stmts =
      stmts.mapIdx fun k => numbered address after (i + stmts.length) (i + k) := by
  induction stmts generalizing i with
  | nil => rfl
  | cons s rest ih =>
      have hlast : (i + 1 < i + (s :: rest).length) ↔ rest.isEmpty = false := by
        cases rest <;> simp
      have hnumber : ∀ k, i + 1 + k = i + (k + 1) := fun k => by omega
      rw [chain, List.mapIdx_cons, ih]
      congr 1
      · simp only [numbered, Nat.add_zero, hlast]
        cases rest.isEmpty <;> simp
      · simp only [hnumber, List.length_cons]

/-- What an instruction executes: an instruction without statements does nothing. -/
def body (stmts : List Stmt) : List Stmt :=
  if stmts.isEmpty then [.skip] else stmts

theorem body_ne_nil (stmts : List Stmt) : body stmts ≠ [] := by
  cases stmts <;> simp [body]

theorem layout_eq_mapIdx (address : Word) (size : Byte) (stmts : List Stmt) :
    layout address size stmts = (body stmts).mapIdx
      (numbered address ((Word.addExact address size.toNat).map Label.start)
        (body stmts).length) := by
  have h := chain_eq_mapIdx address ((Word.addExact address size.toNat).map Label.start) 0
    (body stmts)
  simp only [Nat.zero_add] at h
  exact h

theorem mem_layout {address : Word} {size : Byte} {stmts : List Stmt} {s : PlacedStmt} :
    s ∈ layout address size stmts ↔ ∃ k, ∃ _ : k < (body stmts).length,
      numbered address ((Word.addExact address size.toNat).map Label.start) (body stmts).length k
        (body stmts)[k] = s := by
  rw [layout_eq_mapIdx, List.mem_mapIdx]

/-- The statements of an instruction are all at its address. -/
theorem address_of_mem_layout {address : Word} {size : Byte} {stmts : List Stmt} {s : PlacedStmt}
    (h : s ∈ layout address size stmts) : s.label.address = address := by
  obtain ⟨k, hk, rfl⟩ := mem_layout.1 h
  rfl

/-- An item has an instruction on record for each of its statements. -/
theorem exists_record_of_mem_placed {entry : Word} {item : Item} {s : PlacedStmt}
    (h : s ∈ item.placed entry) : ∃ r ∈ item.records, r.address = s.label.address := by
  cases item with
  | instruction address size mnemonic stmts =>
      exact ⟨_, List.mem_singleton_self _, (address_of_mem_layout h).symm⟩
  | segment start data => exact absurd h List.not_mem_nil
  | symbol address name => exact absurd h List.not_mem_nil
  | harness address =>
      rcases List.mem_cons.1 h with rfl | hhalt
      · exact ⟨_, List.mem_cons_of_mem _ (List.mem_singleton_self _), rfl⟩
      · exact ⟨_, List.mem_cons_self, (address_of_mem_layout hhalt).symm⟩

end Item

/-! ## What is found in a program -/

namespace Program

variable {p : Program} {entry : Word} {items : List Item}

theorem foldl_insertStmt (ss : List PlacedStmt) (p : Program) :
    ss.foldl insertStmt p =
      { p with statements := ss.foldl (fun t s => t.insert s.label s) p.statements } := by
  induction ss generalizing p with
  | nil => rfl
  | cons s ss ih => exact ih (p.insertStmt s)

/-- The program that consists of what the items bring, and of `p` where they bring nothing. -/
def extended (p : Program) (items : List Item) : Program where
  entry := p.entry
  statements := (items.flatMap (Item.placed p.entry)).foldl (fun t s => t.insert s.label s)
    p.statements
  instructions := (items.flatMap Item.records).foldl (fun t r => t.insert r.address r)
    p.instructions
  segments := p.segments ++ items.filterMap Item.segment?
  symbols := (items.filterMap Item.symbol?).foldl (fun t s => t.insert s.1 s.2) p.symbols
  harness := (items.reverse.findSome? Item.harness?).or p.harness

theorem insertItem_eq (p : Program) (item : Item) : p.insertItem item = p.extended [item] := by
  cases item <;> simp [insertItem, insertInstruction, insertHarness, foldl_insertStmt,
    insertRecord, insertStmt, extended, Item.placed, Item.records, Item.segment?, Item.harness?]
    <;> rfl

theorem extended_append (p : Program) (items more : List Item) :
    p.extended (items ++ more) = (p.extended items).extended more := by
  simp [extended, List.foldl_append, Option.or_assoc]

/-- An assembled program is what its items bring. -/
theorem assemble_eq (entry : Word) (items : List Item) :
    assemble entry items = (blank entry).extended items := by
  suffices h : ∀ p : Program, items.foldl insertItem p = p.extended items from h (blank entry)
  induction items with
  | nil =>
      intro p
      simp [extended]
  | cons item items ih =>
      intro p
      rw [List.foldl_cons, insertItem_eq, ih]
      exact (extended_append p [item] items).symm

/-- The statement at a label is the last one that an item put there. -/
theorem statement?_assemble (entry : Word) (items : List Item) (l : Label) :
    (assemble entry items).statement? l =
      (items.flatMap (Item.placed entry)).reverse.find? fun s => s.label = l := by
  rw [assemble_eq, statement?, extended, getElem?_foldl_insert]
  exact Option.or_none

/-- The instruction at an address is the last one that an item put on record there. -/
theorem instruction?_assemble (entry : Word) (items : List Item) (a : Word) :
    (assemble entry items).instruction? a =
      (items.flatMap Item.records).reverse.find? fun r => r.address = a := by
  rw [assemble_eq, instruction?, extended, getElem?_foldl_insert]
  exact Option.or_none

theorem mem_placed_of_statement? {l : Label} {s : PlacedStmt}
    (h : (assemble entry items).statement? l = some s) :
    s.label = l ∧ ∃ item ∈ items, s ∈ item.placed entry := by
  rw [statement?_assemble] at h
  have hmem := List.mem_of_find?_eq_some h
  rw [List.mem_reverse, List.mem_flatMap] at hmem
  have hlabel := List.find?_some h
  exact ⟨of_decide_eq_true hlabel, hmem⟩

theorem exists_statement?_of_mem_placed {item : Item} {s : PlacedStmt} (hitem : item ∈ items)
    (hs : s ∈ item.placed entry) : ((assemble entry items).statement? s.label).isSome = true := by
  rw [statement?_assemble, List.find?_isSome]
  refine ⟨s, ?_, decide_eq_true rfl⟩
  rw [List.mem_reverse]
  exact List.mem_flatMap.2 ⟨item, hitem, hs⟩

theorem isCode_eq_isSome (p : Program) (a : Word) : p.isCode a = (p.instruction? a).isSome := by
  rw [isCode, instruction?, Std.TreeMap.contains_eq_isSome_getElem?]

theorem isCode_assemble {a : Word} : (assemble entry items).isCode a = true ↔
    ∃ item ∈ items, ∃ r ∈ item.records, r.address = a := by
  rw [isCode_eq_isSome, instruction?_assemble, List.find?_isSome]
  simp only [List.mem_reverse, List.mem_flatMap, decide_eq_true_eq]
  exact ⟨fun ⟨r, ⟨item, hitem, hr⟩, ha⟩ => ⟨item, hitem, r, hr, ha⟩,
    fun ⟨item, hitem, r, hr, ha⟩ => ⟨r, ⟨item, hitem, hr⟩, ha⟩⟩

/-- Every statement stands at its own label. -/
def Placed (p : Program) : Prop :=
  ∀ l s, p.statement? l = some s → s.label = l

theorem placed_assemble (entry : Word) (items : List Item) : (assemble entry items).Placed :=
  fun _ _ h => (mem_placed_of_statement? h).1

/-- In an assembled program every statement belongs to an instruction on record. -/
theorem isCode_of_statement? {l : Label} {s : PlacedStmt}
    (h : (assemble entry items).statement? l = some s) :
    (assemble entry items).isCode l.address = true := by
  obtain ⟨rfl, item, hitem, hs⟩ := mem_placed_of_statement? h
  exact isCode_assemble.2 ⟨item, hitem, Item.exists_record_of_mem_placed hs⟩

theorem mem_codeAddresses {a : Word} : a ∈ p.codeAddresses ↔ p.isCode a = true := by
  rw [codeAddresses, Std.TreeMap.mem_keys, isCode, Std.TreeMap.contains_iff_mem]

end Program

end CodeReach
