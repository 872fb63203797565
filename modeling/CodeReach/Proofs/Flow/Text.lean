/-
  CodeReach.Proofs.Flow.Text

  The texts of statements, locations and edges.  A statement starts with a keyword,
  which ends at the first digit or blank and tells the form of the statement, up to
  the two that write a register; the operands after it are read one after the other.
  So the text of a statement says everything about it but where an assumption came
  from, and the text of an edge says the same about the edge (`text_unambiguous`).
-/
import CodeReach.Flow.Edge
import CodeReach.Proofs.Expr.Text

namespace CodeReach

/-! ## Keywords -/

/-- The characters of keywords: neither digits nor blanks. -/
def WordChar (c : Char) : Prop :=
  c.isDigit = false ∧ c ≠ ' '

theorem GotoKind.verb_inj {a b : GotoKind} (h : a.verb = b.verb) : a = b := by
  revert h
  cases a <;> cases b <;> decide

theorem GotoKind.wordChar_of_mem_verb (a : GotoKind) : ∀ c ∈ a.verb.toList, WordChar c := by
  cases a <;> simp [verb, WordChar]

namespace Stmt

/-- The word that the text of a statement starts with. -/
def keyword : Stmt → String
  | .assign .. | .havoc _ => "r"
  | .store .. => "mem"
  | .assume .. => "assume"
  | .goto g => if g.condition = .imm 1 then g.kind.verb else "if"
  | .callReturn => "call-return"
  | .skip => "skip"
  | .halt => "halt"

/-- The text of a statement after its keyword. -/
def operandChars : Stmt → List Char
  | .assign r value => Nat.toDigits 10 r.toNat ++ ' ' :: (":= ".toList ++ value.chars [])
  | .havoc r => Nat.toDigits 10 r.toNat ++ ' ' :: (":= ".toList ++ "nondet".toList)
  | .store addr value width =>
    Nat.toDigits 10 (8 * width.toNat) ++
      '[' :: addr.chars (']' :: (" := ".toList ++ value.chars []))
  | .assume assumption _ => ' ' :: assumption.chars []
  | .goto g =>
    if g.condition = .imm 1 then ' ' :: g.target.chars []
    else ' ' :: g.condition.chars (' ' :: (g.kind.verb.toList ++ ' ' :: g.target.chars []))
  | .callReturn | .skip | .halt => []

theorem toList_text (s : Stmt) : s.text.toList = s.keyword.toList ++ s.operandChars := by
  cases s with
  | assign r value =>
      simp [text, keyword, operandChars, Reg.text, Nat.repr_eq_ofList_toDigits,
        ← Expr.toList_text_append]
  | havoc r => simp [text, keyword, operandChars, Reg.text, Nat.repr_eq_ofList_toDigits]
  | store addr value width =>
      simp [text, keyword, operandChars, Expr.bitsText, Nat.repr_eq_ofList_toDigits,
        ← Expr.toList_text_append]
  | assume assumption origin => simp [text, keyword, operandChars, ← Expr.toList_text_append]
  | goto g =>
      rw [text, Goto.text, keyword, operandChars]
      by_cases hc : g.condition = .imm 1
      · rw [if_pos hc, if_pos hc, if_pos hc]
        simp [← Expr.toList_text_append]
      · rw [if_neg hc, if_neg hc, if_neg hc]
        simp [← Expr.toList_text_append]
  | callReturn => rfl
  | skip => rfl
  | halt => rfl

/-- A number for each form of statements.  Both forms that write a register have the same. -/
def form : Stmt → Nat
  | .assign .. | .havoc _ => 0
  | .store .. => 1
  | .assume .. => 2
  | .goto _ => 3
  | .callReturn => 4
  | .skip => 5
  | .halt => 6

/-- The form of the statements with a keyword. -/
def formOf (word : String) : Nat :=
  if word = "r" then 0
  else if word = "mem" then 1
  else if word = "assume" then 2
  else if word = "call-return" then 4
  else if word = "skip" then 5
  else if word = "halt" then 6
  else 3

theorem formOf_keyword (s : Stmt) : formOf s.keyword = s.form := by
  cases s with
  | goto g =>
      rw [keyword]
      split
      · cases g.kind <;> rfl
      · rfl
  | _ => rfl

theorem wordChar_of_mem_keyword (s : Stmt) : ∀ c ∈ s.keyword.toList, WordChar c := by
  cases s with
  | goto g =>
      rw [keyword]
      split
      · exact g.kind.wordChar_of_mem_verb
      · simp [WordChar]
  | _ => simp [keyword, WordChar]

/-- A number starts with a digit. -/
theorem not_wordChar_of_head_toDigits (n : Nat) (k : List Char) :
    ∀ c ∈ (Nat.toDigits 10 n ++ k).head?, ¬ WordChar c := by
  intro c hc hword
  have hmem : c ∈ Nat.toDigits 10 n := by
    cases hdigits : Nat.toDigits 10 n with
    | nil => exact absurd hdigits Nat.toDigits_ne_nil
    | cons d ds =>
        rw [hdigits] at hc
        rw [← Option.some.inj hc]
        exact List.mem_cons_self
  have hdigit := Nat.isDigit_of_mem_toDigits (by decide) (Nat.le_refl 10) hmem
  rw [hword.1] at hdigit
  exact absurd hdigit (by decide)

/-- The keyword ends where the operands start. -/
theorem not_wordChar_of_head_operandChars (s : Stmt) :
    ∀ c ∈ s.operandChars.head?, ¬ WordChar c := by
  have hblank : ∀ k : List Char, ∀ c ∈ (' ' :: k).head?, ¬ WordChar c := fun k c hc hword =>
    hword.2 (Option.some.inj hc).symm
  cases s with
  | assign r value => exact not_wordChar_of_head_toDigits _ _
  | havoc r => exact not_wordChar_of_head_toDigits _ _
  | store addr value width => exact not_wordChar_of_head_toDigits _ _
  | assume assumption origin => exact hblank _
  | goto g =>
      rw [operandChars]
      split
      · exact hblank _
      · exact hblank _
  | _ => exact fun c hc => absurd hc (by simp [operandChars])

/-- Statements with the same text have the same keyword and the same operands. -/
theorem keyword_operands_of_text {s t : Stmt} (h : s.text = t.text) :
    s.keyword = t.keyword ∧ s.operandChars = t.operandChars := by
  have hchars : s.keyword.toList ++ s.operandChars = t.keyword.toList ++ t.operandChars := by
    rw [← toList_text, ← toList_text, h]
  obtain ⟨hword, hrest⟩ := append_inj_of_kind s.wordChar_of_mem_keyword t.wordChar_of_mem_keyword
    s.not_wordChar_of_head_operandChars t.not_wordChar_of_head_operandChars hchars
  exact ⟨String.toList_inj.1 hword, hrest⟩

theorem form_eq_of_keyword {s t : Stmt} (h : s.keyword = t.keyword) : s.form = t.form := by
  rw [← formOf_keyword s, h, formOf_keyword]

/-! ## Operands -/

/-- A register that is written, and what is written to it. -/
theorem register_inj {r q : Reg} {k m : List Char}
    (h : Nat.toDigits 10 r.toNat ++ ' ' :: (":= ".toList ++ k) =
      Nat.toDigits 10 q.toNat ++ ' ' :: (":= ".toList ++ m)) : r = q ∧ k = m := by
  obtain ⟨hr, hrest⟩ := toDigits_append_inj (by decide) (by decide) (ends_cons (by decide) _)
    (ends_cons (by decide) _) h
  exact ⟨BitVec.eq_of_toNat_eq hr, List.append_cancel_left (List.cons.inj hrest).2⟩

/-- No expression is written like an arbitrary value. -/
theorem chars_ne_nondet (e : Expr) : e.chars [] ≠ "nondet".toList := by
  cases e with
  | unary op e => cases op <;> simp [Expr.chars, UnaryOp.char]
  | _ => simp [Expr.chars]

theorem store_inj {addr addr' value value' : Expr} {width width' : Byte}
    (h : (store addr value width).operandChars = (store addr' value' width').operandChars) :
    store addr value width = store addr' value' width' := by
  obtain ⟨hwidth, hbracket⟩ := toDigits_append_inj (by decide) (by decide)
    (ends_cons (by decide) _) (ends_cons (by decide) _) h
  obtain ⟨rfl, hrest⟩ := Expr.chars_inj (ends_cons (by decide) _) (ends_cons (by decide) _)
    (List.cons.inj hbracket).2
  obtain ⟨rfl, -⟩ := Expr.chars_inj ends_nil ends_nil
    (List.append_cancel_left (List.cons.inj hrest).2)
  have : width = width' := BitVec.eq_of_toNat_eq (by omega)
  rw [this]

/-- Transfers of control: the keyword tells whether there is a condition. -/
theorem goto_inj {g j : Goto} (hword : (goto g).keyword = (goto j).keyword)
    (h : (goto g).operandChars = (goto j).operandChars) : g = j := by
  obtain ⟨kind, condition, target⟩ := g
  obtain ⟨kind', condition', target'⟩ := j
  have hif : ∀ a : GotoKind, a.verb ≠ "if" := fun a => by cases a <;> decide
  simp only [keyword, operandChars] at hword h
  -- Without a condition the keyword is the verb itself, and no verb is `if`.
  by_cases hc : condition = .imm 1
  · rw [if_pos hc] at hword h
    by_cases hc' : condition' = .imm 1
    · rw [if_pos hc'] at hword h
      obtain ⟨rfl, -⟩ := Expr.chars_inj ends_nil ends_nil (List.cons.inj h).2
      rw [hc, hc', GotoKind.verb_inj hword]
    · rw [if_neg hc'] at hword
      exact absurd hword (hif kind)
  · rw [if_neg hc] at hword h
    by_cases hc' : condition' = .imm 1
    · rw [if_pos hc'] at hword
      exact absurd hword.symm (hif kind')
    · rw [if_neg hc'] at h
      obtain ⟨rfl, hverb⟩ := Expr.chars_inj (ends_cons (by decide) _) (ends_cons (by decide) _)
        (List.cons.inj h).2
      obtain ⟨hkind, htarget⟩ := append_blank_inj (fun c hc => (kind.wordChar_of_mem_verb c hc).2)
        (fun c hc => (kind'.wordChar_of_mem_verb c hc).2) (List.cons.inj hverb).2
      obtain ⟨rfl, -⟩ := Expr.chars_inj ends_nil ends_nil htarget
      rw [GotoKind.verb_inj (String.toList_inj.1 hkind)]

/-- The statement without the origin of an assumption. -/
def withoutOrigin : Stmt → Stmt
  | .assume assumption _ => .assume assumption none
  | s => s

theorem text_withoutOrigin (s : Stmt) : s.withoutOrigin.text = s.text := by
  cases s <;> rfl

theorem eq_of_keyword_operands {s t : Stmt} (hword : s.keyword = t.keyword)
    (h : s.operandChars = t.operandChars) : s.withoutOrigin = t.withoutOrigin := by
  have hform := form_eq_of_keyword hword
  -- Keywords leave the two statements that write a register together; the value parts them.
  cases s with
  | assign r value =>
      cases t with
      | assign q value' =>
          obtain ⟨rfl, hvalue⟩ := register_inj h
          obtain ⟨rfl, -⟩ := Expr.chars_inj ends_nil ends_nil hvalue
          rfl
      | havoc q => exact absurd (register_inj h).2 (chars_ne_nondet value)
      | _ => exact absurd hform (by simp [form])
  | havoc r =>
      cases t with
      | assign q value => exact absurd (register_inj h).2.symm (chars_ne_nondet value)
      | havoc q => rw [(register_inj h).1]
      | _ => exact absurd hform (by simp [form])
  | store addr value width =>
      cases t with
      | store addr' value' width' => rw [store_inj h]
      | _ => exact absurd hform (by simp [form])
  | assume assumption origin =>
      cases t with
      | assume assumption' origin' =>
          obtain ⟨rfl, -⟩ := Expr.chars_inj ends_nil ends_nil (List.cons.inj h).2
          rfl
      | _ => exact absurd hform (by simp [form])
  | goto g =>
      cases t with
      | goto j => rw [goto_inj hword h]
      | _ => exact absurd hform (by simp [form])
  | callReturn =>
      cases t with
      | callReturn => rfl
      | _ => exact absurd hform (by simp [form])
  | skip =>
      cases t with
      | skip => rfl
      | _ => exact absurd hform (by simp [form])
  | halt =>
      cases t with
      | halt => rfl
      | _ => exact absurd hform (by simp [form])

/-- The text of a statement says everything but the origin of an assumption. -/
theorem text_inj {s t : Stmt} : s.text = t.text ↔ s.withoutOrigin = t.withoutOrigin := by
  constructor
  · intro h
    obtain ⟨hword, hrest⟩ := keyword_operands_of_text h
    exact eq_of_keyword_operands hword hrest
  · intro h
    rw [← text_withoutOrigin s, h, text_withoutOrigin]

end Stmt

/-! ## Edges -/

/-- The text of a label, followed by `k`. -/
def Label.chars (l : Label) (k : List Char) : List Char :=
  '0' :: 'x' :: (Nat.toDigits 16 l.address.toNat ++ ':' :: (Nat.toDigits 10 l.index.toNat ++ k))

theorem Label.toList_text_append (l : Label) (k : List Char) :
    l.text.toList ++ k = l.chars k := by
  simp [text, chars, Word.hex, Nat.repr_eq_ofList_toDigits]

theorem Label.chars_inj {l n : Label} {k m : List Char} (hk : Ends k) (hm : Ends m)
    (h : l.chars k = n.chars m) : l = n ∧ k = m := by
  obtain ⟨address, index⟩ := l
  obtain ⟨address', index'⟩ := n
  obtain ⟨haddress, hcolon⟩ := toDigits_append_inj (by decide) (by decide)
    (ends_cons (by decide) _) (ends_cons (by decide) _) (List.cons.inj (List.cons.inj h).2).2
  obtain ⟨hindex, hrest⟩ :=
    toDigits_append_inj (by decide) (by decide) hk hm (List.cons.inj hcolon).2
  have haddress : address = address' := BitVec.eq_of_toNat_eq haddress
  have hindex : index = index' := BitVec.eq_of_toNat_eq hindex
  exact ⟨by rw [haddress, hindex], hrest⟩

namespace Location

/-- The text of a location, followed by `k`. -/
def chars : Location → List Char → List Char
  | .plain l, k => l.chars k
  | .split l v, k => l.chars ('@' :: '0' :: 'x' :: (Nat.toDigits 16 v.toNat ++ k))

theorem toList_text_append (l : Location) (k : List Char) : l.text.toList ++ k = l.chars k := by
  cases l with
  | plain l => exact l.toList_text_append k
  | split l v => simp [text, chars, Word.hex, ← Label.toList_text_append]

/-- A location ends at the blank after it, which also tells a plain one from a split one. -/
theorem chars_blank_inj {a b : Location} {k m : List Char}
    (h : a.chars (' ' :: k) = b.chars (' ' :: m)) : a = b ∧ k = m := by
  cases a with
  | plain l =>
      cases b with
      | plain n =>
          obtain ⟨rfl, hrest⟩ :=
            Label.chars_inj (ends_cons (by decide) _) (ends_cons (by decide) _) h
          exact ⟨rfl, (List.cons.inj hrest).2⟩
      | split n w =>
          obtain ⟨-, hrest⟩ :=
            Label.chars_inj (ends_cons (by decide) _) (ends_cons (by decide) _) h
          exact absurd (List.cons.inj hrest).1 (by decide)
  | split l v =>
      cases b with
      | plain n =>
          obtain ⟨-, hrest⟩ :=
            Label.chars_inj (ends_cons (by decide) _) (ends_cons (by decide) _) h
          exact absurd (List.cons.inj hrest).1 (by decide)
      | split n w =>
          obtain ⟨rfl, hvpc⟩ :=
            Label.chars_inj (ends_cons (by decide) _) (ends_cons (by decide) _) h
          obtain ⟨hv, hrest⟩ := toDigits_append_inj (by decide) (by decide)
            (ends_cons (by decide) _) (ends_cons (by decide) _)
            (List.cons.inj (List.cons.inj (List.cons.inj hvpc).2).2).2
          exact ⟨congrArg (split l) (BitVec.eq_of_toNat_eq hv), (List.cons.inj hrest).2⟩

end Location

/-- The first character of the arrow between two locations. -/
def EdgeKind.mark : EdgeKind → Char
  | .must => '-'
  | .may => '~'

theorem EdgeKind.mark_inj {a b : EdgeKind} (h : a.mark = b.mark) : a = b := by
  revert h
  cases a <;> cases b <;> decide

namespace Edge

/-- The edge without the origin of the assumption it executes. -/
def withoutOrigin (e : Edge) : Edge :=
  { e with stmt := e.stmt.withoutOrigin }

theorem toList_text (e : Edge) : e.text.toList =
    e.source.chars (' ' :: e.kind.mark :: '>' :: ' ' ::
      e.target.chars (' ' :: '[' :: (e.stmt.text.toList ++ [']']))) := by
  simp only [text, ← Location.toList_text_append]
  cases e.kind <;> simp [EdgeKind.mark]

/-- The text of an edge says everything but the origin of the assumption it executes. -/
theorem text_inj {e f : Edge} : e.text = f.text ↔ e.withoutOrigin = f.withoutOrigin := by
  constructor
  · intro h
    have hchars := congrArg String.toList h
    rw [toList_text, toList_text] at hchars
    -- Neither location has a blank in it; the statement is all that stands between the brackets.
    obtain ⟨hsource, harrow⟩ := Location.chars_blank_inj hchars
    obtain ⟨hmark, hrest⟩ := List.cons.inj harrow
    obtain ⟨htarget, hbracket⟩ :=
      Location.chars_blank_inj (List.cons.inj (List.cons.inj hrest).2).2
    have hstmt := List.append_cancel_right (List.cons.inj hbracket).2
    rw [withoutOrigin, withoutOrigin, hsource, htarget, EdgeKind.mark_inj hmark,
      Stmt.text_inj.1 (String.toList_inj.1 hstmt)]
  · intro h
    obtain ⟨hsource, htarget, hstmt, hkind⟩ := mk.inj h
    rw [text, text, hsource, htarget, hkind, Stmt.text_inj.2 hstmt]

end Edge

/-- Texts are unambiguous: an expression is determined by its text, and statements and edges are
    determined by theirs up to the origin of an assumption, which is not written. -/
theorem Stmt.text_unambiguous :
    (∀ s t : Stmt, s.text = t.text ↔ s.withoutOrigin = t.withoutOrigin) ∧
      (∀ e f : Expr, e.text = f.text ↔ e = f) ∧
      ∀ e f : Edge, e.text = f.text ↔ e.withoutOrigin = f.withoutOrigin :=
  ⟨fun _ _ => text_inj, fun _ _ => Expr.text_inj, fun _ _ => Edge.text_inj⟩

end CodeReach
