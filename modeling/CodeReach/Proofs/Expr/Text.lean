/-
  CodeReach.Proofs.Expr.Text

  The text of an expression can be read in one way only.  Texts are taken as lists of
  characters, each followed by the rest of what is written (`Expr.chars`).  Numbers end
  where no further digit comes; from there on everything is told apart by its first
  character, by the blanks around an operator and by closing brackets.  So two
  expressions that are followed by something other than a digit are the same if what
  is written is the same, and then the rests are the same as well (`chars_inj`).
-/
import CodeReach.Expr.Basic
import Mathlib.Data.List.Basic

namespace CodeReach

/-! ## Numbers -/

/-- Two stretches of characters of one kind, each followed by a character of another kind or by
    nothing, are told apart. -/
theorem append_inj_of_kind {P : Char → Prop} {xs ys k m : List Char} (hx : ∀ c ∈ xs, P c)
    (hy : ∀ c ∈ ys, P c) (hk : ∀ c ∈ k.head?, ¬ P c) (hm : ∀ c ∈ m.head?, ¬ P c)
    (h : xs ++ k = ys ++ m) : xs = ys ∧ k = m := by
  induction xs generalizing ys with
  | nil =>
      cases ys with
      | nil => exact ⟨rfl, h⟩
      | cons y ys =>
          have hhead : y ∈ k.head? := by rw [show k = y :: (ys ++ m) from h]; rfl
          exact absurd (hy y List.mem_cons_self) (hk y hhead)
  | cons x xs ih =>
      cases ys with
      | nil =>
          have hhead : x ∈ m.head? := by rw [← show x :: (xs ++ k) = m from h]; rfl
          exact absurd (hx x List.mem_cons_self) (hm x hhead)
      | cons y ys =>
          obtain ⟨rfl, htail⟩ := List.cons.inj h
          obtain ⟨rfl, hrest⟩ := ih (fun c hc => hx c (List.mem_cons_of_mem _ hc))
            (fun c hc => hy c (List.mem_cons_of_mem _ hc)) htail
          exact ⟨rfl, hrest⟩

/-- A word without blanks ends at the blank after it. -/
theorem append_blank_inj {xs ys k m : List Char} (hx : ∀ c ∈ xs, c ≠ ' ') (hy : ∀ c ∈ ys, c ≠ ' ')
    (h : xs ++ ' ' :: k = ys ++ ' ' :: m) : xs = ys ∧ k = m := by
  have hblank : ∀ k : List Char, ∀ c ∈ (' ' :: k).head?, ¬ c ≠ ' ' := fun k c hc =>
    not_not.2 (Option.some.inj hc).symm
  obtain ⟨hword, hrest⟩ := append_inj_of_kind hx hy (hblank k) (hblank m) h
  exact ⟨hword, (List.cons.inj hrest).2⟩

/-- The digits of hexadecimal numbers, and of decimal ones among them. -/
def hexDigits : List Char :=
  "0123456789abcdef".toList

theorem digitChar_mem : ∀ d < 16, Nat.digitChar d ∈ hexDigits := by decide

theorem digitChar_inj : ∀ d < 16, ∀ e < 16, Nat.digitChar d = Nat.digitChar e → d = e := by decide

theorem singleton_ne_concat {c d : Char} {front : List Char} (h : front ≠ []) :
    [c] ≠ front ++ [d] := by
  cases front with
  | nil => exact absurd rfl h
  | cons x xs => simp

section Digits

variable {b : Nat} (hb : 1 < b) (hb16 : b ≤ 16)
include hb hb16

theorem mem_hexDigits_of_mem_toDigits (n : Nat) : ∀ c ∈ Nat.toDigits b n, c ∈ hexDigits := by
  induction n using Nat.strongRecOn with
  | ind n ih =>
      rcases Nat.lt_or_ge n b with hn | hn
      · rw [Nat.toDigits_of_lt_base hn]
        simpa using digitChar_mem n (by omega)
      · have hlast : n % b < 16 := Nat.lt_of_lt_of_le (Nat.mod_lt n (by omega)) hb16
        rw [Nat.toDigits_of_base_le hb hn]
        simp only [List.mem_append, List.mem_singleton]
        rintro c (hc | rfl)
        · exact ih (n / b) (Nat.div_lt_self (by omega) hb) c hc
        · exact digitChar_mem (n % b) hlast

theorem toDigits_inj {n m : Nat} (h : Nat.toDigits b n = Nat.toDigits b m) : n = m := by
  induction n using Nat.strongRecOn generalizing m with
  | ind n ih =>
      -- The last digit is the remainder, and the digits before it are those of the quotient.
      have hdigit : ∀ i, i % b < 16 := fun i =>
        Nat.lt_of_lt_of_le (Nat.mod_lt i (by omega)) hb16
      rcases Nat.lt_or_ge n b with hn | hn <;> rcases Nat.lt_or_ge m b with hm | hm
      · rw [Nat.toDigits_of_lt_base hn, Nat.toDigits_of_lt_base hm] at h
        exact digitChar_inj n (by omega) m (by omega) (List.cons.inj h).1
      · rw [Nat.toDigits_of_lt_base hn, Nat.toDigits_of_base_le hb hm] at h
        exact absurd h (singleton_ne_concat Nat.toDigits_ne_nil)
      · rw [Nat.toDigits_of_base_le hb hn, Nat.toDigits_of_lt_base hm] at h
        exact absurd h.symm (singleton_ne_concat Nat.toDigits_ne_nil)
      · rw [Nat.toDigits_of_base_le hb hn, Nat.toDigits_of_base_le hb hm] at h
        obtain ⟨hfront, hlast⟩ := List.append_inj' h rfl
        have hdiv : n / b = m / b := ih (n / b) (Nat.div_lt_self (by omega) hb) hfront
        have hmod : n % b = m % b :=
          digitChar_inj _ (hdigit n) _ (hdigit m) (List.cons.inj hlast).1
        rw [← Nat.div_add_mod n b, ← Nat.div_add_mod m b, hdiv, hmod]

end Digits

/-- The text `k` does not go on with a digit. -/
def Ends (k : List Char) : Prop :=
  ∀ c ∈ k.head?, c ∉ hexDigits

theorem ends_nil : Ends [] :=
  fun _ h => absurd h (by simp)

theorem ends_cons {c : Char} (h : c ∉ hexDigits) (k : List Char) : Ends (c :: k) := by
  intro d hd
  rwa [← Option.some.inj hd]

/-- A number ends where no further digit comes. -/
theorem toDigits_append_inj {b n i : Nat} {k m : List Char} (hb : 1 < b) (hb16 : b ≤ 16)
    (hk : Ends k) (hm : Ends m) (h : Nat.toDigits b n ++ k = Nat.toDigits b i ++ m) :
    n = i ∧ k = m := by
  obtain ⟨hdigits, hrest⟩ := append_inj_of_kind (mem_hexDigits_of_mem_toDigits hb hb16 n)
    (mem_hexDigits_of_mem_toDigits hb hb16 i) hk hm h
  exact ⟨toDigits_inj hb hb16 hdigits, hrest⟩

/-! ## Operators -/

/-- The operator as one character. -/
def UnaryOp.char : UnaryOp → Char
  | .not => '~'
  | .neg => '-'
  | .logicalNot => '!'

theorem UnaryOp.toList_symbol (op : UnaryOp) : op.symbol.toList = [op.char] := by
  cases op <;> rfl

theorem UnaryOp.char_inj {op q : UnaryOp} (h : op.char = q.char) : op = q := by
  revert h
  cases op <;> cases q <;> decide

namespace BinaryOp

theorem ne_blank_of_mem_symbol (op : BinaryOp) : ∀ c ∈ op.symbol.toList, c ≠ ' ' := by
  cases op <;> simp [symbol]

theorem symbol_inj {op q : BinaryOp} (h : op.symbol = q.symbol) : op = q := by
  revert h
  cases op <;> cases q <;> decide

/-- An operator ends at the blank after it. -/
theorem symbol_append_inj {op q : BinaryOp} {k m : List Char}
    (h : op.symbol.toList ++ ' ' :: k = q.symbol.toList ++ ' ' :: m) : op = q ∧ k = m := by
  obtain ⟨hsymbol, hrest⟩ :=
    append_blank_inj op.ne_blank_of_mem_symbol q.ne_blank_of_mem_symbol h
  exact ⟨symbol_inj (String.toList_inj.1 hsymbol), hrest⟩

end BinaryOp

/-! ## Expressions -/

namespace Expr

/-- The text of an expression, followed by `k`. -/
def chars : Expr → List Char → List Char
  | .imm w, k => '0' :: 'x' :: (Nat.toDigits 16 w.toNat ++ k)
  | .reg r, k => 'r' :: (Nat.toDigits 10 r.toNat ++ k)
  | .mem addr width, k =>
    'm' :: 'e' :: 'm' :: (Nat.toDigits 10 (8 * width.toNat) ++ '[' :: addr.chars (']' :: k))
  | .unary op e, k => op.char :: e.chars k
  | .binary op l r, k =>
    '(' :: l.chars (' ' :: (op.symbol.toList ++ ' ' :: r.chars (')' :: k)))

theorem toList_text_append (e : Expr) (k : List Char) : e.text.toList ++ k = e.chars k := by
  induction e generalizing k with
  | imm w => simp [text, chars, Word.hex]
  | reg r => simp [text, chars, Reg.text, Nat.repr_eq_ofList_toDigits]
  | mem addr width ih => simp [text, chars, bitsText, Nat.repr_eq_ofList_toDigits, ← ih]
  | unary op e ih => simp [text, chars, UnaryOp.toList_symbol, ← ih]
  | binary op l r ihl ihr => simp [text, chars, ← ihl, ← ihr]

/-- A number for each form of expressions. -/
def form : Expr → Nat
  | .imm _ => 0
  | .reg _ => 1
  | .mem .. => 2
  | .binary .. => 3
  | .unary .. => 4

/-- The form of the expression that a text starts with, by its first character. -/
def formOf : List Char → Nat
  | '0' :: _ => 0
  | 'r' :: _ => 1
  | 'm' :: _ => 2
  | '(' :: _ => 3
  | _ => 4

theorem formOf_chars (e : Expr) (k : List Char) : formOf (e.chars k) = e.form := by
  cases e with
  | unary op e => cases op <;> rfl
  | _ => rfl

theorem form_eq_of_chars {e f : Expr} {k m : List Char} (h : e.chars k = f.chars m) :
    e.form = f.form := by
  rw [← formOf_chars e k, h, formOf_chars]

/-- What is written starts with one expression only, as long as no digit follows on it. -/
theorem chars_inj {e f : Expr} {k m : List Char} (hk : Ends k) (hm : Ends m)
    (h : e.chars k = f.chars m) : e = f ∧ k = m := by
  -- The rests have to vary: an operand is followed by what its operator writes after it.
  induction e generalizing f k m with
  | imm w =>
      cases f with
      | imm v =>
          have hdigits := (List.cons.inj (List.cons.inj h).2).2
          obtain ⟨hw, hrest⟩ := toDigits_append_inj (by decide) (by decide) hk hm hdigits
          exact ⟨congrArg imm (BitVec.eq_of_toNat_eq hw), hrest⟩
      | _ => exact absurd (form_eq_of_chars h) (by simp [form])
  | reg r =>
      cases f with
      | reg q =>
          obtain ⟨hr, hrest⟩ :=
            toDigits_append_inj (by decide) (by decide) hk hm (List.cons.inj h).2
          exact ⟨congrArg reg (BitVec.eq_of_toNat_eq hr), hrest⟩
      | _ => exact absurd (form_eq_of_chars h) (by simp [form])
  | mem addr width ih =>
      cases f with
      | mem addr' width' =>
          have hdigits := (List.cons.inj (List.cons.inj (List.cons.inj h).2).2).2
          obtain ⟨hwidth, hbracket⟩ := toDigits_append_inj (by decide) (by decide)
            (ends_cons (by decide) _) (ends_cons (by decide) _) hdigits
          obtain ⟨rfl, hclose⟩ := ih (ends_cons (by decide) _) (ends_cons (by decide) _)
            (List.cons.inj hbracket).2
          have : width = width' := BitVec.eq_of_toNat_eq (by omega)
          exact ⟨congrArg (mem addr) this, (List.cons.inj hclose).2⟩
      | _ => exact absurd (form_eq_of_chars h) (by simp [form])
  | unary op e ih =>
      cases f with
      | unary q f =>
          obtain ⟨hop, hoperand⟩ := List.cons.inj h
          obtain ⟨rfl, hrest⟩ := ih hk hm hoperand
          exact ⟨congrArg (unary · e) (UnaryOp.char_inj hop), hrest⟩
      | _ => exact absurd (form_eq_of_chars h) (by simp [form])
  | binary op l r ihl ihr =>
      cases f with
      | binary q l' r' =>
          obtain ⟨rfl, hblank⟩ := ihl (ends_cons (by decide) _) (ends_cons (by decide) _)
            (List.cons.inj h).2
          obtain ⟨rfl, hright⟩ := BinaryOp.symbol_append_inj (List.cons.inj hblank).2
          obtain ⟨rfl, hclose⟩ := ihr (ends_cons (by decide) _) (ends_cons (by decide) _) hright
          exact ⟨rfl, (List.cons.inj hclose).2⟩
      | _ => exact absurd (form_eq_of_chars h) (by simp [form])

/-- Expressions with the same text are the same. -/
theorem text_inj {e f : Expr} : e.text = f.text ↔ e = f := by
  constructor
  · intro h
    refine (chars_inj ends_nil ends_nil ?_).1
    rw [← toList_text_append, ← toList_text_append, h]
  · exact congrArg text

end Expr

end CodeReach
