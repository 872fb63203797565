/-
  CodeReach.Domain.ValueSet

  What is known about one word: nothing, or that it is one of at most sixteen
  constants.  The constants form an `OrdSet`, so two values are equal exactly when
  they allow the same words.  A union that grows past the bound forgets everything.
-/
import CodeReach.Data.OrdSet
import CodeReach.Word

namespace CodeReach

/-- The largest number of constants that is told apart. -/
def maxConstants : Nat := 16

/-- Either any word, or one of a small set of constants. -/
inductive ValueSet where
  /-- Any word is possible. -/
  | unknown
  /-- Exactly the members of the set are possible. -/
  | known (constants : OrdSet Word) (bounded : constants.size ≤ maxConstants)
deriving DecidableEq

namespace ValueSet

instance : Inhabited ValueSet :=
  ⟨unknown⟩

/-- One of the members of the set, if there are few enough of them. -/
def ofSet (s : OrdSet Word) : ValueSet :=
  if h : s.size ≤ maxConstants then .known s h else .unknown

/-- One of the words of the list, if there are few enough of them. -/
def ofList (ws : List Word) : ValueSet :=
  ofSet (OrdSet.ofList ws)

/-- Exactly `w`. -/
def const (w : Word) : ValueSet :=
  .known (OrdSet.singleton w) (by simp [OrdSet.size, OrdSet.singleton, maxConstants])

/-- The possible words in ascending order, if they are known. -/
def constants? : ValueSet → Option (List Word)
  | .unknown => none
  | .known s _ => some s.toList

/-- Whether the possible words are known. -/
def isKnown (v : ValueSet) : Bool :=
  v.constants?.isSome

/-- The word, if there is exactly one possibility. -/
def single? (v : ValueSet) : Option Word :=
  match v.constants? with
  | some [w] => some w
  | _ => none

/-- One more word becomes possible. -/
def insert (v : ValueSet) (w : Word) : ValueSet :=
  match v with
  | .unknown => .unknown
  | .known s _ => ofSet (s.insert w)

/-- The words of both values are possible. -/
def merge : ValueSet → ValueSet → ValueSet
  | .known s _, .known t _ => ofSet (s.insertAll t.toList)
  | _, _ => .unknown

/-- Whether every word that `v` allows is allowed by `w` too. -/
def le (v w : ValueSet) : Bool :=
  match v.constants?, w.constants? with
  | _, none => true
  | none, some _ => false
  | some xs, some ys => xs.all ys.contains

/-- The results of a function on the possible words. -/
def map (f : Word → Word) (v : ValueSet) : ValueSet :=
  match v.constants? with
  | some xs => ofList (xs.map f)
  | none => .unknown

/-- The results of a function on all pairs of possible words. -/
def combine (f : Word → Word → Word) (v w : ValueSet) : ValueSet :=
  match v.constants?, w.constants? with
  | some xs, some ys => ofList (xs.flatMap fun x => ys.map (f x))
  | _, _ => .unknown

/-- A star for an unknown value, a constant as it is, several or none in braces. -/
def text (v : ValueSet) : String :=
  match v.constants? with
  | none => "*"
  | some [w] => Word.hex w
  | some ws => "\x7b" ++ ", ".intercalate (ws.map Word.hex) ++ "\x7d"

end ValueSet

end CodeReach
