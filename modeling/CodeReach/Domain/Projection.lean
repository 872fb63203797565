/-
  CodeReach.Domain.Projection

  Which values several expressions can take together in a state.  Every component
  that tracks registers gives a set of tuples, in which an open entry stands for any
  value; the opinions of all such components are intersected.
-/
import CodeReach.Domain.State
import CodeReach.Expr.Fold

namespace CodeReach

/-- One value for each expression of a list; an open entry stands for any value. -/
abbrev Valuation := List (Option Word)

instance : Std.TransOrd Valuation :=
  inferInstanceAs (Std.TransOrd (List (Option Word)))

instance : Std.LawfulEqOrd Valuation :=
  inferInstanceAs (Std.LawfulEqOrd (List (Option Word)))

namespace Valuation

/-- All ways to choose one entry from each list. -/
def product : List (List (Option Word)) → List Valuation
  | [] => [[]]
  | choices :: rest => choices.flatMap fun x => (product rest).map (x :: ·)

/-- Whether no entry is fixed to different values. -/
def compatible (a b : Valuation) : Bool :=
  (a.zip b).all fun (x, y) => x.isNone || y.isNone || x == y

/-- Entries that are open in `a` are taken from `b`. -/
def fill (a b : Valuation) : Valuation :=
  a.zipWith (fun x y => x <|> y) b

/-- The valuations that both sets allow. -/
def intersect (s t : OrdSet Valuation) : OrdSet Valuation :=
  OrdSet.ofList <| s.toList.flatMap fun a => (t.toList.filter (compatible a)).map (fill a)

end Valuation

namespace Registers

/-- The values of one expression; a single open entry if they are not known. -/
def candidates (s : Registers) (program : Program) (e : Expr) : List (Option Word) :=
  match s.eval (some program) e with
  | .ok v => (v.constants?.map (·.map some)).getD [none]
  | .error _ => [none]

/-- The values that the expressions can take, each taken on its own. -/
def projection (s : Registers) (program : Program) (es : List Expr) : OrdSet Valuation :=
  OrdSet.ofList (Valuation.product (es.map (s.candidates program)))

end Registers

namespace State

/-- The values that the expressions can take in the state, ascending.  Where no component tracks
    registers, only constant expressions have a value. -/
def projection (s : State) (program : Program) (es : List Expr) : List Valuation :=
  match (s.components.filterMap Component.values?).map (·.projection program es) with
  | [] => [es.map fun e => e.simplify.const?]
  | first :: rest => (rest.foldl Valuation.intersect first).toList

end State

end CodeReach
