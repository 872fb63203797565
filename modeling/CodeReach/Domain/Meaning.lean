/-
  CodeReach.Domain.Meaning

  What abstract states stand for: the words a value set allows, the register files a
  description of the registers admits, and those that every component of a state
  admits.
-/
import CodeReach.Domain.State
import CodeReach.Machine.Value

namespace CodeReach

/-- The word is one of those the value can be. -/
def ValueSet.Allows (v : ValueSet) (w : Word) : Prop :=
  match v with
  | .unknown => True
  | .known s _ => w ∈ s.toList

instance (v : ValueSet) (w : Word) : Decidable (v.Allows w) :=
  match v with
  | .unknown => isTrue trivial
  | .known s _ => inferInstanceAs (Decidable (w ∈ s.toList))

/-- Every register holds one of the words that are possible for it. -/
def Registers.Describes (s : Registers) (ρ : RegFile) : Prop :=
  ∀ r, (s.get r).Allows (ρ r)

/-- Every component that tracks registers describes the register file. -/
def State.Describes (s : State) (ρ : RegFile) : Prop :=
  ∀ v, Component.values v ∈ s.components → v.Describes ρ

end CodeReach
