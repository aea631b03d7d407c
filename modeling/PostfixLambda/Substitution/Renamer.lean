import PostfixLambda.Domain

/-! Renamers choose another name for a binder that would otherwise capture a variable. What a renamer asks is kept,
    so that a run can be compared by the questions it put. -/

namespace PostfixLambda

/-- A renamer's answer: the names it tried, in order, and the one it chose, or the message it broke down with. -/
structure Renaming (S : Type) where
  tried : List S
  chosen : Except Bytes S

/-- A renamer chooses a name derived from the binder, given the names that are taken. -/
abbrev Renamer (S : Type) := (binder : S) → (taken : List S) → Renaming S

/-- One call of a renamer: the binder, and the names it tried with whether each was taken. -/
structure Call (S : Type) where
  binder : S
  tried : List (S × Bool)
  deriving DecidableEq, Repr

namespace Renamer

variable {S : Type} [DecidableEq S]

/-- The names tried from `s` on, each derived from the one before, up to the first that is not taken; at most
    `fuel` of them are tried. -/
def untilFree (next : S → S) (taken : List S) : (fuel : Nat) → (s : S) → List S × S
  | 0, s => ([], s)
  | fuel + 1, s =>
    if s ∈ taken then
      let (tried, chosen) := untilFree next taken fuel (next s)
      (s :: tried, chosen)
    else ([s], s)

/-- The renamer that derives names one from the other, starting after the binder, until one is not taken. As many
    tries as there are taken names and one more are enough, if no name comes twice. -/
def search (next : S → S) : Renamer S := fun binder taken =>
  let (tried, chosen) := untilFree next taken (taken.length + 1) (next binder)
  ⟨tried, .ok chosen⟩

/-- Appends a prime. -/
def prime (s : Bytes) : Bytes := s ++ [0x27]

/-- The renamer that appends primes to the binder. -/
def primes : Renamer Bytes := search prime

end Renamer

end PostfixLambda
