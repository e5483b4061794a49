import Piecework.Blank

/-!
# Runs of characters

A text falls into the longest runs of characters of one kind, with characters of another kind
between them. Which runs these are is said here by what stands around each of them, without
telling how they are found.
-/

namespace Piecework

/-- The longest runs of characters of a kind in a text, in order: each is preceded and followed by
characters of another kind, or by an end of the text. -/
inductive HasRuns (kind : Char → Bool) : List Char → List (List Char) → Prop where
  | none {cs : List Char} : (∀ c ∈ cs, kind c = false) → HasRuns kind cs []
  | cons {before run behind : List Char} {rs : List (List Char)} :
      (∀ c ∈ before, kind c = false) → run ≠ [] → (∀ c ∈ run, kind c = true) →
      (∀ c ∈ behind.head?, kind c = false) → HasRuns kind behind rs →
      HasRuns kind (before ++ run ++ behind) (run :: rs)

end Piecework
