/-
  RationalSpline.Binomial
  ───────────────────────
  BINOMIAL COEFFICIENTS WITH A MEMORY.

  A coefficient is the sum of its two neighbours in the row above.  The table
  remembers those it has computed, by row and by the nearer of the two places at
  which the symmetric row holds them.
-/
import RationalSpline.Scalar
import Std.Data.HashMap

namespace RationalSpline

/-- Coefficients known so far, by row and place. -/
structure BinomialTable (α : Type) where
  /-- What is remembered. -/
  known : Std.HashMap (Nat × Nat) α

namespace BinomialTable

variable {α : Type} [Scalar α]

/-- A table that remembers nothing. -/
def empty : BinomialTable α := ⟨∅⟩

/-- The coefficient at place `k` of row `n`, and the table that remembers it. -/
def get (table : BinomialTable α) : Nat → Nat → α × BinomialTable α
  | 0, k => (if k = 0 then 1 else 0, table)
  | n + 1, k =>
      if n + 1 < k then (0, table)
      else if k = 0 ∨ k = n + 1 then (1, table)
      else
        -- the row is symmetric
        let near := min k (n + 1 - k)
        match table.known[(n + 1, near)]? with
        | some value => (value, table)
        | none =>
            let (right, table) := get table n near
            let (left, table) := get table n (near - 1)
            (right + left, ⟨table.known.insert (n + 1, near) (right + left)⟩)

/-- Several coefficients in a row, all from one table. -/
def getAll (table : BinomialTable α) : List (Nat × Nat) → List α
  | [] => []
  | (n, k) :: rest =>
      let (value, table) := table.get n k
      value :: getAll table rest

end BinomialTable

/-- The binomial coefficient `n` over `k`. -/
def binomial {α : Type} [Scalar α] (n k : Nat) : α := (BinomialTable.empty.get n k).1

/-- The coefficients at the places `0, …, n` of row `n`, all from one table. -/
def binomialRow {α : Type} [Scalar α] (n : Nat) : List α :=
  BinomialTable.empty.getAll ((List.range (n + 1)).map fun k => (n, k))

end RationalSpline
