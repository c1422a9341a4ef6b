import Mathlib.Algebra.Order.Ring.Nat
import EndlessFS.Lib.Result
import EndlessFS.Domain.Head

/-!
# EndlessFS.Projection.Merge

How sorted runs are merged (`portable/namespace_projection.go`): a bounded number at a time, until one is left.

* `mergeNamespaceProjectionRuns`: one merge, which refuses a key that comes twice.
* `mergeRounds`: all of them.
-/

namespace EndlessFS

variable {V : Type}

/-! ## Ranges of keys -/

/-- `strings.HasPrefix`. -/
def hasPrefix (text start : String) : Bool := start.toList.isPrefixOf text.toList

/-- The keys of a range: those that begin with `start` and come after `after`. -/
def inRange (start after key : String) : Bool := after < key && hasPrefix key start

/-! ## Runs -/

/-- `namespaceProjectionMergeFanIn`. -/
def namespaceProjectionMergeFanIn : Nat := 32

def popLeast : List (List (String × V)) → Option ((String × V) × List (List (String × V)))
  | [] => none
  | [] :: runs => popLeast runs
  | (entry :: run) :: runs =>
    match popLeast runs with
    | none => some (entry, [run])
    | some (other, rest) =>
      if entry.1 ≤ other.1 then some (entry, run :: runs) else some (other, (entry :: run) :: rest)

/-- The loop of `mergeNamespaceProjectionRuns`, which pops as many entries as there are. -/
def mergeLoop : Nat → String → List (List (String × V)) → Except Error (List (String × V))
  | 0, _, _ => .ok []
  | pops + 1, previous, runs =>
    match popLeast runs with
    | none => .ok []
    | some (entry, rest) => do
      rejectIf (previous ≠ "" && entry.1 ≤ previous)
        (newError .invalid "duplicate namespace projection ordering key")
      let merged ← mergeLoop pops entry.1 rest
      pure (entry :: merged)

/-- `mergeNamespaceProjectionRuns`. -/
def mergeNamespaceProjectionRuns (runs : List (List (String × V))) : Except Error (List (String × V)) :=
  mergeLoop (runs.map List.length).sum "" runs

/-- The slices of a list, `size` entries each. -/
def slices {α : Type} (size : Nat) : Nat → List α → List (List α)
  | 0, _ => []
  | _ + 1, [] => []
  | bound + 1, x :: xs => (x :: xs).take size :: slices size bound ((x :: xs).drop size)

def mergeRounds : Nat → List (List (String × V)) → Except Error (List (String × V))
  | _, [] => .ok []
  | _, [run] => .ok run
  | 0, _ => .ok []
  | rounds + 1, runs => do
    let next ← (slices namespaceProjectionMergeFanIn runs.length runs).mapM mergeNamespaceProjectionRuns
    mergeRounds rounds next

end EndlessFS
