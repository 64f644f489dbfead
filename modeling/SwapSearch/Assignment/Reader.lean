import SwapSearch.Assignment
import SwapSearch.Text.Words
import SwapSearch.Text.Numeral

/-!
# SwapSearch — reading assignment instances

Two layouts are read.

* `ofText` — one instance: its size, then the flow matrix, then the distance
  matrix, as words separated by blanks in any way.
* `listOfText` — several instances that share their distances: a header line, the
  distance matrix, then one or more flow matrices, a row a line. Blank lines do
  not count, and the size is the width of the first row.

A text that is neither is rejected with the first reason that applies. The number
of entries an instance needs is computed in machine words, so a size token beyond
their reach is a breach.
-/

namespace SwapSearch.Assignment

/-- Reports a malformed instance. -/
def malformed {β : Type} (defect : InstanceDefect) : Except Rejection β :=
  .error (.malformedInstance defect)

/-- An instance from row-major matrices. -/
def ofMatrices (n : Nat) (flow distance : Array Int) : Except Failure Assignment := do
  let expected ← Word.checked (n * n)
  if flow.size ≠ expected then
    malformed (β := Unit) (.matrixLength flow.size expected)
  if distance.size ≠ expected then
    malformed (β := Unit) (.matrixLength distance.size expected)
  return ⟨n, flow, distance⟩

/-- One matrix entry. -/
def readEntry (token : List Char) : Except Rejection Int :=
  match Text.signed? token with
  | some x => .ok x
  | none => malformed (.badEntry (String.ofList token))

def readEntries (tokens : List (List Char)) : Except Rejection (List Int) :=
  tokens.mapM readEntry

/-- The number of entries of two matrices of width `n`. -/
def entryCount (n : Nat) : Except Breach Nat := do
  let twice ← Word.checked (2 * n)
  Word.checked (twice * n)

/-- Reads an instance: its size and the entries of both matrices. -/
def ofText (text : String) : Except Failure Assignment := do
  match Text.words text.toList with
  | [] => malformed (β := Assignment) .empty
  | token :: tokens =>
    match Text.unsigned? token with
    | none => malformed (β := Assignment) (.badSize (String.ofList token))
    | some n =>
      let entries ← readEntries tokens
      let expected ← entryCount n
      if entries.length ≠ expected then
        malformed (β := Assignment) (.entryCount expected entries.length)
      else
        let cells := n * n
        ofMatrices n (entries.take cells).toArray (entries.drop cells).toArray

/-- The rows do not fill two or more matrices of width `n`. -/
def isIncomplete (n rows : Nat) : Except Breach Bool := do
  let least ← Word.checked (2 * n)
  if rows < least then return true
  let rest ← Word.remainder rows n
  return rest ≠ 0

/-- The `k`-th run of `n` rows, joined into one matrix. -/
def block (n k : Nat) (rows : List (List Int)) : Array Int :=
  ((rows.drop (k * n)).take n).flatten.toArray

/-- Reads the rows of a text: all lines after the first that are not blank. -/
def readRows (text : String) : Except Rejection (List (List Int)) :=
  let lines := (Text.lines text.toList).tail.filter fun line => !(Text.trim line).isEmpty
  lines.mapM fun line => readEntries (Text.words line)

/-- Cuts rows into matrices: the distances, then the flows of one instance each. The width of the
first row is the size of all of them. -/
def listOfRows (rows : List (List Int)) : Except Failure (List Assignment) := do
  match rows with
  | [] => malformed (β := List Assignment) .noRows
  | first :: _ =>
    let n := first.length
    if rows.any (·.length ≠ n) then
      malformed (β := List Assignment) (.raggedRows n)
    else if ← isIncomplete n rows.length then
      malformed (β := List Assignment) (.rowCount rows.length)
    else
      (List.range (rows.length / n - 1)).mapM fun k =>
        ofMatrices n (block n (k + 1) rows) (block n 0 rows)

/-- Reads instances that share their distances, one for each flow matrix. -/
def listOfText (text : String) : Except Failure (List Assignment) := do
  let rows ← readRows text
  listOfRows rows

end SwapSearch.Assignment
