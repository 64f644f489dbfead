import SwapSearch.Json.Numeral

/-!
# SwapSearch — JSON values

The values of a JSON text. A string whose escapes contain half of a surrogate pair is
no text. It may stand where nobody reads it, so it is kept, as a string of unknown
content.

The members of an object stand in the order of the text, and a key may occur twice.
-/

namespace SwapSearch.Json

/-- The content of a string, if it is a text. -/
abbrev Content := Option String

inductive Value where
  | null
  | bool (b : Bool)
  | number (n : Numeral)
  | string (s : Content)
  | array (items : List Value)
  | object (members : List (Content × Value))

end SwapSearch.Json
