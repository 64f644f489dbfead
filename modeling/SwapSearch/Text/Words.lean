/-!
# SwapSearch — words and lines

Instance texts are read as *words*, runs of characters between blanks, or as
*lines*. Blank is what Unicode calls white space. Both are cuts of the list of
characters, so nothing is lost but the characters cut at.
-/

namespace SwapSearch.Text

/-- The characters with the Unicode property White_Space. -/
def isBlank (c : Char) : Bool :=
  let n := c.toNat
  (0x09 ≤ n && n ≤ 0x0D) || n == 0x20 || n == 0x85 || n == 0xA0 || n == 0x1680 ||
    (0x2000 ≤ n && n ≤ 0x200A) || n == 0x2028 || n == 0x2029 || n == 0x202F || n == 0x205F ||
    n == 0x3000

/-- Cuts the text at every character that satisfies `p`; two cuts in a row leave an empty
piece. -/
def pieces (p : Char → Bool) : List Char → List (List Char)
  | [] => [[]]
  | c :: rest =>
    if p c then [] :: pieces p rest
    else
      match pieces p rest with
      | piece :: more => (c :: piece) :: more
      | [] => [[c]]

/-- The maximal runs without a blank. -/
def words (text : List Char) : List (List Char) :=
  (pieces isBlank text).filter (!·.isEmpty)

/-- Removes the blanks at both ends. -/
def trim (text : List Char) : List Char :=
  ((text.dropWhile isBlank).reverse.dropWhile isBlank).reverse

/-- Removes one carriage return from the end. -/
def dropReturn (line : List Char) : List Char :=
  if line.getLast? = some '\r' then line.dropLast else line

/-- The lines of a text. A line ends at a newline, which takes one carriage return before it
along; characters after the last newline form a line of their own. -/
def lines (text : List Char) : List (List Char) :=
  let cut := pieces (· == '\n') text
  let rest := cut.getLast?.getD []
  cut.dropLast.map dropReturn ++ (if rest.isEmpty then [] else [rest])

end SwapSearch.Text
