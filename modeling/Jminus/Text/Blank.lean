/-!
Blank characters, after the character standard, and text without them at its ends.
-/
namespace Jminus.Text

def isBlank (c : Char) : Bool :=
  let n := c.toNat
  (9 ≤ n && n ≤ 13) || n == 0x20 || n == 0x85 || n == 0xA0 || n == 0x1680 ||
    (0x2000 ≤ n && n ≤ 0x200A) || n == 0x2028 || n == 0x2029 || n == 0x202F || n == 0x205F ||
    n == 0x3000

def trimList (cs : List Char) : List Char :=
  ((cs.dropWhile isBlank).reverse.dropWhile isBlank).reverse

/-- Text without the blanks before and behind it. -/
def trim (s : String) : String := String.ofList (trimList s.toList)

/-- The pieces between the occurrences of a character; there is always one more of them. -/
def splitList (sep : Char) : List Char → List (List Char)
  | [] => [[]]
  | c :: cs =>
    if c = sep then [] :: splitList sep cs
    else
      match splitList sep cs with
      | piece :: pieces => (c :: piece) :: pieces
      | [] => [[c]]

def split (sep : Char) (s : String) : List String := (splitList sep s.toList).map String.ofList

end Jminus.Text
