import Jminus.Text.Printable

/-!
Text between quotation marks, with an escape for everything that could not be shown.
-/
namespace Jminus.Text.Quoted

/-- The last `width` hexadecimal digits of `n`, in lower case. -/
def hex (width n : Nat) : List Char :=
  (List.range width).reverse.map fun i => Nat.digitChar (n / Nat.pow 16 i % 16)

/-- How one character is written between two of `mark`. -/
def escape (mark c : Char) : List Char :=
  if c = mark || c = '\\' then ['\\', c]
  else if isPrintable c then [c]
  else match c with
  | '\x07' => ['\\', 'a']
  | '\x08' => ['\\', 'b']
  | '\x0c' => ['\\', 'f']
  | '\n' => ['\\', 'n']
  | '\r' => ['\\', 'r']
  | '\t' => ['\\', 't']
  | '\x0b' => ['\\', 'v']
  | c =>
    if c.toNat < 0x80 then '\\' :: 'x' :: hex 2 c.toNat
    else if c.toNat < 0x10000 then '\\' :: 'u' :: hex 4 c.toNat
    else '\\' :: 'U' :: hex 8 c.toNat

def encode (mark : Char) (cs : List Char) : List Char := mark :: cs.flatMap (escape mark) ++ [mark]

def quote (s : String) : String := String.ofList (encode '"' s.toList)

def quoteChar (c : Char) : String := String.ofList (encode '\'' [c])

end Jminus.Text.Quoted
