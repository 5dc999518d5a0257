/-!
Lines of input. A line ends at a newline, before which a carriage return is dropped. Input is read
through a window of fixed size, and a line that does not fit is cut. The window is that of the line
editor, which reads the input and is a library of its own.
-/
namespace Jminus.Text.Lines

def newline : UInt8 := 10

def carriageReturn : UInt8 := 13

/-- How many bytes of a line are seen at once, its end included. -/
def window : Nat := 4096

/-- A line, or a piece of one that was cut. -/
structure Piece where
  bytes : List UInt8
  cut : Bool
  deriving DecidableEq, Repr

def dropReturn (bs : List UInt8) : List UInt8 :=
  if bs.getLast? = some carriageReturn then bs.dropLast else bs

/-- The first piece and what is left behind it. A carriage return at the end of the window stays
for the next piece, since its newline may follow. -/
def next (bs : List UInt8) : Piece × List UInt8 :=
  let head := bs.take window
  match head.idxOf? newline with
  | some i => ({ bytes := dropReturn (bs.take i), cut := false }, bs.drop (i + 1))
  | none =>
    if bs.length < window then ({ bytes := bs, cut := false }, [])
    else
      let bytes := dropReturn head
      ({ bytes, cut := true }, bs.drop (max 1 bytes.length))

theorem next_length {bs : List UInt8} (h : bs ≠ []) : (next bs).2.length < bs.length := by
  have hpos : 0 < bs.length := List.length_pos_iff.2 h
  unfold next
  dsimp only
  split
  · simp only [List.length_drop]; omega
  · split
    · exact hpos
    · simp only [List.length_drop]; omega

def pieces (bs : List UInt8) : List Piece :=
  if _h : bs = [] then [] else (next bs).1 :: pieces (next bs).2
termination_by bs.length
decreasing_by exact next_length _h

end Jminus.Text.Lines
