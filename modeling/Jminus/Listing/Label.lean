/-!
Symbolic jump targets. A listing hands them out from 1; the label 0 stands for a target that is
not there.
-/
namespace Jminus

structure Label where
  number : Int
  deriving DecidableEq, Repr, Inhabited

namespace Label

def absent : Label := ⟨0⟩

def render (l : Label) : String := "L" ++ toString l.number

end Label

end Jminus
