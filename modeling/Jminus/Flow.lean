import Jminus.Fault

/-!
The loops and switches around a statement.

A break leaves the innermost of them, a continue goes on with the innermost loop. Frames are told
apart by number; a frame remembers whether anything left it or went on with it.
-/
namespace Jminus

inductive FrameKind where
  | loop | switch
  deriving DecidableEq, Repr

structure Frame where
  id : Nat
  kind : FrameKind
  hasBreak : Bool := false
  hasContinue : Bool := false
  deriving DecidableEq, Repr

structure FlowStack where
  frames : List Frame := []
  deriving DecidableEq, Repr

namespace FlowStack

def push (s : FlowStack) (f : Frame) : FlowStack := { frames := f :: s.frames }

def depth (s : FlowStack) : Nat := s.frames.length

/-- Takes off the frame with number `id`, which has to be the innermost. -/
def pop (s : FlowStack) (id : Nat) : Except Fault (Frame × FlowStack) :=
  match s.frames with
  | [] => .error .flowUnderflow
  | f :: rest => if f.id = id then .ok (f, { frames := rest }) else .error .flowUnbalanced

def breakTarget? (s : FlowStack) : Option Frame := s.frames.head?

/-- What a continue goes on with; switches in between are passed over. -/
def continueTarget? (s : FlowStack) : Option Frame := s.frames.find? (·.kind = .loop)

def update (s : FlowStack) (id : Nat) (f : Frame → Frame) : FlowStack :=
  { frames := s.frames.map fun frame => if frame.id = id then f frame else frame }

def markBreak (s : FlowStack) (id : Nat) : FlowStack :=
  s.update id fun f => { f with hasBreak := true }

def markContinue (s : FlowStack) (id : Nat) : FlowStack :=
  s.update id fun f => { f with hasContinue := true }

end FlowStack

end Jminus
