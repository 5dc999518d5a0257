import Jminus.Diagnostic
import Jminus.Method.Signature

/-!
Methods that code can call, and which of them a call in source text means.
-/
namespace Jminus

structure Method where
  owner : String
  name : String
  descriptor : String
  /-- What the descriptor says, read once. -/
  types : Except Fault (List Ty × Ty) := Method.parseDescriptor descriptor
  types_eq : types = Method.parseDescriptor descriptor := by rfl

namespace Method

/-- The descriptor decides about the types, so the three names are the whole method. -/
theorem eq_of_names {a b : Method} (owner : a.owner = b.owner) (name : a.name = b.name)
    (descriptor : a.descriptor = b.descriptor) : a = b := by
  cases a with
  | mk o n d ts h =>
    cases b with
    | mk o' n' d' ts' h' =>
      cases owner
      cases name
      cases descriptor
      cases h.trans h'.symm
      rfl

instance : DecidableEq Method := fun a b =>
  if h : a.owner = b.owner ∧ a.name = b.name ∧ a.descriptor = b.descriptor then
    isTrue (eq_of_names h.1 h.2.1 h.2.2)
  else isFalse fun e => h (e ▸ ⟨rfl, rfl, rfl⟩)

instance : Repr Method := ⟨fun m n => reprPrec (m.owner, m.name, m.descriptor) n⟩

/-- The class that owns every method there is. -/
def library : String := "jmm/Runtime"

def render (m : Method) : String := m.owner ++ "." ++ m.name ++ m.descriptor

def printing (name : String) (args : List Ty) : Method :=
  { owner := library, name, descriptor := describe args .void }

/-- The method that a call of `name` with arguments of the given types means. -/
def resolve (name : String) (args : List Ty) : Except Problem Method :=
  if name = "println" then
    if args.length ≤ 1 then unlessVoid name args
    else .error (Cause.arity.on (name ++ " takes at most one argument"))
  else if name = "print" then
    if args.length = 1 then unlessVoid name args
    else .error (Cause.arity.on (name ++ " takes one argument"))
  else .error (Cause.unknownMethod.on name)
where
  unlessVoid (name : String) (args : List Ty) : Except Problem Method :=
    if args.contains .void then .error (Cause.operandType.on "cannot print a void value")
    else .ok (printing name args)

def concat (left right : Ty) : Method :=
  { owner := library, name := "concat", descriptor := describe [left, right] (.ref .string) }

end Method

end Jminus
