import Jminus.Fault
import Jminus.Ty

/-!
Descriptors of methods: the types of the parameters between parentheses, and the type of the result
behind them.
-/
namespace Jminus

/-- How code spells a type. What has no spelling of its own is handled as an object. -/
def Ty.descriptor : Ty → String
  | .int => "I"
  | .long => "J"
  | .double => "D"
  | .boolean => "Z"
  | .char => "C"
  | .void => "V"
  | .ref c => "L" ++ c.path ++ ";"
  | .null | .any => "L" ++ Class.object.path ++ ";"

def Ty.ofLetter? : Char → Option Ty
  | 'I' => some .int
  | 'J' => some .long
  | 'D' => some .double
  | 'Z' => some .boolean
  | 'C' => some .char
  | 'V' => some .void
  | _ => none

namespace Method

def describe (params : List Ty) (result : Ty) : String :=
  "(" ++ String.join (params.map Ty.descriptor) ++ ")" ++ result.descriptor

/-- The type at the front of a descriptor and what is left behind it. -/
def firstType (cs : List Char) : Except Fault (Ty × List Char) :=
  match cs with
  | [] => .error .truncatedDescriptor
  | c :: rest =>
    if c = 'L' then
      match rest.dropWhile (· != ';') with
      | [] => .error (.malformedDescriptor (String.ofList cs))
      | _ :: behind =>
        match Class.ofPath? (rest.takeWhile (· != ';')) with
        | some k => .ok (.ref k, behind)
        | none => .error (.unknownClassInDescriptor (String.ofList cs))
    else
      match Ty.ofLetter? c with
      | some t => .ok (t, rest)
      | none => .error (.malformedDescriptor (String.ofList cs))

/-- A type takes at least one character. -/
theorem firstType_length {cs rest : List Char} {t : Ty} (h : firstType cs = .ok (t, rest)) :
    rest.length < cs.length := by
  unfold firstType at h
  split at h
  · cases h
  · rename_i c behind
    split at h
    · split at h
      · cases h
      · rename_i d after heq
        have hlen := (List.dropWhile_suffix (· != ';') (l := behind)).length_le
        rw [heq] at hlen
        simp only [List.length_cons] at hlen
        split at h
        · cases h
          simp only [List.length_cons]
          omega
        · cases h
    · split at h
      · cases h
        simp
      · cases h

def paramTypes (cs : List Char) : Except Fault (List Ty × List Char) :=
  match cs with
  | ')' :: rest => .ok ([], rest)
  | cs =>
    match _h : firstType cs with
    | .error f => .error f
    | .ok (t, rest) =>
      match paramTypes rest with
      | .error f => .error f
      | .ok (ts, rest) => .ok (t :: ts, rest)
termination_by cs.length
decreasing_by exact firstType_length _h

/-- The types of the parameters and of the result. Text behind the result is passed over. -/
def parseDescriptor (text : String) : Except Fault (List Ty × Ty) :=
  match text.toList with
  | '(' :: rest => do
    let (params, rest) ← paramTypes rest
    let (result, _) ← firstType rest
    return (params, result)
  | _ => .error (.malformedDescriptor text)

end Method

end Jminus
