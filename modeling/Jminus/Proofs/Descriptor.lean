import Jminus.Method
import Mathlib

/-!
Descriptors say what they were made from, except that what has no spelling of its own comes back as
an object.
-/
namespace Jminus

/-- The type that the spelling of a type is read as. -/
def Ty.described : Ty → Ty
  | .null | .any => .ref .object
  | t => t

namespace Method

/-- Names of classes are spelled without the sign that ends them. -/
theorem path_clean (k : Class) : ∀ c ∈ k.path.toList, (c != ';') = true := by
  have hall : k.path.toList.all (· != ';') = true := by cases k <;> decide
  exact List.all_eq_true.1 hall

theorem ofPath?_path (k : Class) : Class.ofPath? k.path.toList = some k := by
  cases k <;> decide

theorem firstType_class (k : Class) (rest : List Char) :
    firstType (("L" ++ k.path ++ ";").toList ++ rest) = .ok (.ref k, rest) := by
  have htext : ("L" ++ k.path ++ ";").toList ++ rest = 'L' :: (k.path.toList ++ ';' :: rest) := by
    simp
  have hdrop : (k.path.toList ++ ';' :: rest).dropWhile (· != ';') = ';' :: rest := by
    rw [List.dropWhile_append_of_pos (path_clean k), List.dropWhile_cons_of_neg (by simp)]
  have htake : (k.path.toList ++ ';' :: rest).takeWhile (· != ';') = k.path.toList := by
    rw [List.takeWhile_append_of_pos (path_clean k), List.takeWhile_cons_of_neg (by simp),
      List.append_nil]
  rw [htext]
  simp only [firstType, if_true, hdrop, htake, ofPath?_path]

/-- The descriptor of a type is read as one type. -/
theorem firstType_descriptor (t : Ty) (rest : List Char) :
    firstType (t.descriptor.toList ++ rest) = .ok (t.described, rest) := by
  cases t with
  | ref k => exact firstType_class k rest
  | null | any => exact firstType_class .object rest
  | _ => rfl

/-- No type is spelled like the end of the parameters. -/
theorem descriptor_ne_paren (t : Ty) :
    ∃ c cs, t.descriptor.toList = c :: cs ∧ c ≠ ')' := by
  cases t with
  | ref k => exact ⟨'L', k.path.toList ++ [';'], by simp [Ty.descriptor], by decide⟩
  | _ => exact ⟨_, _, rfl, by decide⟩

theorem paramTypes_descriptors (params : List Ty) (rest : List Char) :
    paramTypes ((params.flatMap fun t => t.descriptor.toList) ++ ')' :: rest) =
      .ok (params.map Ty.described, rest) := by
  induction params with
  | nil =>
    rw [List.flatMap_nil, List.nil_append, paramTypes]
    rfl
  | cons t ts ih =>
    obtain ⟨c, cs, hcs, hc⟩ := descriptor_ne_paren t
    have hfirst := firstType_descriptor t ((ts.flatMap fun t => t.descriptor.toList) ++ ')' :: rest)
    rw [List.flatMap_cons, List.append_assoc]
    rw [hcs] at hfirst ⊢
    rw [paramTypes]
    · split
      · rename_i hfault
        cases hfirst.symm.trans hfault
      · rename_i hok
        cases hfirst.symm.trans hok
        rw [ih]
        rfl
    · intro rest' hparen
      exact hc (List.cons.inj hparen).1

/-- What describes a method is read back. -/
theorem parseDescriptor_describe (params : List Ty) (result : Ty) :
    parseDescriptor (describe params result) =
      .ok (params.map Ty.described, result.described) := by
  have htext : (describe params result).toList =
      '(' :: ((params.flatMap fun t => t.descriptor.toList) ++ ')' :: result.descriptor.toList) := by
    simp [describe, List.flatMap_map]
  have hresult := firstType_descriptor result []
  rw [List.append_nil] at hresult
  simp only [parseDescriptor, htext, paramTypes_descriptors, hresult, bind, Except.bind]
  rfl

end Method

end Jminus
