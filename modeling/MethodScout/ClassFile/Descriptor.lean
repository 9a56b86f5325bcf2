import MethodScout.ClassFile.Fault

/-!
# Method descriptors

A descriptor writes the parameter types between parentheses and then the return type.
-/

namespace MethodScout.Descriptor

/-- The letters of the primitive types and of `void`. -/
def letters : List Char := ['B', 'C', 'D', 'F', 'I', 'J', 'S', 'Z', 'V']

/-- The type that a return descriptor names: the class name of an object type, and an array type, a primitive type or
`void` as it is written. -/
def returned? : List Char → Option (List Char)
  | [] => none
  | [letter] => if letter ∈ letters then some [letter] else none
  | 'L' :: rest =>
    if rest.getLast? = some ';' ∧ 1 < rest.length then some rest.dropLast else none
  | '[' :: rest => if rest.all (· == '[') then none else some ('[' :: rest)
  | _ => none

/-- What follows the first closing parenthesis, if the text begins with an opening one. -/
def afterParameters? : List Char → Option (List Char)
  | '(' :: rest => (rest.dropWhile (· != ')')).tail?
  | _ => none

/-- The type that a method returns. -/
def returnType (descriptor : String) : Except DecodeFault String :=
  match (afterParameters? descriptor.toList).bind returned? with
  | some type => .ok (String.ofList type)
  | none => .error (.malformedDescriptor descriptor)

end MethodScout.Descriptor
