import Mathlib.Data.List.Basic
import MethodScout.ClassFile.Descriptor

/-!
# Method types and their descriptors

`MethodType.descriptor` writes the descriptor of a method type as class files do. The type that is read off it is looked
for behind the first closing parenthesis, but a class name may have one too. So the answer is right exactly if no
parameter brings a closing parenthesis of its own.
-/

namespace MethodScout

inductive Primitive where
  | byte
  | char
  | double
  | float
  | int
  | long
  | short
  | boolean
  deriving DecidableEq, Repr

def Primitive.letter : Primitive → Char
  | byte => 'B'
  | char => 'C'
  | double => 'D'
  | float => 'F'
  | int => 'I'
  | long => 'J'
  | short => 'S'
  | boolean => 'Z'

/-- The name of a class: segments with slashes between them. Any character may stand in a segment but a period, a
semicolon and an opening bracket. -/
structure ClassName where
  text : String
  nonempty : text ≠ ""
  legal : '.' ∉ text.toList ∧ ';' ∉ text.toList ∧ '[' ∉ text.toList

/-- The types of fields and parameters. -/
inductive FieldType where
  | primitive (type : Primitive)
  | object (name : ClassName)
  | array (element : FieldType)

/-- What a method takes and gives back; `none` is `void`. -/
structure MethodType where
  parameters : List FieldType
  result : Option FieldType

def FieldType.descriptor : FieldType → List Char
  | primitive type => [type.letter]
  | object name => 'L' :: (name.text.toList ++ [';'])
  | array element => '[' :: element.descriptor

namespace MethodType

def resultDescriptor (t : MethodType) : List Char :=
  match t.result with
  | none => ['V']
  | some type => type.descriptor

def descriptor (t : MethodType) : String :=
  String.ofList ('(' :: (t.parameters.flatMap FieldType.descriptor ++ ')' :: t.resultDescriptor))

/-- The class name of an object type, and the descriptor of any other type. -/
def returned (t : MethodType) : String :=
  match t.result with
  | some (.object name) => name.text
  | _ => String.ofList t.resultDescriptor

end MethodType

namespace Descriptor

/-! ## Return descriptors -/

theorem returned?_letter (p : Primitive) : returned? [p.letter] = some [p.letter] := by
  cases p <;> rfl

theorem returned?_object (name : ClassName) :
    returned? ('L' :: (name.text.toList ++ [';'])) = some name.text.toList := by
  have hne : name.text.toList ≠ [] := fun h => name.nonempty (String.toList_eq_nil_iff.mp h)
  have hpos : 0 < name.text.toList.length := List.length_pos_iff.mpr hne
  rw [returned?, if_pos ⟨by simp, by simpa using hpos⟩, List.dropLast_concat]
  simp

/-- Behind its brackets an array type has the descriptor of what is in it. -/
theorem exists_ne_bracket (t : FieldType) : ∃ c ∈ t.descriptor, c ≠ '[' := by
  induction t with
  | primitive p => exact ⟨p.letter, List.mem_singleton_self _, by cases p <;> decide⟩
  | object name => exact ⟨'L', List.mem_cons_self, by decide⟩
  | array element ih =>
      obtain ⟨c, hc, hne⟩ := ih
      exact ⟨c, List.mem_cons_of_mem _ hc, hne⟩

theorem returned?_array (element : FieldType) :
    returned? ('[' :: element.descriptor) = some ('[' :: element.descriptor) := by
  obtain ⟨c, hc, hne⟩ := exists_ne_bracket element
  have hall : element.descriptor.all (· == '[') = false := by
    rw [List.all_eq_false]
    exact ⟨c, hc, by simpa using hne⟩
  rw [returned?, hall]
  · rfl
  · intro hnil
    rw [hnil] at hc
    cases hc

theorem returned?_resultDescriptor (t : MethodType) : returned? t.resultDescriptor = some t.returned.toList := by
  unfold MethodType.resultDescriptor MethodType.returned MethodType.resultDescriptor
  cases t.result with
  | none => rfl
  | some type =>
      cases type with
      | primitive p => simpa [FieldType.descriptor] using returned?_letter p
      | object name => exact returned?_object name
      | array element => simpa [FieldType.descriptor] using returned?_array element

/-! ## Closing parentheses -/

/-- What is taken off a return descriptor, a leading letter and a last semicolon, is no parenthesis. -/
theorem count_of_returned? {text type : List Char} (h : returned? text = some type) :
    type.count ')' = text.count ')' := by
  unfold returned? at h
  split at h
  · cases h
  · split at h <;> cases h
    rfl
  · rename_i rest _
    split at h <;> cases h
    rename_i hrest
    obtain ⟨front, rfl⟩ := List.getLast?_eq_some_iff.mp hrest.1
    simp
  · split at h <;> cases h
    rfl
  · cases h

theorem afterParameters?_eq {before rest : List Char} (h : ')' ∉ before) :
    afterParameters? ('(' :: (before ++ ')' :: rest)) = some rest := by
  have hbefore : ∀ c ∈ before, (c != ')') = true := by
    intro c hc
    rw [bne_iff_ne]
    rintro rfl
    exact h hc
  rw [afterParameters?, List.dropWhile_append_of_pos hbefore]
  rfl

/-- The type that a descriptor is said to return is the one that it was written for, exactly if no class name among the
parameters has a closing parenthesis. -/
theorem returnType_descriptor_eq_iff (t : MethodType) :
    returnType t.descriptor = .ok t.returned ↔ ∀ p ∈ t.parameters, ')' ∉ p.descriptor := by
  have hread {rest : List Char} (h : afterParameters? t.descriptor.toList = some rest) :
      returnType t.descriptor = .ok t.returned ↔ returned? rest = some t.returned.toList := by
    rw [returnType, h, Option.bind_some]
    cases returned? rest with
    | none => simp
    | some type => simp [← String.toList_inj]
  have hmem : (∀ p ∈ t.parameters, ')' ∉ p.descriptor) ↔ ')' ∉ t.parameters.flatMap FieldType.descriptor := by
    simp [List.mem_flatMap]
  rw [hmem]
  constructor
  · -- the answer keeps every parenthesis behind the first one, so it has one too many
    intro h hparen
    obtain ⟨before, after, hsplit, hbefore⟩ := List.eq_append_cons_of_mem hparen
    have hafter : afterParameters? t.descriptor.toList = some (after ++ ')' :: t.resultDescriptor) := by
      rw [MethodType.descriptor, String.toList_ofList, hsplit, List.append_assoc]
      exact afterParameters?_eq hbefore
    have hcount := count_of_returned? ((hread hafter).mp h)
    have hright := count_of_returned? (returned?_resultDescriptor t)
    rw [List.count_append, List.count_cons_self] at hcount
    omega
  · intro h
    have hafter : afterParameters? t.descriptor.toList = some t.resultDescriptor := by
      rw [MethodType.descriptor, String.toList_ofList]
      exact afterParameters?_eq h
    exact (hread hafter).mpr (returned?_resultDescriptor t)

/-- A method that takes a `shop/Cart(old)` and returns nothing. -/
def restore : MethodType := ⟨[.object ⟨"shop/Cart(old)", by decide, by decide⟩], none⟩

/-- A method that takes a `shop/)Lold` and returns a `shop/Cart`. -/
def exchange : MethodType :=
  ⟨[.object ⟨"shop/)Lold", by decide, by decide⟩], some (.object ⟨"shop/Cart", by decide, by decide⟩)⟩

/-- With a parenthesis in a parameter the descriptor is refused, or another type is read off it. -/
theorem returnType_descriptor_parenthesis :
    restore.returned = "V" ∧
      returnType restore.descriptor = .error (.malformedDescriptor "(Lshop/Cart(old);)V") ∧
      exchange.returned = "shop/Cart" ∧ exchange.descriptor = "(Lshop/)Lold;)Lshop/Cart;" ∧
      returnType exchange.descriptor = .ok "old;)Lshop/Cart" ∧
      ¬∀ t : MethodType, returnType t.descriptor = .ok t.returned := by
  have hrefused : returnType restore.descriptor = .error (.malformedDescriptor "(Lshop/Cart(old);)V") := by
    decide +kernel
  refine ⟨by decide +kernel, hrefused, by decide +kernel, by decide +kernel, by decide +kernel, ?_⟩
  intro h
  cases hrefused.symm.trans (h restore)

end Descriptor

end MethodScout
