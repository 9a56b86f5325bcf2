import MethodScout.Category
import MethodScout.Features
import MethodScout.Settings

/-!
# Classification of one class

Every method that is not left out is put into each category whose rule it meets. Methods of one name count as one.
-/

namespace MethodScout

/-- Whether a method of the class `className` meets the rule of a category. -/
def Category.admits (k : Category) (settings : Settings) (className : String) (m : MethodProfile) : Bool :=
  match k with
  | .synchronized => m.isSynchronized || decide (0 < m.features.monitors)
  | .clientCall => m.features.callsClient && !Dependency.client.names className
  | .repositoryCall => m.features.callsRepository && !Dependency.repository.names className
  | .highCallCount => decide (settings.callThreshold ≤ m.features.calls)
  | .highBranchCount => decide (settings.branchThreshold ≤ m.features.branches)

/-- The methods of a class in each category that is there. -/
structure Classification where
  className : String
  categories : ByCategory (Option NameSet)
  deriving DecidableEq

namespace Classification

/-- The methods by category. A category that is missing has none. -/
def methods (c : Classification) : ByCategory NameSet :=
  .ofFn fun k => (c.categories.get k).getD ∅

/-- The methods that are in some category. -/
def allMethods (c : Classification) : NameSet :=
  c.categories.entries.foldl (fun names e => names ∪ e.2) ∅

def isInteresting (c : Classification) : Bool :=
  c.categories.entries.any fun e => !e.2.isEmpty

end Classification

/-- Puts the name of a method into a category, if that admits the method. -/
def Category.enroll (settings : Settings) (className : String) (m : MethodProfile)
    (table : ByCategory (Option NameSet)) (k : Category) : ByCategory (Option NameSet) :=
  if k.admits settings className m then table.alter k fun names => (names.getD ∅).insert m.name else table

/-- Puts the name of a method into all categories that admit the method. -/
def MethodProfile.enroll (settings : Settings) (className : String) (table : ByCategory (Option NameSet))
    (m : MethodProfile) : ByCategory (Option NameSet) :=
  Category.all.foldl (Category.enroll settings className m) table

def ClassProfile.classify (settings : Settings) (c : ClassProfile) : Classification :=
  let kept := c.methods.filter fun m => !settings.filter.excludes m.name
  ⟨c.name, kept.foldl (MethodProfile.enroll settings c.name) (.ofFn fun _ => some ∅)⟩

/-- Decodes and classifies a class file. -/
def Classification.ofBytes (settings : Settings) (bs : Bytes) : Except DecodeFault Classification :=
  (ClassFile.decode bs).map fun c => (ClassProfile.ofClassFile c).classify settings

end MethodScout
