import MethodScout.Classification
import MethodScout.NameMap

/-!
# The report

The methods worth instrumenting of all classes that have any, by class and by category. Classes of one name are
merged.
-/

namespace MethodScout

structure Report where
  /-- The methods of each class over all categories. -/
  classes : NameMap NameSet
  /-- The methods of each class in one category, for the categories that are there. -/
  tables : ByCategory (Option (NameMap NameSet))
  deriving DecidableEq

namespace Report

def empty : Report := ⟨.empty, .ofFn fun _ => none⟩

/-- Adds the methods of a class in one category, if there are any. -/
def addEntry (className : String) (tables : ByCategory (Option (NameMap NameSet))) (e : Category × NameSet) :
    ByCategory (Option (NameMap NameSet)) :=
  if e.2.isEmpty then tables else tables.alter e.1 fun table => (table.getD .empty).addNames className e.2

/-- Adds a class. One with no method in any category leaves no trace. -/
def insert (r : Report) (c : Classification) : Report :=
  if c.allMethods.isEmpty then r
  else
    { classes := r.classes.addNames c.className c.allMethods
      tables := c.categories.entries.foldl (addEntry c.className) r.tables }

def ofClassifications (cs : List Classification) : Report :=
  cs.foldl insert empty

def isEmpty (r : Report) : Bool := r.classes.isEmpty

/-- The number of methods, those of different classes apart. -/
def methodCount (r : Report) : Nat :=
  r.classes.entries.foldl (fun total e => total + e.2.size) 0

/-- The classes of a category, if it is there. -/
def category? (r : Report) (k : Category) : Option (NameMap NameSet) := r.tables.get k

/-- The classes by category. A category that is missing has none. -/
def categories (r : Report) : ByCategory (NameMap NameSet) :=
  .ofFn fun k => (r.category? k).getD .empty

end Report

end MethodScout
