/-!
# Categories

The five reasons for which a method is worth instrumenting, and tables with one value for each.
-/

namespace MethodScout

inductive Category where
  | synchronized
  | clientCall
  | repositoryCall
  | highCallCount
  | highBranchCount
  deriving DecidableEq, Repr

namespace Category

/-- The categories in the order of the report. -/
def all : List Category := [.synchronized, .clientCall, .repositoryCall, .highCallCount, .highBranchCount]

theorem mem_all (k : Category) : k ∈ all := by
  cases k <;> simp [all]

/-- The name of a category in machine-readable output. -/
def key : Category → String
  | .synchronized => "synchronized"
  | .clientCall => "client_call"
  | .repositoryCall => "repository_call"
  | .highCallCount => "high_call_count"
  | .highBranchCount => "high_branch_count"

/-- The line above the methods of a category. -/
def heading : Category → String
  | .synchronized => "Synchronized methods:"
  | .clientCall => "Client invocation methods:"
  | .repositoryCall => "Repository invocation methods:"
  | .highCallCount => "High call count methods:"
  | .highBranchCount => "High branch count methods:"

end Category

/-- One value for each category. -/
@[ext]
structure ByCategory (α : Type) where
  synchronized : α
  clientCall : α
  repositoryCall : α
  highCallCount : α
  highBranchCount : α
  deriving DecidableEq

namespace ByCategory

variable {α : Type}

def get (t : ByCategory α) : Category → α
  | .synchronized => t.synchronized
  | .clientCall => t.clientCall
  | .repositoryCall => t.repositoryCall
  | .highCallCount => t.highCallCount
  | .highBranchCount => t.highBranchCount

def ofFn (f : Category → α) : ByCategory α :=
  ⟨f .synchronized, f .clientCall, f .repositoryCall, f .highCallCount, f .highBranchCount⟩

@[simp]
theorem get_ofFn (f : Category → α) (k : Category) : (ofFn f).get k = f k := by
  cases k <;> rfl

theorem ext_get {s t : ByCategory α} (h : ∀ k, s.get k = t.get k) : s = t :=
  ByCategory.ext (h .synchronized) (h .clientCall) (h .repositoryCall) (h .highCallCount) (h .highBranchCount)

/-! ## Tables in which categories may be missing -/

/-- The categories that are there, in their order, with their values. -/
def entries (t : ByCategory (Option α)) : List (Category × α) :=
  Category.all.filterMap fun k => (t.get k).map (k, ·)

/-- Changes the value of a category; `f none` is the value for one that is missing. -/
def alter (t : ByCategory (Option α)) (k : Category) (f : Option α → α) : ByCategory (Option α) :=
  ofFn fun j => if j = k then some (f (t.get k)) else t.get j

@[simp]
theorem get_alter (t : ByCategory (Option α)) (k j : Category) (f : Option α → α) :
    (t.alter k f).get j = if j = k then some (f (t.get k)) else t.get j :=
  get_ofFn _ j

theorem mem_entries {t : ByCategory (Option α)} {k : Category} {a : α} : (k, a) ∈ t.entries ↔ t.get k = some a := by
  simp [entries, Category.mem_all]

end ByCategory

end MethodScout
