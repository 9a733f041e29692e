import ScopeGrant.Text.Blank

/-!
# Scopes

A scope is a value, such as `transfer` or `https://auth.example.org/scopes/read`, with an optional
marker and the scopes that it depends on. Dependencies form a tree of unbounded depth and width, so
every walk in this library keeps its own stack of pending scopes and ends because the total
`sizeList` of that stack falls.

The order in which dependencies are stored is kept but carries no meaning: `Scope.equal` ignores it
and `Scope.render` writes them in the order of their values.
-/

namespace ScopeGrant

/-- A scope and the scopes it depends on. -/
inductive Scope where
  /-- A scope with its value, its optional marker and its dependencies in stored order. -/
  | mk (value : String) (optional : Bool) (dependencies : List Scope)
deriving Repr, Inhabited

namespace Scope

/-- The value of the scope. -/
def value : Scope → String
  | mk value _ _ => value

/-- Whether the scope carries the optional marker. -/
def optional : Scope → Bool
  | mk _ optional _ => optional

/-- The scopes it directly depends on, in stored order. -/
def dependencies : Scope → List Scope
  | mk _ _ dependencies => dependencies

/-- The scope without dependencies. -/
def leaf (value : String) (optional : Bool) : Scope :=
  mk value optional []

/-- The same scope with the optional marker set or cleared. -/
def withOptional (optional : Bool) : Scope → Scope
  | mk value _ dependencies => mk value optional dependencies

/-- The same scope with other dependencies. -/
def setDependencies (dependencies : List Scope) : Scope → Scope
  | mk value optional _ => mk value optional dependencies

@[simp] theorem value_mk (v : String) (o : Bool) (ds : List Scope) : (mk v o ds).value = v := rfl

@[simp] theorem optional_mk (v : String) (o : Bool) (ds : List Scope) :
    (mk v o ds).optional = o := rfl

@[simp] theorem dependencies_mk (v : String) (o : Bool) (ds : List Scope) :
    (mk v o ds).dependencies = ds := rfl

@[simp] theorem mk_eta (s : Scope) : mk s.value s.optional s.dependencies = s := by
  cases s; rfl

@[simp] theorem value_withOptional (o : Bool) (s : Scope) : (s.withOptional o).value = s.value := by
  cases s; rfl

@[simp] theorem dependencies_withOptional (o : Bool) (s : Scope) :
    (s.withOptional o).dependencies = s.dependencies := by
  cases s; rfl

@[simp] theorem value_setDependencies (ds : List Scope) (s : Scope) :
    (s.setDependencies ds).value = s.value := by
  cases s; rfl

@[simp] theorem optional_setDependencies (ds : List Scope) (s : Scope) :
    (s.setDependencies ds).optional = s.optional := by
  cases s; rfl

@[simp] theorem dependencies_setDependencies (ds : List Scope) (s : Scope) :
    (s.setDependencies ds).dependencies = ds := by
  cases s; rfl

@[simp] theorem setDependencies_dependencies (s : Scope) :
    s.setDependencies s.dependencies = s := by
  cases s; rfl

@[simp] theorem setDependencies_setDependencies (ds es : List Scope) (s : Scope) :
    (s.setDependencies ds).setDependencies es = s.setDependencies es := by
  cases s; rfl

mutual

/-- The number of scopes in the tree, the scope itself included. -/
def size : Scope → Nat
  | mk _ _ dependencies => sizeList dependencies + 1

/-- The number of scopes in a list of trees. -/
def sizeList : List Scope → Nat
  | [] => 0
  | s :: rest => s.size + sizeList rest

end

theorem size_pos (s : Scope) : 0 < s.size := by
  cases s; simp [size]

theorem size_eq (s : Scope) : s.size = sizeList s.dependencies + 1 := by
  cases s; rfl

@[simp] theorem sizeList_nil : sizeList [] = 0 := rfl

@[simp] theorem sizeList_cons (s : Scope) (rest : List Scope) :
    sizeList (s :: rest) = s.size + sizeList rest := rfl

@[simp] theorem sizeList_append (xs ys : List Scope) :
    sizeList (xs ++ ys) = sizeList xs + sizeList ys := by
  induction xs with
  | nil => simp
  | cons x xs ih => simp [ih, Nat.add_assoc]

theorem sizeList_perm {xs ys : List Scope} (h : xs.Perm ys) : sizeList xs = sizeList ys := by
  induction h with
  | nil => rfl
  | cons x _ ih => simp [ih]
  | swap x y l => simp; omega
  | trans _ _ ih₁ ih₂ => exact ih₁.trans ih₂

@[simp] theorem sizeList_reverse (xs : List Scope) : sizeList xs.reverse = sizeList xs :=
  sizeList_perm xs.reverse_perm

/-- Induction over a scope tree: a property of every scope follows from the step that assumes it of
the dependencies. -/
@[elab_as_elim, induction_eliminator]
theorem inductionOn {motive : Scope → Prop}
    (mk : ∀ v o ds, (∀ d ∈ ds, motive d) → motive (Scope.mk v o ds)) : ∀ s, motive s
  | Scope.mk v o ds => mk v o ds fun d _ => inductionOn mk d

/-- The dependency carrying `value`; sibling values do not repeat, so there is at most one. -/
def dependency? (s : Scope) (value : String) : Option Scope :=
  s.dependencies.find? (·.value == value)

/-- The longest chain of scopes among the pending ones, each with the number of scopes from the
root down to it, and `deepest`. Of the dependencies of a scope the last one comes first. -/
def depthLoop (deepest : Nat) : List (Scope × Nat) → Nat
  | [] => deepest
  | (s, level) :: pending =>
    depthLoop (max deepest level) (s.dependencies.reverse.map (·, level + 1) ++ pending)
termination_by pending => sizeList (pending.map Prod.fst)
decreasing_by
  simp [Function.comp_def, size_eq s]

/-- The number of levels of the tree; a scope without dependencies has one. -/
def depth (s : Scope) : Nat :=
  depthLoop 0 [(s, 1)]

end Scope

end ScopeGrant
