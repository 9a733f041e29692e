import ScopeGrant.Scope.Basic

/-!
# Rebuilding scope trees from the leaves up

Some operations take a tree apart and put it together again: copying it, and merging the repeated
siblings in it. They share one loop, which holds a row of tasks still to be done and the trees that
are already finished. A tree is opened into the tasks for its dependencies followed by the task that
closes it, and closing takes as many finished trees as the opened one had dependencies. How a list
of dependencies is turned into tasks is what distinguishes one operation from another; it is given
as an `Expansion`.
-/

namespace ScopeGrant.Scope

/-- Work that is still to be done while trees are rebuilt. -/
inductive Task where
  /-- Open the tree and rebuild it from its dependencies. -/
  | visit (s : Scope)
  /-- Take the tree as it is. -/
  | keep (s : Scope)
  /-- Make the `count` trees finished last the dependencies of a new scope. -/
  | close (value : String) (optional : Bool) (count : Nat)

namespace Task

/-- Twice the scopes that the task may still visit, and one for closing. -/
def weight : Task → Nat
  | .visit s => 2 * s.size
  | keep s => 2 * s.size
  | close _ _ _ => 1

/-- The weight of a row of tasks. -/
def weightList : List Task → Nat
  | [] => 0
  | t :: rest => t.weight + weightList rest

@[simp] theorem weightList_nil : weightList [] = 0 := rfl

@[simp] theorem weightList_cons (t : Task) (rest : List Task) :
    weightList (t :: rest) = t.weight + weightList rest := rfl

@[simp] theorem weightList_append (xs ys : List Task) :
    weightList (xs ++ ys) = weightList xs + weightList ys := by
  induction xs with
  | nil => simp
  | cons x xs ih => simp [ih, Nat.add_assoc]

end Task

/-- A way of turning the dependencies of a scope into tasks, which must not add scopes. -/
structure Expansion where
  /-- The tasks for a list of dependencies, in order. -/
  tasks : List Scope → List Task
  /-- The tasks visit no more scopes than the list holds. -/
  weightList_le : ∀ ds, Task.weightList (tasks ds) ≤ 2 * sizeList ds

namespace Expansion

/-- Do the tasks in order; `finished` holds the trees that are complete, newest first. -/
def run (e : Expansion) (finished : List Scope) : List Task → List Scope
  | [] => finished
  | .keep s :: rest => e.run (s :: finished) rest
  | .visit s :: rest =>
    let inner := e.tasks s.dependencies
    e.run finished (inner ++ .close s.value s.optional inner.length :: rest)
  | .close value optional count :: rest =>
    e.run (.mk value optional (finished.take count).reverse :: finished.drop count) rest
termination_by tasks => Task.weightList tasks
decreasing_by
  · have := s.size_pos
    simp [Task.weight]; omega
  · have := e.weightList_le s.dependencies
    have := s.size_eq
    simp [Task.weight]; omega
  · simp [Task.weight]

/-- The trees that a row of tasks produces, in order. -/
def results (e : Expansion) (tasks : List Task) : List Scope :=
  (e.run [] tasks).reverse

end Expansion

/-- The expansion that opens every dependency. -/
def copying : Expansion where
  tasks ds := ds.map .visit
  weightList_le ds := by
    induction ds with
    | nil => simp
    | cons d ds ih => simp [Task.weight]; omega

/-- A copy of the scope, every scope in it made anew. -/
def copy (s : Scope) : Scope :=
  mk s.value s.optional (copying.results (copying.tasks s.dependencies))

end ScopeGrant.Scope
