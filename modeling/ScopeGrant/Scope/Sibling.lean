import ScopeGrant.Scope.Rebuild

/-!
# Merging repeated siblings

Among the dependencies of one scope each value stands once. Where a list repeats a value, the first
occurrence keeps its place and takes in the others: it stays optional only if all of them are, and
their dependency lists are appended to its own. A list that has taken in another one may now repeat
values itself, so it is merged in its turn; a list that has not is left as it is.
-/

namespace ScopeGrant.Scope

/-- A scope in a merged list. -/
structure Merged where
  /-- The scope, with what it has taken in. -/
  scope : Scope
  /-- Whether its dependency list has taken in another one, and so may repeat values. -/
  grown : Bool

namespace Merged

/-- A scope that has taken in nothing. -/
def ofScope (s : Scope) : Merged :=
  ⟨s, false⟩

/-- Take in another occurrence of the same value. -/
def absorb (m : Merged) (s : Scope) : Merged :=
  ⟨.mk m.scope.value (m.scope.optional && s.optional) (m.scope.dependencies ++ s.dependencies),
    m.grown || !s.dependencies.isEmpty⟩

/-- Only a list that has grown is opened again. -/
def task (m : Merged) : Task :=
  if m.grown then .visit m.scope else .keep m.scope

@[simp] theorem weight_task (m : Merged) : m.task.weight = 2 * m.scope.size := by
  unfold task
  split <;> rfl

theorem size_absorb_le (m : Merged) (s : Scope) :
    (m.absorb s).scope.size ≤ m.scope.size + s.size := by
  simp [absorb, size_eq m.scope, size_eq s, size]
  omega

end Merged

/-- Put a scope into a merged list: into the occurrence of its value, or at the end. -/
def absorbInto (s : Scope) : List Merged → List Merged
  | [] => [.ofScope s]
  | m :: rest =>
    if m.scope.value == s.value then m.absorb s :: rest else m :: absorbInto s rest

/-- Merge the repeated values of a list, without looking below it. -/
def mergeSiblings (ds : List Scope) : List Merged :=
  ds.foldl (fun merged s => absorbInto s merged) []

theorem weightList_absorbInto_le (s : Scope) (ms : List Merged) :
    Task.weightList ((absorbInto s ms).map Merged.task) ≤
      Task.weightList (ms.map Merged.task) + 2 * s.size := by
  induction ms with
  | nil => simp [absorbInto, Merged.ofScope]
  | cons m ms ih =>
    simp only [absorbInto]
    split
    · have := m.size_absorb_le s
      simp; omega
    · simp; omega

theorem weightList_foldl_absorbInto_le (ds : List Scope) (ms : List Merged) :
    Task.weightList ((ds.foldl (fun merged s => absorbInto s merged) ms).map Merged.task) ≤
      Task.weightList (ms.map Merged.task) + 2 * sizeList ds := by
  induction ds generalizing ms with
  | nil => simp
  | cons d ds ih =>
    have h₁ := ih (absorbInto d ms)
    have h₂ := weightList_absorbInto_le d ms
    simp; omega

/-- The expansion that merges the repeated values of each list it opens. -/
def merging : Expansion where
  tasks ds := (mergeSiblings ds).map Merged.task
  weightList_le ds := by
    simpa [mergeSiblings] using weightList_foldl_absorbInto_le ds []

/-- The scopes of a merged list, with the lists that have grown merged in their turn. -/
def settle (ms : List Merged) : List Scope :=
  merging.results (ms.map Merged.task)

/-- A list of siblings with repeated values merged, at every level where merging brings them
together. -/
def normalize (ds : List Scope) : List Scope :=
  settle (mergeSiblings ds)

end ScopeGrant.Scope
