import ScopeGrant.Proofs.Checked.Operation
import ScopeGrant.Proofs.Scope.Rebuild
import ScopeGrant.Scope.Sibling
import Std.Data.ExtTreeMap

/-!
# Copies and merges take no more than there is

A copy is finished from the leaves up. A scope is closed by splitting off as many finished copies as
it has dependencies, and these are there, because the tasks for them stand before the task that
closes the scope (`Held`). A merge finds the earlier occurrence of a value by an index of places,
and every place that the index holds is one of the merged list (`Indexed`).
-/

namespace ScopeGrant.Scope

open Std (ExtTreeMap)

/-! ## Copies -/

/-- Do the tasks in order. A scope is closed by splitting off its dependencies from the finished
trees, the oldest of which comes first. -/
def Expansion.runChecked (e : Expansion) (finished : List Scope) : List Task → Option (List Scope)
  | [] => some finished
  | .keep s :: rest => e.runChecked (finished ++ [s]) rest
  | .visit s :: rest =>
    let inner := e.tasks s.dependencies
    e.runChecked finished (inner ++ .close s.value s.optional inner.length :: rest)
  | .close value optional count :: rest => do
    let (others, dependencies) ← splitAt? finished (← sub? finished.length count)
    e.runChecked (others ++ [.mk value optional dependencies]) rest
termination_by tasks => Task.weightList tasks
decreasing_by
  · have := s.size_pos
    simp [Task.weight]; omega
  · have := e.weightList_le s.dependencies
    have := s.size_eq
    simp [Task.weight]; omega
  · simp [Task.weight]

/-- A copy of the scope. -/
def copyChecked (s : Scope) : Option Scope := do
  let dependencies ← copying.runChecked [] (copying.tasks s.dependencies)
  return mk s.value s.optional dependencies

/-- With so many trees finished before, there are enough for each task that closes a scope. -/
def Held : Nat → List Task → Prop
  | _, [] => True
  | n, .visit _ :: rest => Held (n + 1) rest
  | n, .keep _ :: rest => Held (n + 1) rest
  | n, .close _ _ count :: rest => count ≤ n ∧ Held (n - count + 1) rest

/-- Each plain task leaves one more finished tree for those that follow. -/
theorem held_append {tasks : List Task} (ht : ∀ t ∈ tasks, t.Plain) (n : Nat) (rest : List Task) :
    Held n (tasks ++ rest) ↔ Held (n + tasks.length) rest := by
  induction tasks generalizing n with
  | nil => rfl
  | cons t tasks ih =>
    obtain ⟨hplain, ht⟩ := List.forall_mem_cons.1 ht
    rw [List.length_cons, ← Nat.add_assoc, Nat.add_right_comm, ← ih ht]
    cases t with
    | visit s => rfl
    | keep s => rfl
    | close v o count => exact hplain.elim

theorem held_of_plain {tasks : List Task} (ht : ∀ t ∈ tasks, t.Plain) (n : Nat) : Held n tasks := by
  rw [← List.append_nil tasks, held_append ht]
  trivial

/-- Where there are enough finished trees, none is asked for in vain. -/
theorem runChecked_eq {e : Expansion} (he : e.Plain) {finished : List Scope} {tasks : List Task}
    (h : Held finished.length tasks) :
    e.runChecked finished.reverse tasks = some (e.run finished tasks).reverse := by
  fun_induction Expansion.run e finished tasks with
  | case1 finished => rw [Expansion.runChecked]
  | case2 finished s rest ih =>
    rw [Expansion.runChecked, ← List.reverse_cons]
    exact ih h
  | case3 finished s rest inner ih =>
    rw [Expansion.runChecked]
    refine ih ((held_append (he _) _ _).2 ⟨Nat.le_add_left .., ?_⟩)
    rwa [Nat.add_sub_cancel]
  | case4 finished v o count rest ih =>
    obtain ⟨hcount, hrest⟩ := h
    have hback : finished.length - (finished.length - count) = count := Nat.sub_sub_self hcount
    have hsplit : splitAt? finished.reverse (finished.length - count) =
        some ((finished.drop count).reverse, (finished.take count).reverse) := by
      rw [splitAt?_eq_some (by simp), List.take_reverse, List.drop_reverse, hback]
    rw [Expansion.runChecked, List.length_reverse, sub?_eq_some hcount]
    simp only [Option.bind_eq_bind, Option.bind_some, hsplit]
    rw [← List.reverse_cons]
    refine ih ?_
    rwa [List.length_cons, List.length_drop]

/-- No copy is split off that is not finished, and what comes out is the copy. -/
theorem copyChecked_eq (s : Scope) : s.copyChecked = some s.copy := by
  have hheld : Held ([] : List Scope).length (copying.tasks s.dependencies) :=
    held_of_plain (copying_plain s.dependencies) 0
  have hrun := runChecked_eq copying_plain hheld
  rw [List.reverse_nil] at hrun
  rw [copyChecked, hrun]
  rfl

-- a task that closes a scope before its dependency is finished is refused
example : copying.runChecked [] [.close "a" false 1, .visit (.leaf "b" false)] = none := by cbv

/-! ## Merges -/

/-- Put a scope into a merged list, with an index that holds the place of each value in the list. -/
def absorbChecked : ExtTreeMap String Nat × Array Merged → Scope →
    Option (ExtTreeMap String Nat × Array Merged)
  | (index, merged), s =>
    match index[s.value]? with
    | none => some (index.insert s.value merged.size, merged.push (.ofScope s))
    | some place => do
      let m ← merged[place]?
      return (index, merged.setIfInBounds place (m.absorb s))

/-- The merged list of a list of scopes. -/
def mergeSiblingsChecked (ds : List Scope) : Option (List Merged) := do
  let (_, merged) ← ds.foldlM absorbChecked (∅, #[])
  return merged.toList

/-- The index holds the places of the values in the list, and no others. -/
def Indexed (index : ExtTreeMap String Nat) (merged : Array Merged) : Prop :=
  ∀ v place, index[v]? = some place ↔
    ∃ m : Merged, merged[place]? = some m ∧ m.scope.value = v

theorem absorbInto_of_forall_ne {s : Scope} {ms : List Merged}
    (h : ∀ m ∈ ms, m.scope.value ≠ s.value) : absorbInto s ms = ms ++ [.ofScope s] := by
  induction ms with
  | nil => rfl
  | cons m ms ih =>
    obtain ⟨hm, hms⟩ := List.forall_mem_cons.1 h
    rw [absorbInto, if_neg (by simpa using hm), ih hms, List.cons_append]

theorem absorbInto_of_getElem? {s : Scope} {ms : List Merged} {place : Nat} {m : Merged}
    (hm : ms[place]? = some m) (hv : m.scope.value = s.value)
    (hfirst : ∀ i < place, ∀ m', ms[i]? = some m' → m'.scope.value ≠ s.value) :
    absorbInto s ms = ms.set place (m.absorb s) := by
  induction ms generalizing place with
  | nil => cases hm
  | cons n ms ih =>
    cases place with
    | zero =>
      cases hm
      rw [absorbInto, if_pos (by simpa using hv), List.set_cons_zero]
    | succ place =>
      have hn : n.scope.value ≠ s.value := hfirst 0 (Nat.zero_lt_succ _) n rfl
      rw [absorbInto, if_neg (by simpa using hn), List.set_cons_succ]
      exact congrArg _ (ih hm fun i hi => hfirst (i + 1) (Nat.succ_lt_succ hi))

namespace Indexed

variable {index : ExtTreeMap String Nat} {merged : Array Merged} {s : Scope}

/-- A scope with a new value goes to the end of the list. -/
theorem push (h : Indexed index merged) (hnew : index[s.value]? = none) :
    Indexed (index.insert s.value merged.size) (merged.push (.ofScope s)) := by
  intro v place
  have hbehind : merged[merged.size]? = none := Array.getElem?_eq_none (Nat.le_refl _)
  rw [ExtTreeMap.getElem?_insert, Array.getElem?_push]
  by_cases hplace : place = merged.size
  · subst hplace
    have hother : index[v]? ≠ some merged.size := by
      intro hv
      obtain ⟨m, hm, -⟩ := (h v merged.size).1 hv
      rw [hbehind] at hm
      cases hm
    by_cases hv : s.value = v
    · simp [hv, Merged.ofScope]
    · simp [hv, hother, Merged.ofScope]
  · rw [if_neg hplace, ← h v place]
    by_cases hv : s.value = v
    · subst hv
      simp [hnew, Ne.symm hplace]
    · simp [hv]

/-- A scope that is taken in at the place of its value does not change the value there. -/
theorem set (h : Indexed index merged) {place : Nat} {m : Merged} (hm : merged[place]? = some m)
    (s : Scope) : Indexed index (merged.setIfInBounds place (m.absorb s)) := by
  intro v p
  rw [h v p]
  by_cases hp : place = p
  · subst hp
    rw [Array.getElem?_setIfInBounds_self_of_lt (Array.getElem?_eq_some_iff.1 hm).1, hm]
    simp [Merged.absorb]
  · rw [Array.getElem?_setIfInBounds_ne hp]

/-- The place of a value that the index knows is one of the list. -/
theorem absorbChecked_eq (h : Indexed index merged) (s : Scope) :
    ∃ index' merged', absorbChecked (index, merged) s = some (index', merged') ∧
      Indexed index' merged' ∧ merged'.toList = absorbInto s merged.toList := by
  cases hplace : index[s.value]? with
  | none =>
    have hnone : ∀ m ∈ merged.toList, m.scope.value ≠ s.value := by
      intro m hm hv
      obtain ⟨place, hm⟩ := List.mem_iff_getElem?.1 hm
      rw [Array.getElem?_toList] at hm
      rw [(h s.value place).2 ⟨m, hm, hv⟩] at hplace
      cases hplace
    refine ⟨_, _, by rw [absorbChecked, hplace], h.push hplace, ?_⟩
    rw [Array.toList_push, absorbInto_of_forall_ne hnone]
  | some place =>
    obtain ⟨m, hm, hv⟩ := (h s.value place).1 hplace
    have hfirst : ∀ i < place, ∀ m', merged.toList[i]? = some m' → m'.scope.value ≠ s.value := by
      intro i hi m' hm' hv'
      rw [Array.getElem?_toList] at hm'
      rw [(h s.value i).2 ⟨m', hm', hv'⟩, Option.some.injEq] at hplace
      omega
    refine ⟨index, _, by rw [absorbChecked, hplace]; simp only [hm]; rfl, h.set hm s, ?_⟩
    rw [Array.toList_setIfInBounds]
    exact (absorbInto_of_getElem? (by rw [Array.getElem?_toList, hm]) hv hfirst).symm

theorem foldlM_absorbChecked_eq (h : Indexed index merged) (ds : List Scope) :
    ∃ index' merged', ds.foldlM absorbChecked (index, merged) = some (index', merged') ∧
      merged'.toList = ds.foldl (fun merged s => absorbInto s merged) merged.toList := by
  induction ds generalizing index merged with
  | nil => exact ⟨index, merged, rfl, rfl⟩
  | cons d ds ih =>
    obtain ⟨index', merged', hd, hnext, hlist⟩ := h.absorbChecked_eq d
    rw [List.foldlM_cons, hd, List.foldl_cons, ← hlist]
    exact ih hnext

end Indexed

/-- No place is asked for that the merged list does not have. -/
theorem mergeSiblingsChecked_eq (ds : List Scope) :
    mergeSiblingsChecked ds = some (mergeSiblings ds) := by
  have hstart : Indexed ∅ #[] := by
    intro v place
    simp
  obtain ⟨index, merged, hrun, hlist⟩ := hstart.foldlM_absorbChecked_eq ds
  rw [mergeSiblingsChecked, hrun]
  exact congrArg some hlist

end ScopeGrant.Scope
