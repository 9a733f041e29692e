import ScopeGrant.Scope.Rebuild
import Mathlib.Logic.Function.Iterate

/-!
# Rebuilding is a structural recursion

The loop that rebuilds scope trees keeps its tasks and the finished trees on flat lists. Where every
task that comes from a list of dependencies makes exactly one tree, as in copying and in merging,
what the loop yields is a plain recursion: each task has an `outcome`, and a row of tasks yields the
outcomes in order (`results_eq`). Round by round, the loop leaves less to be done, so it ends after
no more rounds than its tasks weigh (`Expansion.iterate_advance`).
-/

namespace ScopeGrant.Scope

/-- The task makes one tree from nothing that is finished already. -/
def Task.Plain : Task → Prop
  | .visit _ => True
  | keep _ => True
  | close _ _ _ => False

/-- Every list of dependencies is turned into plain tasks. -/
def Expansion.Plain (e : Expansion) : Prop :=
  ∀ ds, ∀ t ∈ e.tasks ds, t.Plain

/-- The tree that a plain task makes. -/
def Expansion.outcome (e : Expansion) : Task → Scope
  | .visit s => .mk s.value s.optional (e.results (e.tasks s.dependencies))
  | .keep s => s
  | .close value optional _ => leaf value optional

/-- Closing takes the trees that were finished last, in the order in which they were made. -/
theorem run_close (e : Expansion) (made finished : List Scope) (v : String) (o : Bool)
    (rest : List Task) :
    e.run (made.reverse ++ finished) (.close v o made.length :: rest) =
      e.run (mk v o made :: finished) rest := by
  have htake : (made.reverse ++ finished).take made.length = made.reverse := by
    rw [← made.length_reverse, List.take_left]
  have hdrop : (made.reverse ++ finished).drop made.length = finished := by
    rw [← made.length_reverse, List.drop_left]
  rw [Expansion.run, htake, hdrop, List.reverse_reverse]

/-- What is finished in the end was finished first last. -/
theorem results_of_run {e : Expansion} {tasks : List Task} {made : List Scope}
    (h : e.run [] (tasks ++ []) = e.run (made.reverse ++ []) []) : e.results tasks = made := by
  simp only [List.append_nil] at h
  rw [Expansion.results, h, Expansion.run, List.reverse_reverse]

/-- Plain tasks put their outcomes on the finished trees, whatever tasks follow. The induction is on
the weight of the tasks, since visiting replaces a task by those for its dependencies. -/
theorem run_append {e : Expansion} (he : e.Plain) (tasks rest : List Task) (finished : List Scope)
    (ht : ∀ t ∈ tasks, t.Plain) :
    e.run finished (tasks ++ rest) =
      e.run ((tasks.map e.outcome).reverse ++ finished) rest := by
  induction hn : Task.weightList tasks using Nat.strongRecOn generalizing tasks rest finished with
  | ind n ih =>
    subst hn
    cases tasks with
    | nil => rfl
    | cons t tasks =>
      have htail : ∀ t ∈ tasks, t.Plain := fun x hx => ht x (List.mem_cons_of_mem _ hx)
      cases t with
      | close v o count => exact (ht _ (List.mem_cons_self ..)).elim
      | keep s =>
        have hlt : Task.weightList tasks < Task.weightList (.keep s :: tasks) := by
          have := s.size_pos
          simp [Task.weight]; omega
        rw [List.cons_append, Expansion.run, ih _ hlt tasks rest (s :: finished) htail rfl]
        simp [Expansion.outcome]
      | visit s =>
        have hle := e.weightList_le s.dependencies
        have hsize := s.size_eq
        have hinner : Task.weightList (e.tasks s.dependencies) <
            Task.weightList (.visit s :: tasks) := by
          simp [Task.weight]; omega
        have hlt : Task.weightList tasks < Task.weightList (.visit s :: tasks) := by
          simp [Task.weight]; omega
        -- the induction hypothesis serves twice: here, and for the results in the outcome
        have hres : e.results (e.tasks s.dependencies) =
            (e.tasks s.dependencies).map e.outcome :=
          results_of_run (ih _ hinner _ [] [] (he _) rfl)
        rw [List.cons_append, Expansion.run, ih _ hinner _ _ _ (he _) rfl,
          ← (e.tasks s.dependencies).length_map e.outcome, run_close,
          ih _ hlt tasks rest _ htail rfl]
        simp [Expansion.outcome, hres]

/-- A row of plain tasks yields the outcomes of its tasks, in order. -/
theorem results_eq {e : Expansion} (he : e.Plain) {tasks : List Task}
    (ht : ∀ t ∈ tasks, t.Plain) : e.results tasks = tasks.map e.outcome :=
  results_of_run (run_append he tasks [] [] ht)

theorem copying_plain : copying.Plain := by
  intro ds t ht
  obtain ⟨d, -, rfl⟩ := List.mem_map.1 ht
  trivial

/-- A copy is the same tree, the stored order of the dependencies included. -/
theorem copy_eq (s : Scope) : s.copy = s := by
  induction s with
  | mk v o ds ih =>
    have hres := results_eq copying_plain (copying_plain ds)
    have hmap : (copying.tasks ds).map copying.outcome = ds.map copy := by
      change (ds.map Task.visit).map copying.outcome = ds.map copy
      rw [List.map_map]
      rfl
    rw [copy, dependencies_mk, hres, hmap, List.map_congr_left ih, List.map_id']
    rfl

/-! ## Round by round -/

/-- One round of the loop, on the trees that are finished and the tasks that are left. -/
def Expansion.advance (e : Expansion) : List Scope × List Task → List Scope × List Task
  | (finished, []) => (finished, [])
  | (finished, .keep s :: rest) => (s :: finished, rest)
  | (finished, .visit s :: rest) =>
    let inner := e.tasks s.dependencies
    (finished, inner ++ .close s.value s.optional inner.length :: rest)
  | (finished, .close value optional count :: rest) =>
    (.mk value optional (finished.take count).reverse :: finished.drop count, rest)

/-- A round does not change what the loop comes to, and it leaves less to be done. -/
theorem Expansion.advance_cons (e : Expansion) (finished : List Scope) (t : Task)
    (rest : List Task) :
    ∃ finished' rest', e.advance (finished, t :: rest) = (finished', rest') ∧
      e.run finished' rest' = e.run finished (t :: rest) ∧
      Task.weightList rest' < Task.weightList (t :: rest) := by
  cases t with
  | keep s =>
    have hsize := s.size_pos
    refine ⟨_, _, rfl, by rw [Expansion.run], ?_⟩
    simp [Task.weight]
    omega
  | visit s =>
    have hsize := s.size_eq
    have hle := e.weightList_le s.dependencies
    refine ⟨_, _, rfl, by rw [Expansion.run], ?_⟩
    simp [Task.weight]
    omega
  | close value optional count =>
    refine ⟨_, _, rfl, by rw [Expansion.run], ?_⟩
    simp [Task.weight]

/-- The loop ends: after as many rounds as the tasks weigh, none of them is left. -/
theorem Expansion.iterate_advance (e : Expansion) {rounds : Nat} (finished : List Scope)
    {tasks : List Task} (h : Task.weightList tasks ≤ rounds) :
    e.advance^[rounds] (finished, tasks) = (e.run finished tasks, []) := by
  induction rounds generalizing finished tasks with
  | zero =>
    cases tasks with
    | nil => rw [Expansion.run]; rfl
    | cons t rest =>
      obtain ⟨-, rest', -, -, hlt⟩ := e.advance_cons finished t rest
      omega
  | succ rounds ih =>
    cases tasks with
    | nil =>
      rw [Expansion.run]
      exact Function.iterate_fixed rfl _
    | cons t rest =>
      obtain ⟨finished', rest', hround, hrun, hlt⟩ := e.advance_cons finished t rest
      rw [Function.iterate_succ_apply, hround, ← hrun]
      exact ih finished' (by omega)

end ScopeGrant.Scope
