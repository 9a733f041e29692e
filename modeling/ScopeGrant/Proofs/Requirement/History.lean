import ScopeGrant.Proofs.Requirement.Decision
import ScopeGrant.Proofs.Requirement.Demand
import ScopeGrant.Proofs.Scope.Acceptance

/-!
# What a row of updates leaves

A requirement set is changed in place, and a change can fail. A demand is settled before the entry
of its server is touched (`insert_run`), so a call either appends what is demanded to one server or
leaves the whole set alone. What a row of calls leaves is told by the calls that succeed
(`get?_run`), wherever the others stand between them.
-/

namespace ScopeGrant

open Scope

/-! ## Calls -/

/-- The text breaks the grammar, or it writes a scope that comes to depend on its own value. -/
def Unreadable (text : String) : Prop :=
  (∀ ds, ¬ Expression ds text.toList) ∨ ∃ ds, Expression ds text.toList ∧ ∃ d ∈ ds, ¬ d.Acyclic

theorem unreadable_iff (text : String) :
    Unreadable text ↔ ∃ e, Scope.parse text = .error e := by
  have hread := Parser.exists_parse_eq_ok_iff text
  have hfails : (∃ e, Scope.parse text = .error e) ↔ ¬ ∃ scopes, Scope.parse text = .ok scopes := by
    rw [exists_eq_ok_iff]
    simp only [ne_eq, not_forall, not_not]
  rw [hfails, hread, not_and_or, not_exists, Unreadable]
  simp only [not_forall, exists_prop]

/-- A demand can fail to be settled only as a text that cannot be read. -/
theorem Demand.exists_stated_eq_error_iff (demand : Demand) :
    (∃ e, demand.stated = .error e) ↔ ∃ text, demand = .text text ∧ Unreadable text := by
  cases demand with
  | text input => simp [stated, unreadable_iff]
  | one s => simp [stated]
  | many scopes => simp [stated]
  | lentOne s => simp [stated]
  | lentMany scopes => simp [stated]

/-- A call that adds to a requirement set. -/
inductive Update where
  /-- Append what a caller requires of a server. -/
  | insert (server : String) (demand : Demand)
  /-- Append the scopes of an expression to those of a server. -/
  | addScope (server scope : String)

namespace Update

/-- The server that the call is about. -/
def server : Update → String
  | insert server _ => server
  | addScope server _ => server

/-- What the call demands. -/
def demand : Update → Demand
  | insert _ demand => demand
  | addScope _ scope => .text scope

/-- What the call does to a requirement set. -/
def perform : Update → Requirements.Change Unit
  | insert server demand => Requirements.insert server demand
  | addScope server scope => Requirements.addScope server scope

/-- The demand of the call can be settled. -/
def Succeeds (u : Update) : Prop :=
  ∃ scopes, u.demand.stated = .ok scopes

/-- What the calls that succeed add for a server, in the order of the calls. -/
def gained (name : String) (updates : List Update) : List Scope :=
  ((updates.filter fun u => u.server = name).filterMap fun u => u.demand.stated.toOption).flatten

end Update

namespace Requirements

open Update

variable {q : Requirements} {u : Update} {updates : List Update} {name : String}
  {scopes : List Scope}

/-- The answer to a call, and the set that it leaves. -/
def answer (q : Requirements) (u : Update) : Except ScopeError Unit × Requirements :=
  match u.perform.run q with
  | .ok result next => (.ok result, next)
  | .error e left => (.error e, left)

/-- The answers to calls that are made one after the other, and the set that they leave. -/
def run (q : Requirements) : List Update → List (Except ScopeError Unit) × Requirements
  | [] => ([], q)
  | u :: updates =>
    let (result, next) := q.answer u
    let (results, last) := next.run updates
    (result :: results, last)

/-! ## One call -/

/-- Nothing is appended before the demand is settled: an insertion that fails leaves the set as it
was. -/
theorem insert_run (q : Requirements) (server : String) (demand : Demand) :
    (insert server demand).run q = match demand.stated with
      | .ok scopes => .ok () (q.append server scopes)
      | .error e => .error e q := by
  rw [← demand.scopes_eq_stated, insert]
  cases demand.scopes <;> rfl

theorem perform_run (q : Requirements) (u : Update) :
    u.perform.run q = match u.demand.stated with
      | .ok scopes => .ok () (q.append u.server scopes)
      | .error e => .error e q := by
  cases u with
  | insert server demand => exact insert_run q server demand
  | addScope server scope => exact insert_run q server (.text scope)

theorem answer_of_ok (q : Requirements) (h : u.demand.stated = .ok scopes) :
    q.answer u = (.ok (), q.append u.server scopes) := by
  rw [answer, perform_run, h]

theorem answer_of_error {e : ScopeError} (q : Requirements) (h : u.demand.stated = .error e) :
    q.answer u = (.error e, q) := by
  rw [answer, perform_run, h]

theorem exists_perform_eq_error_iff (q : Requirements) (u : Update) :
    (∃ e left, u.perform.run q = .error e left) ↔
      ∃ text, u.demand = .text text ∧ Unreadable text := by
  rw [← u.demand.exists_stated_eq_error_iff, perform_run]
  cases u.demand.stated with
  | ok scopes => exact iff_of_false nofun nofun
  | error e => exact iff_of_true ⟨e, q, rfl⟩ ⟨e, rfl⟩

theorem eq_of_perform_eq_error {e : ScopeError} {left : Requirements}
    (h : u.perform.run q = .error e left) : left = q := by
  rw [perform_run] at h
  cases hstated : u.demand.stated with
  | ok scopes =>
    rw [hstated] at h
    cases h
  | error e' =>
    rw [hstated] at h
    cases h
    rfl

/-! ## A row of calls -/

theorem run_cons (q : Requirements) (u : Update) (updates : List Update) :
    (q.run (u :: updates)).2 = ((q.answer u).2.run updates).2 :=
  rfl

theorem run_answers (q : Requirements) (updates : List Update) :
    (q.run updates).1 = updates.map fun u => u.demand.stated.map fun _ => () := by
  induction updates generalizing q with
  | nil => rfl
  | cons u updates ih =>
    show (q.answer u).1 :: ((q.answer u).2.run updates).1 = _
    rw [ih, List.map_cons]
    cases hstated : u.demand.stated with
    | ok scopes =>
      rw [answer_of_ok q hstated]
      rfl
    | error e =>
      rw [answer_of_error q hstated]
      rfl

theorem gained_cons_of_ok (h : u.demand.stated = .ok scopes) :
    gained name (u :: updates) =
      (if u.server = name then scopes else []) ++ gained name updates := by
  rw [gained, List.filter_cons]
  by_cases hname : u.server = name
  · rw [if_pos (decide_eq_true hname), if_pos hname, List.filterMap_cons, h]
    rfl
  · rw [if_neg (by simpa using hname), if_neg hname]
    rfl

theorem gained_cons_of_error {e : ScopeError} (h : u.demand.stated = .error e) :
    gained name (u :: updates) = gained name updates := by
  rw [gained, List.filter_cons]
  split
  · rw [List.filterMap_cons, h]
    rfl
  · rfl

/-- A server is stored if it was stored at the start or a call for it succeeds. What is stored for
it then is what was stored at the start, followed by what the calls for it gain. -/
theorem get?_run (q : Requirements) (updates : List Update) (name : String) (scopes : List Scope) :
    (q.run updates).2.get? name = some scopes ↔
      (name ∈ q.serverNames ∨ ∃ u ∈ updates, u.server = name ∧ u.Succeeds) ∧
        scopes = (q.get? name).getD [] ++ gained name updates := by
  induction updates generalizing q with
  | nil =>
    rw [mem_serverNames_iff]
    show q.get? name = some scopes ↔ _
    cases q.get? name <;> simp [gained, eq_comm]
  | cons u updates ih =>
    rw [run_cons, List.exists_mem_cons_iff]
    cases hstated : u.demand.stated with
    | error e =>
      have hfails : ¬ u.Succeeds := by
        rintro ⟨added, hadded⟩
        rw [hstated] at hadded
        cases hadded
      rw [answer_of_error q hstated, ih, gained_cons_of_error hstated]
      simp only [hfails, and_false, false_or]
    | ok added =>
      have hsucceeds : u.Succeeds := ⟨added, hstated⟩
      rw [answer_of_ok q hstated, ih, gained_cons_of_ok hstated, mem_serverNames_iff, get?_append]
      by_cases hname : u.server = name
      · -- the call is what the server is stored for, if it was not stored before
        subst hname
        simp [hsucceeds]
      · simp only [hname, if_false, false_and, false_or, List.nil_append, mem_serverNames_iff]

/-- Whatever calls are made, a call fails exactly for a text that cannot be read, and then it leaves
the set as it was. The servers that are stored in the end are those of the start and those for which
a call succeeded. Each has what was stored for it, followed by what these calls demanded, in the
order of the calls. The set lists them in the order of the bytes of their names, each once. -/
theorem run_stores_what_succeeds (q : Requirements) (updates : List Update) :
    let next := (q.run updates).2
    (q.run updates).1 = updates.map (fun u => u.demand.stated.map fun _ => ()) ∧
    (∀ name, name ∈ next.serverNames ↔
      name ∈ q.serverNames ∨ ∃ u ∈ updates, u.server = name ∧ u.Succeeds) ∧
    (∀ name scopes, next.get? name = some scopes ↔
      name ∈ next.serverNames ∧ scopes = (q.get? name).getD [] ++ gained name updates) ∧
    (next.toList.map Prod.fst = next.serverNames ∧
      (∀ name scopes, (name, scopes) ∈ next.toList ↔ next.get? name = some scopes) ∧
      next.serverNames.Pairwise fun a b => Text.utf8 a < Text.utf8 b) ∧
    ∀ u : Update,
      ((∃ e left, u.perform.run next = .error e left) ↔
        ∃ text, u.demand = .text text ∧ Unreadable text) ∧
      ∀ e left, u.perform.run next = .error e left → left = next := by
  intro next
  have hnames : ∀ name, name ∈ next.serverNames ↔
      name ∈ q.serverNames ∨ ∃ u ∈ updates, u.server = name ∧ u.Succeeds := by
    intro name
    rw [mem_serverNames_iff]
    simp only [next, get?_run, exists_and_left, exists_eq, and_true]
  refine ⟨run_answers q updates, hnames, fun name scopes => ?_, ⟨?_, fun _ _ => mem_toList_iff, ?_⟩,
    fun u => ⟨exists_perform_eq_error_iff next u, fun e left h => eq_of_perform_eq_error h⟩⟩
  · rw [hnames]
    exact get?_run q updates name scopes
  · exact Std.ExtTreeMap.map_fst_toList_eq_keys
  · rw [serverNames, ← Std.ExtTreeMap.map_fst_toList_eq_keys, List.pairwise_map]
    exact (pairwise_toList next).imp Text.lt_iff_utf8_lt.1

/-- A call that fails makes no entry, and one that demands nothing does. -/
theorem run_stores_what_succeeds_of_failures :
    let calls : List Update := [.insert "b" (.lentOne (.leaf "x" false)), .addScope "c" "a[",
      .insert "b" (.text "y[y]"), .addScope "a" " ", .insert "b" (.many [.leaf "z" true])]
    let next := (run {} calls).2
    (run {} calls).1.map Except.toBool = [true, false, false, true, true] ∧
      next.serverNames = ["a", "b"] ∧
      next.get? "b" = some [.leaf "x" false, .leaf "z" true] ∧
      ∃ e, (Update.addScope "c" "a[").perform.run next = .error e next := by
  intro calls next
  obtain ⟨hanswers, -, hget, -, hcalls⟩ := run_stores_what_succeeds {} calls
  have hnames : next.serverNames = ["a", "b"] := by decide +kernel
  obtain ⟨eopen, hopen⟩ : ∃ e, Scope.parse "a[" = .error e :=
    exists_eq_error_iff.2 (by decide +kernel)
  obtain ⟨ecycle, hcycle⟩ : ∃ e, Scope.parse "y[y]" = .error e :=
    exists_eq_error_iff.2 (by decide +kernel)
  have hgained : gained "b" calls = [.leaf "x" false, .leaf "z" true] := by
    rw [gained_cons_of_ok rfl, gained_cons_of_error (u := .addScope ..) hopen,
      gained_cons_of_error (u := .insert _ (.text _)) hcycle]
    rfl
  obtain ⟨hfails, hleaves⟩ := hcalls (.addScope "c" "a[")
  obtain ⟨e, left, hrun⟩ := hfails.2 ⟨_, rfl, (unreadable_iff _).2 ⟨eopen, hopen⟩⟩
  refine ⟨?_, hnames, (hget _ _).2 ⟨?_, ?_⟩, e, ?_⟩
  · rw [hanswers]
    decide +kernel
  · rw [hnames]
    decide
  · rw [hgained]
    rfl
  · rw [hrun, hleaves e left hrun]

end Requirements

end ScopeGrant
