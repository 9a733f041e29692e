import ScopeGrant.Proofs.Text.ByteOrder
import ScopeGrant.Requirement.Set
import Mathlib.Data.List.Nodup

/-!
# What a check reports

A check goes through the scopes of all servers and collects what is not met, while a question about
one server looks at the scopes of that server alone and stops at the first that is not met. They
agree, because the part of the report that is about a server is what is not met of the scopes that
are stored for it (`filter_missing_check`).
-/

namespace ScopeGrant

namespace Decision

theorem missing_ofMissing (missing : List Unmet) : (ofMissing missing).missing = missing := by
  cases missing <;> rfl

theorem ofMissing_cases (missing : List Unmet) :
    (ofMissing missing = satisfied ∧ missing = []) ∨
      (ofMissing missing = unmet missing ∧ missing ≠ []) := by
  cases missing with
  | nil => exact Or.inl ⟨rfl, rfl⟩
  | cons u rest => exact Or.inr ⟨rfl, List.cons_ne_nil u rest⟩

end Decision

namespace Requirements

variable {q : Requirements} {f : ConsentForest} {name : String} {scopes : List Scope}

/-! ## The stored scopes -/

theorem get?_append (q : Requirements) (server : String) (scopes : List Scope) (name : String) :
    (q.append server scopes).get? name =
      if server = name then some ((q.get? server).getD [] ++ scopes) else q.get? name := by
  unfold append get?
  rw [Std.ExtTreeMap.getElem?_insert, Std.ExtTreeMap.getD_eq_getD_getElem?]
  by_cases hname : server = name
  · rw [if_pos (Std.compare_eq_iff_eq.2 hname), if_pos hname]
  · rw [if_neg fun heq => hname (Std.compare_eq_iff_eq.1 heq), if_neg hname]

theorem mem_toList_iff : (name, scopes) ∈ q.toList ↔ q.get? name = some scopes :=
  Std.ExtTreeMap.mem_toList_iff_getElem?_eq_some

theorem mem_serverNames_iff : name ∈ q.serverNames ↔ ∃ scopes, q.get? name = some scopes := by
  rw [serverNames, Std.ExtTreeMap.mem_keys, ← Std.ExtTreeMap.isSome_getElem?_iff_mem,
    Option.isSome_iff_exists]
  rfl

theorem pairwise_toList (q : Requirements) : q.toList.Pairwise fun a b => a.1 < b.1 := by
  have hordered := q.servers.ordered_keys_toList
  exact hordered.imp compareOfLessAndEq_eq_lt.1

theorem nodup_toList (q : Requirements) : q.toList.Nodup := by
  refine (pairwise_toList q).imp ?_
  rintro a b hlt rfl
  exact lt_irrefl a.1 hlt

theorem filter_toList (q : Requirements) (name : String) :
    (q.toList.filter fun entry => entry.1 = name) =
      (q.get? name).toList.map fun scopes => (name, scopes) := by
  have hmem : ∀ entry, (entry ∈ q.toList.filter fun entry => entry.1 = name) ↔
      entry.1 = name ∧ q.get? name = some entry.2 := by
    rintro ⟨other, scopes⟩
    rw [List.mem_filter, mem_toList_iff, decide_eq_true_iff, and_comm]
    refine and_congr_right fun hname => ?_
    rw [show other = name from hname]
  cases hget : q.get? name with
  | none =>
    refine List.eq_nil_iff_forall_not_mem.2 fun entry hentry => ?_
    have hsome := ((hmem entry).1 hentry).2
    rw [hget] at hsome
    cases hsome
  | some scopes =>
    refine List.perm_singleton.1 ?_
    rw [List.perm_ext_iff_of_nodup ((nodup_toList q).filter _) (List.nodup_singleton _)]
    intro entry
    rw [hmem, hget, List.mem_singleton, Option.some.injEq, Prod.ext_iff, eq_comm (a := scopes)]

/-! ## The report -/

/-- What a server lacks. -/
def lacking (f : ConsentForest) (name : String) (scopes : List Scope) : List Unmet :=
  (scopes.filter fun s => !f.meets s).map fun s => ⟨name, s⟩

theorem mem_lacking_iff {u : Unmet} :
    u ∈ lacking f name scopes ↔ u.server = name ∧ u.scope ∈ scopes ∧ f.meets u.scope = false := by
  obtain ⟨server, scope⟩ := u
  simp only [lacking, List.mem_map, List.mem_filter, Bool.not_eq_true', Unmet.mk.injEq]
  constructor
  · rintro ⟨s, ⟨hstored, hmeets⟩, rfl, rfl⟩
    exact ⟨rfl, hstored, hmeets⟩
  · rintro ⟨rfl, hstored, hmeets⟩
    exact ⟨scope, ⟨hstored, hmeets⟩, rfl, rfl⟩

theorem missing_check (q : Requirements) (f : ConsentForest) :
    (q.check f).missing = q.toList.flatMap fun entry => lacking f entry.1 entry.2 :=
  Decision.missing_ofMissing _

theorem mem_missing_check_iff {u : Unmet} :
    u ∈ (q.check f).missing ↔
      ∃ scopes, q.get? u.server = some scopes ∧ u.scope ∈ scopes ∧ f.meets u.scope = false := by
  rw [missing_check, List.mem_flatMap]
  constructor
  · rintro ⟨⟨name, scopes⟩, hentry, hu⟩
    obtain ⟨rfl, hstored, hmeets⟩ := mem_lacking_iff.1 hu
    exact ⟨scopes, mem_toList_iff.1 hentry, hstored, hmeets⟩
  · rintro ⟨scopes, hget, hstored, hmeets⟩
    exact ⟨(u.server, scopes), mem_toList_iff.2 hget, mem_lacking_iff.2 ⟨rfl, hstored, hmeets⟩⟩

theorem filter_lacking (f : ConsentForest) (other : String) (scopes : List Scope) (name : String) :
    ((lacking f other scopes).filter fun u => u.server = name) =
      if other = name then lacking f other scopes else [] := by
  split_ifs with hname
  · refine List.filter_eq_self.2 fun u hu => ?_
    rw [(mem_lacking_iff.1 hu).1]
    exact decide_eq_true hname
  · refine List.filter_eq_nil_iff.2 fun u hu => ?_
    rw [(mem_lacking_iff.1 hu).1]
    exact fun heq => hname (of_decide_eq_true heq)

theorem filter_flatMap_lacking (f : ConsentForest) (name : String)
    (entries : List (String × List Scope)) :
    ((entries.flatMap fun entry => lacking f entry.1 entry.2).filter fun u => u.server = name) =
      (entries.filter fun entry => entry.1 = name).flatMap
        fun entry => lacking f entry.1 entry.2 := by
  induction entries with
  | nil => rfl
  | cons entry rest ih =>
    rw [List.flatMap_cons, List.filter_append, ih, filter_lacking, List.filter_cons]
    by_cases hname : entry.1 = name
    · rw [if_pos hname, if_pos (decide_eq_true hname), List.flatMap_cons]
    · rw [if_neg hname, decide_eq_false hname, List.nil_append]
      rfl

/-- The part of a report that is about a server has the scopes that are stored for the server and
not met, each as often as it is stored and in the stored order. -/
theorem filter_missing_check (q : Requirements) (f : ConsentForest) (name : String) :
    ((q.check f).missing.filter fun u => u.server = name) =
      lacking f name ((q.get? name).getD []) := by
  rw [missing_check, filter_flatMap_lacking, filter_toList]
  cases q.get? name with
  | none => rfl
  | some scopes => exact List.append_nil _

theorem pairwise_missing_check (q : Requirements) (f : ConsentForest) :
    (q.check f).missing.Pairwise fun u v => u.server ≤ v.server := by
  rw [missing_check, List.pairwise_flatMap]
  constructor
  · intro entry _
    refine List.pairwise_of_forall_mem_list fun u hu v hv => ?_
    rw [(mem_lacking_iff.1 hu).1, (mem_lacking_iff.1 hv).1]
  · refine (pairwise_toList q).imp ?_
    intro a b hlt u hu v hv
    rw [(mem_lacking_iff.1 hu).1, (mem_lacking_iff.1 hv).1]
    exact hlt.le

theorem check_cases (q : Requirements) (f : ConsentForest) :
    (q.check f = .satisfied ∧ (q.check f).missing = []) ∨
      (q.check f = .unmet (q.check f).missing ∧ (q.check f).missing ≠ []) := by
  rw [missing_check]
  exact Decision.ofMissing_cases _

theorem check_eq_satisfied_iff_missing_eq_nil :
    q.check f = .satisfied ↔ (q.check f).missing = [] := by
  rcases check_cases q f with ⟨hcheck, hmissing⟩ | ⟨hcheck, hmissing⟩
  · exact iff_of_true hcheck hmissing
  · refine iff_of_false ?_ hmissing
    rw [hcheck]
    exact Decision.noConfusion

theorem check_eq_satisfied_iff_forall_meets :
    q.check f = .satisfied ↔
      ∀ name scopes, q.get? name = some scopes → ∀ s ∈ scopes, f.meets s = true := by
  rw [check_eq_satisfied_iff_missing_eq_nil, List.eq_nil_iff_forall_not_mem]
  constructor
  · intro hnone name scopes hget s hs
    by_contra hnot
    exact hnone ⟨name, s⟩
      (mem_missing_check_iff.2 ⟨scopes, hget, hs, Bool.eq_false_of_not_eq_true hnot⟩)
  · intro hall u hu
    obtain ⟨scopes, hget, hstored, hmeets⟩ := mem_missing_check_iff.1 hu
    rw [hall u.server scopes hget u.scope hstored] at hmeets
    cases hmeets

/-! ## The question about one server -/

theorem checkServer_eq_none_iff (q : Requirements) (f : ConsentForest) (name : String) :
    q.checkServer name f = none ↔ name ∉ q.serverNames := by
  rw [checkServer, Option.map_eq_none_iff, mem_serverNames_iff, ← Option.isSome_iff_exists,
    Option.not_isSome_iff_eq_none]

theorem checkServer_eq_some_false_iff (q : Requirements) (f : ConsentForest) (name : String) :
    q.checkServer name f = some false ↔ ∃ u ∈ (q.check f).missing, u.server = name := by
  rw [checkServer, Option.map_eq_some_iff]
  constructor
  · rintro ⟨scopes, hget, hmeets⟩
    obtain ⟨s, hs, hnot⟩ := List.all_eq_false.1 hmeets
    refine ⟨⟨name, s⟩, mem_missing_check_iff.2 ⟨scopes, hget, hs, ?_⟩, rfl⟩
    exact Bool.eq_false_of_not_eq_true hnot
  · rintro ⟨u, hu, rfl⟩
    obtain ⟨scopes, hget, hstored, hmeets⟩ := mem_missing_check_iff.1 hu
    refine ⟨scopes, hget, List.all_eq_false.2 ⟨u.scope, hstored, ?_⟩⟩
    rw [hmeets]
    exact Bool.false_ne_true

theorem checkServer_eq_some_true_iff (q : Requirements) (f : ConsentForest) (name : String) :
    q.checkServer name f = some true ↔
      name ∈ q.serverNames ∧ ∀ u ∈ (q.check f).missing, u.server ≠ name := by
  have hnone := checkServer_eq_none_iff q f name
  have hfalse := checkServer_eq_some_false_iff q f name
  cases hanswer : q.checkServer name f with
  | none =>
    refine iff_of_false (by decide) ?_
    rintro ⟨hname, -⟩
    exact hnone.1 hanswer hname
  | some answer =>
    rw [hanswer] at hnone hfalse
    cases answer with
    | false =>
      obtain ⟨u, hu, hserver⟩ := hfalse.1 rfl
      exact iff_of_false (by decide) fun h => h.2 u hu hserver
    | true =>
      refine iff_of_true rfl ⟨?_, fun u hu hserver => ?_⟩
      · by_contra hname
        cases hnone.2 hname
      · cases hfalse.2 ⟨u, hu, hserver⟩

theorem check_eq_satisfied_iff_forall_checkServer (q : Requirements) (f : ConsentForest) :
    q.check f = .satisfied ↔ ∀ name ∈ q.serverNames, q.checkServer name f = some true := by
  rw [check_eq_satisfied_iff_missing_eq_nil, List.eq_nil_iff_forall_not_mem]
  constructor
  · intro hnone name hname
    exact (checkServer_eq_some_true_iff q f name).2 ⟨hname, fun u hu => absurd hu (hnone u)⟩
  · intro hall u hu
    obtain ⟨scopes, hget, -⟩ := mem_missing_check_iff.1 hu
    have htrue := hall u.server (mem_serverNames_iff.2 ⟨scopes, hget⟩)
    exact ((checkServer_eq_some_true_iff q f u.server).1 htrue).2 u hu rfl

/-- A check is satisfied if every stored scope of every server is met. Otherwise its report has the
stored scopes that are not met, server after server in the order of the bytes of their names. What
is said about one server is what the report says about it: a server has no answer if it is not
stored, and otherwise the answer is whether the report has no entry for it. So a check is satisfied
if and only if every stored server is. -/
theorem check_reports_unmet_and_agrees_with_checkServer (q : Requirements) (f : ConsentForest) :
    (q.check f = .satisfied ↔
      ∀ name scopes, q.get? name = some scopes → ∀ s ∈ scopes, f.meets s = true) ∧
    (q.check f = .satisfied ∨ ∃ missing, q.check f = .unmet missing ∧ missing ≠ [] ∧
      (missing.Pairwise fun u v => Text.utf8 u.server ≤ Text.utf8 v.server) ∧
      ∀ name, (missing.filter fun u => u.server = name) =
        (((q.get? name).getD []).filter fun s => !f.meets s).map fun s => ⟨name, s⟩) ∧
    (∀ name,
      (q.checkServer name f = none ↔ name ∉ q.serverNames) ∧
      (q.checkServer name f = some true ↔
        name ∈ q.serverNames ∧ ∀ u ∈ (q.check f).missing, u.server ≠ name) ∧
      (q.checkServer name f = some false ↔ ∃ u ∈ (q.check f).missing, u.server = name)) ∧
    (q.check f = .satisfied ↔ ∀ name ∈ q.serverNames, q.checkServer name f = some true) := by
  refine ⟨check_eq_satisfied_iff_forall_meets, ?_, fun name => ?_,
    check_eq_satisfied_iff_forall_checkServer q f⟩
  · rcases check_cases q f with ⟨hcheck, -⟩ | ⟨hcheck, hmissing⟩
    · exact Or.inl hcheck
    · refine Or.inr ⟨_, hcheck, hmissing, ?_, filter_missing_check q f⟩
      exact (pairwise_missing_check q f).imp Text.le_iff_utf8_le.1
  · exact ⟨checkServer_eq_none_iff q f name, checkServer_eq_some_true_iff q f name,
      checkServer_eq_some_false_iff q f name⟩

example :
    let q := ((append {} "b" [.leaf "x" false, .leaf "x" true]).append "c" []).append "a"
      [.leaf "y" false]
    (q.check ⟨[]⟩).missing.map Unmet.display = ["a: y", "b: x", "b: *x"] ∧
      q.checkServer "b" ⟨[]⟩ = some false ∧ q.checkServer "c" ⟨[]⟩ = some true := by
  decide +kernel

end Requirements

end ScopeGrant
