import ScopeGrant.Proofs.Scope.Sibling
import ScopeGrant.Scope.Containment

/-!
# Containment is a structural recursion

The loop that decides containment keeps the pairs that remain to be compared on one list. What it
answers for a pair does not depend on the others, so a scope that is held satisfies a required one
if the values agree and each dependency of the required scope is satisfied by the dependency of the
held scope that carries its value (`satisfies_iff`). Where siblings differ in their values, this is
to say that every chain of the required scope is one of the held scope (`satisfies_iff_chain`).
-/

namespace ScopeGrant.Scope

/-! ## The loop -/

theorem partners?_cons (held d : Scope) (needed : List Scope) :
    held.partners? (d :: needed) =
      (held.dependency? d.value).bind fun e => (held.partners? needed).map ((e, d) :: ·) := by
  rw [partners?, List.mapM_cons]
  cases held.dependency? d.value with
  | none => rfl
  | some e => cases h : held.partners? needed <;> simp_all [partners?]

theorem satisfiesLoop_append (xs ys : List (Scope × Scope)) :
    satisfiesLoop (xs ++ ys) = (satisfiesLoop xs && satisfiesLoop ys) := by
  fun_induction satisfiesLoop xs with
  | case1 => rfl
  | case2 held required rest hvalue pairs hpairs ih =>
    rw [List.cons_append, satisfiesLoop, if_pos hvalue, hpairs, ← ih, List.append_assoc]
  | case3 held required rest hvalue hpairs =>
    rw [List.cons_append, satisfiesLoop, if_pos hvalue, hpairs, Bool.false_and]
  | case4 held required rest hvalue =>
    rw [List.cons_append, satisfiesLoop, if_neg hvalue, Bool.false_and]

/-- The loop goes through partners exactly if each dependency has one and is satisfied by it. -/
theorem exists_partners?_iff {held : Scope} {needed : List Scope} :
    (∃ pairs, held.partners? needed = some pairs ∧ satisfiesLoop pairs = true) ↔
      ∀ d ∈ needed, ∃ e, held.dependency? d.value = some e ∧ e.satisfies d = true := by
  induction needed with
  | nil => simp [partners?, satisfiesLoop]
  | cons d needed ih =>
    have hcons : ∀ e pairs, satisfiesLoop ((e, d) :: pairs) = true ↔
        e.satisfies d = true ∧ satisfiesLoop pairs = true := by
      intro e pairs
      rw [← List.singleton_append, satisfiesLoop_append, Bool.and_eq_true, satisfies]
    rw [List.forall_mem_cons, ← ih, partners?_cons]
    cases held.dependency? d.value with
    | none => simp
    | some e => cases held.partners? needed <;> simp [hcons]

/-- Containment, from that of the dependencies. -/
theorem satisfies_iff {held required : Scope} :
    held.satisfies required = true ↔
      held.value = required.value ∧
        ∀ d ∈ required.dependencies, ∃ e, held.dependency? d.value = some e ∧
          e.satisfies d = true := by
  rw [← exists_partners?_iff, satisfies, satisfiesLoop]
  split
  · rename_i hvalue
    rw [beq_iff_eq] at hvalue
    split
    · rename_i pairs hpairs
      simp [hvalue, hpairs]
    · rename_i hpairs
      simp [hpairs]
  · rename_i hvalue
    rw [beq_iff_eq] at hvalue
    simp [hvalue]

/-! ## Scopes whose siblings differ -/

theorem exists_of_dependency? {s e : Scope} {v : String} (h : s.dependency? v = some e) :
    e ∈ s.dependencies ∧ e.value = v :=
  ⟨List.mem_of_find?_eq_some h, by simpa using List.find?_some h⟩

/-- Where siblings differ, a dependency is found under its value. -/
theorem dependency?_of_mem {s e : Scope} (h : s.Tidy) (he : e ∈ s.dependencies) :
    s.dependency? e.value = some e := by
  have hnodup : (s.dependencies.map value).Nodup := (tidy_iff.1 h).1
  cases hfound : s.dependency? e.value with
  | none =>
    have := List.find?_eq_none.1 hfound e he
    simp at this
  | some d =>
    obtain ⟨hd, hvalue⟩ := exists_of_dependency? hfound
    rw [List.inj_on_of_nodup_map hnodup hd he hvalue]

/-- A scope whose siblings differ satisfies exactly those scopes whose chains are all its own. -/
theorem satisfies_iff_chain {held required : Scope} (h : held.Tidy) :
    held.satisfies required = true ↔ ∀ p, Chain [required] p → Chain [held] p := by
  induction required generalizing held with
  | mk v o ds ih =>
    rw [satisfies_iff]
    constructor
    · rintro ⟨hvalue, hbelow⟩ p hp
      cases p with
      | nil => exact chain_nil _
      | cons w p =>
        obtain ⟨rfl, hrest⟩ := chain_singleton.1 hp
        refine chain_singleton.2 ⟨hvalue, ?_⟩
        by_cases hnil : p = []
        · rw [hnil]
          exact chain_nil _
        · obtain ⟨d, hd, hdp⟩ := exists_chain_singleton hrest hnil
          obtain ⟨e, hfound, hsat⟩ := hbelow d hd
          have he := (exists_of_dependency? hfound).1
          exact ((ih d hd (h.of_mem he)).1 hsat p hdp).of_mem he
    · intro hchain
      have hvalue : held.value = v :=
        (chain_singleton.1 (hchain [v] (chain_singleton.2 ⟨rfl, chain_nil _⟩))).1
      refine ⟨hvalue, fun d hd => ?_⟩
      have hbelow : ∀ p, Chain [d] p → Chain held.dependencies p := by
        intro p hp
        have hup := hchain (v :: p) (chain_singleton.2 ⟨rfl, hp.of_mem hd⟩)
        exact (chain_singleton.1 hup).2
      obtain ⟨e, he, hev, -⟩ := chain_cons.1 (hbelow [d.value] (chain_nil _).up)
      refine ⟨e, hev ▸ dependency?_of_mem h he, (ih d hd (h.of_mem he)).2 fun p hp => ?_⟩
      -- each chain of `d` begins with its value, and only `e` carries this value
      cases p with
      | nil => exact chain_nil _
      | cons w p =>
        obtain ⟨rfl, -⟩ := chain_singleton.1 hp
        obtain ⟨e', he', hev', hp'⟩ := chain_cons.1 (hbelow _ hp)
        obtain rfl : e' = e :=
          List.inj_on_of_nodup_map (tidy_iff.1 h).1 he' he (hev'.trans hev.symm)
        exact chain_singleton.2 ⟨hev', hp'⟩

end ScopeGrant.Scope
