import ScopeGrant.Consent.Forest
import ScopeGrant.Proofs.Checked.Operation
import ScopeGrant.Proofs.Consent.Building

/-!
# Trees are built from what is there

A tree or a forest is built in two turns. The first turn indexes the consents and notes their
identifiers in order, so each identifier that the second turn looks up is there. The second turn
cuts the end off the path of each consent that has a parent, and such a path has two identifiers at
least. So no operation of a building is refused, whether it succeeds or fails.
-/

namespace ScopeGrant

open Std (ExtTreeMap ExtTreeSet)

/-! ## Failure and refusal -/

/-- A computation that can fail, with operations that can be refused. -/
abbrev Checked :=
  ExceptT ForestError Option

namespace Checked

variable {α β : Type}

/-- What may fail but is not refused. -/
def sure (x : Except ForestError α) : Checked α :=
  ExceptT.mk (some x)

theorem bind_eq_sure {x : Except ForestError α} {f : α → Checked β} {g : α → Except ForestError β}
    (h : ∀ a, x = .ok a → f a = sure (g a)) : sure x >>= f = sure (x >>= g) := by
  cases x with
  | error e => rfl
  | ok a => exact h a rfl

theorem lift_bind (a : α) (f : α → Checked β) : liftM (some a) >>= f = f a :=
  rfl

theorem mapM_eq_sure {f : α → Checked β} {g : α → Except ForestError β} {xs : List α}
    (h : ∀ x ∈ xs, f x = sure (g x)) : xs.mapM f = sure (xs.mapM g) := by
  induction xs with
  | nil => rfl
  | cons x xs ih =>
    obtain ⟨hx, hxs⟩ := List.forall_mem_cons.1 h
    rw [List.mapM_cons, List.mapM_cons, hx, ih hxs]
    exact bind_eq_sure fun y _ => bind_eq_sure fun ys _ => rfl

end Checked

open Checked (sure bind_eq_sure)

/-! ## Paths -/

namespace Consent

variable {c parent : Consent} {parentId : ConsentId}

/-- The identifier before the last one of the path, if there is one. -/
def parentIdChecked (c : Consent) : Option (Option ConsentId) :=
  if c.path.length < 2 then some none
  else do
    let place ← sub? c.path.length 2
    let id ← c.path[place]?
    return some id

/-- Check that the path is that of `parent` with one identifier more, by cutting off its end. -/
def checkExtendsChecked (c parent : Consent) : Checked Unit := do
  let (above, _) ← splitAt? c.path (← sub? c.path.length 1)
  if parent.path = above then return ()
  else throw (.invalidPath c.id (.notExtending parent.id))

theorem length_of_parentId? (h : c.parentId? = some parentId) :
    ∃ above last, c.path = above ++ [parentId, last] ∧ c.path.length = above.length + 2 := by
  obtain ⟨above, last, hpath⟩ := parentId?_eq_some_iff.1 h
  exact ⟨above, last, hpath, by rw [hpath, List.length_append]; rfl⟩

theorem length_lt_two_of_parentId? (h : c.parentId? = none) : c.path.length < 2 := by
  rw [parentId?, List.getLast?_eq_none_iff, ← List.length_eq_zero_iff, List.length_dropLast] at h
  omega

theorem parentIdChecked_eq (c : Consent) : c.parentIdChecked = some c.parentId? := by
  unfold parentIdChecked
  cases hparent : c.parentId? with
  | none => exact if_pos (length_lt_two_of_parentId? hparent)
  | some parentId =>
    obtain ⟨above, last, hpath, hlength⟩ := length_of_parentId? hparent
    have hplace : c.path[above.length]? = some parentId := by
      rw [hpath, List.getElem?_append_right (Nat.le_refl _), Nat.sub_self]
      rfl
    rw [if_neg (by omega), sub?_eq_some (by omega), hlength, Nat.add_sub_cancel]
    simp only [Option.bind_eq_bind, Option.bind_some, hplace]
    rfl

/-- The end is cut off the path of a consent that has a parent, so it is not empty. -/
theorem checkExtendsChecked_eq (h : c.parentId? = some parentId) (parent : Consent) :
    c.checkExtendsChecked parent = sure (c.checkExtends parent) := by
  obtain ⟨above, last, -, hlength⟩ := length_of_parentId? h
  have hcut : splitAt? c.path (c.path.length - 1) =
      some (c.path.dropLast, c.path.drop (c.path.length - 1)) := by
    rw [splitAt?_eq_some (Nat.sub_le ..), List.dropLast_eq_take]
  rw [checkExtendsChecked, sub?_eq_some (by omega), Checked.lift_bind, hcut, Checked.lift_bind]
  dsimp only
  rw [checkExtends]
  split_ifs <;> rfl

end Consent

/-! ## Trees -/

namespace ConsentTree

variable {nodes : ExtTreeMap ConsentId Consent}

/-- Add the edge that leads to the consent with an identifier, and keep the greater depth. -/
def linkChecked (nodes : ExtTreeMap ConsentId Consent)
    (built : ExtTreeMap ConsentId (ExtTreeSet ConsentId) × Nat) (id : ConsentId) :
    Checked (ExtTreeMap ConsentId (ExtTreeSet ConsentId) × Nat) := do
  let (edges, deepest) := built
  let c ← (nodes[id]? : Option Consent)
  match ← c.parentIdChecked with
  | none => return (edges, max deepest c.depth)
  | some parentId =>
    match nodes[parentId]? with
    | none => throw (.missingParent c.id parentId)
    | some parent => do
      c.checkExtendsChecked parent
      return (edges.insert parentId ((edges.getD parentId ∅).insert c.id), max deepest c.depth)

/-- The tree below `rootId` with exactly the given consents. -/
def ofListChecked (rootId : ConsentId) (consents : List Consent) : Checked ConsentTree := do
  let nodes ← sure (consents.foldlM (enrol rootId) ∅)
  let order := consents.map Consent.id
  match nodes[rootId]? with
  | none => throw (.missingParent (order.head?.getD rootId) rootId)
  | some root => do
    let (edges, maxDepth) ← order.foldlM (linkChecked nodes) (.ofList (order.map (·, ∅)), 0)
    return { root, edges, nodes, maxDepth }

theorem linkChecked_eq {c : Consent} (h : nodes[c.id]? = some c)
    (edges : ExtTreeMap ConsentId (ExtTreeSet ConsentId)) (deepest : Nat) :
    linkChecked nodes (edges, deepest) c.id =
      sure ((link nodes edges c).map (·, max deepest c.depth)) := by
  unfold linkChecked link
  simp only [h, Checked.lift_bind, Consent.parentIdChecked_eq]
  cases hparent : c.parentId? with
  | none => rfl
  | some parentId =>
    dsimp only
    cases nodes[parentId]? with
    | none => rfl
    | some parent =>
      dsimp only
      rw [c.checkExtendsChecked_eq hparent]
      cases c.checkExtends parent <;> rfl

/-- Each identifier that is linked was indexed. -/
theorem foldlM_linkChecked_eq {cs : List Consent} (h : ∀ c ∈ cs, nodes[c.id]? = some c)
    (edges : ExtTreeMap ConsentId (ExtTreeSet ConsentId)) (deepest : Nat) :
    (cs.map Consent.id).foldlM (linkChecked nodes) (edges, deepest) =
      sure ((cs.foldlM (link nodes) edges).map
        (·, (cs.map Consent.depth).foldl max deepest)) := by
  induction cs generalizing edges deepest with
  | nil => rfl
  | cons c cs ih =>
    obtain ⟨hc, hcs⟩ := List.forall_mem_cons.1 h
    rw [List.map_cons, List.foldlM_cons, linkChecked_eq hc, List.foldlM_cons]
    cases link nodes edges c with
    | error e => rfl
    | ok edges' => exact ih hcs edges' (max deepest c.depth)

/-- No operation of a building is refused. -/
theorem ofListChecked_eq (rootId : ConsentId) (consents : List Consent) :
    ofListChecked rootId consents = sure (ofList rootId consents) := by
  refine bind_eq_sure fun nodes hnodes => ?_
  have hstored : ∀ c ∈ consents, nodes[c.id]? = some c := fun c hc =>
    (stored_of_enrol hnodes c.id c).2 ⟨hc, rfl⟩
  have hhead : ((consents.map Consent.id).head?.getD rootId) =
      (consents.head?.map Consent.id).getD rootId := by
    rw [List.head?_map]
  have hstart : (consents.map Consent.id).map (·, (∅ : ExtTreeSet ConsentId)) =
      consents.map fun c => (c.id, ∅) := List.map_map
  dsimp only
  cases hroot : nodes[rootId]? with
  | none =>
    rw [hhead]
    rfl
  | some root =>
    dsimp only
    rw [hstart, foldlM_linkChecked_eq hstored]
    cases consents.foldlM (link nodes) (.ofList (consents.map fun c => (c.id, ∅))) <;> rfl

end ConsentTree

/-! ## Forests -/

namespace ConsentForest

variable {byId : ExtTreeMap ConsentId Consent}

/-- Check that the parent of the consent with an identifier is there and that the paths fit. -/
def checkParentChecked (byId : ExtTreeMap ConsentId Consent) (id : ConsentId) : Checked Unit := do
  let c ← (byId[id]? : Option Consent)
  match ← c.parentIdChecked with
  | none => return ()
  | some parentId =>
    match byId[parentId]? with
    | none => throw (.missingParent c.id parentId)
    | some parent => c.checkExtendsChecked parent

/-- The forest of a list of consents. -/
def ofListChecked (consents : List Consent) : Checked ConsentForest := do
  let byId ← sure (consents.foldlM enrol ∅)
  let order := consents.map Consent.id
  order.forM (checkParentChecked byId)
  let trees ← (groupByRoot byId order).toList.mapM fun (root, members) =>
    ConsentTree.ofListChecked root members
  return { trees }

theorem checkParentChecked_eq {c : Consent} (h : byId[c.id]? = some c) :
    checkParentChecked byId c.id = sure (checkParent byId c) := by
  unfold checkParentChecked checkParent
  simp only [h, Checked.lift_bind, Consent.parentIdChecked_eq]
  cases hparent : c.parentId? with
  | none => rfl
  | some parentId =>
    dsimp only
    cases byId[parentId]? with
    | none => rfl
    | some parent => exact c.checkExtendsChecked_eq hparent parent

/-- Each identifier that is checked was indexed. -/
theorem forM_checkParentChecked_eq {cs : List Consent} (h : ∀ c ∈ cs, byId[c.id]? = some c) :
    (cs.map Consent.id).forM (checkParentChecked byId) = sure (cs.forM (checkParent byId)) := by
  induction cs with
  | nil => rfl
  | cons c cs ih =>
    obtain ⟨hc, hcs⟩ := List.forall_mem_cons.1 h
    rw [List.forM_eq_forM, List.forM_eq_forM] at ih ⊢
    rw [List.map_cons, List.forM_cons, List.forM_cons, checkParentChecked_eq hc, ih hcs]
    exact bind_eq_sure fun _ _ => rfl

/-- No operation of a building is refused. -/
theorem ofListChecked_eq (consents : List Consent) :
    ofListChecked consents = sure (ofList consents) := by
  refine bind_eq_sure fun byId hbyId => ?_
  have hstored : ∀ c ∈ consents, byId[c.id]? = some c := fun c hc =>
    (stored_of_enrol hbyId c.id c).2 ⟨hc, rfl⟩
  dsimp only
  rw [forM_checkParentChecked_eq hstored]
  refine bind_eq_sure fun _ _ => ?_
  rw [Checked.mapM_eq_sure fun entry _ => ConsentTree.ofListChecked_eq entry.1 entry.2]
  exact bind_eq_sure fun trees _ => rfl

end ConsentForest

end ScopeGrant
