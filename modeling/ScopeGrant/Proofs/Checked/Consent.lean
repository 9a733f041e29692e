import ScopeGrant.Proofs.Checked.Building
import ScopeGrant.Proofs.Consent.Matching
import ScopeGrant.Proofs.Consent.Walk

/-!
# A built tree is walked, written and matched within bounds

The edges of a built tree lead to consents that are stored, and a walk begins at depth one and only
goes down, so the indentation of a line is never below zero. A requirement is laid out from the root
down: each pending scope is owned by one that has its place already (`layoutLoopChecked_eq`), and
the places that are noted are those of the layout. So settling it asks for no other place.
-/

namespace ScopeGrant

open Std (ExtTreeMap)

/-! ## Walks -/

namespace ConsentTree

variable {rootId : ConsentId} {consents : List Consent} {t : ConsentTree}

/-- The children of a consent, each looked up by its identifier. -/
def childrenChecked (t : ConsentTree) (id : ConsentId) : Option (List Consent) :=
  (t.edges.getD id ∅).toList.mapM t.get?

/-- Walk on until nothing is pending. A walk with more than so many visits is refused. -/
def Walk.runChecked (t : ConsentTree) : (visits : Nat) → Walk → Option (List (Consent × Nat))
  | _, ⟨[], visited⟩ => some visited.reverse
  | 0, ⟨_ :: _, _⟩ => none
  | visits + 1, ⟨(c, depth) :: pending, visited⟩ => do
    let children ← t.childrenChecked c.id
    runChecked t visits ⟨children.map (·, depth + 1) ++ pending, (c, depth) :: visited⟩

/-- The consents of the tree from the root down, each with its depth. -/
def walkChecked (t : ConsentTree) : Option (List (Consent × Nat)) :=
  Walk.runChecked t t.size t.startWalk

/-- The line of a consent that is visited, indented by one less than its depth. -/
def lineChecked (visit : Consent × Nat) : Option String := do
  let above ← sub? visit.2 1
  return String.ofList (List.replicate (2 * above) ' ') ++ visit.1.display ++ "\n"

/-- The tree in words: a line for each consent. -/
def displayChecked (t : ConsentTree) : Option String := do
  let visits ← t.walkChecked
  let lines ← visits.mapM lineChecked
  return String.join lines

/-- No edge leads to an identifier that is not stored. -/
theorem Holds.childrenChecked_eq (h : t.Holds consents) (id : ConsentId) :
    t.childrenChecked id = some (t.children id) := by
  refine mapM_eq_some_filterMap fun child hchild => ?_
  obtain ⟨c, hc, rfl, -⟩ := (h.linked id child).1 (Std.ExtTreeSet.mem_toList.1 hchild)
  exact ⟨c, (h.stored c.id c).2 ⟨hc, rfl⟩⟩

/-- A walk with nothing pending stays where it is. -/
theorem Walk.run_of_pending_eq_nil {w : Walk} (h : w.pending = []) (visits : Nat) :
    w.run t visits = w := by
  induction visits with
  | zero => rfl
  | succ visits ih => rwa [Walk.run, Walk.step, h]

/-- A walk that has ended after so many visits was refused nothing. -/
theorem Walk.runChecked_eq (h : t.Holds consents) {visits : Nat} {w : Walk}
    (hend : (w.run t visits).pending = []) :
    w.runChecked t visits = some (w.run t visits).visited.reverse := by
  induction visits generalizing w with
  | zero =>
    obtain ⟨pending, visited⟩ := w
    cases hend
    rw [Walk.runChecked]
    rfl
  | succ visits ih =>
    obtain ⟨pending, visited⟩ := w
    cases pending with
    | nil =>
      rw [Walk.runChecked, run_of_pending_eq_nil rfl]
    | cons next pending =>
      obtain ⟨c, depth⟩ := next
      rw [Walk.runChecked, h.childrenChecked_eq]
      exact ih hend

theorem walkChecked_eq (h : ofList rootId consents = .ok t) : t.walkChecked = some t.walk :=
  Walk.runChecked_eq (holds_of_ofList h) ((pending_run_eq_nil_iff h).2 (Nat.le_refl _))

/-- A consent is at depth one at least, since its path names itself. -/
theorem displayChecked_eq (h : ofList rootId consents = .ok t) :
    t.displayChecked = some t.display := by
  have hline : ∀ visit ∈ t.walk, lineChecked visit =
      some (String.ofList (List.replicate (2 * (visit.2 - 1)) ' ') ++ visit.1.display ++ "\n") := by
    rw [walk_eq h]
    intro visit hvisit
    obtain ⟨c, hc, rfl⟩ := List.mem_map.1 hvisit
    have hpath : 1 ≤ c.depth := List.length_pos_of_ne_nil
      ((coherent_of_ofList h).inOrder c (mem_inPathOrder.1 hc)).ne_nil
    rw [lineChecked, sub?_eq_some hpath]
    rfl
  rw [displayChecked, walkChecked_eq h]
  show (t.walk.mapM lineChecked >>= fun lines => some (String.join lines)) = _
  rw [mapM_eq_some hline]
  rfl

end ConsentTree

/-! ## Matching -/

namespace Need

/-- Note at the place of the owner, if there is one, that a dependency stands at `place`. -/
def noteChecked (place : Nat) (owner : Option Nat) (order : Array Need) : Option (Array Need) :=
  match owner with
  | none => some order
  | some i => do
    let need ← order[i]?
    return order.setIfInBounds i { need with dependencies := need.dependencies.push place }

/-- Lay out the pending scopes, each with the place of the scope that depends on it. -/
def layoutLoopChecked (order : Array Need) : List (Scope × Option Nat) → Option (Array Need)
  | [] => some order
  | (s, owner) :: pending => do
    let noted ← noteChecked order.size owner order
    layoutLoopChecked (noted.push ⟨s.value, #[]⟩)
      (s.dependencies.reverse.map (·, some order.size) ++ pending)
termination_by pending => Scope.sizeList (pending.map Prod.fst)
decreasing_by
  simp [Function.comp_def, s.size_eq]

/-- The scopes of a tree, each before what it depends on. -/
def layoutChecked (s : Scope) : Option (Array Need) :=
  layoutLoopChecked #[] [(s, none)]

theorem noteChecked_eq {owner : Option Nat} {order : Array Need} (place : Nat)
    (h : ∀ i ∈ owner, i < order.size) :
    noteChecked place owner order = some (note place owner order) := by
  cases owner with
  | none => rfl
  | some i =>
    have hi := h i rfl
    rw [noteChecked, Array.getElem?_eq_getElem hi]
    refine congrArg some (Array.ext_getElem? fun p => ?_)
    rw [getElem?_note, Array.getElem?_setIfInBounds]
    by_cases hp : i = p
    · subst hp
      rw [if_pos rfl, if_pos hi, if_pos rfl, Array.getElem?_eq_getElem hi]
      rfl
    · rw [if_neg hp, if_neg fun howner => hp (Option.some.inj howner)]

/-- The owners of the pending scopes have their places, and each scope gets the next place before
its dependencies are pending. -/
theorem layoutLoopChecked_eq {order : Array Need} {pending : List (Scope × Option Nat)}
    (h : ∀ entry ∈ pending, ∀ i ∈ entry.2, i < order.size) :
    layoutLoopChecked order pending = some (layoutLoop order pending) := by
  fun_induction layoutLoop order pending with
  | case1 order => rw [layoutLoopChecked]
  | case2 order s owner pending place ih =>
    obtain ⟨howner, hpending⟩ := List.forall_mem_cons.1 h
    rw [layoutLoopChecked, noteChecked_eq _ howner]
    refine ih (List.forall_mem_append.2 ⟨?_, ?_⟩)
    · intro entry hentry i hi
      obtain ⟨d, -, rfl⟩ := List.mem_map.1 hentry
      cases hi
      rw [Array.size_push, size_note]
      exact Nat.lt_succ_self _
    · intro entry hentry i hi
      rw [Array.size_push, size_note]
      exact Nat.lt_succ_of_lt (hpending entry hentry i hi)

theorem layoutChecked_eq (s : Scope) : layoutChecked s = some (layout s) :=
  layoutLoopChecked_eq (List.forall_mem_singleton.2 nofun)

end Need

namespace ConsentTree

variable {rootId : ConsentId} {consents : List Consent} {t : ConsentTree}

/-- Whether a consent has, for each dependency of a scope in the layout, a child among the consents
that were found for the place of the dependency. -/
def suffices? (t : ConsentTree) (met : Array (List ConsentId)) (need : Need) (id : ConsentId) :
    Option Bool :=
  need.dependencies.toList.allM fun below => do
    let children ← t.childrenChecked id
    let ids ← met[below]?
    return children.any fun child => ids.contains child.id

/-- Settle the scope at one place. -/
def settleNeedChecked (t : ConsentTree) (carriers : ExtTreeMap String (List ConsentId))
    (order : Array Need) (met : Array (List ConsentId)) (place : Nat) :
    Option (Array (List ConsentId)) := do
  let need ← order[place]?
  let found ← (carriers.getD need.value []).filterM (t.suffices? met need)
  if place < met.size then some (met.setIfInBounds place found) else none

/-- Settle the scopes at the first `places` places of a layout, from the last to the first. -/
def settleLoopChecked (t : ConsentTree) (carriers : ExtTreeMap String (List ConsentId))
    (order : Array Need) : (places : Nat) → Array (List ConsentId) → Option (Array (List ConsentId))
  | 0, met => some met
  | place + 1, met => do
    t.settleLoopChecked carriers order place (← t.settleNeedChecked carriers order met place)

/-- The consents of a tree that meet a required scope and the scopes below it, place by place. -/
def matchingChecked (t : ConsentTree) (required : Scope) : Option (Array (List ConsentId)) := do
  let order ← Need.layoutChecked required
  t.settleLoopChecked t.carriers order order.size (.replicate order.size [])

/-- Whether the root of a tree meets a required scope. -/
def meetsChecked (t : ConsentTree) (required : Scope) : Option Bool :=
  if t.root.scopeValue == required.value then do
    let met ← t.matchingChecked required
    return met[0]?.any (·.contains t.rootId)
  else some false

section Settling

variable {order : Array Need} {scopes : List Scope} {met : Array (List ConsentId)} {place : Nat}

/-- The places that are noted for a scope are those of the layout, so there is a list for each. -/
theorem settleNeedChecked_eq (h : t.Holds consents) (hlaid : Need.Laid order scopes [])
    (hsize : met.size = order.size) (hplace : place < order.size)
    (carriers : ExtTreeMap String (List ConsentId)) :
    t.settleNeedChecked carriers order met place =
      some (t.settleNeed carriers order met place) := by
  have hneed : order[place]? = some order[place] := Array.getElem?_eq_getElem hplace
  obtain ⟨s, hscope⟩ : ∃ s, scopes[place]? = some s :=
    ⟨_, List.getElem?_eq_getElem (hlaid.size ▸ hplace)⟩
  have hentry := hlaid.entry place _ _ hneed hscope
  have hmet : ∀ below ∈ order[place].dependencies, met[below]? = some (met.getD below []) := by
    intro below hbelow
    obtain ⟨-, d, -, hd⟩ := hentry.below below hbelow
    have hlt : below < met.size := by
      rw [hsize, hlaid.size]
      exact (List.getElem?_eq_some_iff.1 hd).1
    rw [Array.getD_eq_getD_getElem?, Array.getElem?_eq_getElem hlt]
    rfl
  have hfound : ∀ id, t.suffices? met order[place] id =
      some (order[place].dependencies.all fun below =>
        (t.children id).any fun child => (met.getD below []).contains child.id) := by
    intro id
    rw [suffices?, ← Array.all_toList]
    refine allM_eq_some fun below hbelow => ?_
    rw [h.childrenChecked_eq, hmet below (Array.mem_toList_iff.1 hbelow)]
    rfl
  rw [settleNeedChecked, settleNeed, hneed]
  show ((carriers.getD order[place].value []).filterM (t.suffices? met order[place]) >>= _) = _
  rw [filterM_eq_some fun id _ => hfound id]
  exact if_pos (hsize ▸ hplace)

theorem settleLoopChecked_eq (h : t.Holds consents) (hlaid : Need.Laid order scopes [])
    {places : Nat} (hsize : met.size = order.size) (hplaces : places ≤ order.size) :
    t.settleLoopChecked t.carriers order places met =
      some (t.settleLoop t.carriers order places met) := by
  induction places generalizing met with
  | zero => rfl
  | succ place ih =>
    rw [settleLoopChecked, settleNeedChecked_eq h hlaid hsize hplaces, settleLoop]
    exact ih (size_settleNeed.trans hsize) (Nat.le_of_lt hplaces)

end Settling

theorem matchingChecked_eq (h : t.Holds consents) (required : Scope) :
    t.matchingChecked required = some (t.matching required) := by
  obtain ⟨below, hlaid⟩ := Need.exists_laid required
  rw [matchingChecked, Need.layoutChecked_eq]
  exact settleLoopChecked_eq h hlaid Array.size_replicate (Nat.le_refl _)

theorem meetsChecked_eq (h : t.Holds consents) (required : Scope) :
    t.meetsChecked required = some (t.meets required) := by
  rw [meetsChecked, meets, matchingChecked_eq h]
  cases t.root.scopeValue == required.value <;> rfl

end ConsentTree

/-! ## Forests -/

namespace ConsentForest

variable {consents : List Consent} {f : ConsentForest}

/-- The forest in words, tree by tree. -/
def displayChecked (f : ConsentForest) : Option String := do
  let texts ← f.trees.mapM ConsentTree.displayChecked
  return String.join texts

/-- Whether each of the required scopes is met by some tree. -/
def meetsAllChecked (f : ConsentForest) (required : List Scope) : Option Bool :=
  required.allM fun s => f.trees.anyM fun t => t.meetsChecked s

theorem displayChecked_eq (h : ofList consents = .ok f) : f.displayChecked = some f.display := by
  have htrees : ∀ t ∈ f.trees, t.displayChecked = some t.display := fun t ht =>
    ConsentTree.displayChecked_eq (ofList_of_mem_trees h ht)
  rw [displayChecked, mapM_eq_some htrees]
  rfl

theorem meetsAllChecked_eq (h : ofList consents = .ok f) (required : List Scope) :
    f.meetsAllChecked required = some (f.meetsAll required) := by
  refine allM_eq_some fun s _ => anyM_eq_some fun t ht => ?_
  exact ConsentTree.meetsChecked_eq (ConsentTree.holds_of_ofList (ofList_of_mem_trees h ht)) s

end ConsentForest

end ScopeGrant
