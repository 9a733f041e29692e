import ScopeGrant.Scope.Parser

/-!
# Containment

A scope that is held satisfies one that is required when the values agree and every dependency of
the required one is satisfied by some dependency of the held one. Optional markers play no part.
Sibling values do not repeat, so the only candidate for a dependency is the one with its value.
-/

namespace ScopeGrant.Scope

/-- The dependencies `needed`, each paired with the dependency of `held` that carries its value;
`none` if one has no such partner. -/
def partners? (held : Scope) (needed : List Scope) : Option (List (Scope × Scope)) :=
  needed.mapM fun d => (held.dependency? d.value).map (·, d)

theorem map_snd_of_partners? {held : Scope} {needed : List Scope} {pairs : List (Scope × Scope)}
    (h : held.partners? needed = some pairs) : pairs.map Prod.snd = needed := by
  induction needed generalizing pairs with
  | nil => simp_all [partners?]
  | cons d ds ih =>
    simp only [partners?, List.mapM_cons] at h
    cases hd : held.dependency? d.value with
    | none => simp [hd] at h
    | some e =>
      cases hs : held.partners? ds with
      | none => simp [partners?] at hs; simp [hd, hs] at h
      | some qs =>
        have := ih hs
        simp only [partners?] at hs
        simp [hd, hs] at h
        simp [← h, this]

/-- Whether in each pair the first scope, which is held, satisfies the second one, which is
required. -/
def satisfiesLoop : List (Scope × Scope) → Bool
  | [] => true
  | (held, required) :: pending =>
    if held.value == required.value then
      match _h : held.partners? required.dependencies with
      | some pairs => satisfiesLoop (pairs ++ pending)
      | none => false
    else false
termination_by pending => sizeList (pending.map Prod.snd)
decreasing_by
  simp [map_snd_of_partners? _h, size_eq required]

/-- Whether `held` satisfies `required`. -/
def satisfies (held required : Scope) : Bool :=
  satisfiesLoop [(held, required)]

/-- Whether `held` satisfies the scope that a text holds. -/
def contains (held : Scope) (required : String) : Except ScopeError Bool := do
  return held.satisfies (← parseOne required)

end ScopeGrant.Scope
