import ScopeGrant.Proofs.Except
import ScopeGrant.Settings.Load

/-!
# Settings that pass the check

What the check asks for does not depend on the order in which it looks at the servers (`InOrder`).
Settings that are loaded have passed it, whatever the sources hold and however they are laid over
each other, so nothing about the reading of documents is used here.
-/

namespace ScopeGrant.Settings

variable {s : Settings} {server : String} {scopes : List String}

/-- The settings are in order. -/
structure InOrder (s : Settings) : Prop where
  depth : s.maxDepth ≠ some 0
  named : ∀ server ∈ s.servers, Text.isBlankText server = false
  read : ∀ (server : String) (scopes : List String), s.servers[server]? = some scopes →
    ∀ scope ∈ scopes, ∃ found, s.parser.parse scope = .ok found

theorem InOrder.exists_mapM_parse (h : s.InOrder) (hstored : s.servers[server]? = some scopes) :
    ∃ parts, scopes.mapM s.parser.parse = .ok parts :=
  exists_mapM_eq_ok_iff.2 (h.read server scopes hstored)

theorem checkScope_eq_ok_iff {scope : String} :
    s.checkScope server scope = .ok () ↔ ∃ found, s.parser.parse scope = .ok found := by
  unfold checkScope
  cases s.parser.parse scope with
  | error e => exact iff_of_false nofun nofun
  | ok found => exact iff_of_true rfl ⟨found, rfl⟩

theorem checkServer_eq_ok_iff :
    s.checkServer server scopes = .ok () ↔ Text.isBlankText server = false ∧
      ∀ scope ∈ scopes, ∃ found, s.parser.parse scope = .ok found := by
  unfold checkServer
  by_cases hblank : Text.isBlankText server = true
  · rw [if_pos hblank, throw_bind, hblank]
    exact iff_of_false nofun nofun
  · rw [if_neg hblank, forM_eq_ok_iff_forall_mem, and_iff_right (Bool.of_not_eq_true hblank)]
    simp only [checkScope_eq_ok_iff]

theorem check_eq_ok_iff : s.check = .ok () ↔ s.InOrder := by
  unfold check
  by_cases hzero : s.maxDepth = some 0
  · rw [if_pos hzero, throw_bind]
    exact iff_of_false nofun fun h => h.depth hzero
  · rw [if_neg hzero, forM_eq_ok_iff_forall_mem]
    constructor
    · intro hall
      have hserver : ∀ (server : String) (scopes : List String),
          s.servers[server]? = some scopes → s.checkServer server scopes = .ok () :=
        fun server scopes hstored =>
          hall (server, scopes) (Std.ExtTreeMap.mem_toList_iff_getElem?_eq_some.2 hstored)
      refine ⟨hzero, fun server hmem => ?_, fun server scopes hstored => ?_⟩
      · have hstored := Std.ExtTreeMap.getElem?_eq_some_getElem hmem
        exact (checkServer_eq_ok_iff.1 (hserver server _ hstored)).1
      · exact (checkServer_eq_ok_iff.1 (hserver server scopes hstored)).2
    · rintro h ⟨server, scopes⟩ hmem
      have hstored := Std.ExtTreeMap.mem_toList_iff_getElem?_eq_some.1 hmem
      have hserver : server ∈ s.servers :=
        Std.ExtTreeMap.isSome_getElem?_iff_mem.1 (Option.isSome_of_mem hstored)
      exact checkServer_eq_ok_iff.2 ⟨h.named server hserver, h.read server scopes hstored⟩

/-- With a bound in order and names for all servers, only a required scope that cannot be read lets
the check fail. -/
theorem exists_of_check_eq_error {e : SettingsError} (hdepth : s.maxDepth ≠ some 0)
    (hnamed : ∀ server ∈ s.servers, Text.isBlankText server = false) (h : s.check = .error e) :
    ∃ (server : String) (scopes : List String) (scope : String) (fault : ScopeError),
      s.servers[server]? = some scopes ∧ scope ∈ scopes ∧ s.parser.parse scope = .error fault ∧
        e = .invalidScope .checked server scope fault := by
  unfold check at h
  rw [if_neg hdepth] at h
  obtain ⟨⟨server, scopes⟩, hmem, hserver⟩ := exists_of_forM_eq_error h
  have hstored := Std.ExtTreeMap.mem_toList_iff_getElem?_eq_some.1 hmem
  have hname : Text.isBlankText server = false :=
    hnamed server (Std.ExtTreeMap.isSome_getElem?_iff_mem.1 (Option.isSome_of_mem hstored))
  dsimp only [checkServer] at hserver
  rw [hname, if_neg Bool.false_ne_true] at hserver
  obtain ⟨scope, hscope, hchecked⟩ := exists_of_forM_eq_error hserver
  unfold checkScope at hchecked
  cases hread : s.parser.parse scope with
  | ok found =>
    rw [hread] at hchecked
    cases hchecked
  | error fault =>
    rw [hread] at hchecked
    exact ⟨server, scopes, scope, fault, hstored, hscope, hread, (Except.error.inj hchecked).symm⟩

/-- Layers give settings only if the document can be read, what is gathered has a meaning, and this
passes the check. -/
theorem exists_of_ofLayers {document : Option String} {environment : List (String × String)}
    (h : ofLayers document environment = .ok s) :
    ∃ entries, (document.map Toml.read?).getD (some []) = some entries ∧
      ofEntries? (Setting.layNamed (Environment.settings environment)
        (Setting.layNamed entries (.table []))).entries = some s ∧
      s.check = .ok () := by
  unfold ofLayers at h
  split at h
  · rename_i entries hread
    dsimp only at h
    split at h
    · rename_i found hfound
      obtain ⟨_, hcheck, hs⟩ := bind_eq_ok_iff.1 h
      cases hs
      exact ⟨entries, hread, hfound, hcheck⟩
    · cases h
  · cases h

theorem check_of_ofLayers {document : Option String} {environment : List (String × String)}
    (h : ofLayers document environment = .ok s) : s.check = .ok () := by
  obtain ⟨_, -, -, hcheck⟩ := exists_of_ofLayers h
  exact hcheck

/-- The settings were loaded. -/
inductive Loaded (s : Settings) : Prop where
  /-- A document gave them. -/
  | document {text : String} (h : ofDocument text = .ok s)
  /-- A document, if there is one, and the environment gave them. -/
  | sources {surroundings : Surroundings} {path : Option String}
    (h : load surroundings path = .ok s)
  /-- They were read in some other way and passed the check. -/
  | checked (h : s.check = .ok ())

theorem Loaded.inOrder (h : s.Loaded) : s.InOrder := by
  rw [← check_eq_ok_iff]
  cases h with
  | document h => exact check_of_ofLayers h
  | sources h =>
    obtain ⟨document, -, h⟩ := bind_eq_ok_iff.1 h
    exact check_of_ofLayers h
  | checked h => exact h

end ScopeGrant.Settings
