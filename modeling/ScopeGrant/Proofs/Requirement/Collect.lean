import Mathlib
import ScopeGrant.Proofs.Requirement.Decision
import ScopeGrant.Proofs.Scope.Limit
import ScopeGrant.Proofs.Settings.Check
import ScopeGrant.Requirement.Collect

/-!
# Settings that were loaded can be used

The expressions in settings are read twice, first to check the settings and then to make a
requirement set of them, both times with the bound that the settings give. Everywhere else they would
be read without a bound. Since a bound does not change what is read, settings that pass the check
always make a requirement set, and it holds what the expressions stand for without a bound.
-/

namespace ScopeGrant.Requirements

variable {parser : Parser} {server : String} {q next : Requirements}

/-! ## The expressions of a server -/

/-- The scopes of a server are those of its expressions, one expression after the other. -/
theorem readListed_eq_ok_iff {listed : List String} {scopes : List Scope} :
    readListed parser server listed = .ok scopes ↔
      ∃ parts, listed.mapM parser.parse = .ok parts ∧ scopes = parts.flatten := by
  induction listed generalizing scopes with
  | nil =>
    rw [List.mapM_nil]
    constructor
    · intro h
      cases h
      exact ⟨[], rfl, rfl⟩
    · rintro ⟨parts, hparts, rfl⟩
      cases hparts
      rfl
  | cons text rest ih =>
    unfold readListed
    rw [List.mapM_cons]
    cases hread : parser.parse text with
    | error e => exact iff_of_false nofun nofun
    | ok found =>
      show (readListed parser server rest >>= fun more => pure (found ++ more)) = .ok scopes ↔ _
      rw [ok_bind, bind_eq_ok_iff]
      constructor
      · rintro ⟨more, hmore, h⟩
        cases h
        obtain ⟨parts, hparts, rfl⟩ := ih.1 hmore
        exact ⟨found :: parts, bind_eq_ok_iff.2 ⟨parts, hparts, rfl⟩, rfl⟩
      · rintro ⟨_, hparts, rfl⟩
        obtain ⟨parts, hrest, h⟩ := bind_eq_ok_iff.1 hparts
        cases h
        exact ⟨parts.flatten, ih.2 ⟨parts, hrest, rfl⟩, rfl⟩

theorem mapM_parse_unbounded {listed : List String} {parts : List (List Scope)}
    (h : listed.mapM parser.parse = .ok parts) : listed.mapM Scope.parse = .ok parts := by
  rw [mapM_eq_ok_iff] at h ⊢
  exact h.imp fun _ _ => Parser.parse_unbounded_of_ok

theorem depth_le_of_mapM_parse {limit : Nat} {listed : List String} {parts : List (List Scope)}
    (h : listed.mapM (Parser.parse ⟨some limit⟩) = .ok parts) :
    ∀ r ∈ parts.flatten, r.depth ≤ limit + 1 := by
  intro r hr
  obtain ⟨part, hpart, hr⟩ := List.mem_flatten.1 hr
  obtain ⟨text, -, hread⟩ := exists_of_mem_mapM h hpart
  exact Parser.depth_le_of_parse hread r hr

/-! ## Server by server -/

/-- Add a server with what its expressions are read as. -/
def collect (parser : Parser) (q : Requirements) (entry : String × List String) :
    Except SettingsError Requirements := do
  return q.append entry.1 (← readListed parser entry.1 entry.2)

theorem ofSettings_eq (s : Settings) :
    ofSettings s = s.servers.toList.foldlM (collect s.parser) {} :=
  rfl

theorem collect_eq_error_iff (q : Requirements) (entry : String × List String) (e : SettingsError) :
    collect parser q entry = .error e ↔ readListed parser entry.1 entry.2 = .error e := by
  unfold collect
  cases readListed parser entry.1 entry.2 with
  | error e' => rw [error_bind, Except.error.injEq, Except.error.injEq]
  | ok scopes => exact iff_of_false nofun nofun

/-- The requirement set holds what the expressions of the servers are read as, and nothing else. -/
def Collected (parser : Parser) (entries : List (String × List String)) (q : Requirements) : Prop :=
  ∀ name scopes, q.get? name = some scopes ↔
    ∃ listed, (name, listed) ∈ entries ∧ readListed parser name listed = .ok scopes

namespace Collected

variable {entries others : List (String × List String)} {entry : String × List String}

theorem nil (parser : Parser) : Collected parser [] {} := by
  intro name scopes
  refine iff_of_false nofun ?_
  rintro ⟨listed, hmem, -⟩
  exact List.not_mem_nil hmem

theorem get?_eq_none {name : String} (h : Collected parser entries q)
    (hnew : name ∉ entries.map Prod.fst) : q.get? name = none := by
  rw [Option.eq_none_iff_forall_ne_some]
  intro scopes hget
  obtain ⟨listed, hmem, -⟩ := (h name scopes).1 hget
  exact hnew (List.mem_map_of_mem hmem)

theorem step (h : Collected parser entries q) (hnew : entry.1 ∉ entries.map Prod.fst)
    (hnext : collect parser q entry = .ok next) : Collected parser (entries ++ [entry]) next := by
  obtain ⟨server, listed⟩ := entry
  obtain ⟨found, hread, hnext⟩ := bind_eq_ok_iff.1 hnext
  cases hnext
  intro name scopes
  rw [get?_append, h.get?_eq_none hnew]
  by_cases hname : server = name
  · -- the server is new, so this is the only entry for it and it is appended to nothing
    subst hname
    have honly : ∀ other, (server, other) ∈ entries ++ [(server, listed)] ↔ other = listed := by
      intro other
      rw [List.mem_append, List.mem_singleton, Prod.mk.injEq, and_iff_right rfl, or_iff_right]
      intro hmem
      have hbefore : server ∈ entries.map Prod.fst := List.mem_map_of_mem hmem
      exact hnew hbefore
    simp only [honly, exists_eq_left, hread, if_true, Option.getD_none, List.nil_append,
      Option.some.injEq, Except.ok.injEq]
  · rw [if_neg hname, h name scopes]
    refine exists_congr fun other => and_congr_left fun _ => ?_
    rw [List.mem_append, List.mem_singleton, Prod.mk.injEq, or_iff_left]
    exact fun heq => hname heq.1.symm

theorem run (hdistinct : (entries.map Prod.fst).Nodup)
    (h : entries.foldlM (collect parser) {} = .ok q) : Collected parser entries q := by
  revert hdistinct
  refine foldlM_invariant
    (P := fun ys q => (ys.map Prod.fst).Nodup → Collected parser ys q) ?_ (fun _ => nil parser) h
  intro ys entry q next ih hnext hdistinct
  rw [List.map_append, List.map_singleton, ← List.concat_eq_append, List.nodup_concat] at hdistinct
  exact (ih hdistinct.2).step hdistinct.1 hnext

-- the order of the servers does not show in what is collected
theorem eq_of_perm (h : Collected parser entries q) (hother : Collected parser others next)
    (hperm : others.Perm entries) : next = q := by
  have hservers : next.servers = q.servers := by
    refine Std.ExtTreeMap.ext_getElem? fun name => Option.ext fun scopes => ?_
    show next.get? name = some scopes ↔ q.get? name = some scopes
    rw [h name scopes, hother name scopes]
    simp only [hperm.mem_iff]
  obtain ⟨servers⟩ := q
  obtain ⟨servers'⟩ := next
  cases hservers
  rfl

end Collected

theorem exists_foldlM_collect_eq_ok_iff {entries : List (String × List String)} :
    (∃ q, entries.foldlM (collect parser) {} = .ok q) ↔
      ∀ entry ∈ entries, ∃ scopes, readListed parser entry.1 entry.2 = .ok scopes := by
  rw [exists_foldlM_eq_ok_iff_of_const collect_eq_error_iff, faultless_iff_forall_mem]
  simp only [exists_eq_ok_iff, ne_eq]

/-! ## Settings that were loaded -/

section OfSettings

variable {s : Settings} {name : String} {scopes : List Scope}

theorem exists_readListed_of_inOrder (h : s.InOrder) :
    ∀ entry ∈ s.servers.toList, ∃ scopes, readListed s.parser entry.1 entry.2 = .ok scopes := by
  rintro ⟨name, listed⟩ hmem
  have hstored := Std.ExtTreeMap.mem_toList_iff_getElem?_eq_some.1 hmem
  obtain ⟨parts, hparts⟩ := h.exists_mapM_parse hstored
  exact ⟨parts.flatten, readListed_eq_ok_iff.2 ⟨parts, hparts, rfl⟩⟩

theorem exists_foldlM_collect_of_inOrder (h : s.InOrder) {entries : List (String × List String)}
    (hperm : entries.Perm s.servers.toList) :
    ∃ q, entries.foldlM (collect s.parser) {} = .ok q :=
  exists_foldlM_collect_eq_ok_iff.2 fun entry hmem =>
    exists_readListed_of_inOrder h entry (hperm.mem_iff.1 hmem)

theorem collected_of_perm {entries : List (String × List String)}
    (hperm : entries.Perm s.servers.toList)
    (h : entries.foldlM (collect s.parser) {} = .ok q) : Collected s.parser entries q := by
  refine Collected.run ((hperm.map Prod.fst).nodup_iff.2 ?_) h
  rw [Std.ExtTreeMap.map_fst_toList_eq_keys]
  exact Std.ExtTreeMap.nodup_keys

theorem collected_of_ofSettings (h : ofSettings s = .ok q) :
    Collected s.parser s.servers.toList q := by
  rw [ofSettings_eq] at h
  exact collected_of_perm (List.Perm.refl _) h

theorem get?_ofSettings_eq_some_iff (h : ofSettings s = .ok q) :
    q.get? name = some scopes ↔ ∃ listed, s.servers[name]? = some listed ∧
      ∃ parts, listed.mapM s.parser.parse = .ok parts ∧ scopes = parts.flatten := by
  simp only [collected_of_ofSettings h name scopes, Std.ExtTreeMap.mem_toList_iff_getElem?_eq_some,
    readListed_eq_ok_iff]

theorem exists_get?_ofSettings_iff (h : ofSettings s = .ok q) (hs : s.InOrder) :
    (∃ scopes, q.get? name = some scopes) ↔ name ∈ s.servers := by
  rw [← Std.ExtTreeMap.isSome_getElem?_iff_mem, Option.isSome_iff_exists]
  simp only [get?_ofSettings_eq_some_iff h]
  constructor
  · rintro ⟨scopes, listed, hstored, -⟩
    exact ⟨listed, hstored⟩
  · rintro ⟨listed, hstored⟩
    obtain ⟨parts, hparts⟩ := hs.exists_mapM_parse hstored
    exact ⟨parts.flatten, listed, hstored, parts, hparts, rfl⟩

theorem serverNames_ofSettings (h : ofSettings s = .ok q) (hs : s.InOrder) :
    q.serverNames = s.servers.keys := by
  have hless : ∀ {β : Type} (m : Std.ExtTreeMap String β), m.keys.Pairwise (· < ·) :=
    fun m => m.ordered_keys.imp compareOfLessAndEq_eq_lt.1
  refine (hless q.servers).eq_of_mem_iff (hless s.servers) fun name => ?_
  show name ∈ q.serverNames ↔ _
  rw [mem_serverNames_iff, exists_get?_ofSettings_iff h hs, Std.ExtTreeMap.mem_keys]

theorem exists_not_isBlank_of_inOrder (hs : s.InOrder) :
    ∀ server ∈ s.servers, ∃ c ∈ server.toList, Text.isBlank c = false := by
  intro server hserver
  obtain ⟨c, hc, hblank⟩ := List.all_eq_false.1 (hs.named server hserver)
  exact ⟨c, hc, Bool.of_not_eq_true hblank⟩

/-- Settings that were loaded allow nesting, name no server by a blank text, and make a requirement
set. It has the servers of the settings, each with what its expressions stand for without a bound,
one after the other, and no scope in it leads deeper than the bound allows. The servers may be gone
through in any order. -/
theorem exists_ofSettings_of_loaded (h : s.Loaded) :
    s.maxDepth ≠ some 0 ∧
    (∀ server ∈ s.servers, ∃ c ∈ server.toList, Text.isBlank c = false) ∧
    ∃ q, ofSettings s = .ok q ∧ q.serverNames = s.servers.keys ∧
      (∀ (server : String) (listed : List String), s.servers[server]? = some listed →
        ∃ parts, listed.mapM Scope.parse = .ok parts ∧ q.get? server = some parts.flatten) ∧
      (∀ limit, s.maxDepth = some limit → ∀ server scopes, q.get? server = some scopes →
        ∀ r ∈ scopes, r.depth ≤ limit + 1) ∧
      ∀ entries : List (String × List String), entries.Perm s.servers.toList →
        entries.foldlM (collect s.parser) {} = .ok q := by
  have hs := h.inOrder
  obtain ⟨q, hq⟩ : ∃ q, ofSettings s = .ok q := by
    simp only [ofSettings_eq]
    exact exists_foldlM_collect_of_inOrder hs (List.Perm.refl _)
  refine ⟨hs.depth, exists_not_isBlank_of_inOrder hs, q, hq, serverNames_ofSettings hq hs,
    fun server listed hstored => ?_, fun limit hlimit server scopes hget => ?_,
    fun entries hperm => ?_⟩
  · obtain ⟨parts, hparts⟩ := hs.exists_mapM_parse hstored
    refine ⟨parts, mapM_parse_unbounded hparts, ?_⟩
    exact (get?_ofSettings_eq_some_iff hq).2 ⟨listed, hstored, parts, hparts, rfl⟩
  · obtain ⟨listed, -, parts, hparts, rfl⟩ := (get?_ofSettings_eq_some_iff hq).1 hget
    rw [Settings.parser, hlimit] at hparts
    exact depth_le_of_mapM_parse hparts
  · obtain ⟨q', hq'⟩ := exists_foldlM_collect_of_inOrder hs hperm
    have hsame : q' = q :=
      (collected_of_ofSettings hq).eq_of_perm (collected_of_perm hperm hq') hperm
    rw [hq', hsame]

/-- A document with a bound and two servers, one of which requires nothing. -/
def twoServers : String :=
  "[parser]\nmax_depth = 1\n[resource_servers.b]\nscopes = [\"b[c] d\", \"e\"]\n[resource_servers.a]\n"

theorem exists_ofSettings_of_two_servers :
    ∃ s q, Settings.ofDocument twoServers = .ok s ∧ s.maxDepth = some 1 ∧ ofSettings s = .ok q ∧
      q.serverNames = ["a", "b"] ∧ q.get? "a" = some [] ∧
      q.get? "b" = some [.mk "b" false [.leaf "c" false], .leaf "d" false, .leaf "e" false] ∧
      Scope.depth (.mk "b" false [.leaf "c" false]) ≤ 2 := by
  have hview : (Settings.ofDocument twoServers).map (fun s => (s.maxDepth, s.servers.toList)) =
      .ok (some 1, [("a", []), ("b", ["b[c] d", "e"])]) := by decide +kernel
  obtain ⟨s, hs, hfields⟩ := map_eq_ok_iff.1 hview
  obtain ⟨hdepth, hservers⟩ := Prod.mk.inj hfields
  obtain ⟨-, -, q, hq, hnames, hscopes, hdeep, -⟩ := exists_ofSettings_of_loaded (.document hs)
  have hstored : ∀ (name : String) (listed : List String),
      (name, listed) ∈ s.servers.toList → s.servers[name]? = some listed :=
    fun _ _ => Std.ExtTreeMap.mem_toList_iff_getElem?_eq_some.1
  rw [hservers] at hstored
  obtain ⟨parts, hparts, ha⟩ := hscopes "a" [] (hstored "a" [] (by simp))
  cases hparts
  have hread : ["b[c] d", "e"].mapM Scope.parse =
      .ok [[.mk "b" false [.leaf "c" false], .leaf "d" false], [.leaf "e" false]] := by cbv
  obtain ⟨parts, hparts, hb⟩ := hscopes "b" ["b[c] d", "e"] (hstored "b" _ (by simp))
  rw [hread] at hparts
  cases hparts
  refine ⟨s, q, hs, hdepth, hq, ?_, ha, hb, hdeep 1 hdepth "b" _ hb _ (List.mem_cons_self ..)⟩
  rw [hnames, ← Std.ExtTreeMap.map_fst_toList_eq_keys, hservers]
  rfl

end OfSettings

end ScopeGrant.Requirements
