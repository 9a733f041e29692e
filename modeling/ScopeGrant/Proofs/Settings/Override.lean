import Mathlib
import ScopeGrant.Proofs.Scope.Limit
import ScopeGrant.Proofs.Settings.Check
import ScopeGrant.Proofs.Text.Digit

/-!
# A variable over a document

Settings come from a document and from variables that are laid over it, and only what comes of both
is checked. So a variable for the bound of nesting puts its own bound in the place of that of the
document, or where there was none, and leaves the servers as they are (`ofEntries?_putBound`); and
whether the settings can be loaded depends on how the scopes of the document read within the new
bound, not on how they read within the old one.
-/

namespace ScopeGrant

/-! ## Documents in files -/

namespace Toml

theorem key_mark (rest : List Char) : key ('\uFEFF' :: rest) = none := by
  have hspace : dropSpace ('\uFEFF' :: rest) = '\uFEFF' :: rest :=
    List.dropWhile_cons_of_neg (by decide)
  have hname : name (dropSpace ('\uFEFF' :: rest)) = none := by
    rw [hspace, name, quotedLine, bareName]
    · rfl
    · simp
    · simp
  have hrow : nameRow ('\uFEFF' :: rest) = none := by
    rw [nameRow, behindSpace, hname]
    rfl
  rw [key, hrow]
  rfl

/-- No statement begins with a mark of byte order. -/
theorem statements_mark (rest : List Char) : statements ('\uFEFF' :: rest) = none := by
  have hgaps : dropGaps ('\uFEFF' :: rest) = '\uFEFF' :: rest := by
    rw [dropGaps] <;> simp
  have hstatement : statement ('\uFEFF' :: rest) = none := by
    rw [statement, assignment, key_mark]
    · rfl
    · simp
    · simp
  unfold statements
  split
  · rename_i hnil
    cases hgaps.symm.trans hnil
  · rename_i c tail hcons
    obtain ⟨rfl, rfl⟩ := List.cons.inj (hgaps.symm.trans hcons)
    rw [hstatement]

/-- A document that can be read has one mark of byte order at its front at most, so it makes no
difference if that was taken off when the document was read from a file. -/
theorem read?_dropMark {document : String} {entries : Entries Setting}
    (h : read? document = some entries) :
    read? (String.ofList (dropMark document.toList)) = some entries := by
  have htwice : dropMark (dropMark document.toList) = dropMark document.toList := by
    generalize hchars : dropMark document.toList = chars
    unfold dropMark
    split
    · rw [read?, hchars, statements_mark] at h
      cases h
    · rfl
  rw [read?, String.toList_ofList, htwice]
  exact h

end Toml

namespace Settings

/-- Settings are loaded from a file that holds the text: it is at the path that is asked for or, if
none is, at the first default path where anything is. -/
inductive LoadsFile (s : Surroundings) (text : String) : (path : Option String) → Prop where
  | asked {path : String} {place : FilePlace} (hplace : s.work.place? path = some place)
      (htext : s.work.text? place = some text) : LoadsFile s text (some path)
  | default {area : FileArea} {path : String} {place : FilePlace}
      (hfirst : (defaultPaths s).find? (fun (area, path) => (area.place? path).isSome) =
        some (area, path))
      (hplace : area.place? path = some place) (htext : area.text? place = some text) :
    LoadsFile s text none

theorem documentAt_eq {area : FileArea} {path text : String} {place : FilePlace}
    (hplace : area.place? path = some place) (htext : area.text? place = some text) :
    documentAt area path = .ok (String.ofList (Toml.dropMark text.toList)) := by
  rw [documentAt, FileArea.document?, hplace, Option.bind_some, htext]

theorem LoadsFile.document_eq {s : Surroundings} {text : String} {path : Option String}
    (h : LoadsFile s text path) :
    document s path = .ok (some (String.ofList (Toml.dropMark text.toList))) := by
  cases h with
  | asked hplace htext =>
    rw [document, hplace, documentAt_eq hplace htext]
    rfl
  | default hfirst hplace htext =>
    rw [document, hfirst]
    simp only [documentAt_eq hplace htext]
    rfl

end Settings

/-! ## The variable -/

namespace Environment

open Text (integer? integer?_toDigits isDigit_of_mem_toDigits)

/-- The variables that count. -/
def counting (environment : List (String × String)) : List (String × String) :=
  environment.filter fun (name, _) => (settingName? name).isSome

theorem settings_counting (environment : List (String × String)) :
    settings (counting environment) = settings environment := by
  rw [settings, counting, List.filterMap_filter]
  refine List.filterMap_congr ?_
  rintro ⟨name, value⟩ -
  -- the condition of the filter mentions the name, so this cannot be generalised
  rcases Option.eq_none_or_eq_some (settingName? name) with hname | ⟨setting, hname⟩
  · simp [hname]
  · simp [hname]

/-- The variable that bounds the nesting. -/
def depthVariable : String :=
  "CONSENT_SCOPES__PARSER__MAX_DEPTH"

theorem settingName?_depthVariable : settingName? depthVariable = some "parser.max_depth" := by
  decide +kernel

theorem toLower_of_isDigit {c : Char} (h : c.isDigit = true) : c.toLower = c := by
  refine Char.toLower_eq_of_not_isUpper fun hupper => ?_
  have hdigit : 48 ≤ c.val ∧ c.val ≤ 57 := by simpa [Char.isDigit] using h
  have hletter : 65 ≤ c.val ∧ c.val ≤ 90 := by simpa [Char.isUpper] using hupper
  exact absurd (UInt32.le_trans hletter.1 hdigit.2) (by decide)

/-- Decimal digits are read as the integer that they write. -/
theorem setting_toString {n : Nat} (hn : n < 2 ^ 63) : setting (toString n) = .integer n := by
  have hchars : (toString n).toList = Nat.toDigits 10 n := Nat.toList_repr
  have hlower : (Nat.toDigits 10 n).map Char.toLower = Nat.toDigits 10 n :=
    (List.map_congr_left fun _ hc => toLower_of_isDigit (isDigit_of_mem_toDigits hc)).trans
      (List.map_id _)
  have hword : ∀ {word : String} {c : Char}, c ∈ word.toList → c.isDigit = false →
      String.ofList (Nat.toDigits 10 n) ≠ word := by
    rintro _ c hc hnot rfl
    rw [String.toList_ofList] at hc
    rw [isDigit_of_mem_toDigits hc] at hnot
    cases hnot
  have hsigned : signed? (n : Int) = some (n : Int) := by
    rw [signed?, if_pos]
    simp only [minSigned, maxSigned]
    omega
  rw [setting, hchars, hlower]
  simp only [integer?_toDigits, Option.bind_some, hsigned]
  rw [if_neg (hword (c := 't') (by decide) (by decide)),
    if_neg (hword (c := 'f') (by decide) (by decide))]

theorem settings_of_counting_eq {environment : List (String × String)} {n : Nat} (hn : n < 2 ^ 63)
    (h : counting environment = [(depthVariable, toString n)]) :
    settings environment = [("parser.max_depth", .integer n)] := by
  rw [← settings_counting, h, settings, List.filterMap_cons]
  dsimp only
  rw [settingName?_depthVariable, setting_toString hn]
  rfl

end Environment

/-! ## Another bound -/

namespace Setting

/-- Settings with a bound of nesting in the place of the one that they had. -/
def putBound (n : Nat) (base : Setting) : Setting :=
  layAt (.integer n) [.entry "parser", .entry "max_depth"] base

theorem layNamed_depth (n : Nat) (base : Setting) :
    layNamed [("parser.max_depth", .integer n)] base = base.putBound n := by
  have hpath : KeyPath.ofName "parser.max_depth" = [.entry "parser", .entry "max_depth"] := by
    decide +kernel
  rw [layNamed, List.foldl_cons]
  dsimp only
  rw [hpath]
  rfl

theorem exists_entries_putBound (n : Nat) (base : Setting) :
    ∃ parser : Setting, (base.putBound n).entries = base.entries.put "parser" parser ∧
      parser.maxDepth? = some (some n) := by
  refine ⟨_, rfl, ?_⟩
  rw [layAt, maxDepth?, field?, Entries.get?_put_self]
  rfl

end Setting

namespace Settings

theorem ofEntries?_eq_some_iff {entries : Entries Setting} {c : Settings} :
    ofEntries? entries = some c ↔
      (entries.get? "parser").elim (some none) Setting.maxDepth? = some c.maxDepth ∧
        ∃ servers, (entries.get? "resource_servers").elim (some []) Setting.servers? =
          some servers ∧ c.servers = .ofList servers := by
  have heq : ofEntries? entries =
      ((entries.get? "parser").elim (some none) Setting.maxDepth?).bind fun maxDepth =>
        ((entries.get? "resource_servers").elim (some []) Setting.servers?).bind fun servers =>
          some { maxDepth, servers := .ofList servers } := by
    unfold ofEntries?
    cases entries.get? "parser" <;> cases entries.get? "resource_servers" <;> rfl
  simp only [heq, Option.bind_eq_some_iff, Option.some.injEq]
  constructor
  · rintro ⟨maxDepth, hdepth, servers, hservers, rfl⟩
    exact ⟨hdepth, servers, hservers, rfl⟩
  · rintro ⟨hdepth, servers, hservers, heq⟩
    exact ⟨c.maxDepth, hdepth, servers, hservers, by rw [← heq]⟩

/-- Another bound takes the place of the one in settings, and the servers stay as they are. -/
theorem ofEntries?_putBound {base : Setting} {c : Settings} (n : Nat)
    (h : ofEntries? base.entries = some c) :
    ofEntries? (base.putBound n).entries = some { c with maxDepth := some n } := by
  obtain ⟨parser, hentries, hbound⟩ := Setting.exists_entries_putBound n base
  have hother : (base.entries.put "parser" parser).get? "resource_servers" =
      base.entries.get? "resource_servers" :=
    Entries.get?_put_of_ne (by decide) parser base.entries
  rw [ofEntries?_eq_some_iff] at h ⊢
  rw [hentries, Entries.get?_put_self, hother]
  exact ⟨hbound, h.2⟩

theorem ofLayers_eq {document : String} {environment : List (String × String)}
    {entries : Entries Setting} {c : Settings} (hread : Toml.read? document = some entries)
    (h : ofEntries? (Setting.layNamed (Environment.settings environment)
      (Setting.layNamed entries (.table []))).entries = some c) :
    ofLayers (some document) environment = c.check.map fun _ => c := by
  rw [ofLayers, Option.map_some, Option.getD_some, hread]
  simp only [h]
  cases c.check <;> rfl

/-- What is loaded from a document and a variable for the bound of nesting is the document with that
bound, once it has been checked. -/
theorem load_eq_check {s : Surroundings} {path : Option String} {text : String} {c : Settings}
    {n : Nat} (hfile : LoadsFile s text path) (htext : ofDocument text = .ok c) (hn : n < 2 ^ 63)
    (hvariable :
      Environment.counting s.environment = [(Environment.depthVariable, toString n)]) :
    load s path =
      ({ c with maxDepth := some n } : Settings).check.map
        fun _ => { c with maxDepth := some n } := by
  obtain ⟨entries, hread, hmeaning, -⟩ := exists_of_ofLayers htext
  rw [load, hfile.document_eq, ok_bind]
  refine ofLayers_eq (Toml.read?_dropMark hread) ?_
  rw [Environment.settings_of_counting_eq hn hvariable, Setting.layNamed_depth]
  exact ofEntries?_putBound n hmeaning

/-! ## What is loaded -/

/-- All required scopes can be read within a bound. -/
def ReadsWithin (c : Settings) (n : Nat) : Prop :=
  ∀ (server : String) (scopes : List String), c.servers[server]? = some scopes →
    ∀ scope ∈ scopes, ∃ found, (Parser.mk (some n)).parse scope = .ok found

variable {c : Settings} {n : Nat}

theorem readsWithin_iff : c.ReadsWithin n ↔
    ∀ entry ∈ c.servers.toList, ∀ scope ∈ entry.2,
      ((Parser.mk (some n)).parse scope).toBool = true := by
  simp only [ReadsWithin, exists_eq_ok_iff_toBool, Prod.forall,
    Std.ExtTreeMap.mem_toList_iff_getElem?_eq_some]

instance : Decidable (c.ReadsWithin n) :=
  decidable_of_iff _ readsWithin_iff.symm

theorem InOrder.with_bound (h : c.InOrder) (hn : 0 < n) (hreads : c.ReadsWithin n) :
    ({ c with maxDepth := some n } : Settings).InOrder where
  depth := by
    rw [ne_eq, Option.some.injEq]
    exact Nat.ne_of_gt hn
  named := h.named
  read := hreads

/-- Another bound can only be too narrow: settings in order fail its check with a scope that is
nested too deep. -/
theorem InOrder.exists_tooDeep {e : SettingsError} (h : c.InOrder) (hn : 0 < n)
    (he : ({ c with maxDepth := some n } : Settings).check = .error e) :
    ∃ (server : String) (scopes : List String) (scope : String) (position : Nat),
      c.servers[server]? = some scopes ∧ scope ∈ scopes ∧
        (Parser.mk (some n)).parse scope = .error (.parse .tooDeep position scope) ∧
        e = .invalidScope .checked server scope (.parse .tooDeep position scope) := by
  have hdepth : some n ≠ some 0 := by
    rw [ne_eq, Option.some.injEq]
    exact Nat.ne_of_gt hn
  obtain ⟨server, scopes, scope, fault, hstored, hscope, hfault, rfl⟩ :=
    exists_of_check_eq_error (s := { c with maxDepth := some n }) hdepth h.named he
  obtain ⟨found, hfound⟩ := h.read server scopes hstored scope hscope
  rcases Parser.parse_eq_or_tooDeep ⟨some n⟩ scope with hsame | ⟨position, hdeep⟩
  · rw [Parser.parse_unbounded_of_ok hfound] at hsame
    cases hsame.symm.trans hfault
  · cases hdeep.symm.trans hfault
    exact ⟨server, scopes, scope, position, hstored, hscope, hdeep, rfl⟩

/-- A document with a bound and a scope that needs two levels of brackets. -/
def nestedText : String :=
  "[parser]\nmax_depth = 2\n[resource_servers.api]\nscopes = [\"a[b[c]]\"]\n"

/-- The document in a file, and a variable for another bound among the variables. -/
def nestedSurroundings (n : Nat) : Surroundings where
  work := .ofList [("conf.toml", .file nestedText)]
  environment := [("HOME", "/home"), (Environment.depthVariable, toString n)]

end Settings

end ScopeGrant
