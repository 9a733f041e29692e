import ScopeGrant.Proofs.Consent.Edges

/-!
# The order of a walk

A walk visits a consent before those below it, and these child by child. So each pending consent
stands for itself and all consents whose paths go on from its own. In the order of the paths these
are the consent and then, child by child, what the children stand for (`below_eq`). A visit
therefore takes the next consent of that order (`Walk.At.step`), and the walk has ended when it has
taken all of them. The trees of a forest stand in the order of their roots, so one after the other
they list the whole forest in the order of the paths.
-/

namespace ScopeGrant

variable {consents : List Consent} {c : Consent}

/-! ## The order of the paths -/

/-- The consents in the lexicographic order of their paths, each before those whose paths go on from
its own. -/
def inPathOrder (consents : List Consent) : List Consent :=
  consents.mergeSort fun c d => c.path ≤ d.path

theorem mem_inPathOrder : c ∈ inPathOrder consents ↔ c ∈ consents :=
  (List.mergeSort_perm _ _).mem_iff

theorem length_inPathOrder (consents : List Consent) :
    (inPathOrder consents).length = consents.length :=
  (List.mergeSort_perm _ _).length_eq

theorem pairwise_inPathOrder (h : Coherent consents) :
    (inPathOrder consents).Pairwise (·.path < ·.path) := by
  have hsorted : (inPathOrder consents).Pairwise (·.path ≤ ·.path) := by
    have hle := @List.pairwise_mergeSort _ (fun c d : Consent => decide (c.path ≤ d.path))
      (fun b c d hbc hcd => by
        simp only [decide_eq_true_eq] at hbc hcd ⊢
        exact Std.le_trans hbc hcd)
      (fun c d => by
        simp only [Bool.or_eq_true, decide_eq_true_eq]
        exact Std.le_total) consents
    simpa only [decide_eq_true_eq, inPathOrder] using hle
  have hnodup : (inPathOrder consents).Nodup :=
    (List.mergeSort_perm _ _).nodup_iff.2 (h.nodup.of_map _)
  refine (hsorted.and hnodup).imp_of_mem fun {c d} hc hd ⟨hle, hne⟩ => ?_
  exact Std.lt_of_le_of_ne hle fun heq =>
    hne (h.eq_of_path (mem_inPathOrder.1 hc) (mem_inPathOrder.1 hd) heq)

/-- Consents with ascending paths stand in the one order in which they can. -/
theorem eq_of_pairwise_path_lt {cs cs' : List Consent} (h : cs.Pairwise (·.path < ·.path))
    (h' : cs'.Pairwise (·.path < ·.path)) (hmem : ∀ c, c ∈ cs ↔ c ∈ cs') : cs = cs' := by
  have hnodup : ∀ {cs : List Consent}, cs.Pairwise (·.path < ·.path) → cs.Nodup := by
    intro cs h
    refine h.imp fun {c d} hless heq => ?_
    exact Std.lt_irrefl (heq ▸ hless)
  refine ((List.perm_ext_iff_of_nodup (hnodup h) (hnodup h')).2 hmem).eq_of_pairwise
    (fun c d _ _ hcd hdc => ?_) h h'
  exact absurd hdc (Std.Asymm.asymm _ _ hcd)

/-- Where the paths of each part go on from `above` with a key of their own, the parts ascend if
their keys do. -/
theorem pairwise_flatMap_of_keys {α : Type} {xs : List α} {key : α → ConsentId}
    {part : α → List Consent} (above : List ConsentId) (hkeys : xs.Pairwise (key · < key ·))
    (hparts : ∀ x ∈ xs, (part x).Pairwise (·.path < ·.path))
    (hpaths : ∀ x ∈ xs, ∀ c ∈ part x, above ++ [key x] <+: c.path) :
    (xs.flatMap part).Pairwise (·.path < ·.path) := by
  refine List.pairwise_flatMap.2 ⟨hparts, hkeys.imp_of_mem fun {x y} hx hy hless c hc d hd => ?_⟩
  obtain ⟨more, hmore⟩ := hpaths x hx c hc
  obtain ⟨more', hmore'⟩ := hpaths y hy d hd
  rw [← hmore, ← hmore', List.append_assoc, List.append_assoc]
  exact List.append_left_lt (List.cons_lt_cons_iff.2 (Or.inl hless))

/-- The line of a consent: two blanks for each consent above it, and the consent in words. -/
def Consent.line (c : Consent) : String :=
  String.ofList (List.replicate (2 * (c.path.length - 1)) ' ') ++ c.display ++ "\n"

namespace ConsentTree

variable {rootId : ConsentId} {t : ConsentTree} {d k : Consent} {id : ConsentId}

/-! ## What a pending consent stands for -/

/-- The consents whose paths go on from that of `c`, and `c` itself. -/
def below (cs : List Consent) (c : Consent) : List Consent :=
  cs.filter (c.path <+: ·.path)

theorem mem_below_iff :
    d ∈ below (inPathOrder consents) c ↔ d ∈ consents ∧ c.path <+: d.path := by
  rw [below, List.mem_filter, decide_eq_true_eq, mem_inPathOrder]

theorem mem_children_iff (h : ofList rootId consents = .ok t) :
    k ∈ t.children c.id ↔ k ∈ consents ∧ k.parentId? = some c.id := by
  rw [(holds_of_ofList h).mem_children_iff, IsChild, ConsentTree.get?,
    (holds_of_ofList h).stored k.id k, eq_self_iff_true, and_true]

theorem pairwise_children (h : ofList rootId consents = .ok t) (id : ConsentId) :
    (t.children id).Pairwise (·.id < ·.id) := by
  have hid : ∀ {id c}, t.get? id = some c → c.id = id := fun hget =>
    (((holds_of_ofList h).stored _ _).1 hget).2
  refine Std.ExtTreeSet.ordered_toList.filterMap _ fun a b hab c hc d hd => ?_
  rw [hid hc, hid hd]
  exact Std.compare_eq_lt.1 hab

theorem path_of_mem_children (h : ofList rootId consents = .ok t) (hc : c ∈ consents)
    (hk : k ∈ t.children c.id) : k.path = c.path ++ [k.id] :=
  have hchild := (mem_children_iff h).1 hk
  (coherent_of_ofList h).path_eq_of_parentId? hc hchild.1 hchild.2

/-- A path that goes on from that of `c` goes on through one of the children of `c`. -/
theorem exists_mem_children_of_path (h : ofList rootId consents = .ok t) (hc : c ∈ consents)
    (hd : d ∈ consents) {more : List ConsentId} (hmore : c.path ++ id :: more = d.path) :
    ∃ k ∈ t.children c.id, k.path <+: d.path := by
  have hcoherent := coherent_of_ofList h
  have hbegin : c.path ++ [id] <+: d.path := ⟨more, by simpa using hmore⟩
  obtain ⟨k, hk, hpath⟩ := hcoherent.exists_of_beginning hd hbegin (by simp)
  obtain ⟨above, hends⟩ := List.getLast?_eq_some_iff.1 (hcoherent.inOrder c hc).ends
  have hparent : k.parentId? = some c.id :=
    Consent.parentId?_eq_some_iff.2 ⟨above, id, by rw [hpath, hends]; simp⟩
  exact ⟨k, (mem_children_iff h).2 ⟨hk, hparent⟩, hpath ▸ hbegin⟩

/-- At and below a consent there are the consent and those at and below its children. -/
theorem below_eq (h : ofList rootId consents = .ok t) (hc : c ∈ consents) :
    below (inPathOrder consents) c =
      c :: (t.children c.id).flatMap (below (inPathOrder consents)) := by
  have hsorted := pairwise_inPathOrder (coherent_of_ofList h)
  refine eq_of_pairwise_path_lt (hsorted.filter _) (List.pairwise_cons.2 ⟨?_, ?_⟩) fun d => ?_
  · intro d hd
    obtain ⟨k, hk, hd⟩ := List.mem_flatMap.1 hd
    obtain ⟨more, hmore⟩ := (mem_below_iff.1 hd).2
    rw [← hmore, path_of_mem_children h hc hk, List.append_assoc]
    conv_lhs => rw [← List.append_nil c.path]
    exact List.append_left_lt (List.nil_lt_cons _ _)
  · refine pairwise_flatMap_of_keys c.path (pairwise_children h c.id)
      (fun k _ => hsorted.filter _) fun k hk d hd => ?_
    rw [← path_of_mem_children h hc hk]
    exact (mem_below_iff.1 hd).2
  · simp only [mem_below_iff, List.mem_cons, List.mem_flatMap]
    constructor
    · rintro ⟨hd, more, hmore⟩
      cases more with
      | nil =>
        rw [List.append_nil] at hmore
        exact Or.inl ((coherent_of_ofList h).eq_of_path hd hc hmore.symm)
      | cons id more =>
        obtain ⟨k, hk, hbegin⟩ := exists_mem_children_of_path h hc hd hmore
        exact Or.inr ⟨k, hk, hd, hbegin⟩
    · rintro (rfl | ⟨k, hk, hd, hbegin⟩)
      · exact ⟨hc, List.prefix_rfl⟩
      · exact ⟨hd, (path_of_mem_children h hc hk ▸ List.prefix_append _ _).trans hbegin⟩

/-! ## Visits -/

/-- Where a walk stands after so many visits, if the consents are `sorted`: it has visited the first
of them, and the pending ones stand for the rest. -/
structure Walk.At (sorted : List Consent) (visits : Nat) (w : Walk) : Prop where
  visited : w.visited.reverse = (sorted.take visits).map fun c => (c, c.depth)
  pending : ∃ cs : List Consent, w.pending = cs.map (fun c => (c, c.depth)) ∧
    (∀ c ∈ cs, c ∈ sorted) ∧ cs.flatMap (below sorted) = sorted.drop visits

theorem at_startWalk (h : ofList rootId consents = .ok t) :
    t.startWalk.At (inPathOrder consents) 0 := by
  have hroot : t.root.path = [rootId] := (path_eq_singleton_iff h (root_mem h)).2 rfl
  refine ⟨rfl, [t.root], ?_, ?_, ?_⟩
  · rw [List.map_singleton, Consent.depth, hroot]
    rfl
  · rw [List.forall_mem_singleton, mem_inPathOrder]
    exact root_mem h
  · -- all paths begin with the root
    rw [List.flatMap_singleton, List.drop_zero, below, List.filter_eq_self]
    intro c hc
    obtain ⟨rest, hpath⟩ := List.head?_eq_some_iff.1 (rootId?_of_ofList h (mem_inPathOrder.1 hc))
    rw [hroot, hpath, decide_eq_true_eq]
    exact ⟨rest, rfl⟩

/-- A visit takes the next of the consents. -/
theorem Walk.At.step (h : ofList rootId consents = .ok t) {visits : Nat} {w : Walk}
    (hw : w.At (inPathOrder consents) visits) :
    (w.step t).At (inPathOrder consents) (visits + 1) := by
  obtain ⟨hvisited, cs, hpending, hmem, hrest⟩ := hw
  cases cs with
  | nil =>
    -- nothing is pending, so all consents have been visited and the walk stays where it is
    have hall : (inPathOrder consents).length ≤ visits := List.drop_eq_nil_iff.1 hrest.symm
    have hstay : w.step t = w := by rw [Walk.step, hpending]; rfl
    rw [hstay]
    refine ⟨?_, [], hpending, hmem, ?_⟩
    · rw [hvisited, List.take_of_length_le hall, List.take_of_length_le (by omega)]
    · rw [List.drop_eq_nil_of_le (by omega)]
      rfl
  | cons c cs =>
    obtain ⟨hc, hmem⟩ := List.forall_mem_cons.1 hmem
    rw [mem_inPathOrder] at hc
    have hlevel : (t.children c.id).map (·, c.depth + 1) =
        (t.children c.id).map fun k => (k, k.depth) := by
      refine List.map_congr_left fun k hk => ?_
      rw [Consent.depth, Consent.depth, path_of_mem_children h hc hk, List.length_append]
      rfl
    have hstep : w.step t =
        { pending := (t.children c.id ++ cs).map fun c => (c, c.depth)
          visited := (c, c.depth) :: w.visited } := by
      rw [Walk.step, hpending, List.map_append, ← hlevel]
      rfl
    -- what `c` stands for begins with `c` itself, so this is the next consent in order
    rw [List.flatMap_cons, below_eq h hc, List.cons_append, ← List.flatMap_append] at hrest
    have hnext : (inPathOrder consents)[visits]? = some c := by
      rw [← List.head?_drop, ← hrest, List.head?_cons]
    rw [hstep]
    refine ⟨?_, _, rfl, List.forall_mem_append.2 ⟨fun k hk => ?_, hmem⟩, ?_⟩
    · rw [List.reverse_cons, hvisited, List.take_add_one, hnext, Option.toList_some,
        List.map_append, List.map_singleton]
    · exact mem_inPathOrder.2 ((mem_children_iff h).1 hk).1
    · rw [← List.tail_drop, ← hrest, List.tail_cons]

theorem Walk.At.run (h : ofList rootId consents = .ok t) (more : Nat) {visits : Nat} {w : Walk}
    (hw : w.At (inPathOrder consents) visits) :
    (w.run t more).At (inPathOrder consents) (visits + more) := by
  induction more generalizing visits w with
  | zero => exact hw
  | succ more ih =>
    rw [← Nat.add_assoc, Nat.add_right_comm]
    exact ih (hw.step h)

theorem at_run (h : ofList rootId consents = .ok t) (visits : Nat) :
    (t.startWalk.run t visits).At (inPathOrder consents) visits := by
  simpa only [Nat.zero_add] using (at_startWalk h).run h visits

/-- A walk ends when each consent has been visited, and not before. -/
theorem pending_run_eq_nil_iff (h : ofList rootId consents = .ok t) {visits : Nat} :
    (t.startWalk.run t visits).pending = [] ↔ t.size ≤ visits := by
  obtain ⟨-, cs, hpending, hmem, hrest⟩ := at_run h visits
  rw [hpending, List.map_eq_nil_iff, size_of_ofList h, ← length_inPathOrder,
    ← List.drop_eq_nil_iff, ← hrest, List.flatMap_eq_nil_iff]
  constructor
  · rintro rfl c hc
    cases hc
  · -- each consent that is pending stands for itself at least
    intro hnone
    refine List.eq_nil_iff_forall_not_mem.2 fun c hc => ?_
    have hself : c ∈ below (inPathOrder consents) c :=
      mem_below_iff.2 ⟨mem_inPathOrder.1 (hmem c hc), List.prefix_rfl⟩
    rw [hnone c hc] at hself
    cases hself

theorem walk_eq (h : ofList rootId consents = .ok t) :
    t.walk = (inPathOrder consents).map fun c => (c, c.depth) := by
  have hall : (inPathOrder consents).length ≤ t.size := by
    rw [length_inPathOrder, size_of_ofList h]
  rw [walk, (at_run h t.size).visited, List.take_of_length_le hall]

theorem display_eq (h : ofList rootId consents = .ok t) :
    t.display = String.join ((inPathOrder consents).map Consent.line) := by
  rw [display, walk_eq h, List.map_map]
  rfl

end ConsentTree

/-! ## Forests -/

namespace ConsentForest

variable {f : ConsentForest}

/-- The consents of the trees, one tree after the other, are those of the list in order. -/
theorem flatMap_inPathOrder_group (h : ofList consents = .ok f) :
    f.trees.flatMap (fun t => inPathOrder (group consents t.rootId)) = inPathOrder consents := by
  have hcoherent := coherent_of_ofList h
  refine eq_of_pairwise_path_lt ?_ (pairwise_inPathOrder hcoherent) fun c => ?_
  · refine pairwise_flatMap_of_keys [] (pairwise_rootId h)
      (fun t _ => pairwise_inPathOrder (hcoherent.filter_root _)) fun t _ c hc => ?_
    obtain ⟨rest, hpath⟩ := List.head?_eq_some_iff.1 (mem_group_iff.1 (mem_inPathOrder.1 hc)).2
    exact ⟨rest, hpath.symm⟩
  · simp only [List.mem_flatMap, mem_inPathOrder, mem_group_iff]
    constructor
    · rintro ⟨t, -, hc, -⟩
      exact hc
    · intro hc
      obtain ⟨t, ht, hroot⟩ := exists_mem_trees h hc
      exact ⟨t, ht, hc, hroot⟩

theorem flatMap_walk (h : ofList consents = .ok f) :
    f.trees.flatMap ConsentTree.walk = (inPathOrder consents).map fun c => (c, c.depth) := by
  rw [← flatMap_inPathOrder_group h, List.map_flatMap]
  exact List.flatMap_congr fun t ht => ConsentTree.walk_eq (ofList_of_mem_trees h ht)

theorem join_map_join {α : Type} (xs : List α) (lines : α → List String) :
    String.join (xs.map fun x => String.join (lines x)) = String.join (xs.flatMap lines) := by
  induction xs with
  | nil => rfl
  | cons x xs ih =>
    rw [List.map_cons, String.join_cons, ih, List.flatMap_cons, String.join_append]

theorem display_eq (h : ofList consents = .ok f) :
    f.display = String.join ((inPathOrder consents).map Consent.line) := by
  have hlines : f.trees.map ConsentTree.display = f.trees.map fun t =>
      String.join ((inPathOrder (group consents t.rootId)).map Consent.line) :=
    List.map_congr_left fun t ht => ConsentTree.display_eq (ofList_of_mem_trees h ht)
  rw [display, hlines, join_map_join, ← List.map_flatMap, flatMap_inPathOrder_group h]

/-- A walk through a tree that was built ends, namely when it has made as many visits as there are
consents. It lists each of them once, in the lexicographic order of the paths and with the length of
its path as its depth. So the trees of a forest, one after the other, list the consents in the order
of their paths, and trees and forests are written in this order with a line for each consent. -/
theorem walk_lists_in_path_order :
    (∀ rootId consents t, ConsentTree.ofList rootId consents = .ok t →
      (∀ visits, (t.startWalk.run t visits).pending = [] ↔ t.size ≤ visits) ∧
      (t.walk.map Prod.fst).Perm consents ∧ t.walk.Pairwise (·.1.path < ·.1.path) ∧
      (∀ visit ∈ t.walk, visit.2 = visit.1.path.length) ∧
      t.display = String.join ((inPathOrder consents).map Consent.line)) ∧
    ∀ consents f, ofList consents = .ok f →
      (f.trees.flatMap fun t => t.walk.map Prod.fst) = inPathOrder consents ∧
      f.display = String.join ((inPathOrder consents).map Consent.line) := by
  have hfirst : ∀ cs : List Consent, (cs.map fun c => (c, c.depth)).map Prod.fst = cs := by
    intro cs
    rw [List.map_map]
    exact List.map_id cs
  constructor
  · intro rootId consents t h
    refine ⟨fun visits => ConsentTree.pending_run_eq_nil_iff h, ?_, ?_, ?_,
      ConsentTree.display_eq h⟩
    · rw [ConsentTree.walk_eq h, hfirst]
      exact List.mergeSort_perm _ _
    · rw [ConsentTree.walk_eq h, List.pairwise_map]
      exact pairwise_inPathOrder (ConsentTree.coherent_of_ofList h)
    · rw [ConsentTree.walk_eq h]
      intro visit hvisit
      obtain ⟨c, -, rfl⟩ := List.mem_map.1 hvisit
      rfl
  · intro consents f h
    refine ⟨?_, display_eq h⟩
    rw [← List.map_flatMap, flatMap_walk h, hfirst]

def rootOfFour : Consent :=
  { id := 3, client := "app", scopeValue := "a", path := [3] }

def childTwo : Consent :=
  { id := 2, client := "app", scopeValue := "b", path := [3, 2] }

def belowChildTwo : Consent :=
  { id := 7, client := "web", scopeValue := "c", path := [3, 2, 7] }

/-- The child that would come first as a text. -/
def childTen : Consent :=
  { id := 10, client := "app", scopeValue := "d", path := [3, 10] }

def treeOfFour : List Consent :=
  [childTen, childTwo, rootOfFour, belowChildTwo]

def loneFour : Consent :=
  { id := 4, client := "app", scopeValue := "e", path := [4] }

/-- Of the two children the one with the greater number would come first as a text. -/
theorem walk_lists_in_path_order_of_two :
    (∃ t, ConsentTree.ofList 3 treeOfFour = .ok t ∧
      (t.startWalk.run t 4).pending = [] ∧ (t.startWalk.run t 3).pending ≠ [] ∧
      t.walk.length = 4) ∧
    ∃ f, ofList (loneFour :: treeOfFour) = .ok f ∧
      f.display = "a (id=3, client=app)\n  b (id=2, client=app)\n    c (id=7, client=web)\n" ++
        "  d (id=10, client=app)\ne (id=4, client=app)\n" := by
  have htree : (ConsentTree.ofList 3 treeOfFour).map ConsentTree.size = .ok 4 := by decide +kernel
  have hforest : (ofList (loneFour :: treeOfFour)).map size = .ok 2 := by decide +kernel
  obtain ⟨t, ht, hsize⟩ := map_eq_ok_iff.1 htree
  obtain ⟨f, hf, -⟩ := map_eq_ok_iff.1 hforest
  obtain ⟨hends, hperm, -⟩ := walk_lists_in_path_order.1 _ _ t ht
  obtain ⟨-, hdisplay⟩ := walk_lists_in_path_order.2 _ f hf
  refine ⟨⟨t, ht, (hends 4).2 (by rw [hsize]), ?_, ?_⟩, f, hf, ?_⟩
  · rw [ne_eq, hends, hsize]
    decide
  · simpa [treeOfFour] using hperm.length_eq
  · have horder : f.display = String.join
        ([rootOfFour, childTwo, belowChildTwo, childTen, loneFour].map Consent.line) := by
      rw [hdisplay]
      refine congrArg (fun cs : List Consent => String.join (cs.map Consent.line)) ?_
      exact eq_of_pairwise_path_lt (pairwise_inPathOrder (coherent_of_ofList hf)) (by decide)
        fun c => mem_inPathOrder.trans (List.Perm.mem_iff (by decide))
    rw [horder]
    decide +kernel

end ConsentForest

end ScopeGrant
