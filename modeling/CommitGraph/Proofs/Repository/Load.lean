import CommitGraph.Proofs.History.LogGraph
import CommitGraph.Proofs.Repository.Walk
import CommitGraph.Repository.Load

namespace CommitGraph

/-- A history has the first commits of another one, and what that one knows about them. -/
structure History.IsWindow (part full : History) (k : Nat) : Prop where
  commits_eq : part.commits = full.commits.take k
  hashes_prefix : part.hashes.hashes <+: full.hashes.hashes
  subjects_eq : part.subjects = full.subjects.filter (·.1 ∈ part.commits.map (·.id))
  references_eq : part.references = full.references.filter (·.target.toNat < part.hashes.size)

namespace Repository

variable {r : Repository} {tips : List String} {w all emitted : List (String × StoredCommit)}
  {lib : Library} {limit : Option Nat} {root : RootId} {head : Option String} {n m : Numbering}
  {k : Nat}

/-- The line that a log would have for a commit. -/
def entry (a : String × StoredCommit) : LogLine := ⟨a.2.time, a.1, a.2.parents⟩

/-- The subjects that can be read, by the numbers of their commits. -/
def subjectsOf (lib : Library) (n : Numbering) (w : List (String × StoredCommit)) :
    List (CommitId × String) :=
  w.filterMap fun a => (lib.summary a.2).map fun s => (n.numberOf a.1, s)

theorem numberWalk_eq (lib : Library) (hn : n.Agrees) (w : List (String × StoredCommit)) :
    numberWalk lib.summary n w = ((History.numberLines n (w.map entry)).1,
      subjectsOf lib (History.numberLines n (w.map entry)).2 w,
      (History.numberLines n (w.map entry)).2) := by
  induction w generalizing n with
  | nil => rfl
  | cons a w ih =>
    have hnext := (hn.assign a.1).assignAll a.2.parents
    have hparents := (n.assign a.1).2.assignAll_extends a.2.parents
    have hlines := History.numberLines_extends ((n.assign a.1).2.assignAll a.2.parents).2
      (w.map entry)
    have hid := Numbering.numberOf_of_extends (hparents.trans hlines) (Numbering.mem_assign hn a.1)
    rw [← Numbering.fst_assign hn] at hid
    simp only [numberWalk, ih hnext, List.map_cons, History.numberLines_cons, entry, subjectsOf,
      List.filterMap_cons, hid]
    cases lib.summary a.2 <;> rfl

theorem hash_map_entry (w : List (String × StoredCommit)) :
    (w.map entry).map (·.hash) = w.map (·.1) := by
  rw [List.map_map]
  rfl

theorem IsWalk.parent_mem (hw : r.IsWalk tips w) {a : String × StoredCommit} (ha : a ∈ w)
    {p : String} (hp : p ∈ a.2.parents) : p ∈ w.map (·.1) := by
  have hreached := hw.mem_iff.mp (List.mem_map_of_mem ha)
  exact hw.mem_iff.mpr (hreached.parent (hw.commit_eq ha) hp)

theorem unlisted_entry_eq_nil_iff :
    History.unlisted (w.map entry) = [] ↔ ∀ a ∈ w, ∀ p ∈ a.2.parents, p ∈ w.map (·.1) := by
  rw [History.unlisted_eq_nil_iff, List.forall_mem_map, hash_map_entry]
  rfl

theorem IsWalk.inOrder (hw : r.IsWalk tips w) : History.InOrder (w.map entry) := by
  rw [History.InOrder, List.forall_mem_map, List.pairwise_map]
  constructor
  · have hnodup := List.pairwise_map.mp hw.nodup
    rw [List.pairwise_iff_getElem] at hnodup ⊢
    intro i j hi hj hij
    refine ⟨hnodup i j hi hj hij, ?_⟩
    intro hp
    have hji := hw.child_before (List.getElem?_eq_getElem hj) (List.getElem?_eq_getElem hi) hp
    exact Nat.lt_asymm hij hji
  · intro a ha hp
    obtain ⟨i, hi⟩ := List.mem_iff_getElem?.mp ha
    exact Nat.lt_irrefl i (hw.child_before hi hi hp)

theorem upTo_prefix (limit : Option Nat) (w : List (String × StoredCommit)) :
    upTo limit w <+: w := by
  cases limit with
  | none => exact List.prefix_rfl
  | some k => exact List.take_prefix k w

theorem upTo_eq_self (hlimit : ∀ k ∈ limit, w.length ≤ k) : upTo limit w = w := by
  cases limit with
  | none => rfl
  | some k => exact List.take_of_length_le (hlimit k rfl)

theorem loadBy_eq (hhead : r.headCommit lib = .ok head) :
    r.loadBy lib limit root =
      .ok (r.historyAlong lib root head (upTo limit (lib.walk (r.tips lib head)))) := by
  rw [loadBy, hhead]
  rfl

theorem historyAlong_eq (r : Repository) (lib : Library) (root : RootId) (head : Option String)
    (w : List (String × StoredCommit)) :
    r.historyAlong lib root head w =
      ⟨(History.numberLines .empty (w.map entry)).1,
        r.references lib (History.numberLines .empty (w.map entry)).2 root head,
        (History.numberLines .empty (w.map entry)).2,
        subjectsOf lib (History.numberLines .empty (w.map entry)).2 w⟩ := by
  rw [historyAlong, numberWalk_eq lib Numbering.agrees_empty]

theorem agrees_historyAlong : (r.historyAlong lib root head w).hashes.Agrees := by
  rw [historyAlong_eq]
  exact History.agrees_numberLines Numbering.agrees_empty _

theorem holds_historyAlong
    (hfew : (History.mentioned (w.map entry)).eraseDups.length ≤ UInt32.size) :
    (r.historyAlong lib root head w).Holds (w.map entry) := by
  apply History.Holds.of_numberLines _ _ hfew <;> rw [historyAlong_eq]

/-- A walk can be cut off anywhere, since what is left of it is still in order. -/
theorem exists_build_historyAlong (hwalk : r.IsWalk tips all) (hbegins : w <+: all)
    (hholds : (r.historyAlong lib root head w).Holds (w.map entry)) :
    ∃ g, Graph.build (r.historyAlong lib root head w).commits
      (r.historyAlong lib root head w).references = .ok g := by
  have horder := hwalk.inOrder.sublist (hbegins.sublist.map entry)
  exact (Graph.exists_build_iff _ _).mpr (hholds.childrenFirst_iff.mpr horder)

/-- Where a walk lists what the head and the references lead to, each commit once and after its
children, its beginning of any length has a graph. This has a row for each commit listed, and
another one exactly if a parent is not listed, so none for the whole walk. The commits and parents
loaded may be no more than there are numbers for them. -/
theorem build_of_load (root : RootId) (hhead : r.headCommit lib = .ok head)
    (hall : lib.walk (r.tips lib head) = all) (hwalk : r.IsWalk (r.tips lib head) all)
    (hemitted : upTo limit all = emitted)
    (hfew : (History.mentioned (emitted.map entry)).eraseDups.length ≤ UInt32.size) :
    ∃ h g, r.loadBy lib limit root = .ok h ∧ Graph.build h.commits h.references = .ok g ∧
      g.Shows h (emitted.map entry) ∧
      (g.rows.size = emitted.length + 1 ↔
        ∃ a ∈ emitted, ∃ p ∈ a.2.parents, p ∉ emitted.map (·.1)) ∧
      ((∀ k ∈ limit, all.length ≤ k) →
        g.rows.size = all.length ∧ g.edges.size = (all.map (·.2.parents.length)).sum) := by
  have hholds : (r.historyAlong lib root head emitted).Holds (emitted.map entry) :=
    holds_historyAlong hfew
  obtain ⟨g, hg⟩ := exists_build_historyAlong hwalk (hemitted ▸ upTo_prefix limit all) hholds
  have hshows := Graph.shows_of_build hholds hg
  have hrows := hshows.size_rows
  rw [List.length_map] at hrows
  refine ⟨_, g, ?_, hg, hshows, ?_, ?_⟩
  · rw [loadBy_eq hhead, hall, hemitted]
  -- There is a last row exactly if the log has a parent without a line.
  · have hmissing : (∃ a ∈ emitted, ∃ p ∈ a.2.parents, p ∉ emitted.map (·.1)) ↔
        History.unlisted (emitted.map entry) ≠ [] := by
      rw [ne_eq, unlisted_entry_eq_nil_iff]
      push Not
      rfl
    rw [hrows, hmissing]
    split <;> simp [*]
  · intro hlimit
    obtain rfl := (upTo_eq_self hlimit).symm.trans hemitted
    have hnone := unlisted_entry_eq_nil_iff.mpr fun a ha p hp => hwalk.parent_mem ha hp
    have hedges := hshows.size_edges
    rw [if_pos hnone, Nat.add_zero] at hrows
    rw [List.map_map] at hedges
    exact ⟨hrows, hedges⟩

/-- Two lines of development and their merge, all of them of one time. -/
def forked : Repository where
  objects := [("d", .commit ⟨["b", "c"], 5, "merge"⟩), ("c", .commit ⟨["a"], 5, "right"⟩),
    ("b", .commit ⟨["a"], 5, "left"⟩), ("a", .commit ⟨[], 5, "start"⟩), ("t", .tag "c")]
  refs := [("refs/heads/main", .object "d"), ("refs/tags/v1", .object "t")]
  head := some (.symbolic "refs/heads/main")

theorem listed_of_sorted {refs : List (String × RefTarget)}
    (hrefs : refs.Pairwise fun a b => decide (a.1 ≤ b.1)) : r.library.listed refs = refs :=
  List.mergeSort_of_pairwise hrefs

theorem tips_forked : forked.tips forked.library (some "d") = ["d", "d", "c"] := by
  rw [tips, listed_of_sorted (by decide)]
  decide

theorem complete_forked : forked.Complete (forked.tips forked.library (some "d")) := by
  rw [tips_forked]
  exact Complete.of_rank (fun h => ["a", "b", "c", "d"].idxOf h) (by decide) (by decide)

theorem walk_forked : forked.library.walk (forked.tips forked.library (some "d")) =
    [("d", ⟨["b", "c"], 5, "merge"⟩), ("c", ⟨["a"], 5, "right"⟩), ("b", ⟨["a"], 5, "left"⟩),
      ("a", ⟨[], 5, "start"⟩)] := by
  rw [tips_forked]
  change forked.walk ["d", "d", "c"] = _
  rw [Repository.walk, List.mergeSort_of_pairwise (by decide)]
  decide

theorem isWalk_forked : forked.IsWalk (forked.tips forked.library (some "d"))
    [("d", ⟨["b", "c"], 5, "merge"⟩), ("c", ⟨["a"], 5, "right"⟩), ("b", ⟨["a"], 5, "left"⟩),
      ("a", ⟨[], 5, "start"⟩)] :=
  walk_forked ▸ isWalk_walk complete_forked

/-- With a limit of two commits the other two are in a row at the end. -/
theorem build_of_load_forked :
    ∃ h g, forked.load (some 2) 0 = .ok h ∧ Graph.build h.commits h.references = .ok g ∧
      g.Shows h [⟨5, "d", ["b", "c"]⟩, ⟨5, "c", ["a"]⟩] ∧ g.rows.size = 3 := by
  have hhead : forked.headCommit forked.library = .ok (some "d") := by decide
  obtain ⟨h, g, hload, hbuild, hshows, hrows, -⟩ :=
    build_of_load 0 hhead walk_forked isWalk_forked (rfl : upTo (some 2) _ = _) (by decide)
  exact ⟨h, g, hload, hbuild, hshows, hrows.mpr (by decide)⟩

theorem hashes_historyAlong :
    (r.historyAlong lib root head w).hashes.hashes =
      (History.mentioned (w.map entry)).eraseDups := by
  rw [historyAlong_eq, History.hashes_numberLines_empty]

theorem hashes_historyAlong_prefix :
    (r.historyAlong lib root head (w.take k)).hashes.hashes <+:
      (r.historyAlong lib root head w).hashes.hashes := by
  simp only [historyAlong_eq]
  conv_rhs => rw [← List.take_append_drop k w, List.map_append, History.numberLines_append]
  exact History.numberLines_extends _ _

theorem subjects_historyAlong :
    (r.historyAlong lib root head w).subjects =
      subjectsOf lib (r.historyAlong lib root head w).hashes w := by
  rw [historyAlong_eq]

theorem map_id_historyAlong :
    (r.historyAlong lib root head w).commits.map (·.id) =
      w.map fun a => (r.historyAlong lib root head w).hashes.numberOf a.1 := by
  rw [historyAlong_eq, History.fst_numberLines Numbering.agrees_empty, List.map_map, List.map_map]
  rfl

theorem subjectsOf_take (hnm : n.hashes <+: m.hashes)
    (hnumbered : ∀ a ∈ w.take k, a.1 ∈ n.hashes) (hnodup : (w.map fun a => m.numberOf a.1).Nodup) :
    subjectsOf lib n (w.take k) =
      (subjectsOf lib m w).filter (·.1 ∈ (w.take k).map fun a => n.numberOf a.1) := by
  have hids : ((w.take k).map fun a => n.numberOf a.1) = (w.take k).map fun a => m.numberOf a.1 :=
    List.map_congr_left fun a ha => (Numbering.numberOf_of_extends hnm (hnumbered a ha)).symm
  have hlater : ∀ a ∈ w, ∀ s, ((lib.summary a.2).map fun s => (m.numberOf a.1, s)) = some s →
      decide (s.1 ∈ (w.take k).map fun a => m.numberOf a.1) =
        decide (m.numberOf a.1 ∈ (w.take k).map fun a => m.numberOf a.1) := by
    intro a _ s hs
    obtain ⟨_, -, rfl⟩ := Option.map_eq_some_iff.mp hs
    rfl
  rw [hids, subjectsOf, subjectsOf, filter_filterMap_eq hlater, filter_mem_take hnodup]
  apply List.filterMap_congr
  intro a ha
  rw [Numbering.numberOf_of_extends hnm (hnumbered a ha)]

theorem nodup_numbers (hw : (r.historyAlong lib root head w).Holds (w.map entry))
    (hnodup : (w.map (·.1)).Nodup) :
    (w.map fun a => (r.historyAlong lib root head w).hashes.numberOf a.1).Nodup := by
  have hids : (w.map fun a => (r.historyAlong lib root head w).hashes.numberOf a.1) =
      (w.map (·.1)).map (r.historyAlong lib root head w).hashes.numberOf := by
    rw [List.map_map]
    rfl
  rw [hids]
  apply hnodup.map_on
  intro g hg h hh
  obtain ⟨a, ha, rfl⟩ := List.mem_map.mp hg
  obtain ⟨b, hb, rfl⟩ := List.mem_map.mp hh
  exact (Numbering.numberOf_inj hw.hasRoom (hw.hash_mem (List.mem_map_of_mem ha))
    (hw.hash_mem (List.mem_map_of_mem hb))).mp

theorem reference?_of_extends (hn : n.Agrees) (hm : m.Agrees) (hnm : n.hashes <+: m.hashes)
    (hroom : m.HasRoom) (root : RootId) (kind : RefKind) (name hash : String) :
    reference? n root kind name hash =
      (reference? m root kind name hash).filter (·.target.toNat < n.size) := by
  rw [reference?, reference?, Numbering.number?_of_extends hn hm hnm hroom, Option.filter_map]
  rfl

/-- References are left out where their commits have no numbers yet. -/
theorem references_of_extends (hn : n.Agrees) (hm : m.Agrees) (hnm : n.hashes <+: m.hashes)
    (hroom : m.HasRoom) (root : RootId) (head : Option String) :
    r.references lib n root head =
      (r.references lib m root head).filter (·.target.toNat < n.size) := by
  rw [references, references, List.filter_append, List.filter_filterMap, ← Option.toList_filter]
  congr 1
  · cases head with
    | none => rfl
    | some h =>
      rw [Option.bind_some, Option.bind_some, reference?_of_extends hn hm hnm hroom]
  · apply List.filterMap_congr
    rintro ⟨name, target⟩ _
    cases hshown : shown? name with
    | none => simp [hshown]
    | some s =>
      cases hpeel : lib.peel target with
      | none => simp [hshown, hpeel]
      | some h => simp [hshown, hpeel, reference?_of_extends hn hm hnm hroom]

/-- The first commits of a walk have their numbers and subjects, and their references, as they have
them among all commits of it. -/
theorem load_window (k : Nat) (root : RootId) (hhead : r.headCommit lib = .ok head)
    (hall : lib.walk (r.tips lib head) = all) (hnodup : (all.map (·.1)).Nodup)
    (hfew : (History.mentioned (all.map entry)).eraseDups.length ≤ UInt32.size) :
    ∃ full part, r.loadBy lib none root = .ok full ∧ r.loadBy lib (some k) root = .ok part ∧
      part.IsWindow full k := by
  have hprefix : (r.historyAlong lib root head (all.take k)).hashes.hashes <+:
      (r.historyAlong lib root head all).hashes.hashes := hashes_historyAlong_prefix
  have hfull : (r.historyAlong lib root head all).Holds (all.map entry) := holds_historyAlong hfew
  have hpart : (r.historyAlong lib root head (all.take k)).Holds ((all.take k).map entry) := by
    apply holds_historyAlong
    have hlength := hprefix.length_le
    rw [hashes_historyAlong, hashes_historyAlong] at hlength
    exact hlength.trans hfew
  have hcommits := hfull.commits_take (List.map_take ▸ hpart) hprefix
  refine ⟨_, _, ?_, ?_, hcommits, hprefix, ?_, ?_⟩
  · rw [loadBy_eq hhead, hall]
    rfl
  · rw [loadBy_eq hhead, hall]
    rfl
  · rw [map_id_historyAlong, subjects_historyAlong, subjects_historyAlong]
    exact subjectsOf_take hprefix (fun a ha => hpart.hash_mem (List.mem_map_of_mem ha))
      (nodup_numbers hfull hnodup)
  · exact references_of_extends hpart.agrees hfull.agrees hprefix hfull.hasRoom root head

/-- With a limit of one commit its parents have numbers too. -/
theorem load_window_forked :
    ∃ full part, forked.load none 0 = .ok full ∧ forked.load (some 1) 0 = .ok part ∧
      part.IsWindow full 1 ∧ part.hashes.hashes = ["d", "b", "c"] := by
  have hhead : forked.headCommit forked.library = .ok (some "d") := by decide
  obtain ⟨full, part, hfull, hpart, hwindow⟩ :=
    load_window 1 0 hhead walk_forked (by decide) (by decide)
  have hload : forked.load (some 1) 0 = .ok part := hpart
  rw [load, loadBy_eq hhead, walk_forked] at hload
  have hhashes : part.hashes.hashes = ["d", "b", "c"] := by
    rw [← Except.ok.inj hload, hashes_historyAlong]
    decide
  exact ⟨full, part, hfull, hpart, hwindow, hhashes⟩

end Repository

end CommitGraph
