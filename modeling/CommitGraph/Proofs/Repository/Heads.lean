import CommitGraph.Proofs.Graph.Heads
import CommitGraph.Proofs.Repository.Load

namespace CommitGraph

theorem History.Holds.isHead_iff {h : History} {ls : List LogLine} {l : LogLine} (hh : h.Holds ls)
    (hl : l ∈ ls) :
    isHead h.commits (numbered h.hashes l) ↔ ∀ k ∈ ls, l.hash ∉ k.parents := by
  rw [History.isHead_iff, hh.commits_eq, List.forall_mem_map]
  refine forall₂_congr fun k hk => not_congr ?_
  exact Numbering.mem_map_numberOf hh.hasRoom (hh.hash_mem hl) fun p hp => hh.parent_mem hk hp

namespace Repository

variable {r : Repository} {tips : List String} {w all emitted : List (String × StoredCommit)}
  {lib : Library} {limit : Option Nat} {root : RootId} {head : Option String} {n : Numbering}
  {hash : String}

/-- The commit is listed, and no commit listed has it as a parent. -/
def IsTop (w : List (String × StoredCommit)) (hash : String) : Prop :=
  hash ∈ w.map (·.1) ∧ ∀ a ∈ w, hash ∉ a.2.parents

/-- The head of the repository, or a reference that is shown, leads to the commit. -/
def Marks (r : Repository) (lib : Library) (head : Option String) (hash : String) : Prop :=
  head = some hash ∨ ∃ a ∈ r.refs, (shown? a.1).isSome ∧ lib.peel a.2 = some hash

/-- A walk goes on from a commit to its parents, so a commit without children in the walk, or in a
beginning of it, is one that the walk started from. -/
theorem IsWalk.mem_tips (hw : r.IsWalk tips all) (hbegins : emitted <+: all)
    (htop : IsTop emitted hash) : hash ∈ tips := by
  obtain ⟨hmem, hnone⟩ := htop
  obtain ⟨rest, rfl⟩ := hbegins
  obtain ⟨t, ht, hreach⟩ := hw.mem_iff.mp (List.map_append ▸ List.mem_append_left _ hmem)
  cases hreach with
  | refl => exact ht
  | @tail k _ hk hparent =>
    obtain ⟨⟨_, c⟩, ha, rfl⟩ := List.mem_map.mp (hw.mem_iff.mpr ⟨t, ht, hk⟩)
    obtain ⟨b, hb, rfl⟩ := List.mem_map.mp hmem
    obtain ⟨c', hc, hp⟩ := hparent
    cases (hw.commit_eq ha).symm.trans hc
    obtain ⟨i, hi⟩ := List.mem_iff_getElem?.mp ha
    obtain ⟨j, hj⟩ := List.mem_iff_getElem?.mp hb
    have hlt := (List.getElem?_eq_some_iff.mp hj).1
    -- The child comes earlier in the walk, so it is in the same beginning of it.
    have hij := hw.child_before hi (List.getElem?_append_left hlt ▸ hj) hp
    rw [List.getElem?_append_left (hij.trans hlt)] at hi
    exact absurd hp (hnone _ (List.mem_of_getElem? hi))

theorem mem_reference?_iff (hn : n.Agrees) (hroom : n.HasRoom) (hh : hash ∈ n.hashes)
    {kind : RefKind} {name target : String} :
    (∃ q, reference? n root kind name target = some q ∧ q.target = n.numberOf hash) ↔
      target = hash := by
  by_cases ht : target ∈ n.hashes
  · rw [reference?, Numbering.number?_of_mem hn ht, Option.map_some,
      ← Numbering.numberOf_inj hroom ht hh]
    simp
  · rw [reference?, Numbering.number?_of_not_mem hn ht]
    simp only [Option.map_none, reduceCtorEq, false_and, exists_false, false_iff]
    rintro rfl
    exact ht hh

theorem mem_references {q : Reference} : q ∈ r.references lib n root head ↔
    (∃ h, head = some h ∧ reference? n root .head "HEAD" h = some q) ∨
      ∃ a ∈ r.refs, ∃ s h, shown? a.1 = some s ∧ lib.peel a.2 = some h ∧
        reference? n root s.1 s.2 h = some q := by
  simp only [references, List.mem_append, Option.mem_toList, List.mem_filterMap,
    (lib.listed_perm r.refs).mem_iff, bind, Option.bind_eq_some_iff, exists_and_left]

theorem exists_reference_iff (hn : n.Agrees) (hroom : n.HasRoom) (hh : hash ∈ n.hashes)
    (root : RootId) :
    (∃ q ∈ r.references lib n root head, q.target = n.numberOf hash) ↔
      r.Marks lib head hash := by
  constructor
  · rintro ⟨q, hq, htarget⟩
    rcases mem_references.mp hq with ⟨h, rfl, hs⟩ | ⟨a, ha, s, h, hshown, hpeel, hs⟩
    · rw [(mem_reference?_iff hn hroom hh).mp ⟨q, hs, htarget⟩]
      exact .inl rfl
    · rw [(mem_reference?_iff hn hroom hh).mp ⟨q, hs, htarget⟩] at hpeel
      exact .inr ⟨a, ha, hshown ▸ rfl, hpeel⟩
  · rintro (rfl | ⟨a, ha, hshown, hpeel⟩)
    · obtain ⟨q, hs, htarget⟩ := (mem_reference?_iff hn hroom hh).mpr rfl
      exact ⟨q, mem_references.mpr (.inl ⟨hash, rfl, hs⟩), htarget⟩
    · obtain ⟨s, hshown⟩ := Option.isSome_iff_exists.mp hshown
      obtain ⟨q, hs, htarget⟩ := (mem_reference?_iff hn hroom hh).mpr rfl
      exact ⟨q, mem_references.mpr (.inr ⟨a, ha, s, hash, hshown, hpeel, hs⟩), htarget⟩

theorem isTop_iff : IsTop w hash ↔
    ∃ l ∈ w.map entry, l.hash = hash ∧ ∀ k ∈ w.map entry, l.hash ∉ k.parents := by
  rw [IsTop, ← hash_map_entry, List.mem_map]
  constructor
  · rintro ⟨⟨l, hl, rfl⟩, hnone⟩
    exact ⟨l, hl, rfl, List.forall_mem_map.mpr hnone⟩
  · rintro ⟨l, hl, rfl, hnone⟩
    exact ⟨⟨l, hl, rfl⟩, fun a ha => hnone (entry a) (List.mem_map_of_mem ha)⟩

theorem forall_isHead_iff {h : History} (hh : h.Holds (w.map entry)) {P : CommitId → Prop} :
    (∀ c ∈ h.commits, History.isHead h.commits c → P c.id) ↔
      ∀ hash, IsTop w hash → P (h.hashes.numberOf hash) := by
  constructor
  · intro hheads hash htop
    obtain ⟨l, hl, rfl, hnone⟩ := isTop_iff.mp htop
    refine hheads (History.numbered h.hashes l) ?_ ((hh.isHead_iff hl).mpr hnone)
    rw [hh.commits_eq]
    exact List.mem_map_of_mem hl
  · intro htops c hc hhead
    rw [hh.commits_eq] at hc
    obtain ⟨l, hl, rfl⟩ := List.mem_map.mp hc
    exact htops l.hash (isTop_iff.mpr ⟨l, hl, rfl, (hh.isHead_iff hl).mp hhead⟩)

/-- The head of the repository and the references that are shown decide which heads of what is
loaded have a reference, and whether all branches name heads. Other references have the walk start
from their commits all the same. -/
theorem heads_of_load (root : RootId) (hhead : r.headCommit lib = .ok head)
    (hall : lib.walk (r.tips lib head) = all) (hwalk : r.IsWalk (r.tips lib head) all)
    (hemitted : upTo limit all = emitted)
    (hfew : (History.mentioned (emitted.map entry)).eraseDups.length ≤ UInt32.size) :
    ∃ h g, r.loadBy lib limit root = .ok h ∧ Graph.build h.commits h.references = .ok g ∧
      (∀ hash, IsTop emitted hash → hash ∈ r.tips lib head ∧
        ((∃ q ∈ h.references, h.hashes.number? hash = some q.target) ↔ r.Marks lib head hash)) ∧
      ((∀ (b : BranchId) (branch : Branch), g.branches[b]? = some branch → branch.head ≠ none) ↔
        ∀ hash, IsTop emitted hash → r.Marks lib head hash) := by
  have hbegins : emitted <+: all := hemitted ▸ upTo_prefix limit all
  have hholds : (r.historyAlong lib root head emitted).Holds (emitted.map entry) :=
    holds_historyAlong hfew
  obtain ⟨g, hb⟩ := exists_build_historyAlong hwalk hbegins hholds
  have hreference : ∀ hash, IsTop emitted hash →
      hash ∈ (r.historyAlong lib root head emitted).hashes.hashes ∧
        ((∃ q ∈ (r.historyAlong lib root head emitted).references,
          q.target = (r.historyAlong lib root head emitted).hashes.numberOf hash) ↔
            r.Marks lib head hash) := by
    intro hash htop
    obtain ⟨l, hl, rfl, -⟩ := isTop_iff.mp htop
    exact ⟨hholds.hash_mem hl,
      exists_reference_iff hholds.agrees hholds.hasRoom (hholds.hash_mem hl) root⟩
  refine ⟨_, g, ?_, hb, ?_, ?_⟩
  · rw [loadBy_eq hhead, hall, hemitted]
  · intro hash htop
    obtain ⟨hmem, hiff⟩ := hreference hash htop
    refine ⟨hwalk.mem_tips hbegins htop, ?_⟩
    simp only [Numbering.number?_of_mem hholds.agrees hmem, Option.some_inj, ← hiff, eq_comm]
  -- Every branch names a head if and only if there is a reference on every head of the history.
  · have hheads := forall_isHead_iff hholds
      (P := fun c => ∃ q ∈ (r.historyAlong lib root head emitted).references, q.target = c)
    rw [Graph.heads_named_iff hb, hheads]
    exact forall₂_congr fun hash htop => (hreference hash htop).2

/-- The merge is the only head among the first two commits, and it is marked. -/
theorem heads_of_load_forked :
    ∃ h g, forked.load (some 2) 0 = .ok h ∧ Graph.build h.commits h.references = .ok g ∧
      ∀ (b : BranchId) (branch : Branch), g.branches[b]? = some branch → branch.head ≠ none := by
  have hhead : forked.headCommit forked.library = .ok (some "d") := by decide
  obtain ⟨h, g, hload, hb, -, hnamed⟩ :=
    heads_of_load 0 hhead walk_forked isWalk_forked (rfl : upTo (some 2) _ = _) (by decide)
  refine ⟨h, g, hload, hb, hnamed.mpr ?_⟩
  rintro hash ⟨hmem, hnone⟩
  rcases List.mem_pair.mp hmem with rfl | rfl
  · exact .inl rfl
  · exact absurd (by decide) (hnone ("d", ⟨["b", "c"], 5, "merge"⟩) List.mem_cons_self)

/-- A commit put aside on top of the main branch. -/
def stashed : Repository where
  objects := [("b", .commit ⟨["a"], 200, "aside"⟩), ("a", .commit ⟨[], 100, "start"⟩)]
  refs := [("refs/heads/main", .object "a"), ("refs/stash", .object "b")]
  head := some (.symbolic "refs/heads/main")

/-- The walk starts from it, and no reference that is shown leads to it. -/
theorem load_stashed :
    ∃ h g, stashed.load none 0 = .ok h ∧ Graph.build h.commits h.references = .ok g ∧
      (∃ c ∈ h.commits, History.isHead h.commits c ∧ ∀ q ∈ h.references, q.target ≠ c.id) ∧
      ∃ (b : BranchId) (branch : Branch), g.branches[b]? = some branch ∧ branch.head = none := by
  have hhead : stashed.headCommit stashed.library = .ok (some "a") := by decide
  have hlisted : stashed.library.listed stashed.refs = stashed.refs :=
    listed_of_sorted (by decide)
  have htips : stashed.tips stashed.library (some "a") = ["a", "a", "b"] := by
    rw [tips, hlisted]
    decide
  have hwalk : stashed.walk ["a", "a", "b"] =
      [("b", ⟨["a"], 200, "aside"⟩), ("a", ⟨[], 100, "start"⟩)] := by
    rw [Repository.walk, List.mergeSort_of_pairwise (by decide)]
    decide
  have hnumbers : numberWalk stashed.library.summary .empty
      [("b", ⟨["a"], 200, "aside"⟩), ("a", ⟨[], 100, "start"⟩)] =
        ([⟨0, [1], 200⟩, ⟨1, [], 100⟩], [(0, "aside"), (1, "start")],
          (Numbering.empty.assignAll ["b", "a"]).2) := by decide
  have hreferences : stashed.references stashed.library (Numbering.empty.assignAll ["b", "a"]).2 0
      (some "a") = [⟨"HEAD", 1, .head, 0⟩, ⟨"main", 1, .branch, 0⟩] := by
    rw [references, hlisted]
    decide
  have hload : stashed.load none 0 = .ok ⟨[⟨0, [1], 200⟩, ⟨1, [], 100⟩],
      [⟨"HEAD", 1, .head, 0⟩, ⟨"main", 1, .branch, 0⟩],
      (Numbering.empty.assignAll ["b", "a"]).2, [(0, "aside"), (1, "start")]⟩ := by
    rw [load, loadBy_eq hhead, htips, ← hreferences]
    change Except.ok (stashed.historyAlong stashed.library 0 (some "a")
      (upTo none (stashed.walk ["a", "a", "b"]))) = _
    rw [hwalk, upTo, historyAlong, hnumbers]
  have hb : Graph.build [⟨0, [1], 200⟩, ⟨1, [], 100⟩]
      [⟨"HEAD", 1, .head, 0⟩, ⟨"main", 1, .branch, 0⟩] = .ok
        ⟨#[⟨0, 0, .loaded, 0, [], [0]⟩, ⟨1, 0, .loaded, 1, [0], []⟩], #[⟨0, 1, 0⟩],
          #[.ofHead 0 []], #[[0], [1]]⟩ := by decide
  refine ⟨_, _, hload, hb, ?_, 0, .ofHead 0 [], rfl, rfl⟩
  decide

end Repository

end CommitGraph
