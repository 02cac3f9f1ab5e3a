import CommitGraph.Proofs.Graph.Heads
import CommitGraph.Proofs.History.LogGraph

namespace CommitGraph

/-- The reference is a branch on the commit of a node, with the commit's hash for a name. -/
def Graph.IsHashBranch (g : Graph) (hashes : Numbering) (n : NodeId) (q : Reference) : Prop :=
  ∃ m s, g.nodes[n]? = some m ∧ hashes.hash? m.commit = some s ∧ q = ⟨s, m.commit, .branch, 0⟩

/-- The references of a history are branches on the heads of its graph, from top to bottom, and each
branch of the graph names one of the heads. -/
structure Graph.NamesHeads (g : Graph) (h : History) : Prop where
  references : ∃ ns : List NodeId, (∀ n, n ∈ ns ↔ g.IsHead n) ∧
    ns.Pairwise (g.rowOf · < g.rowOf ·) ∧ List.Forall₂ (g.IsHashBranch h.hashes) ns h.references
  branches : ∀ {b : BranchId} {r : Branch}, g.branches[b]? = some r →
    ∃ q ∈ h.references, r.head = some q.target

namespace History

variable {h : History} {g : Graph} {ls : List LogLine} {text : String} {c : Commit}

/-- The history of lines with a branch on every head. -/
def ofLines (ls : List LogLine) : History :=
  let (commits, hashes) := numberLines .empty ls
  ⟨commits, headReferences commits hashes, hashes, []⟩

theorem exists_lines_of_ofLog (hload : ofLog text [] = .ok h) :
    ∃ ls, LogLine.parseLog text = .ok ls ∧ h = ofLines ls := by
  obtain ⟨ls, hls, hh⟩ := bind_eq_ok.mp hload
  cases htext : LogLine.parseLog text with
  | error e =>
    rw [htext] at hls
    cases hls
  | ok ks =>
    rw [htext] at hls
    cases hls
    exact ⟨ls, rfl, (Except.ok.inj hh).symm⟩

theorem commits_ofLines (ls : List LogLine) :
    (ofLines ls).commits = ls.map (numbered (ofLines ls).hashes) :=
  fst_numberLines Numbering.agrees_empty ls

theorem hash_mem_ofLines {l : LogLine} (hl : l ∈ ls) : l.hash ∈ (ofLines ls).hashes.hashes := by
  rw [ofLines, hashes_numberLines_empty, List.mem_eraseDups]
  exact hash_mem_mentioned hl

theorem exists_hash_ofLines (hc : c ∈ (ofLines ls).commits) :
    ∃ s, (ofLines ls).hashes.hash? c.id = some s := by
  rw [commits_ofLines] at hc
  obtain ⟨l, hl, rfl⟩ := List.mem_map.mp hc
  exact Numbering.exists_hash?_numberOf (hash_mem_ofLines hl)

theorem namesHeads_ofLines
    (hb : Graph.build (ofLines ls).commits (ofLines ls).references = .ok g) :
    g.NamesHeads (ofLines ls) := by
  constructor
  case references =>
    obtain ⟨ns, hmem, hrows, hns⟩ := (Graph.depicts_of_build hb).exists_heads
    refine ⟨ns, hmem, hrows, List.forall₂_map_right_iff.mpr ((forall₂_mem hns).imp ?_)⟩
    rintro n c ⟨hn, -, hc⟩
    obtain ⟨m, hm, hid⟩ := Graph.commit_of_nodeOf? hn
    obtain ⟨s, hs⟩ := exists_hash_ofLines (List.mem_of_mem_filter hc)
    refine ⟨m, s, hm, hid ▸ hs, ?_⟩
    change (⟨((ofLines ls).hashes.hash? c.id).getD "", c.id, .branch, 0⟩ : Reference) = _
    rw [hs, hid, Option.getD_some]
  case branches =>
    intro b r hr
    obtain ⟨c, hc, hhead, heq⟩ := Graph.exists_head_of_branch hb hr
    -- The head of the branch has got a reference, like every other head.
    have hq : ∃ q ∈ (ofLines ls).references, q.target = c.id :=
      ⟨_, List.mem_map_of_mem (List.mem_filter.mpr ⟨hc, hhead⟩), rfl⟩
    rw [if_pos hq] at heq
    obtain ⟨q, hq, htarget⟩ := hq
    exact ⟨q, hq, heq.trans (congrArg some htarget.symm)⟩

/-- While there are numbers for all hashes, a reference has the hash of the line that the row of its
commit is for. -/
theorem name_eq_hash_ofLines (hfew : (mentioned ls).eraseDups.length ≤ UInt32.size)
    (hb : Graph.build (ofLines ls).commits (ofLines ls).references = .ok g) {q : Reference}
    (hq : q ∈ (ofLines ls).references) :
    ∃ i l, g.rowOfCommit? q.target = some i ∧ ls[i]? = some l ∧ q.name = l.hash := by
  have hg := Graph.depicts_of_build hb
  obtain ⟨c, hc, rfl⟩ := List.mem_map.mp hq
  obtain ⟨i, hi⟩ := List.mem_iff_getElem?.mp (List.mem_of_mem_filter hc)
  obtain ⟨n, -, hn, -⟩ := hg.exists_node (List.mem_of_getElem? hi)
  have hrow := hg.rowOf_eq_of_commit hi hn
  have hline := hi
  change (ofLines ls).commits[i]? = some c at hline
  rw [commits_ofLines, List.getElem?_map, Option.map_eq_some_iff] at hline
  obtain ⟨l, hl, rfl⟩ := hline
  refine ⟨i, l, ?_, hl, ?_⟩
  · rw [Graph.rowOfCommit?, hn, Option.map_some, hrow]
  · have hroom : (ofLines ls).hashes.HasRoom := by
      rwa [Numbering.HasRoom, Numbering.size, ofLines, hashes_numberLines_empty]
    change ((ofLines ls).hashes.hash? ((ofLines ls).hashes.numberOf l.hash)).getD "" = l.hash
    rw [Numbering.hash?_numberOf hroom (hash_mem_ofLines (List.mem_of_getElem? hl)),
      Option.getD_some]

/-- A text log that is loaded without names for its references has one on every head, named by the
head's hash, and all branches of its graph name heads. -/
theorem references_of_log (hload : ofLog text [] = .ok h)
    (hb : Graph.build h.commits h.references = .ok g) :
    g.NamesHeads h ∧ ∃ ls, LogLine.parseLog text = .ok ls ∧
      ((mentioned ls).eraseDups.length ≤ UInt32.size → ∀ q ∈ h.references,
        ∃ i l, g.rowOfCommit? q.target = some i ∧ ls[i]? = some l ∧ q.name = l.hash) := by
  obtain ⟨ls, htext, rfl⟩ := exists_lines_of_ofLog hload
  exact ⟨namesHeads_ofLines hb, ls, htext, fun hfew _ hq => name_eq_hash_ofLines hfew hb hq⟩

/-- Two heads, and a merge below one of them. -/
theorem references_of_log_merge :
    ∃ h g, ofLog "3|-d|-b c\n2|-e|-c\n1|-c|-b\n0|-b|-\n" [] = .ok h ∧
      Graph.build h.commits h.references = .ok g ∧
      h.references = [⟨"d", 0, .branch, 0⟩, ⟨"e", 3, .branch, 0⟩] ∧ g.NamesHeads h := by
  have htext : LogLine.parseLog "3|-d|-b c\n2|-e|-c\n1|-c|-b\n0|-b|-\n" =
      .ok [⟨3, "d", ["b", "c"]⟩, ⟨2, "e", ["c"]⟩, ⟨1, "c", ["b"]⟩, ⟨0, "b", []⟩] := by decide
  have hload : ofLog "3|-d|-b c\n2|-e|-c\n1|-c|-b\n0|-b|-\n" [] = .ok ⟨
      [⟨0, [1, 2], 3⟩, ⟨3, [2], 2⟩, ⟨2, [1], 1⟩, ⟨1, [], 0⟩],
      [⟨"d", 0, .branch, 0⟩, ⟨"e", 3, .branch, 0⟩],
      (Numbering.empty.assignAll ["d", "b", "c", "e"]).2, []⟩ := by
    rw [ofLog, htext]
    decide
  have horder : ChildrenFirst [⟨0, [1, 2], 3⟩, ⟨3, [2], 2⟩, ⟨2, [1], 1⟩, ⟨1, [], 0⟩] := by
    unfold ChildrenFirst
    decide
  obtain ⟨g, hb⟩ := (Graph.exists_build_iff _ _).mpr horder
  exact ⟨_, g, hload, hb, rfl, (references_of_log hload hb).1⟩

end History

end CommitGraph
