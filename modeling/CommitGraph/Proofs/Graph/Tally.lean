import CommitGraph.Graph.Stats
import CommitGraph.Proofs.Graph.Counts
import CommitGraph.Proofs.Graph.Heads
import CommitGraph.Proofs.Graph.Record

namespace CommitGraph

/-- The place of a commit in the history; commits outside of it come after the last one. -/
def placeOf (cs : List Commit) (c : CommitId) : Nat := cs.findIdx (·.id = c)

/-- How far each parent link leads down, in places of the history. -/
def linkDrops (cs : List Commit) : List Nat :=
  cs.flatMap fun c => c.parents.map fun p => placeOf cs p - placeOf cs c.id

/-- The counts of a history, without a look at its graph. -/
def Stats.ofHistory (cs : List Commit) : Stats where
  rows := cs.length + if outside cs = [] then 0 else 1
  nodes := (cs.flatMap fun c => c.id :: c.parents).eraseDups.length
  edges := (cs.map (·.parents.length)).sum
  branches := cs.countP (History.isHead cs) +
    ((cs.filter (·.isMerge)).map (·.parents.length)).sum
  merges := cs.countP (·.isMerge)
  heads := cs.countP (History.isHead cs)
  unloaded := (outside cs).length
  longestEdge := (linkDrops cs).max?.getD 0

/-- A commit below its children is no parent of theirs, so it takes away no head. -/
theorem History.isHead_concat {cs : List Commit} {c d : Commit} (hcs : ChildrenFirst (cs ++ [c]))
    (hd : d ∈ cs ++ [c]) : isHead (cs ++ [c]) d = isHead cs d := by
  have hlast : d.id ∉ c.parents := fun hmem =>
    (childrenFirst_concat.mp hcs).2.2 _ hmem (List.mem_map_of_mem hd)
  simp [isHead, hlast]

namespace Graph

variable {g h : Graph} {cs : List Commit} {references : List Reference} {c p : CommitId}
  {u n : NodeId} {k : Commit}

theorem Sound.countP_nodes (hg : g.Sound) {q : Node → Bool} {ids : List CommitId}
    (hids : ids.Nodup)
    (h : ∀ c, c ∈ ids ↔ ∃ (n : NodeId) (m : Node), g.nodes[n]? = some m ∧ m.commit = c ∧ q m) :
    g.nodes.toList.countP q = ids.length := by
  -- No two nodes stand for one commit, so counting commits counts nodes.
  have hnodup : ((g.nodes.toList.filter q).map (·.commit)).Nodup := by
    have hall : (g.nodes.toList.map (·.commit)).Nodup := by
      rw [List.nodup_iff_getElem?_ne_getElem?]
      intro i j hij hj heq
      rw [List.length_map, Array.length_toList] at hj
      simp only [List.getElem?_map, Array.getElem?_toList, Array.getElem?_eq_getElem hj,
        Array.getElem?_eq_getElem (Nat.lt_trans hij hj), Option.map_some, Option.some_inj] at heq
      exact absurd (hg.node_unique (Array.getElem?_eq_getElem (Nat.lt_trans hij hj))
        (Array.getElem?_eq_getElem hj) heq) (Nat.ne_of_lt hij)
    exact hall.sublist (List.filter_sublist.map _)
  have hperm : ((g.nodes.toList.filter q).map (·.commit)).Perm ids := by
    rw [List.perm_ext_iff_of_nodup hnodup hids]
    intro c
    rw [h, List.mem_map]
    constructor
    · rintro ⟨m, hm, hc⟩
      obtain ⟨hm, hq⟩ := List.mem_filter.mp hm
      obtain ⟨n, hn⟩ := Array.mem_iff_getElem?.mp (Array.mem_toList_iff.mp hm)
      exact ⟨n, m, hn, hc, hq⟩
    · rintro ⟨n, m, hm, hc, hq⟩
      exact ⟨m, List.mem_filter.mpr ⟨Array.mem_toList_iff.mpr (Array.mem_of_getElem? hm), hq⟩, hc⟩
  rw [List.countP_eq_length_filter, ← List.length_map (·.commit), hperm.length_eq]

theorem nodup_ids (hcs : ChildrenFirst cs) : (cs.map (·.id)).Nodup :=
  List.pairwise_map.mpr (hcs.1.imp fun h => h.1)

theorem Depicts.countP_placed (hg : g.Depicts cs) (hcs : ChildrenFirst cs) {q : Node → Bool}
    {q' : Commit → Bool}
    (hplaced : ∀ (n : NodeId) (m : Node), g.nodes[n]? = some m → q m → m.kind = .loaded)
    (h : ∀ (n : NodeId) (m : Node) (k : Commit), k ∈ cs → g.nodes[n]? = some m →
      m.commit = k.id → q m = q' k) : g.nodes.toList.countP q = cs.countP q' := by
  have hids : ((cs.filter q').map (·.id)).Nodup :=
    (nodup_ids hcs).sublist (List.filter_sublist.map _)
  rw [hg.toSound.countP_nodes hids, List.length_map, List.countP_eq_length_filter]
  intro c
  rw [List.mem_map]
  constructor
  · rintro ⟨k, hk, rfl⟩
    obtain ⟨hk, hq⟩ := List.mem_filter.mp hk
    obtain ⟨n, m, -, hm, -, hid⟩ := hg.exists_node hk
    exact ⟨n, m, hm, hid, (h n m k hk hm hid).trans hq⟩
  · rintro ⟨n, m, hm, rfl, hq⟩
    obtain ⟨k, hk, hid, -⟩ := hg.commit_of_placed hm (hplaced n m hm hq)
    have hk := List.mem_of_getElem? hk
    exact ⟨k, List.mem_filter.mpr ⟨hk, (h n m k hk hm hid).symm.trans hq⟩, hid.symm⟩

theorem Depicts.length_down (hg : g.Depicts cs) (hk : k ∈ cs) {m : Node}
    (hm : g.nodes[n]? = some m) (hid : m.commit = k.id) :
    m.down.length = k.parents.length := by
  obtain ⟨i, hi⟩ := List.mem_iff_getElem?.mp hk
  obtain ⟨n', m', -, hm', -, hid', hdown⟩ := hg.row_of_commit hi
  obtain rfl := hg.node_unique hm hm' (hid.trans hid'.symm)
  cases hm.symm.trans hm'
  exact hdown.length_eq

theorem Depicts.merges_eq (hg : g.Depicts cs) (hcs : ChildrenFirst cs) :
    g.nodes.toList.countP (·.isMerge) = cs.countP (·.isMerge) := by
  apply hg.countP_placed hcs
  · intro n m hm hq
    by_contra hk
    have hnil := hg.down_eq_nil hm (by cases hkind : m.kind <;> simp_all)
    simp [Node.isMerge, hnil] at hq
  · intro n m k hk hm hid
    rw [Node.isMerge, Commit.isMerge, hg.length_down hk hm hid]

theorem Depicts.heads_eq (hg : g.Depicts cs) (hcs : ChildrenFirst cs) :
    (g.nodes.toList.countP fun n => n.kind = .loaded && n.isHead) =
      cs.countP (History.isHead cs) := by
  apply hg.countP_placed hcs
  · intro n m _ hq
    exact of_decide_eq_true (Bool.and_eq_true_iff.mp hq).1
  · intro n m k hk hm hid
    obtain ⟨n', m', -, hm', hkind, hid'⟩ := hg.exists_node hk
    obtain rfl := hg.node_unique hm hm' (hid.trans hid'.symm)
    cases hm.symm.trans hm'
    have hhead : (m.kind = .loaded && m.isHead) = m.isHead := by simp [hkind]
    rw [hhead, Bool.eq_iff_iff, Node.isHead, List.isEmpty_iff, hg.up_eq_nil_iff hm,
      History.isHead_iff, hid]

theorem unloaded_eq (hb : build cs references = .ok g) :
    g.nodes.toList.countP (·.kind = .unloaded) = (outside cs).length := by
  have hg := depicts_of_build hb
  -- Every commit that is mentioned has a node, and it waits unless it is in the history.
  apply hg.toSound.countP_nodes
  · rw [outside]
    exact nodup_eraseDups _
  · intro c
    rw [outside, List.mem_eraseDups, List.mem_filter, List.mem_flatMap, decide_eq_true_eq]
    constructor
    · rintro ⟨⟨d, hd, hp⟩, hc⟩
      obtain ⟨n, hn⟩ := (exists_nodeOf?_iff hb).mpr ⟨d, hd, .inr hp⟩
      obtain ⟨m, hm, rfl⟩ := commit_of_nodeOf? hn
      refine ⟨n, m, hm, rfl, decide_eq_true ?_⟩
      by_contra hk
      obtain ⟨d', hd', hid, -⟩ := hg.commit_of_placed hm (kind_eq_loaded hk)
      exact hc (List.mem_map.mpr ⟨d', List.mem_of_getElem? hd', hid.symm⟩)
    · rintro ⟨n, m, hm, rfl, hk⟩
      obtain ⟨-, hout⟩ := hg.waiting_row hm (of_decide_eq_true hk)
      obtain ⟨d, hd, hid | hp⟩ := (exists_nodeOf?_iff hb).mp ⟨n, hg.nodeOf?_commit hm⟩
      · exact absurd (List.mem_map.mpr ⟨d, hd, hid.symm⟩) hout
      · exact ⟨⟨d, hd, hp⟩, hout⟩

theorem size_nodes_build (hb : build cs references = .ok g) :
    g.nodes.size = (cs.flatMap fun c => c.id :: c.parents).eraseDups.length := by
  obtain ⟨h, -, rfl, hcommits⟩ := exists_grown_of_build hb
  rw [← hcommits, ← commits_finish, commits, List.length_map, Array.length_toList]

/-- A commit that no child has named starts a branch. -/
theorem size_branches_claim (hh : g.claim references c = .ok (n, h)) :
    h.branches.size = g.branches.size + if (g.nodeOf? c).isSome then 0 else 1 := by
  obtain ⟨hn, -, rfl⟩ | ⟨hc, -, rfl⟩ := claim_eq_ok hh
  · simp [hn]
  · simp [hc, addNode, addBranch]

theorem size_branches_connectMerge {head : Option CommitId} {ps : List CommitId}
    (hh : connectMerge references c u head g ps = .ok h) :
    h.branches.size = g.branches.size + ps.length := by
  induction ps generalizing g with
  | nil =>
    cases hh
    rfl
  | cons p ps ih =>
    obtain ⟨k, hk, hh⟩ := bind_eq_ok.mp hh
    rw [ih hh, branches_connect hk, addBranch, Array.size_push, List.length_cons]
    omega

theorem size_branches_append (hh : g.append references k = .ok h) :
    h.branches.size = g.branches.size + (if (g.nodeOf? k.id).isSome then 0 else 1) +
      if k.isMerge then k.parents.length else 0 := by
  unfold Graph.append at hh
  obtain ⟨⟨u, g'⟩, hclaim, hh⟩ := bind_eq_ok.mp hh
  have hplace : (g'.place u).branches.size =
      g.branches.size + if (g.nodeOf? k.id).isSome then 0 else 1 :=
    size_branches_claim (h := g') hclaim
  dsimp only at hh
  rw [Commit.isMerge, ← hplace]
  split at hh
  · next p hp => simp [branches_connect hh, hp]
  · next hne =>
    rw [size_branches_connectMerge hh]
    -- A list of parents with less than two entries is empty here.
    match hps : k.parents with
    | [] => rfl
    | [p] => exact absurd hps (hne p)
    | p :: q :: ps => simp

theorem size_branches_foldlM (hh : cs.foldlM (Graph.append references) empty = .ok g) :
    g.branches.size = cs.countP (History.isHead cs) +
      ((cs.filter (·.isMerge)).map (·.parents.length)).sum := by
  induction cs using List.reverseRecOn generalizing g with
  | nil =>
    cases hh
    rfl
  | append_singleton cs k ih =>
    have hcs : ChildrenFirst (cs ++ [k]) :=
      (Grown.empty.foldlM_isOk_iff (by simp [PassesBranch, empty]) (by simp [ChildrenFirst])
        references).mp ⟨g, hh⟩
    rw [List.foldlM_append] at hh
    obtain ⟨f, hf, hh⟩ := bind_eq_ok.mp hh
    rw [List.foldlM_cons] at hh
    obtain ⟨g', hg', hh⟩ := bind_eq_ok.mp hh
    cases hh
    have hnone : empty.commits = ([] : List CommitId).eraseDups := rfl
    -- The commit has a node already if a child has named it.
    have hnamed : (f.nodeOf? k.id).isSome ↔ ¬ History.isHead cs k := by
      rw [Option.isSome_iff_exists, ← mem_commits, commits_foldlM hnone hf, List.nil_append,
        List.mem_eraseDups, List.mem_flatMap, History.isHead_iff]
      have hnew := (childrenFirst_concat.mp hcs).2.1
      constructor
      · rintro ⟨d, hd, hmem⟩ hhead
        rcases List.mem_cons.mp hmem with hid | hp
        · exact hnew (List.mem_map.mpr ⟨d, hd, hid.symm⟩)
        · exact hhead d hd hp
      · intro hhead
        push Not at hhead
        obtain ⟨d, hd, hp⟩ := hhead
        exact ⟨d, hd, List.mem_cons_of_mem _ hp⟩
    have hheads : (cs ++ [k]).countP (History.isHead (cs ++ [k])) =
        cs.countP (History.isHead cs) + if (f.nodeOf? k.id).isSome then 0 else 1 := by
      rw [List.countP_congr fun d hd => by rw [History.isHead_concat hcs hd], List.countP_append,
        List.countP_singleton]
      by_cases hhead : History.isHead cs k <;> simp [hhead, hnamed]
    rw [size_branches_append hg', ih hf, hheads, List.filter_append, List.map_append,
      List.sum_append, List.filter_singleton]
    cases hk : k.isMerge <;> simp <;> omega

theorem size_branches_build (hb : build cs references = .ok g) :
    g.branches.size = cs.countP (History.isHead cs) +
      ((cs.filter (·.isMerge)).map (·.parents.length)).sum := by
  cases hf : cs.foldlM (append references) empty with
  | error e => simp [build, hf, Except.map] at hb
  | ok h =>
    simp only [build, hf, Except.map, Except.ok.injEq] at hb
    rw [← hb, branches_finish, size_branches_foldlM hf]

theorem Depicts.rowOf_eq_placeOf (hg : g.Depicts cs) (hn : g.nodeOf? c = some n) :
    g.rowOf n = placeOf cs c := by
  obtain ⟨m, hm, rfl⟩ := commit_of_nodeOf? hn
  by_cases hlt : placeOf cs m.commit < cs.length
  · have hid : cs[placeOf cs m.commit].id = m.commit :=
      of_decide_eq_true (List.findIdx_getElem (w := hlt))
    exact hg.rowOf_eq_of_commit (List.getElem?_eq_getElem hlt) (by rw [hid, hn])
  · have hk : m.kind = .unloaded := by
      by_contra hk
      obtain ⟨d, hd, hid, -⟩ := hg.commit_of_placed hm (kind_eq_loaded hk)
      exact hlt (List.findIdx_lt_length_of_exists
        ⟨d, List.mem_of_getElem? hd, decide_eq_true hid.symm⟩)
    rw [rowOf_eq hm, (hg.waiting_row hm hk).1]
    exact Nat.le_antisymm (Nat.le_of_not_lt hlt) List.findIdx_le_length

theorem Depicts.exists_edge_iff (hg : g.Depicts cs) :
    (∃ (e : EdgeId) (d : Edge), g.edges[e]? = some d ∧ g.nodeOf? c = some d.upper ∧
        g.nodeOf? p = some d.lower) ↔ ∃ k ∈ cs, k.id = c ∧ p ∈ k.parents := by
  constructor
  · rintro ⟨e, d, hd, hc, hp⟩
    obtain ⟨m, hm, hkind⟩ := hg.exists_upper hd
    obtain ⟨k, hk, hid, hdown⟩ := hg.commit_of_placed hm hkind
    obtain ⟨q, hq, d', l, hd', hl, hlq⟩ :=
      exists_mem_right hdown ((hg.mem_down hm).mpr ⟨d, hd, rfl⟩)
    cases hd.symm.trans hd'
    obtain ⟨m', hm', hmc⟩ := commit_of_nodeOf? hc
    obtain ⟨l', hl', hlp⟩ := commit_of_nodeOf? hp
    cases hm.symm.trans hm'
    cases hl.symm.trans hl'
    refine ⟨k, List.mem_of_getElem? hk, hid.symm.trans hmc, ?_⟩
    rwa [← hlp, hlq]
  · rintro ⟨k, hk, rfl, hp⟩
    obtain ⟨i, hi⟩ := List.mem_iff_getElem?.mp hk
    obtain ⟨n, m, -, hm, -, hid, hdown⟩ := hg.row_of_commit hi
    obtain ⟨e, -, d, hd, hu, hl⟩ := exists_mem_right hdown.flip hp
    exact ⟨e, d, hd, by rw [hu, ← hid, hg.nodeOf?_commit hm], hl⟩

theorem Depicts.mem_drops_iff (hg : g.Depicts cs) {x : Nat} :
    x ∈ g.edges.toList.map g.drop ↔ x ∈ linkDrops cs := by
  have hdrop : ∀ (d : Edge) (c p : CommitId), g.nodeOf? c = some d.upper →
      g.nodeOf? p = some d.lower → g.drop d = placeOf cs p - placeOf cs c := by
    intro d c p hc hp
    rw [drop, hg.rowOf_eq_placeOf hc, hg.rowOf_eq_placeOf hp]
  rw [List.mem_map, linkDrops, List.mem_flatMap]
  constructor
  · rintro ⟨d, hd, rfl⟩
    obtain ⟨e, hd⟩ := Array.mem_iff_getElem?.mp (Array.mem_toList_iff.mp hd)
    obtain ⟨mu, hmu, -⟩ := hg.exists_upper hd
    have hml := Array.getElem?_eq_getElem (hg.lower_lt hd)
    have hc := hg.nodeOf?_commit hmu
    have hp := hg.nodeOf?_commit hml
    obtain ⟨k, hk, hid, hmem⟩ := hg.exists_edge_iff.mp ⟨e, d, hd, hc, hp⟩
    refine ⟨k, hk, List.mem_map.mpr ⟨_, hmem, ?_⟩⟩
    rw [hdrop d _ _ hc hp, hid]
  · rintro ⟨k, hk, hx⟩
    obtain ⟨p, hmem, rfl⟩ := List.mem_map.mp hx
    obtain ⟨e, d, hd, hc, hp⟩ := hg.exists_edge_iff.mpr ⟨k, hk, rfl, hmem⟩
    exact ⟨d, Array.mem_toList_iff.mpr (Array.mem_of_getElem? hd), hdrop d _ _ hc hp⟩

/-- The counts of a graph are those of its history, and no edge that is measured for them leads
up or out of the graph. -/
theorem stats_of_build (hb : build cs references = .ok g) :
    g.stats = .ofHistory cs ∧
      (∀ d ∈ g.edges, d.upper < g.nodes.size ∧ d.lower < g.nodes.size ∧
        g.rowOf d.upper < g.rowOf d.lower) ∧
      ∀ c ∈ cs, ∀ p ∈ c.parents, placeOf cs c.id < placeOf cs p := by
  have hg := depicts_of_build hb
  have hcs : ChildrenFirst cs := (exists_build_iff cs references).mp ⟨g, hb⟩
  refine ⟨?_, ?_, ?_⟩
  · rw [stats, Stats.ofHistory, size_rows_build hb, size_nodes_build hb, size_edges_build hb,
      size_branches_build hb, hg.merges_eq hcs, hg.heads_eq hcs, unloaded_eq hb,
      max?_congr fun _ => hg.mem_drops_iff]
  · intro d hd
    obtain ⟨e, hd⟩ := Array.mem_iff_getElem?.mp hd
    exact ⟨lt_size_of_isPlaced (hg.upper_placed hd), hg.lower_lt hd, hg.row_lt_row hd⟩
  · intro c hc p hp
    obtain ⟨e, d, hd, hu, hl⟩ := hg.exists_edge_iff.mpr ⟨c, hc, rfl, hp⟩
    rw [← hg.rowOf_eq_placeOf hu, ← hg.rowOf_eq_placeOf hl]
    exact hg.row_lt_row hd

/-- Two heads, a merge with a repeated parent, and two parents outside the history. -/
theorem stats_of_build_merge :
    ∃ g, build [⟨5, [3, 9], 0⟩, ⟨4, [3, 8, 3], 0⟩, ⟨3, [9], 0⟩] [] = .ok g ∧
      g.stats = ⟨4, 5, 6, 7, 2, 2, 2, 3⟩ := by
  have hb : ∃ g, build [⟨5, [3, 9], 0⟩, ⟨4, [3, 8, 3], 0⟩, ⟨3, [9], 0⟩] [] = .ok g := ⟨_, rfl⟩
  obtain ⟨g, hb⟩ := hb
  exact ⟨g, hb, (stats_of_build hb).1.trans (by decide)⟩

end Graph

end CommitGraph
