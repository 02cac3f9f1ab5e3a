import CommitGraph.Proofs.Graph.Depiction
import CommitGraph.Proofs.Lists

namespace CommitGraph

/-- The parents that a history mentions and does not hold, in order of first mention. -/
def outside (cs : List Commit) : List CommitId :=
  ((cs.flatMap (·.parents)).filter (· ∉ cs.map (·.id))).eraseDups

namespace Graph

def commits (g : Graph) : List CommitId := g.nodes.toList.map (·.commit)

variable {g h : Graph} {cs ds : List Commit} {ms : List CommitId} {references : List Reference}
  {c p : CommitId} {u n : NodeId} {b : BranchId}

theorem getElem?_commits (g : Graph) (n : NodeId) :
    g.commits[n]? = g.nodes[n]?.map (·.commit) := by
  rw [commits, List.getElem?_map, Array.getElem?_toList]

@[simp] theorem commits_addNode (g : Graph) (c : CommitId) (b : BranchId) :
    (g.addNode c b).commits = g.commits ++ [c] := by
  simp [commits, addNode]

@[simp] theorem commits_addEdge (g : Graph) (u l : NodeId) (b : BranchId) :
    (g.addEdge u l b).commits = g.commits := by
  apply List.ext_getElem?
  intro n
  rw [getElem?_commits, getElem?_nodes_addEdge, Option.map_map, getElem?_commits]
  rfl

@[simp] theorem commits_place (g : Graph) (k : NodeId) : (g.place k).commits = g.commits := by
  apply List.ext_getElem?
  intro n
  rw [getElem?_commits, getElem?_nodes_place, Option.map_map, getElem?_commits]
  congr 1
  funext m
  by_cases hn : n = k <;> simp [hn]

@[simp] theorem commits_finish (g : Graph) : g.finish.commits = g.commits := by
  apply List.ext_getElem?
  intro n
  rw [getElem?_commits, getElem?_nodes_finish, Option.map_map, getElem?_commits]
  congr 1
  funext m
  by_cases hm : m.kind = .unloaded <;> simp [hm]

theorem mem_commits : c ∈ g.commits ↔ ∃ n, g.nodeOf? c = some n := by
  constructor
  · intro hc
    obtain ⟨m, hm, rfl⟩ := List.mem_map.mp hc
    obtain ⟨n, hn⟩ := Array.mem_iff_getElem?.mp (Array.mem_toList_iff.mp hm)
    cases hk : g.nodeOf? m.commit with
    | none => exact absurd rfl (nodeOf?_eq_none.mp hk n m hn)
    | some k => exact ⟨k, rfl⟩
  · rintro ⟨n, hn⟩
    obtain ⟨m, hm, rfl⟩ := commit_of_nodeOf? hn
    exact List.mem_map_of_mem (Array.mem_toList_iff.mpr (Array.mem_of_getElem? hm))

theorem commits_mention (hg : g.commits = ms.eraseDups) (c : CommitId) :
    (ms ++ [c]).eraseDups = if (g.nodeOf? c).isSome then g.commits else g.commits ++ [c] := by
  have hmem : (g.nodeOf? c).isSome ↔ c ∈ ms := by
    rw [Option.isSome_iff_exists, ← mem_commits, hg, List.mem_eraseDups]
  rw [eraseDups_concat, hg]
  simp only [hmem]

theorem commits_connect (hg : g.commits = ms.eraseDups) (hh : g.connect c u b p = .ok h) :
    h.commits = (ms ++ [p]).eraseDups := by
  rw [commits_mention hg]
  obtain ⟨l, hl, -, rfl⟩ | ⟨hp, rfl⟩ := connect_eq_ok hh
  · simp [hl]
  · simp [hp]

theorem commits_claim (hg : g.commits = ms.eraseDups) (hh : g.claim references c = .ok (n, h)) :
    h.commits = (ms ++ [c]).eraseDups := by
  rw [commits_mention hg]
  obtain ⟨hn, -, rfl⟩ | ⟨hc, -, rfl⟩ := claim_eq_ok hh
  · simp [hn]
  · simp only [commits_addNode, hc]
    rfl

theorem commits_connectMerge {head : Option CommitId} {ps : List CommitId}
    (hg : g.commits = ms.eraseDups) (hh : connectMerge references c u head g ps = .ok h) :
    h.commits = (ms ++ ps).eraseDups := by
  induction ps generalizing g ms with
  | nil =>
    cases hh
    rw [List.append_nil, hg]
  | cons p ps ih =>
    obtain ⟨k, hk, hh⟩ := bind_eq_ok.mp hh
    have hbranch : (g.addBranch (.ofMerge c p (referencesOn references c) head)).commits =
        ms.eraseDups := hg
    have hnext := ih (commits_connect hbranch hk) hh
    rwa [List.append_assoc] at hnext

theorem commits_append {c : Commit} (hg : g.commits = ms.eraseDups)
    (hh : g.append references c = .ok h) : h.commits = (ms ++ c.id :: c.parents).eraseDups := by
  unfold Graph.append at hh
  obtain ⟨⟨u, k⟩, hk, hh⟩ := bind_eq_ok.mp hh
  have hplace : (k.place u).commits = (ms ++ [c.id]).eraseDups := by
    rw [commits_place, commits_claim hg hk]
  rw [List.append_cons]
  dsimp only at hh
  split at hh
  · next p hp => rw [hp, commits_connect hplace hh]
  · exact commits_connectMerge hplace hh

theorem commits_foldlM (hg : g.commits = ms.eraseDups)
    (hh : cs.foldlM (Graph.append references) g = .ok h) :
    h.commits = (ms ++ cs.flatMap fun c => c.id :: c.parents).eraseDups := by
  induction cs generalizing g ms with
  | nil =>
    cases hh
    rw [List.flatMap_nil, List.append_nil, hg]
  | cons c cs ih =>
    obtain ⟨k, hk, hh⟩ := bind_eq_ok.mp hh
    have hnext := ih (commits_append hg hk) hh
    rwa [List.append_assoc] at hnext

/-- A graph is finished when all commits have had their turn. -/
theorem exists_grown_of_build (hb : build cs references = .ok g) :
    ∃ h : Graph, h.Grown cs ∧ g = h.finish ∧
      h.commits = (cs.flatMap fun c => c.id :: c.parents).eraseDups := by
  cases hf : cs.foldlM (append references) empty with
  | error e => simp [build, hf, Except.map] at hb
  | ok h =>
    simp only [build, hf, Except.map, Except.ok.injEq] at hb
    obtain ⟨hgrown, -⟩ := Grown.empty.foldlM (by simp [PassesBranch, empty]) hf
    have hnone : empty.commits = ([] : List CommitId).eraseDups := rfl
    exact ⟨h, hgrown, hb.symm, commits_foldlM hnone hf⟩

theorem Grown.isPlaced_eq (hg : g.Grown cs) {m : Node} (hm : g.nodes[n]? = some m) :
    g.isPlaced n = decide (m.commit ∈ cs.map (·.id)) := by
  rw [Bool.eq_iff_iff, decide_eq_true_eq, ← hg.placed_iff]
  constructor
  · intro hp
    cases hk : g.nodeOf? m.commit with
    | none => exact absurd rfl (nodeOf?_eq_none.mp hk n m hm)
    | some k =>
      obtain ⟨mk, hmk, hc⟩ := commit_of_nodeOf? hk
      exact ⟨k, rfl, hg.node_unique hmk hm hc ▸ hp⟩
  · rintro ⟨k, hk, hp⟩
    obtain ⟨mk, hmk, hc⟩ := commit_of_nodeOf? hk
    exact hg.node_unique hmk hm hc ▸ hp

theorem filter_mentions (cs : List Commit) :
    ((cs.flatMap fun c => c.id :: c.parents).eraseDups.filter (· ∉ cs.map (·.id))) =
      outside cs := by
  rw [filter_eraseDups, outside, List.filter_flatMap, List.filter_flatMap]
  congr 1
  apply List.flatMap_congr
  intro c hc
  have hid : c.id ∈ cs.map (·.id) := List.mem_map_of_mem hc
  rw [List.filter_cons_of_neg (by simpa using hid)]

theorem Grown.forall₂_waiting (hg : g.Grown cs)
    (hc : g.commits = (cs.flatMap fun c => c.id :: c.parents).eraseDups) :
    List.Forall₂ (fun n p => ∃ m, g.nodes[n]? = some m ∧ m.kind = .unloaded ∧ m.commit = p)
      g.waiting (outside cs) := by
  let commitAt (n : NodeId) : CommitId := (g.nodes[n]?.map (·.commit)).getD 0
  have hcommits : (List.range g.nodes.size).map commitAt = g.commits := by
    apply List.ext_getElem
    · simp [commits]
    · intro n hn _
      simp [commitAt, commits, show n < g.nodes.size by simpa using hn]
  -- Nodes stand in the order of first mention, and the waiting ones are picked from it in order.
  have hmap : outside cs = g.waiting.map commitAt := by
    rw [← filter_mentions, ← hc, ← hcommits, List.filter_map, waiting]
    congr 1
    apply List.filter_congr
    intro n hn
    have hm := Array.getElem?_eq_getElem (List.mem_range.mp hn)
    rw [hg.isPlaced_eq hm, ← decide_not, Function.comp_apply]
    simp only [commitAt, hm, Option.map_some, Option.getD_some]
  rw [hmap, List.forall₂_map_right_iff, List.forall₂_same]
  intro n hn
  obtain ⟨m, hm, hk⟩ := mem_waiting.mp hn
  exact ⟨m, hm, hk, by simp [commitAt, hm]⟩

/-- The rows, nodes and edges of the graph are those of the history. -/
structure Records (g : Graph) (cs : List Commit) : Prop where
  /-- Each commit has its node alone in its row, with an edge for each place among its parents. -/
  row_of_commit : ∀ {i : Nat} {c : Commit}, cs[i]? = some c →
    ∃ n m, g.rows[i]? = some [n] ∧ g.nodes[n]? = some m ∧ m.kind = .loaded ∧ m.commit = c.id ∧
      List.Forall₂ (fun e p => ∃ d, g.edges[e]? = some d ∧ d.upper = n ∧
        g.nodeOf? p = some d.lower) m.down c.parents
  /-- One more row holds the parents outside the history, if there are any. -/
  size_rows : g.rows.size = cs.length + if outside cs = [] then 0 else 1
  last_row : outside cs ≠ [] → ∃ ns, g.rows[cs.length]? = some ns ∧
    List.Forall₂ (fun n p => ∃ m, g.nodes[n]? = some m ∧ m.kind = .unloaded ∧ m.commit = p ∧
      m.down = []) ns (outside cs)
  /-- A commit that is mentioned has one node, and no other commit has any. -/
  nodeOf?_eq_some_iff : ∀ {c : CommitId} {n : NodeId},
    g.nodeOf? c = some n ↔ ∃ m, g.nodes[n]? = some m ∧ m.commit = c
  exists_nodeOf?_iff : ∀ {c : CommitId},
    (∃ n, g.nodeOf? c = some n) ↔ ∃ d ∈ cs, c = d.id ∨ c ∈ d.parents
  mem_row_iff : ∀ {n : NodeId} {m : Node} {r : Nat}, g.nodes[n]? = some m →
    (n ∈ g.nodesInRow r ↔ m.row = r)
  /-- An edge is listed below one node, in one place. -/
  place_unique : ∀ {e : EdgeId} {d : Edge}, g.edges[e]? = some d →
    ∃! place : NodeId × Nat, ∃ m, g.nodes[place.1]? = some m ∧ m.down[place.2]? = some e
  /-- Above a node all edges are listed that lead to it, oldest first. -/
  up_eq : ∀ {n : NodeId} {m : Node}, g.nodes[n]? = some m →
    m.up = (List.range g.edges.size).filter fun e => g.edges[e]?.any (·.lower = n)
  row_lt_row : ∀ {e : EdgeId} {d : Edge}, g.edges[e]? = some d → g.rowOf d.upper < g.rowOf d.lower

theorem rows_of_nodesInRow {r : Nat} {ns : List NodeId} (hr : g.nodesInRow r = ns) (hns : ns ≠ []) :
    g.rows[r]? = some ns := by
  rw [nodesInRow] at hr
  cases hrow : g.rows[r]? with
  | none =>
    rw [hrow] at hr
    exact absurd hr.symm hns
  | some ks =>
    rw [hrow] at hr
    exact congrArg some hr

theorem size_rows_finish (g : Graph) :
    g.finish.rows.size = g.rows.size + if g.waiting = [] then 0 else 1 := by
  unfold finish
  split
  · next hw => rw [if_pos hw, Nat.add_zero]
  · next hw => rw [if_neg hw, Array.size_push]

theorem Depicts.row_of_commit (hg : g.Depicts cs) {i : Nat} {c : Commit} (hc : cs[i]? = some c) :
    ∃ n m, g.rows[i]? = some [n] ∧ g.nodes[n]? = some m ∧ m.kind = .loaded ∧ m.commit = c.id ∧
      List.Forall₂ (fun e p => ∃ d, g.edges[e]? = some d ∧ d.upper = n ∧
        g.nodeOf? p = some d.lower) m.down c.parents := by
  obtain ⟨n, m, hm, hk, rfl, hid⟩ := hg.placed_of_commit hc
  obtain ⟨c', hc', -, hdown⟩ := hg.commit_of_placed hm hk
  cases hc.symm.trans hc'
  refine ⟨n, m, rows_of_nodesInRow (hg.nodesInRow_eq hm hk) (by simp), hm, hk, hid, ?_⟩
  refine (forall₂_mem hdown).imp ?_
  rintro e p ⟨⟨d, l, hd, hl, rfl⟩, he, -⟩
  obtain ⟨d', hd', hu⟩ := (hg.mem_down hm).mp he
  cases hd.symm.trans hd'
  exact ⟨d, hd, hu, hg.nodeOf?_commit hl⟩

theorem Depicts.place_unique (hg : g.Depicts cs) {e : EdgeId} {d : Edge}
    (hd : g.edges[e]? = some d) :
    ∃! place : NodeId × Nat, ∃ m, g.nodes[place.1]? = some m ∧ m.down[place.2]? = some e := by
  obtain ⟨m, hm, -⟩ := hg.exists_upper hd
  obtain ⟨k, hk⟩ := List.mem_iff_getElem?.mp ((hg.mem_down hm).mpr ⟨d, hd, rfl⟩)
  refine ⟨(d.upper, k), ⟨m, hm, hk⟩, ?_⟩
  rintro ⟨n, j⟩ ⟨m', hm', hj⟩
  obtain ⟨rfl, rfl⟩ := hg.edge_place hm' hm hj hk
  rfl

theorem Depicts.nodeOf?_eq_some_iff (hg : g.Depicts cs) :
    g.nodeOf? c = some n ↔ ∃ m, g.nodes[n]? = some m ∧ m.commit = c := by
  constructor
  · exact commit_of_nodeOf?
  · rintro ⟨m, hm, rfl⟩
    exact hg.nodeOf?_commit hm

theorem Depicts.mem_row_iff (hg : g.Depicts cs) {m : Node} {r : Nat} (hm : g.nodes[n]? = some m) :
    n ∈ g.nodesInRow r ↔ m.row = r := by
  rw [hg.mem_nodesInRow]
  constructor
  · rintro ⟨m', hm', hr⟩
    cases hm.symm.trans hm'
    exact hr
  · intro hr
    exact ⟨m, hm, hr⟩

theorem exists_nodeOf?_iff (hb : build cs references = .ok g) :
    (∃ n, g.nodeOf? c = some n) ↔ ∃ d ∈ cs, c = d.id ∨ c ∈ d.parents := by
  obtain ⟨h, -, rfl, hcommits⟩ := exists_grown_of_build hb
  rw [← mem_commits, commits_finish, hcommits, List.mem_eraseDups, List.mem_flatMap]
  simp only [List.mem_cons]

theorem Grown.waiting_eq_nil_iff (hg : g.Grown cs)
    (hc : g.commits = (cs.flatMap fun c => c.id :: c.parents).eraseDups) :
    g.waiting = [] ↔ outside cs = [] := by
  rw [← List.length_eq_zero_iff, (hg.forall₂_waiting hc).length_eq, List.length_eq_zero_iff]

theorem size_rows_build (hb : build cs references = .ok g) :
    g.rows.size = cs.length + if outside cs = [] then 0 else 1 := by
  obtain ⟨h, hgrown, rfl, hcommits⟩ := exists_grown_of_build hb
  simp only [size_rows_finish, hgrown.rows_size, hgrown.waiting_eq_nil_iff hcommits]

theorem last_row_build (hb : build cs references = .ok g) (hne : outside cs ≠ []) :
    ∃ ns, g.rows[cs.length]? = some ns ∧
      List.Forall₂ (fun n p => ∃ m, g.nodes[n]? = some m ∧ m.kind = .unloaded ∧ m.commit = p ∧
        m.down = []) ns (outside cs) := by
  obtain ⟨h, hgrown, rfl, hcommits⟩ := exists_grown_of_build hb
  have hrow := h.nodesInRow_finish h.rows.size
  rw [if_pos rfl] at hrow
  refine ⟨h.waiting, ?_, (hgrown.forall₂_waiting hcommits).imp ?_⟩
  · rw [← hgrown.rows_size]
    exact rows_of_nodesInRow hrow (mt (hgrown.waiting_eq_nil_iff hcommits).mp hne)
  · rintro n p ⟨m, hm, hk, hp⟩
    have hdown := hgrown.toWired.down_eq_nil hm hk
    refine ⟨{ m with row := h.rows.size }, ?_, hk, hp, hdown⟩
    rw [getElem?_nodes_finish, hm, Option.map_some, if_pos hk]

/-- The graph of a history is the history: each commit in a row of its own, the parents outside the
history in one more row, and an edge for each place in a list of parents. -/
theorem records_of_build (hb : build cs references = .ok g) : g.Records cs := by
  have hg := depicts_of_build hb
  exact
    { row_of_commit := hg.row_of_commit
      size_rows := size_rows_build hb
      last_row := last_row_build hb
      nodeOf?_eq_some_iff := hg.nodeOf?_eq_some_iff
      exists_nodeOf?_iff := exists_nodeOf?_iff hb
      mem_row_iff := hg.mem_row_iff
      place_unique := hg.place_unique
      up_eq := hg.up_eq
      row_lt_row := hg.row_lt_row }

/-- Two heads, a merge with a repeated parent, and two parents outside the history. -/
theorem records_of_build_merge :
    ∃ g, build [⟨5, [3, 9], 0⟩, ⟨4, [3, 8, 3], 0⟩, ⟨3, [9], 0⟩] [] = .ok g ∧
      g.rows = #[[0], [3], [1], [2, 4]] ∧
      g.Records [⟨5, [3, 9], 0⟩, ⟨4, [3, 8, 3], 0⟩, ⟨3, [9], 0⟩] := by
  have hb : ∃ g, build [⟨5, [3, 9], 0⟩, ⟨4, [3, 8, 3], 0⟩, ⟨3, [9], 0⟩] [] = .ok g ∧
      g.rows = #[[0], [3], [1], [2, 4]] := ⟨_, rfl, rfl⟩
  obtain ⟨g, hb, hrows⟩ := hb
  exact ⟨g, hb, hrows, records_of_build hb⟩

end Graph

end CommitGraph
