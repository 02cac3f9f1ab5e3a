import CommitGraph.Graph.Build

namespace CommitGraph.Graph

def edgesWhere (g : Graph) (q : Edge → Bool) : List EdgeId :=
  (List.range g.edges.size).filter fun e => g.edges[e]?.any q

def edgesFrom (g : Graph) (n : NodeId) : List EdgeId := g.edgesWhere (·.upper = n)

def edgesInto (g : Graph) (n : NodeId) : List EdgeId := g.edgesWhere (·.lower = n)

structure Wired (g : Graph) : Prop where
  node_unique : ∀ {i j : NodeId} {m m' : Node}, g.nodes[i]? = some m → g.nodes[j]? = some m' →
    m.commit = m'.commit → i = j
  down_eq : ∀ {n : NodeId} {m : Node}, g.nodes[n]? = some m → m.down = g.edgesFrom n
  up_eq : ∀ {n : NodeId} {m : Node}, g.nodes[n]? = some m → m.up = g.edgesInto n
  upper_placed : ∀ {e : EdgeId} {d : Edge}, g.edges[e]? = some d → g.isPlaced d.upper
  lower_lt : ∀ {e : EdgeId} {d : Edge}, g.edges[e]? = some d → d.lower < g.nodes.size
  row_lt_row : ∀ {e : EdgeId} {d : Edge}, g.edges[e]? = some d → g.isPlaced d.lower →
    g.rowOf d.upper < g.rowOf d.lower
  row_of_placed : ∀ {n : NodeId} {m : Node}, g.nodes[n]? = some m → m.kind = .loaded →
    g.rows[m.row]? = some [n]
  placed_of_row : ∀ {r : Nat} {ns : List NodeId}, g.rows[r]? = some ns →
    ∃ n m, ns = [n] ∧ g.nodes[n]? = some m ∧ m.kind = .loaded ∧ m.row = r

/-- Every node has been named by a child or has had its turn, and is on the branch of the edge by
which it was first named. -/
structure Named (g : Graph) : Prop where
  up_ne_nil : ∀ {n : NodeId} {m : Node}, g.nodes[n]? = some m → m.kind = .unloaded → m.up ≠ []
  branch_eq : ∀ {n : NodeId} {m : Node} {e : EdgeId}, g.nodes[n]? = some m → m.up.head? = some e →
    g.edges[e]?.map (·.branch) = some m.branch

variable {g h : Graph}

theorem mem_edgesWhere {q : Edge → Bool} {e : EdgeId} :
    e ∈ g.edgesWhere q ↔ ∃ d, g.edges[e]? = some d ∧ q d := by
  rw [edgesWhere, List.mem_filter, List.mem_range, Option.any_eq_true]
  constructor
  · rintro ⟨-, d, hd, hq⟩
    exact ⟨d, hd, hq⟩
  · rintro ⟨d, hd, hq⟩
    exact ⟨(Array.getElem?_eq_some_iff.mp hd).1, d, hd, hq⟩

@[simp] theorem mem_edgesFrom {n : NodeId} {e : EdgeId} :
    e ∈ g.edgesFrom n ↔ ∃ d, g.edges[e]? = some d ∧ d.upper = n := by
  simp [edgesFrom, mem_edgesWhere]

@[simp] theorem mem_edgesInto {n : NodeId} {e : EdgeId} :
    e ∈ g.edgesInto n ↔ ∃ d, g.edges[e]? = some d ∧ d.lower = n := by
  simp [edgesInto, mem_edgesWhere]

theorem edgesWhere_push {d : Edge} (he : h.edges = g.edges.push d) (q : Edge → Bool) :
    h.edgesWhere q = g.edgesWhere q ++ if q d then [g.edges.size] else [] := by
  have hold : (List.range g.edges.size).filter (fun e => (g.edges.push d)[e]?.any q) =
      (List.range g.edges.size).filter (fun e => g.edges[e]?.any q) := by
    apply List.filter_congr
    intro e hm
    rw [Array.getElem?_push_lt (List.mem_range.mp hm),
      Array.getElem?_eq_getElem (List.mem_range.mp hm)]
  rw [edgesWhere, he, Array.size_push, List.range_succ, List.filter_append, hold, ← edgesWhere]
  by_cases hq : q d <;> simp [hq]

theorem isPlaced_iff {n : NodeId} :
    g.isPlaced n = true ↔ ∃ m, g.nodes[n]? = some m ∧ m.kind = .loaded := by
  simp [isPlaced, Option.any_eq_true]

theorem lt_size_of_isPlaced {n : NodeId} (hn : g.isPlaced n) : n < g.nodes.size := by
  obtain ⟨m, hm, -⟩ := isPlaced_iff.mp hn
  exact (Array.getElem?_eq_some_iff.mp hm).1

theorem kind_eq_loaded {m : Node} (hk : m.kind ≠ .unloaded) : m.kind = .loaded := by
  cases hm : m.kind with
  | loaded => rfl
  | unloaded => exact absurd hm hk

theorem isPlaced_eq_false_iff {n : NodeId} {m : Node} (hm : g.nodes[n]? = some m) :
    g.isPlaced n = false ↔ m.kind = .unloaded := by
  cases hk : m.kind <;> simp [isPlaced, hm, hk]

theorem edgesFrom_eq_nil {n : NodeId}
    (hg : ∀ {e : EdgeId} {d : Edge}, g.edges[e]? = some d → g.isPlaced d.upper)
    (hn : g.isPlaced n = false) : g.edgesFrom n = [] := by
  rw [List.eq_nil_iff_forall_not_mem]
  intro e he
  obtain ⟨d, hd, rfl⟩ := mem_edgesFrom.mp he
  simp [hg hd] at hn

theorem rowOf_eq {n : NodeId} {m : Node} (hm : g.nodes[n]? = some m) : g.rowOf n = m.row := by
  simp [rowOf, hm]

theorem nodeOf?_eq_none {c : CommitId} :
    g.nodeOf? c = none ↔ ∀ (n : NodeId) (m : Node), g.nodes[n]? = some m → m.commit ≠ c := by
  rw [nodeOf?, List.findIdx?_eq_none_iff]
  constructor
  · intro hn n m hm
    simpa using hn m (Array.mem_toList_iff.mpr (Array.mem_of_getElem? hm))
  · intro hn m hm
    obtain ⟨n, hm⟩ := Array.mem_iff_getElem?.mp (Array.mem_toList_iff.mp hm)
    simpa using hn n m hm

theorem commit_of_nodeOf? {c : CommitId} {n : NodeId} (hn : g.nodeOf? c = some n) :
    ∃ m, g.nodes[n]? = some m ∧ m.commit = c := by
  rw [nodeOf?, List.findIdx?_eq_some_iff_getElem] at hn
  obtain ⟨hlt, hc, -⟩ := hn
  exact ⟨_, by rw [← Array.getElem?_toList, List.getElem?_eq_getElem hlt], by simpa using hc⟩

theorem getElem?_nodes_addNode (g : Graph) (c : CommitId) (b : BranchId) (k : NodeId) :
    (g.addNode c b).nodes[k]? =
      if k = g.nodes.size then some ⟨c, b, .unloaded, 0, [], []⟩ else g.nodes[k]? :=
  Array.getElem?_push

theorem getElem?_nodes_addEdge (g : Graph) (u l : NodeId) (b : BranchId) (k : NodeId) :
    (g.addEdge u l b).nodes[k]? = g.nodes[k]?.map fun m =>
      { m with
        down := m.down ++ if k = u then [g.edges.size] else []
        up := m.up ++ if k = l then [g.edges.size] else [] } := by
  simp only [addEdge, Array.getElem?_modify, @eq_comm _ _ k]
  cases g.nodes[k]? with
  | none => simp
  | some m => split <;> split <;> simp

theorem getElem?_nodes_place (g : Graph) (n k : NodeId) :
    (g.place n).nodes[k]? = g.nodes[k]?.map fun m =>
      if k = n then { m with kind := .loaded, row := g.rows.size } else m := by
  simp only [place, Array.getElem?_modify, @eq_comm _ _ k]
  cases g.nodes[k]? with
  | none => simp
  | some m => split <;> simp

theorem getElem?_edges_addEdge (g : Graph) (u l : NodeId) (b : BranchId) (e : EdgeId) :
    (g.addEdge u l b).edges[e]? = if e = g.edges.size then some ⟨u, l, b⟩ else g.edges[e]? :=
  Array.getElem?_push

@[simp] theorem isPlaced_addNode (g : Graph) (c : CommitId) (b : BranchId) (k : NodeId) :
    (g.addNode c b).isPlaced k = g.isPlaced k := by
  unfold isPlaced
  rw [getElem?_nodes_addNode]
  split
  · next hk => simp [hk]
  · rfl

@[simp] theorem rowOf_addNode (g : Graph) (c : CommitId) (b : BranchId) (k : NodeId) :
    (g.addNode c b).rowOf k = g.rowOf k := by
  unfold rowOf
  rw [getElem?_nodes_addNode]
  split
  · next hk => simp [hk]
  · rfl

@[simp] theorem isPlaced_addEdge (g : Graph) (u l : NodeId) (b : BranchId) (k : NodeId) :
    (g.addEdge u l b).isPlaced k = g.isPlaced k := by
  rw [isPlaced, getElem?_nodes_addEdge, Option.any_map, isPlaced]

@[simp] theorem rowOf_addEdge (g : Graph) (u l : NodeId) (b : BranchId) (k : NodeId) :
    (g.addEdge u l b).rowOf k = g.rowOf k := by
  rw [rowOf, getElem?_nodes_addEdge, Option.map_map, rowOf]
  rfl

theorem isPlaced_place {n : NodeId} (hn : n < g.nodes.size) (k : NodeId) :
    (g.place n).isPlaced k = (decide (k = n) || g.isPlaced k) := by
  rw [isPlaced, getElem?_nodes_place, Option.any_map, isPlaced]
  by_cases hk : k = n
  · subst hk
    simp [Array.getElem?_eq_getElem hn]
  · simp [hk]

theorem rowOf_place {n : NodeId} (hn : n < g.nodes.size) (k : NodeId) :
    (g.place n).rowOf k = if k = n then g.rows.size else g.rowOf k := by
  rw [rowOf, getElem?_nodes_place, Option.map_map, rowOf]
  by_cases hk : k = n
  · subst hk
    simp [Array.getElem?_eq_getElem hn]
  · simp [hk, Function.comp_def]

theorem edgesFrom_addEdge (g : Graph) (u l : NodeId) (b : BranchId) (k : NodeId) :
    (g.addEdge u l b).edgesFrom k = g.edgesFrom k ++ if k = u then [g.edges.size] else [] := by
  rw [edgesFrom, edgesWhere_push rfl, edgesFrom]
  simp [eq_comm]

theorem edgesInto_addEdge (g : Graph) (u l : NodeId) (b : BranchId) (k : NodeId) :
    (g.addEdge u l b).edgesInto k = g.edgesInto k ++ if k = l then [g.edges.size] else [] := by
  rw [edgesInto, edgesWhere_push rfl, edgesInto]
  simp [eq_comm]

namespace Wired

theorem empty : Wired .empty := by
  constructor <;> simp [Graph.empty]

theorem addBranch (hg : g.Wired) (b : Branch) : (g.addBranch b).Wired := ⟨hg.1, hg.2, hg.3, hg.4,
  hg.5, hg.6, hg.7, hg.8⟩

theorem edges_size (hg : g.Wired) :
    g.edgesFrom g.nodes.size = [] ∧ g.edgesInto g.nodes.size = [] := by
  constructor
  · exact edgesFrom_eq_nil hg.upper_placed (by simp [isPlaced])
  · rw [List.eq_nil_iff_forall_not_mem]
    intro e he
    obtain ⟨d, hd, hn⟩ := mem_edgesInto.mp he
    exact Nat.lt_irrefl _ (hn ▸ hg.lower_lt hd)

theorem down_eq_nil (hg : g.Wired) {n : NodeId} {m : Node} (hm : g.nodes[n]? = some m)
    (hk : m.kind = .unloaded) : m.down = [] := by
  rw [hg.down_eq hm]
  exact edgesFrom_eq_nil hg.upper_placed ((isPlaced_eq_false_iff hm).mpr hk)

theorem eq_of_row_eq (hg : g.Wired) {i j : NodeId} {m m' : Node} (hi : g.nodes[i]? = some m)
    (hj : g.nodes[j]? = some m') (hm : m.kind = .loaded) (hm' : m'.kind = .loaded)
    (hr : m.row = m'.row) : i = j := by
  have hrow := hg.row_of_placed hi hm
  rw [hr, hg.row_of_placed hj hm'] at hrow
  simpa [eq_comm] using hrow

theorem addNode (hg : g.Wired) {c : CommitId} (hc : g.nodeOf? c = none) (b : BranchId) :
    (g.addNode c b).Wired where
  node_unique {i j m m'} hi hj hm := by
    -- Both are the new node, or one of them is and the commit was known before, or both are old.
    have hnew := nodeOf?_eq_none.mp hc
    rw [getElem?_nodes_addNode] at hi hj
    split at hi <;> split at hj
    · next hi' hj' => exact hi'.trans hj'.symm
    · cases hi
      exact absurd hm.symm (hnew j m' hj)
    · cases hj
      exact absurd hm (hnew i m hi)
    · exact hg.node_unique hi hj hm
  down_eq {n m} hm := by
    rw [getElem?_nodes_addNode] at hm
    split at hm
    · next hn =>
      cases hm
      rw [hn]
      exact hg.edges_size.1.symm
    · exact hg.down_eq hm
  up_eq {n m} hm := by
    rw [getElem?_nodes_addNode] at hm
    split at hm
    · next hn =>
      cases hm
      rw [hn]
      exact hg.edges_size.2.symm
    · exact hg.up_eq hm
  upper_placed hd := by
    rw [isPlaced_addNode]
    exact hg.upper_placed hd
  lower_lt hd := by
    simp only [Graph.addNode, Array.size_push]
    exact Nat.lt_succ_of_lt (hg.lower_lt hd)
  row_lt_row hd hl := by
    rw [isPlaced_addNode] at hl
    rw [rowOf_addNode, rowOf_addNode]
    exact hg.row_lt_row hd hl
  row_of_placed {n m} hm hk := by
    rw [getElem?_nodes_addNode] at hm
    split at hm
    · cases hm
      cases hk
    · exact hg.row_of_placed hm hk
  placed_of_row {r ns} hr := by
    obtain ⟨n, m, hns, hm, hk⟩ := hg.placed_of_row hr
    refine ⟨n, m, hns, ?_, hk⟩
    have hlt := (Array.getElem?_eq_some_iff.mp hm).1
    rw [getElem?_nodes_addNode, if_neg (Nat.ne_of_lt hlt), hm]

theorem addEdge (hg : g.Wired) {u l : NodeId} (hu : g.isPlaced u) (hl : l < g.nodes.size)
    (hw : g.isPlaced l = false) (b : BranchId) : (g.addEdge u l b).Wired where
  node_unique {i j m m'} hi hj hm := by
    rw [getElem?_nodes_addEdge, Option.map_eq_some_iff] at hi hj
    obtain ⟨mi, hi, rfl⟩ := hi
    obtain ⟨mj, hj, rfl⟩ := hj
    exact hg.node_unique hi hj hm
  down_eq {n m} hm := by
    rw [getElem?_nodes_addEdge, Option.map_eq_some_iff] at hm
    obtain ⟨m', hm, rfl⟩ := hm
    rw [edgesFrom_addEdge, ← hg.down_eq hm]
  up_eq {n m} hm := by
    rw [getElem?_nodes_addEdge, Option.map_eq_some_iff] at hm
    obtain ⟨m', hm, rfl⟩ := hm
    rw [edgesInto_addEdge, ← hg.up_eq hm]
  upper_placed {e d} hd := by
    rw [isPlaced_addEdge]
    rw [getElem?_edges_addEdge] at hd
    split at hd
    · cases hd
      exact hu
    · exact hg.upper_placed hd
  lower_lt {e d} hd := by
    have hsize : (g.addEdge u l b).nodes.size = g.nodes.size := by simp [Graph.addEdge]
    rw [hsize]
    rw [getElem?_edges_addEdge] at hd
    split at hd
    · cases hd
      exact hl
    · exact hg.lower_lt hd
  row_lt_row {e d} hd hp := by
    rw [isPlaced_addEdge] at hp
    rw [rowOf_addEdge, rowOf_addEdge]
    rw [getElem?_edges_addEdge] at hd
    split at hd
    · cases hd
      simp [hw] at hp
    · exact hg.row_lt_row hd hp
  row_of_placed {n m} hm hk := by
    rw [getElem?_nodes_addEdge, Option.map_eq_some_iff] at hm
    obtain ⟨m', hm, rfl⟩ := hm
    exact hg.row_of_placed (m := m') hm hk
  placed_of_row {r ns} hr := by
    obtain ⟨n, m, hns, hm, hk⟩ := hg.placed_of_row hr
    have hm' := getElem?_nodes_addEdge g u l b n
    rw [hm, Option.map_some] at hm'
    exact ⟨n, _, hns, hm', hk⟩

theorem place (hg : g.Wired) {n : NodeId} (hn : n < g.nodes.size) (hw : g.isPlaced n = false) :
    (g.place n).Wired where
  node_unique {i j m m'} hi hj hm := by
    rw [getElem?_nodes_place, Option.map_eq_some_iff] at hi hj
    obtain ⟨mi, hi, rfl⟩ := hi
    obtain ⟨mj, hj, rfl⟩ := hj
    apply hg.node_unique hi hj
    split at hm <;> split at hm <;> exact hm
  down_eq {k m} hm := by
    rw [getElem?_nodes_place, Option.map_eq_some_iff] at hm
    obtain ⟨m', hm, rfl⟩ := hm
    have := hg.down_eq hm
    split <;> exact this
  up_eq {k m} hm := by
    rw [getElem?_nodes_place, Option.map_eq_some_iff] at hm
    obtain ⟨m', hm, rfl⟩ := hm
    have := hg.up_eq hm
    split <;> exact this
  upper_placed hd := by
    rw [isPlaced_place hn, hg.upper_placed hd]
    simp
  lower_lt hd := by
    have hsize : (g.place n).nodes.size = g.nodes.size := by simp [Graph.place]
    rw [hsize]
    exact hg.lower_lt hd
  row_lt_row {e d} hd hl := by
    -- Edges leave placed nodes only, so none leaves the node that gets its turn now.
    have hu : d.upper ≠ n := by
      rintro hu
      have := hg.upper_placed hd
      simp [hu, hw] at this
    rw [isPlaced_place hn] at hl
    rw [rowOf_place hn, rowOf_place hn, if_neg hu]
    split
    · obtain ⟨m, hm, hk⟩ := isPlaced_iff.mp (hg.upper_placed hd)
      rw [rowOf_eq hm]
      exact (Array.getElem?_eq_some_iff.mp (hg.row_of_placed hm hk)).1
    · next hne => exact hg.row_lt_row hd (by simpa [hne] using hl)
  row_of_placed {k m} hm hk := by
    rw [getElem?_nodes_place, Option.map_eq_some_iff] at hm
    obtain ⟨m', hm, rfl⟩ := hm
    have hrows : (g.place n).rows = g.rows.push [n] := rfl
    rw [hrows]
    split
    · next hkn => simp [hkn]
    · next hkn =>
      rw [if_neg hkn] at hk
      have hr := hg.row_of_placed hm hk
      have := (Array.getElem?_eq_some_iff.mp hr).1
      rw [Array.getElem?_push, if_neg (by omega), hr]
  placed_of_row {r ns} hr := by
    have hrows : (g.place n).rows = g.rows.push [n] := rfl
    rw [hrows, Array.getElem?_push] at hr
    split at hr
    · next hr' =>
      cases hr
      refine ⟨n, { g.nodes[n] with kind := .loaded, row := g.rows.size }, rfl, ?_, rfl, hr'.symm⟩
      rw [getElem?_nodes_place, Array.getElem?_eq_getElem hn]
      simp
    -- A row that was there before has a node that was placed before.
    · obtain ⟨k, m, hns, hm, hk, hmr⟩ := hg.placed_of_row hr
      have hkn : k ≠ n := by
        rintro rfl
        simp [isPlaced, hm, hk] at hw
      refine ⟨k, m, hns, ?_, hk, hmr⟩
      rw [getElem?_nodes_place, hm]
      simp [hkn]

end Wired

end CommitGraph.Graph
