import CommitGraph.Proofs.Except
import CommitGraph.Proofs.Graph.Wiring
import Mathlib.Data.List.Forall2

namespace CommitGraph.Graph

def LeadsTo (g : Graph) (e : EdgeId) (c : CommitId) : Prop :=
  ∃ d m, g.edges[e]? = some d ∧ g.nodes[d.lower]? = some m ∧ m.commit = c

/-- The placed nodes stand for the commits, row by row, with edges to their parents in order. -/
structure Tells (g : Graph) (cs : List Commit) : Prop where
  rows_size : g.rows.size = cs.length
  commit_of_placed : ∀ {n : NodeId} {m : Node}, g.nodes[n]? = some m → m.kind = .loaded →
    ∃ c, cs[m.row]? = some c ∧ m.commit = c.id ∧ List.Forall₂ g.LeadsTo m.down c.parents

structure Grown (g : Graph) (cs : List Commit) : Prop extends g.Wired, g.Named, g.Tells cs

variable {g h : Graph} {cs : List Commit}

theorem Grown.empty : Grown .empty [] where
  toWired := .empty
  toNamed := by constructor <;> simp [Graph.empty]
  toTells := by constructor <;> simp [Graph.empty]

theorem Grown.placed_iff (hg : g.Grown cs) {c : CommitId} :
    (∃ n, g.nodeOf? c = some n ∧ g.isPlaced n) ↔ c ∈ cs.map (·.id) := by
  constructor
  · rintro ⟨n, hn, hp⟩
    obtain ⟨m, hm, rfl⟩ := commit_of_nodeOf? hn
    obtain ⟨m', hm', hk⟩ := isPlaced_iff.mp hp
    cases hm.symm.trans hm'
    obtain ⟨d, hd, hc, -⟩ := hg.commit_of_placed hm hk
    exact List.mem_map.mpr ⟨d, List.mem_of_getElem? hd, hc.symm⟩
  · intro hc
    obtain ⟨d, hd, rfl⟩ := List.mem_map.mp hc
    obtain ⟨i, hi, rfl⟩ := List.mem_iff_getElem.mp hd
    rw [← hg.rows_size] at hi
    obtain ⟨n, m, -, hm, hk, hr⟩ := hg.placed_of_row (Array.getElem?_eq_getElem hi)
    obtain ⟨d', hd', hc', -⟩ := hg.commit_of_placed hm hk
    rw [hr, List.getElem?_eq_getElem (hg.rows_size ▸ hi)] at hd'
    cases hd'
    -- The commit has one node only, so the one that is found for it is the one in its row.
    cases hn : g.nodeOf? cs[i].id with
    | none => exact absurd hc' (nodeOf?_eq_none.mp hn n m hm)
    | some n' =>
      obtain ⟨m', hm', hc''⟩ := commit_of_nodeOf? hn
      cases hg.node_unique hm hm' (hc'.trans hc''.symm)
      exact ⟨n, rfl, isPlaced_iff.mpr ⟨m, hm, hk⟩⟩

theorem connect_eq_ok {c p : CommitId} {u : NodeId} {b : BranchId}
    (hh : g.connect c u b p = .ok h) :
    (∃ l, g.nodeOf? p = some l ∧ g.isPlaced l = false ∧ h = g.addEdge u l b) ∨
      g.nodeOf? p = none ∧ h = (g.addNode p b).addEdge u g.nodes.size b := by
  unfold connect at hh
  split at hh
  · next l hl =>
    split at hh
    · cases hh
    · next hp =>
      cases hh
      exact .inl ⟨l, hl, by simpa using hp, rfl⟩
  · next hp =>
    cases hh
    exact .inr ⟨hp, rfl⟩

theorem Grown.connect_isOk (hg : g.Grown cs) (c : CommitId) {p : CommitId} (u : NodeId)
    (b : BranchId) (hp : p ∉ cs.map (·.id)) : ∃ h, g.connect c u b p = .ok h := by
  unfold connect
  split
  · next l hl =>
    have hw : g.isPlaced l = false := by
      by_contra hw
      exact hp (hg.placed_iff.mp ⟨l, hl, by simpa using hw⟩)
    exact ⟨_, by rw [hw]; rfl⟩
  · exact ⟨_, rfl⟩

theorem Grown.connect_eq_error (hg : g.Grown cs) (c : CommitId) {p : CommitId} (u : NodeId)
    (b : BranchId) (hp : p ∈ cs.map (·.id)) : g.connect c u b p = .error (.parentAbove c p) := by
  obtain ⟨l, hl, hw⟩ := hg.placed_iff.mpr hp
  simp [connect, hl, hw]

theorem LeadsTo.addNode {e : EdgeId} {p : CommitId} (he : g.LeadsTo e p) (c : CommitId)
    (b : BranchId) : (g.addNode c b).LeadsTo e p := by
  obtain ⟨d, m, hd, hm, hp⟩ := he
  refine ⟨d, m, hd, ?_, hp⟩
  have := (Array.getElem?_eq_some_iff.mp hm).1
  rw [getElem?_nodes_addNode, if_neg (Nat.ne_of_lt this), hm]

theorem LeadsTo.addEdge {e : EdgeId} {p : CommitId} (he : g.LeadsTo e p) (u l : NodeId)
    (b : BranchId) : (g.addEdge u l b).LeadsTo e p := by
  obtain ⟨d, m, hd, hm, hp⟩ := he
  have hm' := getElem?_nodes_addEdge g u l b d.lower
  rw [hm, Option.map_some] at hm'
  refine ⟨d, _, ?_, hm', hp⟩
  have := (Array.getElem?_eq_some_iff.mp hd).1
  rw [getElem?_edges_addEdge, if_neg (Nat.ne_of_lt this), hd]

theorem LeadsTo.place {e : EdgeId} {p : CommitId} (he : g.LeadsTo e p) (n : NodeId) :
    (g.place n).LeadsTo e p := by
  obtain ⟨d, m, hd, hm, hp⟩ := he
  have hm' := getElem?_nodes_place g n d.lower
  rw [hm, Option.map_some] at hm'
  refine ⟨d, _, hd, hm', ?_⟩
  split <;> exact hp

theorem Tells.addNode (hg : g.Tells cs) (c : CommitId) (b : BranchId) :
    (g.addNode c b).Tells cs where
  rows_size := hg.rows_size
  commit_of_placed {n m} hm hk := by
    rw [getElem?_nodes_addNode] at hm
    split at hm
    · cases hm
      cases hk
    · obtain ⟨d, hd, hc, hps⟩ := hg.commit_of_placed hm hk
      exact ⟨d, hd, hc, hps.imp fun _ _ h => h.addNode c b⟩

theorem Tells.addEdge {c p : CommitId} {ps : List CommitId} {t : Int} {u l : NodeId} {m : Node}
    (hw : g.Wired) (hg : g.Tells (cs ++ [⟨c, ps, t⟩])) (hu : g.isPlaced u)
    (hr : g.rowOf u = cs.length) (hl : g.nodes[l]? = some m) (hp : m.commit = p) (b : BranchId) :
    (g.addEdge u l b).Tells (cs ++ [⟨c, ps ++ [p], t⟩]) where
  rows_size := by
    have := hg.rows_size
    simpa [Graph.addEdge] using this
  commit_of_placed {n m'} hm' hk := by
    rw [getElem?_nodes_addEdge, Option.map_eq_some_iff] at hm'
    obtain ⟨mn, hmn, rfl⟩ := hm'
    obtain ⟨d, hd, hc, hps⟩ := hg.commit_of_placed hmn hk
    have hold := hps.imp fun _ _ h => LeadsTo.addEdge h u l b
    -- Only the commit in the last row gets a parent, and its node is `u`.
    by_cases hnu : n = u
    · have hrow : mn.row = cs.length := by rw [← hr, ← hnu, rowOf_eq hmn]
      rw [hrow, List.getElem?_concat_length] at hd
      cases hd
      refine ⟨⟨c, ps ++ [p], t⟩, by rw [hrow, List.getElem?_concat_length], hc, ?_⟩
      rw [if_pos hnu]
      refine List.rel_append hold (.cons ?_ .nil)
      have hl' := getElem?_nodes_addEdge g u l b l
      rw [hl, Option.map_some] at hl'
      exact ⟨⟨u, l, b⟩, _, by rw [getElem?_edges_addEdge, if_pos rfl], hl', hp⟩
    · have hrow : mn.row ≠ cs.length := by
        intro hrow
        obtain ⟨mu, hmu, hku⟩ := isPlaced_iff.mp hu
        exact hnu (hw.eq_of_row_eq hmn hmu hk hku (by rw [hrow, ← hr, rowOf_eq hmu]))
      have hlt : mn.row < cs.length := by
        have := (List.getElem?_eq_some_iff.mp hd).1
        simp only [List.length_append, List.length_singleton] at this
        omega
      refine ⟨d, ?_, hc, ?_⟩
      · rw [List.getElem?_append_left hlt] at hd ⊢
        exact hd
      · rw [if_neg hnu, List.append_nil]
        exact hold

theorem Tells.place {c : CommitId} {n : NodeId} {m : Node} (hw : g.Wired) (hg : g.Tells cs)
    (hn : g.nodes[n]? = some m) (hk : m.kind = .unloaded) (hc : m.commit = c) (t : Int) :
    (g.place n).Tells (cs ++ [⟨c, [], t⟩]) where
  rows_size := by simp [Graph.place, hg.rows_size]
  commit_of_placed {k m'} hm' hk' := by
    rw [getElem?_nodes_place, Option.map_eq_some_iff] at hm'
    obtain ⟨mk, hmk, rfl⟩ := hm'
    by_cases hkn : k = n
    · subst hkn
      cases hn.symm.trans hmk
      simp only [if_pos]
      refine ⟨_, by rw [hg.rows_size, List.getElem?_concat_length], hc, ?_⟩
      rw [hw.down_eq_nil hn hk]
      exact .nil
    · rw [if_neg hkn] at hk' ⊢
      obtain ⟨d, hd, hc', hps⟩ := hg.commit_of_placed hmk hk'
      refine ⟨d, ?_, hc', hps.imp fun _ _ h => LeadsTo.place h n⟩
      rw [List.getElem?_append_left (List.getElem?_eq_some_iff.mp hd).1, hd]

theorem Named.addEdge (hg : g.Named) {l : NodeId} (hl : g.isPlaced l = false) (u : NodeId)
    (b : BranchId) : (g.addEdge u l b).Named where
  up_ne_nil {n m} hm hk := by
    rw [getElem?_nodes_addEdge, Option.map_eq_some_iff] at hm
    obtain ⟨m', hm, rfl⟩ := hm
    simp [hg.up_ne_nil hm hk]
  branch_eq {n m e} hm he := by
    rw [getElem?_nodes_addEdge, Option.map_eq_some_iff] at hm
    obtain ⟨m', hm, rfl⟩ := hm
    have hup : m'.up.head? = some e := by
      by_cases hnl : n = l
      · -- The node waits, so an edge has named it already.
        have hk := (isPlaced_eq_false_iff hm).mp (hnl ▸ hl)
        have := hg.up_ne_nil hm hk
        rwa [List.head?_append_of_ne_nil _ this] at he
      · simpa [hnl] using he
    have hb := hg.branch_eq hm hup
    obtain ⟨d, hd, -⟩ := Option.map_eq_some_iff.mp hb
    have := (Array.getElem?_eq_some_iff.mp hd).1
    rwa [getElem?_edges_addEdge, if_neg (Nat.ne_of_lt this)]

theorem Named.addNode_addEdge (hg : g.Named) (p : CommitId) (u : NodeId) (b : BranchId) :
    ((g.addNode p b).addEdge u g.nodes.size b).Named where
  up_ne_nil {n m} hm hk := by
    rw [getElem?_nodes_addEdge, Option.map_eq_some_iff] at hm
    obtain ⟨m', hm, rfl⟩ := hm
    rw [getElem?_nodes_addNode] at hm
    split at hm
    · next hn => simp [hn]
    · simp [hg.up_ne_nil hm hk]
  branch_eq {n m e} hm he := by
    rw [getElem?_nodes_addEdge, Option.map_eq_some_iff] at hm
    obtain ⟨m', hm, rfl⟩ := hm
    rw [getElem?_nodes_addNode] at hm
    split at hm
    · next hn =>
      cases hm
      have he' : e = g.edges.size := by simpa [hn, Graph.addNode, eq_comm] using he
      subst he'
      simp [Graph.addEdge, Graph.addNode]
    · next hn =>
      have hb := hg.branch_eq hm (by simpa [hn] using he)
      obtain ⟨d, hd, -⟩ := Option.map_eq_some_iff.mp hb
      have := (Array.getElem?_eq_some_iff.mp hd).1
      have hold : e ≠ (g.addNode p b).edges.size := Nat.ne_of_lt this
      rw [getElem?_edges_addEdge, if_neg hold]
      exact hb

theorem Named.place (hg : g.Named) (n : NodeId) : (g.place n).Named where
  up_ne_nil {k m} hm hk := by
    rw [getElem?_nodes_place, Option.map_eq_some_iff] at hm
    obtain ⟨m', hm, rfl⟩ := hm
    split at hk
    · cases hk
    · next hkn =>
      rw [if_neg hkn]
      exact hg.up_ne_nil hm hk
  branch_eq {k m e} hm he := by
    rw [getElem?_nodes_place, Option.map_eq_some_iff] at hm
    obtain ⟨m', hm, rfl⟩ := hm
    have hb := hg.branch_eq hm (by split at he <;> exact he)
    split <;> exact hb

theorem Named.addNode_place (hg : g.Named) (c : CommitId) (b : BranchId) :
    ((g.addNode c b).place g.nodes.size).Named where
  up_ne_nil {k m} hm hk := by
    rw [getElem?_nodes_place, Option.map_eq_some_iff] at hm
    obtain ⟨m', hm, rfl⟩ := hm
    split at hk
    · cases hk
    · next hkn =>
      rw [getElem?_nodes_addNode, if_neg hkn] at hm
      rw [if_neg hkn]
      exact hg.up_ne_nil hm hk
  branch_eq {k m e} hm he := by
    rw [getElem?_nodes_place, Option.map_eq_some_iff] at hm
    obtain ⟨m', hm, rfl⟩ := hm
    rw [getElem?_nodes_addNode] at hm
    split at hm
    · next hkn =>
      cases hm
      simp [hkn] at he
    · next hkn =>
      rw [if_neg hkn] at he ⊢
      exact hg.branch_eq hm he

theorem Grown.connect {c p : CommitId} {ps : List CommitId} {t : Int} {u : NodeId} {b : BranchId}
    (hg : g.Grown (cs ++ [⟨c, ps, t⟩])) (hu : g.isPlaced u) (hr : g.rowOf u = cs.length)
    (hh : g.connect c u b p = .ok h) : h.Grown (cs ++ [⟨c, ps ++ [p], t⟩]) := by
  obtain ⟨l, hl, hw, rfl⟩ | ⟨hp, rfl⟩ := connect_eq_ok hh
  · obtain ⟨m, hm, hc⟩ := commit_of_nodeOf? hl
    exact ⟨hg.toWired.addEdge hu (Array.getElem?_eq_some_iff.mp hm).1 hw b,
      hg.toNamed.addEdge hw u b, hg.toTells.addEdge hg.toWired hu hr hm hc b⟩
  · have hnew : (g.addNode p b).nodes[g.nodes.size]? = some ⟨p, b, .unloaded, 0, [], []⟩ := by
      rw [getElem?_nodes_addNode, if_pos rfl]
    have hwired := hg.toWired.addNode hp b
    have hu' : (g.addNode p b).isPlaced u := by rw [isPlaced_addNode, hu]
    have hr' : (g.addNode p b).rowOf u = cs.length := by rw [rowOf_addNode, hr]
    have hw : (g.addNode p b).isPlaced g.nodes.size = false := by simp [isPlaced, hnew]
    exact ⟨hwired.addEdge hu' (Array.getElem?_eq_some_iff.mp hnew).1 hw b,
      hg.toNamed.addNode_addEdge p u b,
      (hg.toTells.addNode p b).addEdge hwired hu' hr' hnew rfl b⟩

theorem Grown.addBranch (hg : g.Grown cs) (b : Branch) : (g.addBranch b).Grown cs :=
  ⟨hg.toWired.addBranch b, ⟨hg.up_ne_nil, hg.branch_eq⟩, ⟨hg.rows_size, hg.commit_of_placed⟩⟩

theorem isPlaced_connect {c p : CommitId} {u : NodeId} {b : BranchId}
    (hh : g.connect c u b p = .ok h) (k : NodeId) : h.isPlaced k = g.isPlaced k := by
  obtain ⟨l, -, -, rfl⟩ | ⟨-, rfl⟩ := connect_eq_ok hh
  · rw [isPlaced_addEdge]
  · rw [isPlaced_addEdge, isPlaced_addNode]

theorem rowOf_connect {c p : CommitId} {u : NodeId} {b : BranchId}
    (hh : g.connect c u b p = .ok h) (k : NodeId) : h.rowOf k = g.rowOf k := by
  obtain ⟨l, -, -, rfl⟩ | ⟨-, rfl⟩ := connect_eq_ok hh
  · rw [rowOf_addEdge]
  · rw [rowOf_addEdge, rowOf_addNode]

theorem claim_eq_ok {references : List Reference} {c : CommitId} {n : NodeId}
    (hh : g.claim references c = .ok (n, h)) :
    g.nodeOf? c = some n ∧ g.isPlaced n = false ∧ h = g ∨
      g.nodeOf? c = none ∧ n = g.nodes.size ∧
        h = (g.addBranch (.ofHead c (referencesOn references c))).addNode c g.branches.size := by
  unfold claim at hh
  split at hh
  · next k hk =>
    split at hh
    · cases hh
    · next hp =>
      cases hh
      exact .inl ⟨hk, by simpa using hp, rfl⟩
  · next hc =>
    cases hh
    exact .inr ⟨hc, rfl, rfl⟩

theorem Grown.claim_isOk (hg : g.Grown cs) (references : List Reference) {c : CommitId}
    (hc : c ∉ cs.map (·.id)) : ∃ n h, g.claim references c = .ok (n, h) := by
  unfold claim
  split
  · next n hn =>
    have hw : g.isPlaced n = false := by
      by_contra hw
      exact hc (hg.placed_iff.mp ⟨n, hn, by simpa using hw⟩)
    exact ⟨n, g, by rw [hw]; rfl⟩
  · exact ⟨_, _, rfl⟩

theorem Grown.claim_eq_error (hg : g.Grown cs) (references : List Reference) {c : CommitId}
    (hc : c ∈ cs.map (·.id)) : g.claim references c = .error (.duplicate c) := by
  obtain ⟨n, hn, hp⟩ := hg.placed_iff.mpr hc
  simp [claim, hn, hp]

theorem Grown.place_claim (hg : g.Grown cs) {references : List Reference} {c : CommitId}
    {n : NodeId} (hh : g.claim references c = .ok (n, h)) (t : Int) :
    (h.place n).Grown (cs ++ [⟨c, [], t⟩]) ∧ (h.place n).isPlaced n ∧
      (h.place n).rowOf n = cs.length := by
  obtain ⟨hn, hp, rfl⟩ | ⟨hc, rfl, rfl⟩ := claim_eq_ok hh
  · obtain ⟨m, hm, rfl⟩ := commit_of_nodeOf? hn
    have hlt := (Array.getElem?_eq_some_iff.mp hm).1
    have hk := (isPlaced_eq_false_iff hm).mp hp
    refine ⟨⟨hg.toWired.place hlt hp, hg.toNamed.place n, hg.toTells.place hg.toWired hm hk rfl t⟩,
      ?_, ?_⟩
    · simp [isPlaced_place hlt]
    · rw [rowOf_place hlt, if_pos rfl, hg.rows_size]
  · have hb := hg.addBranch (.ofHead c (referencesOn references c))
    have hnew := getElem?_nodes_addNode (g.addBranch (.ofHead c (referencesOn references c))) c
      g.branches.size g.nodes.size
    rw [if_pos (by rfl)] at hnew
    have hlt := (Array.getElem?_eq_some_iff.mp hnew).1
    have hwired := hb.toWired.addNode hc g.branches.size
    refine ⟨⟨hwired.place hlt (by simp [isPlaced, hnew]), hb.toNamed.addNode_place c _,
      (hb.toTells.addNode c _).place hwired hnew rfl rfl t⟩, ?_, ?_⟩
    · simp [isPlaced_place hlt]
    · rw [rowOf_place hlt, if_pos rfl]
      exact hg.rows_size

/-- If the node has one parent, the edge there is on the node's own branch. -/
def PassesBranch (g : Graph) (n : NodeId) : Prop :=
  ∀ (m : Node) (e : EdgeId), g.nodes[n]? = some m → m.down = [e] →
    g.edges[e]?.map (·.branch) = some m.branch

theorem node_connect {c p : CommitId} {u n : NodeId} {b : BranchId} {m' : Node}
    (hh : g.connect c u b p = .ok h) (hm : h.nodes[n]? = some m') :
    (∃ m, g.nodes[n]? = some m ∧ m'.branch = m.branch ∧
      m'.down = m.down ++ if n = u then [g.edges.size] else []) ∨
    n = g.nodes.size ∧ m'.down = if n = u then [g.edges.size] else [] := by
  obtain ⟨l, -, -, rfl⟩ | ⟨-, rfl⟩ := connect_eq_ok hh
  · rw [getElem?_nodes_addEdge, Option.map_eq_some_iff] at hm
    obtain ⟨m, hm, rfl⟩ := hm
    exact .inl ⟨m, hm, rfl, rfl⟩
  · rw [getElem?_nodes_addEdge, Option.map_eq_some_iff] at hm
    obtain ⟨m, hm, rfl⟩ := hm
    rw [getElem?_nodes_addNode] at hm
    split at hm
    · next hn =>
      cases hm
      exact .inr ⟨hn, rfl⟩
    · exact .inl ⟨m, hm, rfl, rfl⟩

theorem edges_connect {c p : CommitId} {u : NodeId} {b : BranchId}
    (hh : g.connect c u b p = .ok h) (e : EdgeId) :
    h.edges[e]?.map (·.branch) =
      if e = g.edges.size then some b else g.edges[e]?.map (·.branch) := by
  obtain ⟨l, -, -, rfl⟩ | ⟨-, rfl⟩ := connect_eq_ok hh
  all_goals
    rw [getElem?_edges_addEdge]
    by_cases he : e = g.edges.size <;> simp [he, Graph.addNode]

theorem PassesBranch.connect {c p : CommitId} {u n : NodeId} {b : BranchId} (hw : g.Wired)
    (hg : g.PassesBranch n) (hn : n ≠ u) (hh : g.connect c u b p = .ok h) : h.PassesBranch n := by
  intro m e hm he
  obtain ⟨m', hm', hb, hd⟩ | ⟨-, hd⟩ := node_connect hh hm
  · rw [if_neg hn, List.append_nil] at hd
    have hlt : e < g.edges.size := by
      have he' : e ∈ g.edgesFrom n := by
        rw [← hw.down_eq hm', ← hd, he]
        exact List.mem_singleton_self e
      obtain ⟨d, hd, -⟩ := mem_edgesFrom.mp he'
      exact (Array.getElem?_eq_some_iff.mp hd).1
    rw [edges_connect hh, if_neg (Nat.ne_of_lt hlt), hb]
    exact hg m' e hm' (hd ▸ he)
  · rw [if_neg hn] at hd
    simp [hd] at he

theorem PassesBranch.place {n : NodeId} (hg : g.PassesBranch n) (k : NodeId) :
    (g.place k).PassesBranch n := by
  intro m e hm he
  rw [getElem?_nodes_place, Option.map_eq_some_iff] at hm
  obtain ⟨m', hm, rfl⟩ := hm
  have hb := hg m' e hm (by split at he <;> exact he)
  split <;> exact hb

theorem PassesBranch.claim {references : List Reference} {c : CommitId} {k n : NodeId}
    (hg : g.PassesBranch n) (hh : g.claim references c = .ok (k, h)) : h.PassesBranch n := by
  obtain ⟨-, -, rfl⟩ | ⟨-, -, rfl⟩ := claim_eq_ok hh
  · exact hg
  · intro m e hm he
    rw [getElem?_nodes_addNode] at hm
    split at hm
    · cases hm
      cases he
    · exact hg m e hm he

theorem Grown.connectMerge {references : List Reference} {c : CommitId} {u : NodeId}
    {head : Option CommitId} {t : Int} {ps qs : List CommitId} (hg : g.Grown (cs ++ [⟨c, qs, t⟩]))
    (hu : g.isPlaced u) (hr : g.rowOf u = cs.length) (hs : ∀ n, n ≠ u → g.PassesBranch n)
    (hh : connectMerge references c u head g ps = .ok h) :
    h.Grown (cs ++ [⟨c, qs ++ ps, t⟩]) ∧ (∀ n, n ≠ u → h.PassesBranch n) ∧ h.isPlaced u ∧
      h.rowOf u = cs.length := by
  -- The node in the last row has got its first parents; the others pass their branches on.
  induction ps generalizing g qs with
  | nil =>
    cases hh
    rw [List.append_nil]
    exact ⟨hg, hs, hu, hr⟩
  | cons p ps ih =>
    simp only [Graph.connectMerge] at hh
    obtain ⟨k, hk, hh⟩ := bind_eq_ok.mp hh
    have hg' := hg.addBranch (.ofMerge c p (referencesOn references c) head)
    have hnext := ih (hg'.connect hu hr hk) (by rw [isPlaced_connect hk]; exact hu)
      (by rw [rowOf_connect hk]; exact hr)
      (fun n hn => PassesBranch.connect hg'.toWired (hs n hn) hn hk) hh
    rwa [List.append_assoc] at hnext

theorem Grown.connectMerge_isOk_iff {references : List Reference} {c : CommitId} {u : NodeId}
    {head : Option CommitId} {t : Int} {ps qs : List CommitId} (hg : g.Grown (cs ++ [⟨c, qs, t⟩]))
    (hu : g.isPlaced u) (hr : g.rowOf u = cs.length) :
    (∃ h, Graph.connectMerge references c u head g ps = .ok h) ↔
      ∀ p ∈ ps, p ∉ cs.map (·.id) ++ [c] := by
  induction ps generalizing g qs with
  | nil => simp [Graph.connectMerge]
  | cons p ps ih =>
    have hids : (cs ++ [(⟨c, qs, t⟩ : Commit)]).map (·.id) = cs.map (·.id) ++ [c] := by simp
    have hg' := hg.addBranch (.ofMerge c p (referencesOn references c) head)
    rw [List.forall_mem_cons, Graph.connectMerge]
    by_cases hp : p ∈ cs.map (·.id) ++ [c]
    · simp [hg'.connect_eq_error c u g.branches.size (hids ▸ hp), bind, Except.bind, hp]
    · obtain ⟨k, hk⟩ := hg'.connect_isOk c u g.branches.size (hids ▸ hp)
      have hnext := ih (hg'.connect hu hr hk) (by rw [isPlaced_connect hk]; exact hu)
        (by rw [rowOf_connect hk]; exact hr)
      simpa [hk, bind, Except.bind, hp] using hnext

end CommitGraph.Graph
