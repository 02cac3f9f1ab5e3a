import CommitGraph.Proofs.Graph.Growth

namespace CommitGraph

/-- No commit occurs twice, and none lists itself or an earlier one as a parent. -/
def ChildrenFirst (cs : List Commit) : Prop :=
  cs.Pairwise (fun c d => c.id ≠ d.id ∧ c.id ∉ d.parents) ∧ ∀ c ∈ cs, c.id ∉ c.parents

theorem childrenFirst_concat {cs : List Commit} {c : Commit} :
    ChildrenFirst (cs ++ [c]) ↔
      ChildrenFirst cs ∧ c.id ∉ cs.map (·.id) ∧ ∀ p ∈ c.parents, p ∉ (cs ++ [c]).map (·.id) := by
  simp only [ChildrenFirst, List.pairwise_append, List.pairwise_singleton, List.mem_singleton,
    List.mem_append, List.mem_map, List.map_append, List.map_cons, List.map_nil]
  grind

theorem ChildrenFirst.sublist {cs ds : List Commit} (h : ChildrenFirst ds) (hs : cs.Sublist ds) :
    ChildrenFirst cs :=
  ⟨h.1.sublist hs, fun c hc => h.2 c (hs.subset hc)⟩

namespace Graph

variable {g h : Graph} {cs ds : List Commit} {references : List Reference}

/-- A finished graph: each edge is listed at both of its ends and leads from a placed node to a
lower row, and each placed node has a row of its own. -/
structure Sound (g : Graph) : Prop extends g.Named where
  node_unique : ∀ {i j : NodeId} {m m' : Node}, g.nodes[i]? = some m → g.nodes[j]? = some m' →
    m.commit = m'.commit → i = j
  down_eq : ∀ {n : NodeId} {m : Node}, g.nodes[n]? = some m → m.down = g.edgesFrom n
  up_eq : ∀ {n : NodeId} {m : Node}, g.nodes[n]? = some m → m.up = g.edgesInto n
  upper_placed : ∀ {e : EdgeId} {d : Edge}, g.edges[e]? = some d → g.isPlaced d.upper
  lower_lt : ∀ {e : EdgeId} {d : Edge}, g.edges[e]? = some d → d.lower < g.nodes.size
  row_lt_row : ∀ {e : EdgeId} {d : Edge}, g.edges[e]? = some d → g.rowOf d.upper < g.rowOf d.lower
  mem_nodesInRow : ∀ {n : NodeId} {r : Nat},
    n ∈ g.nodesInRow r ↔ ∃ m, g.nodes[n]? = some m ∧ m.row = r
  nodup_nodesInRow : ∀ r, (g.nodesInRow r).Nodup
  nodesInRow_ne_nil : ∀ {r : Nat}, r < g.rows.size → g.nodesInRow r ≠ []
  nodesInRow_eq : ∀ {n : NodeId} {m : Node}, g.nodes[n]? = some m → m.kind = .loaded →
    g.nodesInRow m.row = [n]
  passesBranch : ∀ n, g.PassesBranch n

/-- The placed nodes stand for the commits, row by row, with edges to their parents in order. The
other nodes stand for parents outside the history, below all rows of commits. -/
structure Depicts (g : Graph) (cs : List Commit) : Prop extends g.Sound where
  commit_of_placed : ∀ {n : NodeId} {m : Node}, g.nodes[n]? = some m → m.kind = .loaded →
    ∃ c, cs[m.row]? = some c ∧ m.commit = c.id ∧ List.Forall₂ g.LeadsTo m.down c.parents
  placed_of_commit : ∀ {i : Nat} {c : Commit}, cs[i]? = some c →
    ∃ (n : NodeId) (m : Node), g.nodes[n]? = some m ∧ m.kind = .loaded ∧ m.row = i ∧ m.commit = c.id
  waiting_row : ∀ {n : NodeId} {m : Node}, g.nodes[n]? = some m → m.kind = .unloaded →
    m.row = cs.length ∧ m.commit ∉ cs.map (·.id)

theorem Sound.mem_down (hg : g.Sound) {n : NodeId} {m : Node} (hm : g.nodes[n]? = some m)
    {e : EdgeId} : e ∈ m.down ↔ ∃ d, g.edges[e]? = some d ∧ d.upper = n := by
  rw [hg.down_eq hm, mem_edgesFrom]

theorem Sound.mem_up (hg : g.Sound) {n : NodeId} {m : Node} (hm : g.nodes[n]? = some m)
    {e : EdgeId} : e ∈ m.up ↔ ∃ d, g.edges[e]? = some d ∧ d.lower = n := by
  rw [hg.up_eq hm, mem_edgesInto]

theorem Sound.nodup_down (hg : g.Sound) {n : NodeId} {m : Node} (hm : g.nodes[n]? = some m) :
    m.down.Nodup := by
  rw [hg.down_eq hm]
  exact List.nodup_range.filter _

theorem Sound.exists_upper (hg : g.Sound) {e : EdgeId} {d : Edge} (hd : g.edges[e]? = some d) :
    ∃ m, g.nodes[d.upper]? = some m ∧ m.kind = .loaded :=
  isPlaced_iff.mp (hg.upper_placed hd)

theorem Sound.down_eq_nil (hg : g.Sound) {n : NodeId} {m : Node} (hm : g.nodes[n]? = some m)
    (hk : m.kind = .unloaded) : m.down = [] := by
  rw [hg.down_eq hm]
  exact edgesFrom_eq_nil hg.upper_placed ((isPlaced_eq_false_iff hm).mpr hk)

theorem Sound.nodeOf?_commit (hg : g.Sound) {n : NodeId} {m : Node}
    (hm : g.nodes[n]? = some m) : g.nodeOf? m.commit = some n := by
  cases hn : g.nodeOf? m.commit with
  | none => exact absurd rfl (nodeOf?_eq_none.mp hn n m hm)
  | some k =>
    obtain ⟨mk, hmk, hc⟩ := commit_of_nodeOf? hn
    rw [hg.node_unique hmk hm hc]

theorem Sound.exists_of_row (hg : g.Sound) {r : Nat} (hr : r < g.rows.size) :
    ∃ (n : NodeId) (m : Node), g.nodes[n]? = some m ∧ m.row = r := by
  obtain ⟨n, ns, hns⟩ := List.exists_cons_of_ne_nil (hg.nodesInRow_ne_nil hr)
  obtain ⟨m, hm, hmr⟩ := hg.mem_nodesInRow.mp (hns ▸ List.mem_cons_self)
  exact ⟨n, m, hm, hmr⟩

theorem Sound.edge_place (hg : g.Sound) {n k : NodeId} {m mk : Node} {e : EdgeId}
    {i j : Nat} (hm : g.nodes[n]? = some m) (hmk : g.nodes[k]? = some mk) (hi : m.down[i]? = some e)
    (hj : mk.down[j]? = some e) : n = k ∧ i = j := by
  obtain ⟨d, hd, hn⟩ := (hg.mem_down hm).mp (List.mem_of_getElem? hi)
  obtain ⟨d', hd', hk⟩ := (hg.mem_down hmk).mp (List.mem_of_getElem? hj)
  cases hd.symm.trans hd'
  obtain rfl : n = k := hn.symm.trans hk
  cases hm.symm.trans hmk
  have hlt := (List.getElem?_eq_some_iff.mp hi).1
  exact ⟨rfl, (List.getElem?_inj hlt (hg.nodup_down hm)).mp (hi.trans hj.symm)⟩

theorem Grown.length_down_last {c : Commit} {u : NodeId} {m : Node} (hg : g.Grown (cs ++ [c]))
    (hu : g.isPlaced u) (hr : g.rowOf u = cs.length) (hm : g.nodes[u]? = some m) :
    m.down.length = c.parents.length := by
  obtain ⟨m', hm', hk⟩ := isPlaced_iff.mp hu
  cases hm.symm.trans hm'
  obtain ⟨d, hd, -, hps⟩ := hg.commit_of_placed hm hk
  rw [← rowOf_eq hm, hr, List.getElem?_concat_length] at hd
  cases hd
  exact hps.length_eq

theorem Grown.append {c : Commit} (hg : g.Grown cs) (hs : ∀ n, g.PassesBranch n)
    (hh : g.append references c = .ok h) : h.Grown (cs ++ [c]) ∧ ∀ n, h.PassesBranch n := by
  unfold Graph.append at hh
  obtain ⟨⟨u, k⟩, hk, hh⟩ := bind_eq_ok.mp hh
  obtain ⟨hplace, hu, hr⟩ := hg.place_claim hk c.time
  have hpass : ∀ n, (k.place u).PassesBranch n := fun n => ((hs n).claim hk).place u
  dsimp only at hh
  split at hh
  · next p hp =>
    have hgrown := hplace.connect hu hr hh
    rw [List.nil_append, ← hp] at hgrown
    refine ⟨hgrown, fun n => ?_⟩
    by_cases hn : n = u
    · subst hn
      intro m e hm he
      obtain ⟨m', hm', hb, hd⟩ | ⟨hn, -⟩ := node_connect hh hm
      · -- The edge is the node's first, on the branch read off the node.
        have hnil : m'.down = [] := List.length_eq_zero_iff.mp (hplace.length_down_last hu hr hm')
        rw [he, hnil, if_pos rfl, List.nil_append, List.singleton_inj] at hd
        rw [edges_connect hh, if_pos hd, hb, hm']
        rfl
      · obtain ⟨m', hm', -⟩ := isPlaced_iff.mp hu
        exact absurd hn (Nat.ne_of_lt (Array.getElem?_eq_some_iff.mp hm').1)
    · exact (hpass n).connect hplace.toWired hn hh
  · next hps =>
    obtain ⟨hgrown, hothers, hplaced, hrow⟩ := hplace.connectMerge hu hr (fun n _ => hpass n) hh
    rw [List.nil_append] at hgrown
    refine ⟨hgrown, fun n => ?_⟩
    by_cases hn : n = u
    · intro m e hm he
      -- A node with one edge down would be the node of a commit with one parent.
      have hlen := hgrown.length_down_last (hn ▸ hplaced) (hn ▸ hrow) hm
      rw [he] at hlen
      obtain ⟨p, hp⟩ := List.length_eq_one_iff.mp hlen.symm
      exact absurd hp (hps p)
    · exact hothers n hn

theorem Grown.append_isOk_iff (hg : g.Grown cs) (references : List Reference) (c : Commit) :
    (∃ h, g.append references c = .ok h) ↔
      c.id ∉ cs.map (·.id) ∧ ∀ p ∈ c.parents, p ∉ (cs ++ [c]).map (·.id) := by
  have hids : (cs ++ [c]).map (·.id) = cs.map (·.id) ++ [c.id] := by simp
  rw [hids]
  by_cases hc : c.id ∈ cs.map (·.id)
  · simp [Graph.append, hg.claim_eq_error references hc, bind, Except.bind, hc]
  · obtain ⟨u, k, hk⟩ := hg.claim_isOk references hc
    obtain ⟨hplace, hu, hr⟩ := hg.place_claim hk c.time
    have hlast : (cs ++ [(⟨c.id, [], c.time⟩ : Commit)]).map (·.id) = cs.map (·.id) ++ [c.id] := by
      simp
    simp only [Graph.append, hk, bind, Except.bind, hc, not_false_eq_true, true_and]
    split
    · next p hp =>
      rw [hp, List.forall_mem_singleton]
      constructor
      · rintro ⟨h, hh⟩ hmem
        rw [hplace.connect_eq_error _ _ _ (hlast ▸ hmem)] at hh
        cases hh
      · exact fun hmem => hplace.connect_isOk _ _ _ (hlast ▸ hmem)
    · exact hplace.connectMerge_isOk_iff hu hr

theorem Grown.foldlM (hg : g.Grown cs) (hs : ∀ n, g.PassesBranch n)
    (hh : ds.foldlM (Graph.append references) g = .ok h) :
    h.Grown (cs ++ ds) ∧ ∀ n, h.PassesBranch n := by
  induction ds generalizing g cs with
  | nil =>
    cases hh
    rw [List.append_nil]
    exact ⟨hg, hs⟩
  | cons d ds ih =>
    obtain ⟨k, hk, hh⟩ := bind_eq_ok.mp hh
    obtain ⟨hgrown, hpass⟩ := hg.append hs hk
    have hnext := ih hgrown hpass hh
    rwa [List.append_assoc] at hnext

theorem Grown.foldlM_isOk_iff (hg : g.Grown cs) (hs : ∀ n, g.PassesBranch n)
    (ho : ChildrenFirst cs) (references : List Reference) :
    (∃ h, ds.foldlM (Graph.append references) g = .ok h) ↔ ChildrenFirst (cs ++ ds) := by
  induction ds generalizing g cs with
  | nil => simp [pure, Except.pure, ho]
  | cons d ds ih =>
    have hprefix : (cs ++ [d]).Sublist (cs ++ d :: ds) := by simp
    have happend := hg.append_isOk_iff references d
    rw [List.foldlM_cons]
    by_cases hd : ∃ h, g.append references d = .ok h
    · have hcons := childrenFirst_concat.mpr ⟨ho, happend.mp hd⟩
      obtain ⟨k, hk⟩ := hd
      obtain ⟨hgrown, hpass⟩ := hg.append hs hk
      have hnext := ih hgrown hpass hcons
      rw [List.append_assoc] at hnext
      simpa [hk, bind, Except.bind] using hnext
    · -- A commit that is refused ends the run, and no longer history mends its order.
      constructor
      · rintro ⟨h, hh⟩
        obtain ⟨k, hk, -⟩ := bind_eq_ok.mp hh
        exact absurd ⟨k, hk⟩ hd
      · intro hall
        have hcons := childrenFirst_concat.mp (hall.sublist hprefix)
        exact absurd (happend.mpr hcons.2) hd

theorem mem_waiting {n : NodeId} :
    n ∈ g.waiting ↔ ∃ m, g.nodes[n]? = some m ∧ m.kind = .unloaded := by
  rw [waiting, List.mem_filter, List.mem_range, Bool.not_eq_true']
  constructor
  · rintro ⟨hn, hp⟩
    have hm := Array.getElem?_eq_getElem hn
    exact ⟨_, hm, (isPlaced_eq_false_iff hm).mp hp⟩
  · rintro ⟨m, hm, hk⟩
    exact ⟨(Array.getElem?_eq_some_iff.mp hm).1, (isPlaced_eq_false_iff hm).mpr hk⟩

theorem getElem?_nodes_finish (g : Graph) (n : NodeId) :
    g.finish.nodes[n]? = g.nodes[n]?.map fun m =>
      if m.kind = .unloaded then { m with row := g.rows.size } else m := by
  unfold finish
  split
  · next hw =>
    cases hm : g.nodes[n]? with
    | none => rfl
    | some m =>
      have hk : m.kind ≠ .unloaded := by
        intro hk
        have := mem_waiting.mpr ⟨m, hm, hk⟩
        simp [hw] at this
      simp [hk]
  · rw [Array.getElem?_map]

@[simp] theorem edges_finish (g : Graph) : g.finish.edges = g.edges := by
  unfold finish
  split <;> rfl

theorem nodesInRow_finish (g : Graph) (r : Nat) :
    g.finish.nodesInRow r = if r = g.rows.size then g.waiting else g.nodesInRow r := by
  unfold finish nodesInRow
  split
  · next hw =>
    split
    · next hr => simp [hr, hw]
    · rfl
  · next hw =>
    rw [Array.getElem?_push]
    split <;> rfl

theorem size_rows_finish_le (g : Graph) : g.finish.rows.size ≤ g.rows.size + 1 := by
  unfold finish
  split <;> simp

@[simp] theorem isPlaced_finish (g : Graph) (n : NodeId) : g.finish.isPlaced n = g.isPlaced n := by
  rw [isPlaced, getElem?_nodes_finish, Option.any_map, isPlaced]
  congr 1
  funext m
  cases hk : m.kind <;> simp [hk]

theorem rowOf_finish {n : NodeId} (hn : n < g.nodes.size) :
    g.finish.rowOf n = if g.isPlaced n then g.rowOf n else g.rows.size := by
  rw [rowOf, getElem?_nodes_finish, rowOf, isPlaced, Array.getElem?_eq_getElem hn]
  cases hk : g.nodes[n].kind <;> simp [hk]

theorem node_finish {n : NodeId} {m' : Node} (hm : g.finish.nodes[n]? = some m') :
    ∃ m, g.nodes[n]? = some m ∧ m'.commit = m.commit ∧ m'.branch = m.branch ∧ m'.kind = m.kind ∧
      m'.up = m.up ∧ m'.down = m.down ∧
      m'.row = if m.kind = .unloaded then g.rows.size else m.row := by
  rw [getElem?_nodes_finish, Option.map_eq_some_iff] at hm
  obtain ⟨m, hm, rfl⟩ := hm
  refine ⟨m, hm, ?_⟩
  split <;> simp

@[simp] theorem edgesWhere_finish (g : Graph) (q : Edge → Bool) :
    g.finish.edgesWhere q = g.edgesWhere q := by
  rw [edgesWhere, edges_finish, edgesWhere]

theorem leadsTo_finish {e : EdgeId} {c : CommitId} (he : g.LeadsTo e c) : g.finish.LeadsTo e c := by
  obtain ⟨d, m, hd, hm, hc⟩ := he
  have hm' := getElem?_nodes_finish g d.lower
  rw [hm, Option.map_some] at hm'
  refine ⟨d, _, by rw [edges_finish, hd], hm', ?_⟩
  split <;> exact hc

theorem Wired.row_lt_size (hg : g.Wired) {n : NodeId} (hn : g.isPlaced n) :
    g.rowOf n < g.rows.size := by
  obtain ⟨m, hm, hk⟩ := isPlaced_iff.mp hn
  rw [rowOf_eq hm]
  exact (Array.getElem?_eq_some_iff.mp (hg.row_of_placed hm hk)).1

theorem Wired.nodesInRow_eq (hg : g.Wired) {n : NodeId} {m : Node} (hm : g.nodes[n]? = some m)
    (hk : m.kind = .loaded) : g.nodesInRow m.row = [n] := by
  rw [nodesInRow, hg.row_of_placed hm hk]
  rfl

theorem Wired.mem_nodesInRow (hg : g.Wired) {n : NodeId} {r : Nat} :
    n ∈ g.nodesInRow r ↔ ∃ m, g.nodes[n]? = some m ∧ m.kind = .loaded ∧ m.row = r := by
  constructor
  · intro hn
    rw [nodesInRow] at hn
    cases hr : g.rows[r]? with
    | none => simp [hr] at hn
    | some ns =>
      obtain ⟨k, m, rfl, hm, hk⟩ := hg.placed_of_row hr
      rw [hr, Option.getD_some, List.mem_singleton] at hn
      exact ⟨m, hn ▸ hm, hk⟩
  · rintro ⟨m, hm, hk, rfl⟩
    simp [hg.nodesInRow_eq hm hk]

theorem Wired.nodup_nodesInRow (hg : g.Wired) (r : Nat) : (g.nodesInRow r).Nodup := by
  rw [nodesInRow]
  cases hr : g.rows[r]? with
  | none => exact List.nodup_nil
  | some ns =>
    obtain ⟨k, m, rfl, -⟩ := hg.placed_of_row hr
    exact List.pairwise_singleton _ k

theorem Wired.nodesInRow_ne_nil (hg : g.Wired) {r : Nat} (hr : r < g.rows.size) :
    g.nodesInRow r ≠ [] := by
  obtain ⟨k, m, hk, -⟩ := hg.placed_of_row (Array.getElem?_eq_getElem hr)
  rw [nodesInRow, Array.getElem?_eq_getElem hr, Option.getD_some, hk]
  exact List.cons_ne_nil k []

theorem Wired.mem_nodesInRow_finish (hg : g.Wired) {n : NodeId} {r : Nat} :
    n ∈ g.finish.nodesInRow r ↔
      ∃ m, g.nodes[n]? = some m ∧ (if m.kind = .unloaded then g.rows.size else m.row) = r := by
  rw [nodesInRow_finish]
  split
  · next hr =>
    rw [mem_waiting]
    constructor
    · rintro ⟨m, hm, hk⟩
      exact ⟨m, hm, by rw [if_pos hk, hr]⟩
    · rintro ⟨m, hm, hrow⟩
      refine ⟨m, hm, ?_⟩
      by_contra hk
      rw [if_neg hk, hr, ← rowOf_eq hm] at hrow
      have hlt := hg.row_lt_size (isPlaced_iff.mpr ⟨m, hm, kind_eq_loaded hk⟩)
      omega
  · next hr =>
    rw [hg.mem_nodesInRow]
    constructor
    · rintro ⟨m, hm, hk, hmr⟩
      exact ⟨m, hm, by rw [if_neg (by simp [hk]), hmr]⟩
    · rintro ⟨m, hm, hrow⟩
      split at hrow
      · exact absurd hrow.symm hr
      · next hk => exact ⟨m, hm, kind_eq_loaded hk, hrow⟩

theorem Grown.sound_finish (hg : g.Grown cs) (hs : ∀ n, g.PassesBranch n) : g.finish.Sound where
  up_ne_nil hm' hk := by
    obtain ⟨m, hm, -, -, hkind, hup, -⟩ := node_finish hm'
    rw [hup]
    exact hg.up_ne_nil hm (hkind ▸ hk)
  branch_eq hm' he := by
    obtain ⟨m, hm, -, hbranch, -, hup, -⟩ := node_finish hm'
    rw [edges_finish, hbranch]
    exact hg.branch_eq hm (hup ▸ he)
  node_unique hi hj hc := by
    obtain ⟨m, hm, hmc, -⟩ := node_finish hi
    obtain ⟨k, hk, hkc, -⟩ := node_finish hj
    exact hg.node_unique hm hk (by rw [← hmc, hc, hkc])
  down_eq hm' := by
    obtain ⟨m, hm, -, -, -, -, hdown, -⟩ := node_finish hm'
    rw [hdown, hg.down_eq hm, edgesFrom, edgesFrom, edgesWhere_finish]
  up_eq hm' := by
    obtain ⟨m, hm, -, -, -, hup, -⟩ := node_finish hm'
    rw [hup, hg.up_eq hm, edgesInto, edgesInto, edgesWhere_finish]
  upper_placed hd := by
    rw [edges_finish] at hd
    rw [isPlaced_finish]
    exact hg.upper_placed hd
  lower_lt {e d} hd := by
    rw [edges_finish] at hd
    have hm := getElem?_nodes_finish g d.lower
    rw [Array.getElem?_eq_getElem (hg.lower_lt hd), Option.map_some] at hm
    exact (Array.getElem?_eq_some_iff.mp hm).1
  -- Only waiting nodes change their row, and no edge leaves them.
  row_lt_row {e d} hd := by
    rw [edges_finish] at hd
    have hup := hg.upper_placed hd
    rw [rowOf_finish (lt_size_of_isPlaced hup), if_pos hup, rowOf_finish (hg.lower_lt hd)]
    split
    · next hl => exact hg.row_lt_row hd hl
    · exact hg.row_lt_size hup
  mem_nodesInRow {n r} := by
    rw [hg.mem_nodesInRow_finish]
    constructor
    · rintro ⟨m, hm, hrow⟩
      refine ⟨_, by rw [getElem?_nodes_finish, hm, Option.map_some], ?_⟩
      rw [← hrow]
      split <;> rfl
    · rintro ⟨m', hm', hr'⟩
      obtain ⟨m, hm, -, -, -, -, -, hrow⟩ := node_finish hm'
      exact ⟨m, hm, hrow.symm.trans hr'⟩
  nodup_nodesInRow r := by
    rw [nodesInRow_finish]
    split
    · exact List.nodup_range.filter _
    · exact hg.toWired.nodup_nodesInRow r
  nodesInRow_ne_nil {r} hr := by
    rw [nodesInRow_finish]
    split
    · next hlast =>
      intro hw
      rw [hlast] at hr
      simp [finish, hw] at hr
    · next hlast =>
      have hlt : r < g.rows.size := by
        have := g.size_rows_finish_le
        omega
      exact hg.toWired.nodesInRow_ne_nil hlt
  nodesInRow_eq hm' hk := by
    obtain ⟨m, hm, -, -, hkind, -, -, hrow⟩ := node_finish hm'
    rw [hkind] at hk
    rw [if_neg (by simp [hk])] at hrow
    have hlt := hg.row_lt_size (isPlaced_iff.mpr ⟨m, hm, hk⟩)
    rw [rowOf_eq hm] at hlt
    rw [hrow, nodesInRow_finish, if_neg (by omega), hg.nodesInRow_eq hm hk]
  passesBranch n m' e hm' he := by
    obtain ⟨m, hm, -, hbranch, -, -, hdown, -⟩ := node_finish hm'
    rw [edges_finish, hbranch]
    exact hs n m e hm (hdown ▸ he)

theorem Grown.depicts_finish (hg : g.Grown cs) (hs : ∀ n, g.PassesBranch n) :
    g.finish.Depicts cs where
  toSound := hg.sound_finish hs
  commit_of_placed hm' hk := by
    obtain ⟨m, hm, hcommit, -, hkind, -, hdown, hrow⟩ := node_finish hm'
    rw [hkind] at hk
    rw [if_neg (by simp [hk])] at hrow
    obtain ⟨c, hc, hid, hps⟩ := hg.commit_of_placed hm hk
    rw [hrow, hcommit, hdown]
    exact ⟨c, hc, hid, hps.imp fun _ _ h => leadsTo_finish h⟩
  placed_of_commit {i c} hc := by
    have hi : i < g.rows.size := hg.rows_size ▸ (List.getElem?_eq_some_iff.mp hc).1
    obtain ⟨n, m, -, hm, hk, hr⟩ := hg.placed_of_row (Array.getElem?_eq_getElem hi)
    obtain ⟨d, hd, hid, -⟩ := hg.commit_of_placed hm hk
    rw [hr, hc] at hd
    cases hd
    refine ⟨n, m, ?_, hk, hr, hid⟩
    rw [getElem?_nodes_finish, hm, Option.map_some, if_neg (by simp [hk])]
  waiting_row {n m'} hm' hk := by
    obtain ⟨m, hm, hcommit, -, hkind, -, -, hrow⟩ := node_finish hm'
    rw [hkind] at hk
    rw [if_pos hk, hg.rows_size] at hrow
    refine ⟨hrow, fun hmem => ?_⟩
    obtain ⟨k, hn, hp⟩ := hg.placed_iff.mpr hmem
    obtain ⟨mk, hmk, hc⟩ := commit_of_nodeOf? hn
    cases hg.node_unique hm hmk (by rw [← hcommit, hc])
    simp [isPlaced, hm, hk] at hp

theorem depicts_of_build (hb : build cs references = .ok g) : g.Depicts cs := by
  cases hf : cs.foldlM (append references) empty with
  | error e => simp [build, hf, Except.map] at hb
  | ok h =>
    obtain ⟨hgrown, hpass⟩ := Grown.empty.foldlM (by simp [PassesBranch, empty]) hf
    simp only [build, hf, Except.map, Except.ok.injEq] at hb
    exact hb ▸ hgrown.depicts_finish hpass

/-- The graph of a history exists exactly if the history lists children before their parents. -/
theorem exists_build_iff (cs : List Commit) (references : List Reference) :
    (∃ g, build cs references = .ok g) ↔ ChildrenFirst cs := by
  have hnil : ChildrenFirst [] := ⟨.nil, by simp⟩
  have hfold : (∃ h, cs.foldlM (append references) empty = .ok h) ↔ ChildrenFirst ([] ++ cs) :=
    Grown.empty.foldlM_isOk_iff (by simp [PassesBranch, empty]) hnil references
  rw [List.nil_append] at hfold
  rw [← hfold, build]
  cases cs.foldlM (append references) empty <;> simp [Except.map]

end Graph

end CommitGraph
