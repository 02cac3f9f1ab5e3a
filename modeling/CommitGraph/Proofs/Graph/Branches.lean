import CommitGraph.Proofs.Graph.Depiction

namespace CommitGraph.Graph

/-- The second graph has grown out of the first. Placed nodes get no further children. -/
structure Extends (g h : Graph) : Prop where
  branch : ∀ {b : BranchId} {r : Branch}, g.branches[b]? = some r → h.branches[b]? = some r
  edge : ∀ {e : EdgeId} {d : Edge}, g.edges[e]? = some d → h.edges[e]? = some d
  node : ∀ {n : NodeId} {m : Node}, g.nodes[n]? = some m → ∃ m', h.nodes[n]? = some m' ∧
    m'.commit = m.commit ∧ m'.branch = m.branch ∧
    (m.kind = .loaded → m'.kind = .loaded ∧ m'.up = m.up)

/-- How a branch comes about: at a head, or at a merge on the way to one of its parents. A merge
passes on the head of its own branch, which is an older one. -/
inductive Arises (g : Graph) (references : List Reference) (b : BranchId) : Branch → Prop
  | ofHead {n : NodeId} {m : Node} : g.nodes[n]? = some m → m.kind = .loaded → m.up = [] →
    Arises g references b (.ofHead m.commit (referencesOn references m.commit))
  | ofMerge {n : NodeId} {m : Node} {p : CommitId} {r : Branch} : g.nodes[n]? = some m →
    m.kind = .loaded → m.branch < b → g.branches[m.branch]? = some r →
    Arises g references b (.ofMerge m.commit p (referencesOn references m.commit) r.head)

/-- The edge is on a branch that leads from its upper commit to its lower one. -/
def IsFork (g : Graph) (e : EdgeId) : Prop :=
  ∃ d u l r, g.edges[e]? = some d ∧ g.nodes[d.upper]? = some u ∧ g.nodes[d.lower]? = some l ∧
    g.branches[d.branch]? = some r ∧ r.origin = u.commit ∧ r.parent = some l.commit

/-- Unless the node has one parent, each edge below it is on a branch of its own. -/
def Forks (g : Graph) (n : NodeId) : Prop :=
  ∀ m, g.nodes[n]? = some m → m.down.length ≠ 1 → ∀ e ∈ m.down, g.IsFork e

structure Branched (g : Graph) (references : List Reference) : Prop where
  branch_lt : ∀ {e : EdgeId} {d : Edge}, g.edges[e]? = some d → d.branch < g.branches.size
  /-- Edges below one node are on different branches. -/
  branch_ne : ∀ {e e' : EdgeId} {d d' : Edge}, g.edges[e]? = some d → g.edges[e']? = some d' →
    d.upper = d'.upper → e ≠ e' → d.branch ≠ d'.branch
  branch_of_head : ∀ {n : NodeId} {m : Node}, g.nodes[n]? = some m → m.up = [] →
    g.branches[m.branch]? = some (.ofHead m.commit (referencesOn references m.commit))
  arises : ∀ {b : BranchId} {r : Branch}, g.branches[b]? = some r → g.Arises references b r

variable {g h k : Graph} {cs ds : List Commit} {references : List Reference} {c p : CommitId}
  {n u : NodeId} {b : BranchId} {e : EdgeId} {r : Branch}

theorem Extends.refl (g : Graph) : g.Extends g :=
  ⟨id, id, fun {_ m} hm => ⟨m, hm, rfl, rfl, fun hk => ⟨hk, rfl⟩⟩⟩

theorem Extends.trans (hg : g.Extends h) (hh : h.Extends k) : g.Extends k where
  branch hr := hh.branch (hg.branch hr)
  edge hd := hh.edge (hg.edge hd)
  node hm := by
    obtain ⟨m', hm', hc, hb, hk⟩ := hg.node hm
    obtain ⟨m'', hm'', hc', hb', hk'⟩ := hh.node hm'
    refine ⟨m'', hm'', hc'.trans hc, hb'.trans hb, fun hloaded => ?_⟩
    obtain ⟨hloaded', hup⟩ := hk hloaded
    obtain ⟨hloaded'', hup'⟩ := hk' hloaded'
    exact ⟨hloaded'', hup'.trans hup⟩

theorem Arises.mono (hx : g.Extends h) (hr : g.Arises references b r) :
    h.Arises references b r := by
  cases hr with
  | ofHead hm hk hup =>
    obtain ⟨m', hm', hc, -, hlasts⟩ := hx.node hm
    obtain ⟨hk', hup'⟩ := hlasts hk
    rw [← hc]
    exact .ofHead hm' hk' (hup'.trans hup)
  | ofMerge hm hk hlt hr =>
    obtain ⟨m', hm', hc, hb, hlasts⟩ := hx.node hm
    rw [← hc]
    exact .ofMerge hm' (hlasts hk).1 (hb ▸ hlt) (hb ▸ hx.branch hr)

theorem IsFork.mono (hx : g.Extends h) (he : g.IsFork e) : h.IsFork e := by
  obtain ⟨d, mu, ml, r, hd, hmu, hml, hr, ho, hp⟩ := he
  obtain ⟨mu', hmu', hcu, -⟩ := hx.node hmu
  obtain ⟨ml', hml', hcl, -⟩ := hx.node hml
  exact ⟨d, mu', ml', r, hx.edge hd, hmu', hml', hx.branch hr, ho.trans hcu.symm, hcl ▸ hp⟩

theorem Forks.mono (hx : g.Extends h) (hg : g.Forks n)
    (hdown : ∀ m', h.nodes[n]? = some m' →
      m'.down = [] ∨ ∃ m, g.nodes[n]? = some m ∧ m'.down = m.down) : h.Forks n := by
  intro m' hm' hlen e he
  rcases hdown m' hm' with hnil | ⟨m, hm, hsame⟩
  · simp [hnil] at he
  · rw [hsame] at hlen he
    exact (hg m hm hlen e he).mono hx

theorem extends_addBranch (g : Graph) (r : Branch) : g.Extends (g.addBranch r) where
  branch {b _} hr := by
    have := (Array.getElem?_eq_some_iff.mp hr).1
    rw [addBranch, Array.getElem?_push_lt this, ← hr, Array.getElem?_eq_getElem this]
  edge := id
  node {_ m} hm := ⟨m, hm, rfl, rfl, fun hk => ⟨hk, rfl⟩⟩

theorem extends_addNode (g : Graph) (c : CommitId) (b : BranchId) : g.Extends (g.addNode c b) where
  branch := id
  edge := id
  node {n m} hm := by
    have := (Array.getElem?_eq_some_iff.mp hm).1
    refine ⟨m, ?_, rfl, rfl, fun hk => ⟨hk, rfl⟩⟩
    rw [getElem?_nodes_addNode, if_neg (Nat.ne_of_lt this), hm]

theorem extends_addEdge {l : NodeId} (hl : g.isPlaced l = false) (u : NodeId) (b : BranchId) :
    g.Extends (g.addEdge u l b) where
  branch := id
  edge {e d} hd := by
    have := (Array.getElem?_eq_some_iff.mp hd).1
    rw [getElem?_edges_addEdge, if_neg (Nat.ne_of_lt this), hd]
  node {n m} hm := by
    have hm' := getElem?_nodes_addEdge g u l b n
    rw [hm, Option.map_some] at hm'
    refine ⟨_, hm', rfl, rfl, fun hk => ⟨hk, ?_⟩⟩
    have hn : n ≠ l := by
      rintro rfl
      simp [isPlaced, hm, hk] at hl
    simp [hn]

theorem extends_place (g : Graph) (n : NodeId) : g.Extends (g.place n) where
  branch := id
  edge := id
  node {j m} hm := by
    have hm' := getElem?_nodes_place g n j
    rw [hm, Option.map_some] at hm'
    refine ⟨_, hm', ?_⟩
    split <;> simp

theorem extends_connect (hh : g.connect c u b p = .ok h) : g.Extends h := by
  obtain ⟨l, -, hw, rfl⟩ | ⟨-, rfl⟩ := connect_eq_ok hh
  · exact extends_addEdge hw u b
  · have hnew : (g.addNode p b).isPlaced g.nodes.size = false := by
      rw [isPlaced_addNode]
      simp [isPlaced]
    exact (extends_addNode g p b).trans (extends_addEdge hnew u b)

theorem extends_claim (hh : g.claim references c = .ok (n, h)) : g.Extends h := by
  obtain ⟨-, -, rfl⟩ | ⟨-, -, rfl⟩ := claim_eq_ok hh
  · exact .refl h
  · exact (extends_addBranch g _).trans (extends_addNode _ c _)

theorem branches_connect (hh : g.connect c u b p = .ok h) : h.branches = g.branches := by
  obtain ⟨l, -, -, rfl⟩ | ⟨-, rfl⟩ := connect_eq_ok hh <;> rfl

theorem exists_edge_connect (hh : g.connect c u b p = .ok h) :
    ∃ l m, h.edges = g.edges.push ⟨u, l, b⟩ ∧ h.nodes[l]? = some m ∧ m.commit = p := by
  obtain ⟨l, hl, -, rfl⟩ | ⟨-, rfl⟩ := connect_eq_ok hh
  · obtain ⟨m, hm, hp⟩ := commit_of_nodeOf? hl
    have hm' := getElem?_nodes_addEdge g u l b l
    rw [hm, Option.map_some] at hm'
    exact ⟨l, _, rfl, hm', hp⟩
  · have hnew := getElem?_nodes_addNode g p b g.nodes.size
    rw [if_pos rfl] at hnew
    have hm := getElem?_nodes_addEdge (g.addNode p b) u g.nodes.size b g.nodes.size
    rw [hnew, Option.map_some] at hm
    exact ⟨g.nodes.size, _, rfl, hm, rfl⟩

theorem node_place {u : NodeId} {m' : Node} (hm : (g.place u).nodes[n]? = some m') :
    ∃ m, g.nodes[n]? = some m ∧ m'.commit = m.commit ∧ m'.branch = m.branch ∧ m'.up = m.up ∧
      m'.down = m.down := by
  rw [getElem?_nodes_place, Option.map_eq_some_iff] at hm
  obtain ⟨m, hm, rfl⟩ := hm
  refine ⟨m, hm, ?_⟩
  split <;> simp

/-- A node without children was there before, and had none. -/
theorem node_of_head_connect {m' : Node} (hh : g.connect c u b p = .ok h)
    (hm : h.nodes[n]? = some m') (hup : m'.up = []) :
    ∃ m, g.nodes[n]? = some m ∧ m'.commit = m.commit ∧ m'.branch = m.branch ∧ m.up = [] := by
  obtain ⟨l, -, -, rfl⟩ | ⟨-, rfl⟩ := connect_eq_ok hh
  · rw [getElem?_nodes_addEdge, Option.map_eq_some_iff] at hm
    obtain ⟨m, hm, rfl⟩ := hm
    exact ⟨m, hm, rfl, rfl, (List.append_eq_nil_iff.mp hup).1⟩
  · rw [getElem?_nodes_addEdge, Option.map_eq_some_iff] at hm
    obtain ⟨m, hm, rfl⟩ := hm
    rw [getElem?_nodes_addNode] at hm
    split at hm
    · next hn => simp [hn] at hup
    · exact ⟨m, hm, rfl, rfl, (List.append_eq_nil_iff.mp hup).1⟩

theorem Branched.empty (references : List Reference) : Branched .empty references := by
  constructor <;> simp [Graph.empty]

theorem Branched.exists_branch (hg : g.Branched references) (hn : g.Named) {m : Node}
    (hm : g.nodes[n]? = some m) : ∃ r, g.branches[m.branch]? = some r := by
  cases hup : m.up with
  | nil => exact ⟨_, hg.branch_of_head hm hup⟩
  | cons e es =>
    obtain ⟨d, hd, hb⟩ := Option.map_eq_some_iff.mp (hn.branch_eq hm (by rw [hup, List.head?_cons]))
    exact ⟨_, Array.getElem?_eq_getElem (hb ▸ hg.branch_lt hd)⟩

theorem Branched.addBranch (hg : g.Branched references)
    (hr : g.Arises references g.branches.size r) : (g.addBranch r).Branched references where
  branch_lt hd := by
    simp only [Graph.addBranch, Array.size_push]
    exact Nat.lt_succ_of_lt (hg.branch_lt hd)
  branch_ne := hg.branch_ne
  branch_of_head hm hup := (extends_addBranch g r).branch (hg.branch_of_head hm hup)
  arises {b r'} hr' := by
    have hpush : (g.branches.push r)[b]? = some r' := hr'
    rw [Array.getElem?_push] at hpush
    split at hpush
    · next hb =>
      cases hpush
      exact hb ▸ hr.mono (extends_addBranch g r)
    · exact (hg.arises hpush).mono (extends_addBranch g r)

theorem Branched.connect (hg : g.Branched references) (hb : b < g.branches.size)
    (hne : ∀ {e : EdgeId} {d : Edge}, g.edges[e]? = some d → d.upper = u → d.branch ≠ b)
    (hh : g.connect c u b p = .ok h) : h.Branched references := by
  have hbranches := branches_connect hh
  obtain ⟨l, -, hedges, -⟩ := exists_edge_connect hh
  -- What is new is one edge; the branches stay as they are.
  have hedge : ∀ {e : EdgeId} {d : Edge}, h.edges[e]? = some d →
      e = g.edges.size ∧ d = ⟨u, l, b⟩ ∨ g.edges[e]? = some d := by
    intro e d hd
    rw [hedges, Array.getElem?_push] at hd
    split at hd
    · next he => exact .inl ⟨he, (Option.some_inj.mp hd).symm⟩
    · exact .inr hd
  constructor
  · intro e d hd
    rw [hbranches]
    obtain ⟨-, rfl⟩ | hd := hedge hd
    · exact hb
    · exact hg.branch_lt hd
  · intro e e' d d' hd hd' hu he
    obtain ⟨rfl, rfl⟩ | hd := hedge hd <;> obtain ⟨rfl, rfl⟩ | hd' := hedge hd'
    · exact absurd rfl he
    · exact (hne hd' hu.symm).symm
    · exact hne hd hu
    · exact hg.branch_ne hd hd' hu he
  · intro n m hm hup
    obtain ⟨m', hm', hc, hb, hup'⟩ := node_of_head_connect hh hm hup
    rw [hc, hb, hbranches]
    exact hg.branch_of_head hm' hup'
  · intro b r hr
    rw [hbranches] at hr
    exact (hg.arises hr).mono (extends_connect hh)

theorem Branched.place (hg : g.Branched references) (n : NodeId) :
    (g.place n).Branched references where
  branch_lt := hg.branch_lt
  branch_ne := hg.branch_ne
  branch_of_head hm hup := by
    obtain ⟨m, hm', hc, hb, hup', -⟩ := node_place hm
    rw [hc, hb]
    exact hg.branch_of_head hm' (hup' ▸ hup)
  arises hr := (hg.arises hr).mono (extends_place g n)

theorem Branched.place_head (hg : g.Branched references) (c : CommitId) :
    (((g.addBranch (.ofHead c (referencesOn references c))).addNode c g.branches.size).place
      g.nodes.size).Branched references := by
  set r := Branch.ofHead c (referencesOn references c)
  have hx : g.Extends (((g.addBranch r).addNode c g.branches.size).place g.nodes.size) :=
    (extends_addBranch g r).trans ((extends_addNode _ c _).trans (extends_place _ _))
  constructor
  · intro e d hd
    simp only [Graph.place, Graph.addNode, Graph.addBranch, Array.size_push]
    exact Nat.lt_succ_of_lt (hg.branch_lt hd)
  · exact hg.branch_ne
  · intro n m hm hup
    -- The one new node starts the one new branch.
    obtain ⟨m', hm', hc, hb, hup', -⟩ := node_place hm
    rw [hc, hb]
    rw [getElem?_nodes_addNode] at hm'
    split at hm'
    · cases hm'
      exact Array.getElem?_push_size
    · exact hx.branch (hg.branch_of_head hm' (hup' ▸ hup))
  · intro b r' hr'
    have hpush : (g.branches.push r)[b]? = some r' := hr'
    rw [Array.getElem?_push] at hpush
    split at hpush
    · cases hpush
      have hnew := getElem?_nodes_place ((g.addBranch r).addNode c g.branches.size) g.nodes.size
        g.nodes.size
      rw [getElem?_nodes_addNode, if_pos (by rfl), Option.map_some, if_pos rfl] at hnew
      exact .ofHead hnew rfl rfl
    · exact (hg.arises hpush).mono hx

theorem Branched.place_claim (hg : g.Branched references)
    (hh : g.claim references c = .ok (n, h)) : (h.place n).Branched references := by
  obtain ⟨-, -, rfl⟩ | ⟨-, rfl, rfl⟩ := claim_eq_ok hh
  · exact hg.place n
  · exact hg.place_head c

theorem isFork_connect {m : Node} (hr : g.branches[b]? = some r) (hm : g.nodes[u]? = some m)
    (ho : r.origin = m.commit) (hp : r.parent = some p) (hh : g.connect c u b p = .ok h) :
    h.IsFork g.edges.size := by
  have hx := extends_connect hh
  obtain ⟨l, ml, hedges, hml, rfl⟩ := exists_edge_connect hh
  obtain ⟨m', hm', hc, -⟩ := hx.node hm
  have hnew : h.edges[g.edges.size]? = some ⟨u, l, b⟩ := by simp [hedges]
  exact ⟨_, m', ml, r, hnew, hm', hml, hx.branch hr, ho.trans hc.symm, hp⟩

theorem down_connect {m' : Node} (hh : g.connect c u b p = .ok h) (hn : n ≠ u)
    (hm : h.nodes[n]? = some m') :
    m'.down = [] ∨ ∃ m, g.nodes[n]? = some m ∧ m'.down = m.down := by
  obtain ⟨m, hm', -, hdown⟩ | ⟨-, hdown⟩ := node_connect hh hm <;> rw [if_neg hn] at hdown
  · exact .inr ⟨m, hm', by rw [hdown, List.append_nil]⟩
  · exact .inl hdown

theorem down_upper_connect {m m' : Node} (hh : g.connect c u b p = .ok h)
    (hm : g.nodes[u]? = some m) (hm' : h.nodes[u]? = some m') :
    m'.down = m.down ++ [g.edges.size] := by
  obtain ⟨m₀, hm₀, -, hdown⟩ | ⟨hu, -⟩ := node_connect hh hm'
  · cases hm.symm.trans hm₀
    rwa [if_pos rfl] at hdown
  · exact absurd hu (Nat.ne_of_lt (Array.getElem?_eq_some_iff.mp hm).1)

theorem Forks.place_claim {j : NodeId} (hg : g.Forks n)
    (hh : g.claim references c = .ok (j, h)) : (h.place j).Forks n := by
  refine hg.mono ((extends_claim hh).trans (extends_place h j)) fun m' hm' => ?_
  obtain ⟨m, hm, -, -, -, hdown⟩ := node_place hm'
  obtain ⟨-, -, rfl⟩ | ⟨-, -, rfl⟩ := claim_eq_ok hh
  · exact .inr ⟨m, hm, hdown⟩
  · rw [getElem?_nodes_addNode] at hm
    split at hm
    · cases hm
      exact .inl hdown
    · exact .inr ⟨m, hm, hdown⟩

/-- A commit with one parent passes its branch on. -/
theorem Branched.connect_only {m : Node} (hg : g.Branched references) (hgrown : g.Grown cs)
    (hm : g.nodes[u]? = some m) (hnil : m.down = []) (hs : ∀ n, g.Forks n)
    (hh : g.connect c u m.branch p = .ok h) : h.Branched references ∧ ∀ n, h.Forks n := by
  obtain ⟨r, hr⟩ := hg.exists_branch hgrown.toNamed hm
  constructor
  · refine hg.connect (Array.getElem?_eq_some_iff.mp hr).1 (fun {e d} hd hup => ?_) hh
    -- The node has no edges down yet, so none on its branch.
    have he := hgrown.down_eq hm ▸ mem_edgesFrom.mpr ⟨d, hd, hup⟩
    simp [hnil] at he
  · intro n
    by_cases hn : n = u
    · subst hn
      intro m' hm' hlen
      simp [down_upper_connect hh hm hm', hnil] at hlen
    · exact (hs n).mono (extends_connect hh) fun _ hmn => down_connect hh hn hmn

theorem Branched.connectMerge {ps : List CommitId} {m : Node} (hg : g.Branched references)
    (hm : g.nodes[u]? = some m) (hk : m.kind = .loaded) (hr : g.branches[m.branch]? = some r)
    (hs : ∀ n, n ≠ u → g.Forks n) (hf : ∀ e ∈ m.down, g.IsFork e)
    (hh : connectMerge references m.commit u r.head g ps = .ok h) :
    h.Branched references ∧ ∀ n, h.Forks n := by
  -- All nodes but `u` fork, and the edges that `u` has so far are on branches of their own.
  induction ps generalizing g m with
  | nil =>
    cases hh
    refine ⟨hg, fun n => ?_⟩
    by_cases hn : n = u
    · subst hn
      intro m' hm' _ e he
      cases hm.symm.trans hm'
      exact hf e he
    · exact hs n hn
  | cons p ps ih =>
    obtain ⟨k, hk', hh⟩ := bind_eq_ok.mp hh
    set q := Branch.ofMerge m.commit p (referencesOn references m.commit) r.head
    have hx := (extends_addBranch g q).trans (extends_connect hk')
    have hold := (Array.getElem?_eq_some_iff.mp hr).1
    have hnew : (g.addBranch q).branches[g.branches.size]? = some q := by simp [Graph.addBranch]
    have hbranched := (hg.addBranch (.ofMerge hm hk hold hr)).connect
      (Array.getElem?_eq_some_iff.mp hnew).1
      (fun {e d} hd _ => Nat.ne_of_lt (hg.branch_lt (e := e) hd)) hk'
    obtain ⟨m', hm', hc, hb, hlasts⟩ := hx.node hm
    have hdown : m'.down = m.down ++ [g.edges.size] :=
      down_upper_connect (g := g.addBranch q) hk' hm hm'
    rw [← hc] at hh
    refine ih hbranched hm' (hlasts hk).1 (hb ▸ hx.branch hr) (fun n hn => ?_) (fun e he => ?_) hh
    · exact (hs n hn).mono hx fun _ hmn => down_connect (g := g.addBranch q) hk' hn hmn
    · rw [hdown, List.mem_append, List.mem_singleton] at he
      rcases he with he | rfl
      · exact (hf e he).mono hx
      · exact isFork_connect (g := g.addBranch q) hnew hm rfl rfl hk'

theorem Branched.append {c : Commit} (hg : g.Branched references) (hgrown : g.Grown cs)
    (hs : ∀ n, g.Forks n) (hh : g.append references c = .ok h) :
    h.Branched references ∧ ∀ n, h.Forks n := by
  unfold Graph.append at hh
  obtain ⟨⟨u, k⟩, hk, hh⟩ := bind_eq_ok.mp hh
  obtain ⟨hplace, hu, hr⟩ := hgrown.place_claim hk c.time
  have hbranched := hg.place_claim hk
  have hforks : ∀ n, (k.place u).Forks n := fun n => (hs n).place_claim hk
  obtain ⟨m, hm, hkind⟩ := isPlaced_iff.mp hu
  have hnil : m.down = [] := List.length_eq_zero_iff.mp (hplace.length_down_last hu hr hm)
  obtain ⟨r, hbr⟩ := hbranched.exists_branch hplace.toNamed hm
  simp only [hm, Option.map_some, Option.getD_some] at hh
  split at hh
  · exact hbranched.connect_only hplace hm hnil hforks hh
  · have hcommit : m.commit = c.id := by
      obtain ⟨d, hd, hc, -⟩ := hplace.commit_of_placed hm hkind
      rw [← rowOf_eq hm, hr, List.getElem?_concat_length] at hd
      cases hd
      exact hc
    rw [hbr, Option.bind_some, ← hcommit] at hh
    exact hbranched.connectMerge hm hkind hbr (fun n _ => hforks n) (by simp [hnil]) hh

theorem Branched.foldlM (hg : g.Branched references) (hgrown : g.Grown cs)
    (hpass : ∀ n, g.PassesBranch n) (hs : ∀ n, g.Forks n)
    (hh : ds.foldlM (Graph.append references) g = .ok h) :
    h.Branched references ∧ ∀ n, h.Forks n := by
  induction ds generalizing g cs with
  | nil =>
    cases hh
    exact ⟨hg, hs⟩
  | cons d ds ih =>
    obtain ⟨k, hk, hh⟩ := bind_eq_ok.mp hh
    obtain ⟨hbranched, hforks⟩ := hg.append hgrown hs hk
    obtain ⟨hgrown', hpass'⟩ := hgrown.append hpass hk
    exact ih hbranched hgrown' hpass' hforks hh

@[simp] theorem branches_finish (g : Graph) : g.finish.branches = g.branches := by
  unfold finish
  split <;> rfl

theorem extends_finish (g : Graph) : g.Extends g.finish where
  branch hr := by rwa [branches_finish]
  edge hd := by rwa [edges_finish]
  node {n m} hm := by
    have hm' := getElem?_nodes_finish g n
    rw [hm, Option.map_some] at hm'
    refine ⟨_, hm', ?_⟩
    split <;> simp

theorem Branched.finish (hg : g.Branched references) : g.finish.Branched references where
  branch_lt hd := by
    rw [edges_finish] at hd
    rw [branches_finish]
    exact hg.branch_lt hd
  branch_ne hd hd' := by
    rw [edges_finish] at hd hd'
    exact hg.branch_ne hd hd'
  branch_of_head hm' hup := by
    obtain ⟨m, hm, hc, hb, -, hup', -⟩ := node_finish hm'
    rw [branches_finish, hb, hc]
    exact hg.branch_of_head hm (hup' ▸ hup)
  arises hr := by
    rw [branches_finish] at hr
    exact (hg.arises hr).mono (extends_finish g)

theorem Forks.finish (hg : g.Forks n) : g.finish.Forks n := by
  refine hg.mono (extends_finish g) fun m' hm' => ?_
  obtain ⟨m, hm, -, -, -, -, hdown, -⟩ := node_finish hm'
  exact .inr ⟨m, hm, hdown⟩

theorem branched_of_build (hb : build cs references = .ok g) :
    g.Branched references ∧ ∀ n, g.Forks n := by
  cases hf : cs.foldlM (append references) Graph.empty with
  | error e => simp [build, hf, Except.map] at hb
  | ok h =>
    simp only [build, hf, Except.map, Except.ok.injEq] at hb
    obtain ⟨hbranched, hforks⟩ := (Branched.empty references).foldlM Grown.empty
      (by simp [PassesBranch, Graph.empty]) (by simp [Forks, Graph.empty]) hf
    subst hb
    exact ⟨hbranched.finish, fun n => (hforks n).finish⟩

end CommitGraph.Graph
