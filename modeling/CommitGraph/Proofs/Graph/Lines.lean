import CommitGraph.Proofs.Graph.Branches
import CommitGraph.Proofs.Graph.Descent
import CommitGraph.Proofs.Graph.Record
import CommitGraph.Viewer
import Mathlib.Data.List.Nodup
import Mathlib.Logic.Relation

namespace CommitGraph.Graph

def OnBranch (g : Graph) (b : BranchId) (n : NodeId) : Prop :=
  ∃ m, g.nodes[n]? = some m ∧ m.branch = b

/-- The only edge below the first node is on the branch and leads to the second, which is on the
branch as well. -/
def Continues (g : Graph) (b : BranchId) (n k : NodeId) : Prop :=
  g.OnBranch b k ∧ ∃ m e, g.nodes[n]? = some m ∧ m.down = [e] ∧ g.edges[e]? = some ⟨n, k, b⟩

/-- The node is where the branch has its first node: at the origin, or one edge below it. -/
def Starts (g : Graph) (r : Branch) (n : NodeId) : Prop :=
  ∃ m, g.nodes[n]? = some m ∧ (r.parent = none ∧ r.origin = m.commit ∨
    r.parent = some m.commit ∧ ∃ u mu, g.Joined u n ∧ g.nodes[u]? = some mu ∧ r.origin = mu.commit)

/-- The nodes of a branch, from top to bottom. -/
structure Line (g : Graph) (b : BranchId) (ns : List NodeId) : Prop where
  mem_iff : ∀ {n : NodeId}, n ∈ ns ↔ g.OnBranch b n
  row_lt_row : ns.Pairwise (g.rowOf · < g.rowOf ·)
  continues : ns.IsChain (g.Continues b)
  head : ∃ r n, g.branches[b]? = some r ∧ ns.head? = some n ∧
    g.nodeOf? (r.parent.getD r.origin) = some n

/-- What the branches say about the history. -/
structure Lineage (g : Graph) (cs : List Commit) : Prop where
  line : ∀ {n : NodeId} {m : Node}, g.nodes[n]? = some m →
    g.Line m.branch (g.nodesOfBranch m.branch)
  /-- A node that is not a head is on the branch of its oldest edge up. -/
  branch_of_up : ∀ {n : NodeId} {m : Node} {e : EdgeId} {d : Edge}, g.nodes[n]? = some m →
    e ∈ m.up → (∀ e' ∈ m.up, e ≤ e') → g.edges[e]? = some d → m.branch = d.branch
  /-- A commit with one parent passes its branch on, and another starts a branch for each parent. -/
  branches_down : ∀ {c : Commit}, c ∈ cs → ∃ n m, g.nodeOf? c.id = some n ∧ g.nodes[n]? = some m ∧
    List.Forall₂ (fun e p => ∃ d r, g.edges[e]? = some d ∧ d.upper = n ∧
      g.branches[d.branch]? = some r ∧
      if c.parents.length = 1 then d.branch = m.branch else r.origin = c.id ∧ r.parent = some p)
      m.down c.parents
  branch_ne : ∀ {e e' : EdgeId} {d d' : Edge}, g.edges[e]? = some d → g.edges[e']? = some d' →
    d.upper = d'.upper → e ≠ e' → d.branch ≠ d'.branch

variable {g : Graph} {cs : List Commit} {references : List Reference} {b : BranchId} {r : Branch}
  {n k o u : NodeId} {ns : List NodeId}

theorem Continues.joined (h : g.Continues b n k) : g.Joined n k := by
  obtain ⟨-, m, e, -, -, he⟩ := h
  exact ⟨e, _, he, rfl, rfl⟩

theorem Continues.unique (h : g.Continues b n k) (h' : g.Continues b n u) : k = u := by
  obtain ⟨-, m, e, hm, he, hd⟩ := h
  obtain ⟨-, m', e', hm', he', hd'⟩ := h'
  cases hm.symm.trans hm'
  cases he.symm.trans he'
  cases hd.symm.trans hd'
  rfl

theorem Sound.nodeOf?_of_starts (hg : g.Sound) (h : g.Starts r n) :
    g.nodeOf? (r.parent.getD r.origin) = some n := by
  obtain ⟨m, hm, ⟨hp, ho⟩ | ⟨hp, -⟩⟩ := h
  · rw [hp, Option.getD_none, ho, hg.nodeOf?_commit hm]
  · rw [hp, Option.getD_some, hg.nodeOf?_commit hm]

theorem Sound.branch_of_only (hg : g.Sound) {m : Node} {e : EdgeId} {d : Edge}
    (hm : g.nodes[n]? = some m) (hone : m.down.length = 1) (he : e ∈ m.down)
    (hd : g.edges[e]? = some d) : m.down = [e] ∧ d.branch = m.branch := by
  obtain ⟨e', hdown⟩ := List.length_eq_one_iff.mp hone
  rw [hdown, List.mem_singleton] at he
  subst he
  have hpass := hg.passesBranch n m e hm hdown
  rw [hd, Option.map_some, Option.some_inj] at hpass
  exact ⟨hdown, hpass⟩

/-- A node has its branch from its first edge up: either the branch starts there, or the edge comes
from a node with one parent, which has passed its own branch on. -/
theorem Sound.starts_or_continues (hg : g.Sound) (hb : g.Branched references)
    (hf : ∀ n, g.Forks n) (hn : g.OnBranch b n) :
    (∃ r, g.branches[b]? = some r ∧ g.Starts r n) ∨ ∃ u, g.OnBranch b u ∧ g.Continues b u n := by
  have hon := hn
  obtain ⟨m, hm, rfl⟩ := hn
  cases hup : m.up with
  | nil => exact .inl ⟨_, hb.branch_of_head hm hup, m, hm, .inl ⟨rfl, rfl⟩⟩
  | cons e es =>
    obtain ⟨d, hd, hbranch⟩ :=
      Option.map_eq_some_iff.mp (hg.branch_eq hm (by rw [hup, List.head?_cons]))
    obtain ⟨d', hd', rfl⟩ := (hg.mem_up hm).mp (hup ▸ List.mem_cons_self)
    cases hd.symm.trans hd'
    obtain ⟨u, hu, -⟩ := hg.exists_upper hd
    have he := (hg.mem_down hu).mpr ⟨d, hd, rfl⟩
    -- The child has passed its branch on, or it has opened one for this edge.
    by_cases hone : u.down.length = 1
    · obtain ⟨hdown, hpass⟩ := hg.branch_of_only hu hone he hd
      refine .inr ⟨d.upper, ⟨u, hu, hpass.symm.trans hbranch⟩, hon, u, e, hu, hdown, ?_⟩
      rw [hd, ← hbranch]
    · obtain ⟨d', u', l, r, hd', hu', hl, hr, ho, hp⟩ := hf d.upper u hu hone e he
      cases hd.symm.trans hd'
      cases hu.symm.trans hu'
      cases hm.symm.trans hl
      exact .inl ⟨r, hbranch ▸ hr, m, hm, .inr ⟨hp, d.upper, u, ⟨e, d, hd, rfl, rfl⟩, hu, ho⟩⟩

theorem Sound.exists_line (hg : g.Sound) (hn : g.OnBranch b n) :
    ∃ ns, (n :: ns).IsChain (g.Continues b) ∧ (∀ k ∈ n :: ns, g.OnBranch b k) ∧
      ∀ k ∈ n :: ns, ∀ u, g.Continues b k u → u ∈ ns := by
  induction hrow : g.below (g.rowOf n) using Nat.strong_induction_on generalizing n with
  | _ s ih =>
    by_cases hnext : ∃ k, g.Continues b n k
    · obtain ⟨k, hk⟩ := hnext
      obtain ⟨ns, hchain, hon, hclosed⟩ := ih _ (hrow ▸ hg.below_lt_below hk.joined) hk.1 rfl
      refine ⟨k :: ns, .cons_cons hk hchain, List.forall_mem_cons.mpr ⟨hn, hon⟩, ?_⟩
      rw [List.forall_mem_cons]
      refine ⟨fun u hu => ?_, fun j hj u hu => List.mem_cons_of_mem k (hclosed j hj u hu)⟩
      rw [hk.unique hu]
      exact List.mem_cons_self
    · refine ⟨[], .singleton n, by simpa using hn, ?_⟩
      rw [List.forall_mem_singleton]
      exact fun u hu => absurd ⟨u, hu⟩ hnext

theorem Sound.exists_start (hg : g.Sound) (hb : g.Branched references) (hf : ∀ n, g.Forks n)
    (hn : g.OnBranch b n) : ∃ r k, g.branches[b]? = some r ∧ g.OnBranch b k ∧ g.Starts r k := by
  induction hrow : g.rowOf n using Nat.strong_induction_on generalizing n with
  | _ s ih =>
    obtain ⟨r, hr, hs⟩ | ⟨u, hu, hc⟩ := hg.starts_or_continues hb hf hn
    · exact ⟨r, n, hr, hn, hs⟩
    · exact ih _ (hrow ▸ hg.rowOf_lt_rowOf hc.joined) hu rfl

/-- All nodes of a branch are in a line that starts where the branch starts and goes on to the
end. -/
theorem Sound.mem_line (hg : g.Sound) (hb : g.Branched references) (hf : ∀ n, g.Forks n)
    (hr : g.branches[b]? = some r) (hs : g.Starts r k)
    (hclosed : ∀ j ∈ k :: ns, ∀ u, g.Continues b j u → u ∈ ns) (hn : g.OnBranch b n) :
    n ∈ k :: ns := by
  induction hrow : g.rowOf n using Nat.strong_induction_on generalizing n with
  | _ s ih =>
    obtain ⟨r', hr', hs'⟩ | ⟨u, hu, hc⟩ := hg.starts_or_continues hb hf hn
    · cases hr.symm.trans hr'
      have hsame := (hg.nodeOf?_of_starts hs).symm.trans (hg.nodeOf?_of_starts hs')
      rw [Option.some_inj.mp hsame]
      exact List.mem_cons_self
    · have hmem := ih _ (hrow ▸ hg.rowOf_lt_rowOf hc.joined) hu rfl
      exact List.mem_cons_of_mem k (hclosed u hmem n hc)

theorem mem_nodesOfBranch : n ∈ g.nodesOfBranch b ↔ g.OnBranch b n := by
  rw [nodesOfBranch, List.mem_mergeSort, List.mem_filter, List.mem_range, Option.any_eq_true]
  constructor
  · rintro ⟨-, m, hm, hbranch⟩
    exact ⟨m, hm, by simpa using hbranch⟩
  · rintro ⟨m, hm, hbranch⟩
    exact ⟨(Array.getElem?_eq_some_iff.mp hm).1, m, hm, by simpa using hbranch⟩

theorem nodup_nodesOfBranch (g : Graph) (b : BranchId) : (g.nodesOfBranch b).Nodup :=
  (List.mergeSort_perm _ _).nodup_iff.mpr (List.nodup_range.filter _)

theorem sorted_nodesOfBranch (g : Graph) (b : BranchId) :
    (g.nodesOfBranch b).Pairwise (g.rowOf · ≤ g.rowOf ·) := by
  refine List.Pairwise.imp ?_ (List.pairwise_mergeSort ?_ ?_ _)
  · simp only [decide_eq_true_eq, imp_self, implies_true]
  · simp only [decide_eq_true_eq]
    exact fun _ _ _ => Nat.le_trans
  · simpa using fun m n => Nat.le_total (g.rowOf m) (g.rowOf n)

/-- The nodes of a branch stand in different rows, so their order is the only one by rows. -/
theorem nodesOfBranch_eq (hmem : ∀ n, n ∈ ns ↔ g.OnBranch b n)
    (hrows : ns.Pairwise (g.rowOf · < g.rowOf ·)) : g.nodesOfBranch b = ns := by
  have hdistinct : (ns.map g.rowOf).Nodup := List.pairwise_map.mpr (hrows.imp Nat.ne_of_lt)
  have hperm : (g.nodesOfBranch b).Perm ns := by
    rw [List.perm_ext_iff_of_nodup (g.nodup_nodesOfBranch b) (hdistinct.of_map _)]
    exact fun n => mem_nodesOfBranch.trans (hmem n).symm
  refine hperm.eq_of_pairwise ?_ (g.sorted_nodesOfBranch b) (hrows.imp Nat.le_of_lt)
  intro m n hm hn h h'
  exact List.inj_on_of_nodup_map hdistinct (hperm.mem_iff.mp hm) hn (Nat.le_antisymm h h')

theorem Sound.line_nodesOfBranch (hg : g.Sound) (hb : g.Branched references)
    (hf : ∀ n, g.Forks n) (hn : g.OnBranch b n) : g.Line b (g.nodesOfBranch b) := by
  obtain ⟨r, k, hr, hk, hs⟩ := hg.exists_start hb hf hn
  obtain ⟨ns, hchain, hon, hclosed⟩ := hg.exists_line hk
  have hmem : ∀ n, n ∈ k :: ns ↔ g.OnBranch b n :=
    fun n => ⟨hon n, hg.mem_line hb hf hr hs hclosed⟩
  have hrows : (k :: ns).Pairwise (g.rowOf · < g.rowOf ·) := by
    apply List.IsChain.pairwise
    exact hchain.imp fun _ _ h => hg.rowOf_lt_rowOf h.joined
  rw [nodesOfBranch_eq hmem hrows]
  exact ⟨hmem _, hrows, hchain, r, k, hr, rfl, hg.nodeOf?_of_starts hs⟩

/-- The first edge up is the oldest. -/
theorem Sound.branch_of_up (hg : g.Sound) {m : Node} {e : EdgeId} {d : Edge}
    (hm : g.nodes[n]? = some m) (he : e ∈ m.up) (hle : ∀ e' ∈ m.up, e ≤ e')
    (hd : g.edges[e]? = some d) : m.branch = d.branch := by
  -- Edges are numbered in the order in which they are added, so the least one is listed first.
  have hup : m.up.head? = some e := by
    have hsorted : m.up.Pairwise (· < ·) := by
      rw [hg.up_eq hm]
      exact List.pairwise_lt_range.filter _
    cases hes : m.up with
    | nil =>
      rw [hes] at he
      cases he
    | cons e' es =>
      rw [hes] at he hle hsorted
      rcases List.mem_cons.mp he with rfl | he
      · rfl
      · have hlt := (List.pairwise_cons.mp hsorted).1 e he
        exact absurd (hle e' List.mem_cons_self) (Nat.not_le.mpr hlt)
  have hbranch := hg.branch_eq hm hup
  rw [hd, Option.map_some, Option.some_inj] at hbranch
  exact hbranch.symm

theorem Depicts.branches_down (hg : g.Depicts cs) (hb : g.Branched references)
    (hf : ∀ n, g.Forks n) {c : Commit} (hc : c ∈ cs) :
    ∃ n m, g.nodeOf? c.id = some n ∧ g.nodes[n]? = some m ∧
      List.Forall₂ (fun e p => ∃ d r, g.edges[e]? = some d ∧ d.upper = n ∧
        g.branches[d.branch]? = some r ∧
        if c.parents.length = 1 then d.branch = m.branch else r.origin = c.id ∧ r.parent = some p)
        m.down c.parents := by
  obtain ⟨i, hi⟩ := List.mem_iff_getElem?.mp hc
  obtain ⟨n, m, -, hm, -, hid, hdown⟩ := hg.row_of_commit hi
  refine ⟨n, m, hid ▸ hg.nodeOf?_commit hm, hm, (forall₂_mem hdown).imp ?_⟩
  rintro e p ⟨⟨d, hd, rfl, hp⟩, he, -⟩
  split
  · next hone =>
    have hpass := (hg.branch_of_only hm (hdown.length_eq.trans hone) he hd).2
    exact ⟨d, _, hd, rfl, Array.getElem?_eq_getElem (hb.branch_lt hd), hpass⟩
  · next hone =>
    obtain ⟨d', u, l, r, hd', hu, hl, hr, ho, hparent⟩ :=
      hf d.upper m hm (hdown.length_eq ▸ hone) e he
    cases hd.symm.trans hd'
    cases hm.symm.trans hu
    obtain ⟨l', hl', rfl⟩ := commit_of_nodeOf? hp
    cases hl.symm.trans hl'
    exact ⟨d, r, hd, rfl, hr, ho.trans hid, hparent⟩

theorem lineage_of_build (hb : build cs references = .ok g) : g.Lineage cs := by
  have hg := depicts_of_build hb
  obtain ⟨hbranched, hforks⟩ := branched_of_build hb
  exact ⟨fun hm => hg.line_nodesOfBranch hbranched hforks ⟨_, hm, rfl⟩, hg.branch_of_up,
    hg.branches_down hbranched hforks, hbranched.branch_ne⟩

/-- Every branch is one line downward, and a viewer of the graph lists it from any of its nodes. -/
theorem lines_of_build (hb : build cs references = .ok g) :
    g.Lineage cs ∧ ∀ (v : Viewer), v.graph = g → v.folding.size = g.rows.size →
      ∀ (n : NodeId) (m : Node), g.nodes[n]? = some m →
        ∃ ns, v.branchNodes n = .ok ns ∧ g.Line m.branch ns := by
  have hlineage := lineage_of_build hb
  refine ⟨hlineage, ?_⟩
  rintro v rfl hsize n m hm
  refine ⟨v.graph.nodesOfBranch m.branch, ?_, hlineage.line hm⟩
  simp [Viewer.branchNodes, Viewer.checkFolding, hsize, requireNode, hm, bind, Except.bind, pure,
    Except.pure]

/-- A merge whose second parent is also a grandparent through the first. -/
theorem lines_of_build_merge :
    ∃ g, build [⟨4, [3, 1], 0⟩, ⟨3, [2], 0⟩, ⟨2, [1], 0⟩, ⟨1, [], 0⟩] [] = .ok g ∧
      g.Lineage [⟨4, [3, 1], 0⟩, ⟨3, [2], 0⟩, ⟨2, [1], 0⟩, ⟨1, [], 0⟩] ∧
      ∃ ns, ((Viewer.empty .standard).display g).branchNodes 3 = .ok ns ∧ g.Line 1 ns := by
  let g : Graph :=
    ⟨#[⟨4, 0, .loaded, 0, [], [0, 1]⟩, ⟨3, 1, .loaded, 1, [0], [2]⟩, ⟨1, 2, .loaded, 3, [1, 3], []⟩,
        ⟨2, 1, .loaded, 2, [2], [3]⟩],
      #[⟨0, 1, 1⟩, ⟨0, 2, 2⟩, ⟨1, 3, 1⟩, ⟨3, 2, 1⟩],
      #[.ofHead 4 [], .ofMerge 4 3 [] none, .ofMerge 4 1 [] none], #[[0], [1], [3], [2]]⟩
  have hb : build [⟨4, [3, 1], 0⟩, ⟨3, [2], 0⟩, ⟨2, [1], 0⟩, ⟨1, [], 0⟩] [] = .ok g := by decide
  obtain ⟨hlineage, hlines⟩ := lines_of_build hb
  exact ⟨g, hb, hlineage, hlines ((Viewer.empty .standard).display g) rfl rfl 3 _ rfl⟩

theorem head_ofHead (references : List Reference) (c : CommitId) :
    (Branch.ofHead c (referencesOn references c)).head =
      if ∃ q ∈ references, q.target = c then some c else none := by
  simp only [Branch.ofHead, referencesOn]
  cases hq : (references.filter (·.target = c)).head? with
  | none =>
    rw [List.head?_eq_none_iff, List.filter_eq_nil_iff] at hq
    rw [if_neg (by simpa using hq), Option.map_none]
  | some q =>
    obtain ⟨hmem, htarget⟩ := List.mem_filter.mp (List.mem_of_head? hq)
    have htarget : q.target = c := by simpa using htarget
    rw [if_pos ⟨q, hmem, htarget⟩, Option.map_some, htarget]

theorem Sound.reaches_of_starts (hg : g.Sound) (hs : g.Starts r n)
    (ho : g.nodeOf? r.origin = some o) : Relation.ReflTransGen g.Joined o n := by
  obtain ⟨m, hm, ⟨-, horigin⟩ | ⟨-, u, mu, hjoined, hu, horigin⟩⟩ := hs
  · rw [horigin, hg.nodeOf?_commit hm] at ho
    cases ho
    exact .refl
  · rw [horigin, hg.nodeOf?_commit hu] at ho
    cases ho
    exact .single hjoined

theorem Sound.reaches_of_onBranch (hg : g.Sound) (hb : g.Branched references)
    (hf : ∀ n, g.Forks n) (hr : g.branches[b]? = some r) (ho : g.nodeOf? r.origin = some o)
    (hn : g.OnBranch b n) : Relation.ReflTransGen g.Joined o n := by
  induction hrow : g.rowOf n using Nat.strong_induction_on generalizing n with
  | _ s ih =>
    obtain ⟨r', hr', hs⟩ | ⟨u, hu, hc⟩ := hg.starts_or_continues hb hf hn
    · cases hr.symm.trans hr'
      exact hg.reaches_of_starts hs ho
    · exact (ih _ (hrow ▸ hg.rowOf_lt_rowOf hc.joined) hu rfl).tail hc.joined

/-- A branch names a head above its origin if there is a reference on the head, and no head
otherwise. Merges have passed it down from branch to branch. -/
theorem head_of_build (hb : build cs references = .ok g) (hr : g.branches[b]? = some r) :
    ∃ h m o, g.nodes[h]? = some m ∧ m.kind = .loaded ∧ m.up = [] ∧
      g.nodeOf? r.origin = some o ∧ Relation.ReflTransGen g.Joined h o ∧
      r.head = if ∃ q ∈ references, q.target = m.commit then some m.commit else none := by
  have hg := (depicts_of_build hb).toSound
  obtain ⟨hbranched, hforks⟩ := branched_of_build hb
  induction b using Nat.strong_induction_on generalizing r with
  | _ b ih =>
    cases hbranched.arises hr with
    | @ofHead n m hm hk hup =>
      exact ⟨n, m, n, hm, hk, hup, hg.nodeOf?_commit hm, .refl, head_ofHead references m.commit⟩
    | @ofMerge n m p q hm hk hlt hq =>
      obtain ⟨h, mh, o, hh, hkh, hup, ho, hreach, hhead⟩ := ih m.branch hlt hq
      have hn := hg.reaches_of_onBranch hbranched hforks hq ho ⟨m, hm, rfl⟩
      exact ⟨h, mh, n, hh, hkh, hup, hg.nodeOf?_commit hm, hreach.trans hn, hhead⟩

/-- A merge below a head that a reference is on. -/
theorem head_of_build_merge :
    let tip : Reference := ⟨"tip", 4, .branch, 0⟩
    ∃ g, build [⟨4, [3], 0⟩, ⟨3, [2, 1], 0⟩, ⟨2, [], 0⟩, ⟨1, [], 0⟩] [tip] = .ok g ∧
      g.branches[2]? = some (.ofMerge 3 1 [] (some 4)) ∧
      ∃ h m o, g.nodes[h]? = some m ∧ m.kind = .loaded ∧ m.up = [] ∧ g.nodeOf? 3 = some o ∧
        Relation.ReflTransGen g.Joined h o ∧
        some 4 = if ∃ q ∈ [tip], q.target = m.commit then some m.commit else none := by
  intro tip
  let g : Graph :=
    ⟨#[⟨4, 0, .loaded, 0, [], [0]⟩, ⟨3, 0, .loaded, 1, [0], [1, 2]⟩, ⟨2, 1, .loaded, 2, [1], []⟩,
        ⟨1, 2, .loaded, 3, [2], []⟩],
      #[⟨0, 1, 0⟩, ⟨1, 2, 1⟩, ⟨1, 3, 2⟩],
      #[.ofHead 4 [tip], .ofMerge 3 2 [] (some 4), .ofMerge 3 1 [] (some 4)],
      #[[0], [1], [2], [3]]⟩
  have hb : build [⟨4, [3], 0⟩, ⟨3, [2, 1], 0⟩, ⟨2, [], 0⟩, ⟨1, [], 0⟩] [tip] = .ok g := by decide
  have hr : g.branches[2]? = some (.ofMerge 3 1 [] (some 4)) := rfl
  exact ⟨g, hb, hr, head_of_build hb hr⟩

end CommitGraph.Graph
