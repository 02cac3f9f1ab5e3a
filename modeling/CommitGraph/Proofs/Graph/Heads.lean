import CommitGraph.History.Basic
import CommitGraph.Proofs.Graph.Lines

namespace CommitGraph

theorem History.isHead_iff {cs : List Commit} {c : Commit} :
    isHead cs c ↔ ∀ d ∈ cs, c.id ∉ d.parents := by
  simp [isHead]

namespace Graph

/-- A commit stands at the node, and no edge leads to it. -/
def IsHead (g : Graph) (n : NodeId) : Prop :=
  ∃ m, g.nodes[n]? = some m ∧ m.kind = .loaded ∧ m.up = []

variable {g : Graph} {cs : List Commit} {references : List Reference} {c : Commit} {n : NodeId}
  {b : BranchId} {r : Branch}

theorem Depicts.up_eq_nil_iff (hg : g.Depicts cs) {m : Node} (hm : g.nodes[n]? = some m) :
    m.up = [] ↔ ∀ d ∈ cs, m.commit ∉ d.parents := by
  constructor
  · intro hup d hd hp
    obtain ⟨i, hi⟩ := List.mem_iff_getElem?.mp hd
    obtain ⟨k, mk, -, hk, -, -, hdown⟩ := hg.row_of_commit hi
    obtain ⟨e, -, a, ha, -, hl⟩ := exists_mem_right hdown.flip hp
    rw [hg.nodeOf?_commit hm, Option.some_inj] at hl
    have he := (hg.mem_up hm).mpr ⟨a, ha, hl.symm⟩
    rw [hup] at he
    cases he
  · intro hnone
    rw [List.eq_nil_iff_forall_not_mem]
    intro e he
    obtain ⟨a, ha, rfl⟩ := (hg.mem_up hm).mp he
    obtain ⟨u, hu, hk⟩ := hg.exists_upper ha
    obtain ⟨d, hd, -, hdown⟩ := hg.commit_of_placed hu hk
    obtain ⟨p, hp, a', l, ha', hl, hc⟩ := exists_mem_right hdown ((hg.mem_down hu).mpr ⟨a, ha, rfl⟩)
    cases ha.symm.trans ha'
    cases hm.symm.trans hl
    exact hnone d (List.mem_of_getElem? hd) (hc ▸ hp)

theorem Depicts.exists_node (hg : g.Depicts cs) (hc : c ∈ cs) :
    ∃ n m, g.nodeOf? c.id = some n ∧ g.nodes[n]? = some m ∧ m.kind = .loaded ∧ m.commit = c.id := by
  obtain ⟨i, hi⟩ := List.mem_iff_getElem?.mp hc
  obtain ⟨n, m, hm, hk, -, hid⟩ := hg.placed_of_commit hi
  exact ⟨n, m, hid ▸ hg.nodeOf?_commit hm, hm, hk, hid⟩

theorem Depicts.rowOf_eq_of_commit (hg : g.Depicts cs) {i : Nat} (hc : cs[i]? = some c)
    (hn : g.nodeOf? c.id = some n) : g.rowOf n = i := by
  obtain ⟨k, m, hm, -, hrow, hid⟩ := hg.placed_of_commit hc
  rw [← hid, hg.nodeOf?_commit hm, Option.some_inj] at hn
  rw [← hn, rowOf_eq hm, hrow]

theorem Depicts.isHead_iff (hg : g.Depicts cs) :
    g.IsHead n ↔ ∃ c ∈ cs, History.isHead cs c ∧ g.nodeOf? c.id = some n := by
  simp only [History.isHead_iff]
  constructor
  · rintro ⟨m, hm, hk, hup⟩
    obtain ⟨c, hc, hid, -⟩ := hg.commit_of_placed hm hk
    have hnone := (hg.up_eq_nil_iff hm).mp hup
    rw [hid] at hnone
    exact ⟨c, List.mem_of_getElem? hc, hnone, hid ▸ hg.nodeOf?_commit hm⟩
  · rintro ⟨c, hc, hnone, hn⟩
    obtain ⟨k, m, hk, hm, hkind, hid⟩ := hg.exists_node hc
    cases hn.symm.trans hk
    exact ⟨m, hm, hkind, (hg.up_eq_nil_iff hm).mpr (hid ▸ hnone)⟩

theorem Depicts.exists_heads (hg : g.Depicts cs) :
    ∃ ns, (∀ n, n ∈ ns ↔ g.IsHead n) ∧ ns.Pairwise (g.rowOf · < g.rowOf ·) ∧
      List.Forall₂ (fun n c => g.nodeOf? c.id = some n) ns (cs.filter (History.isHead cs)) := by
  refine ⟨(cs.filter (History.isHead cs)).filterMap fun c => g.nodeOf? c.id, ?_, ?_, ?_⟩
  · intro n
    simp only [hg.isHead_iff, List.mem_filterMap, List.mem_filter, and_assoc]
  · have hrows : cs.Pairwise fun c d => ∀ n, g.nodeOf? c.id = some n →
        ∀ k, g.nodeOf? d.id = some k → g.rowOf n < g.rowOf k := by
      rw [List.pairwise_iff_getElem]
      intro i j hi hj hij n hn k hk
      rw [hg.rowOf_eq_of_commit (List.getElem?_eq_getElem hi) hn,
        hg.rowOf_eq_of_commit (List.getElem?_eq_getElem hj) hk]
      exact hij
    exact List.pairwise_filterMap.mpr (hrows.sublist List.filter_sublist)
  · refine (forall₂_filterMap ?_).flip
    intro c hc
    obtain ⟨n, -, hn, -⟩ := hg.exists_node (List.mem_of_mem_filter hc)
    exact ⟨n, hn, hn⟩

/-- A branch comes from a head, which it names if there is a reference on it. -/
theorem exists_head_of_branch (hb : build cs references = .ok g) (hr : g.branches[b]? = some r) :
    ∃ c ∈ cs, History.isHead cs c ∧
      r.head = if ∃ q ∈ references, q.target = c.id then some c.id else none := by
  have hg := depicts_of_build hb
  obtain ⟨hbranched, -⟩ := branched_of_build hb
  induction b using Nat.strong_induction_on generalizing r with
  | _ b ih =>
    cases hbranched.arises hr with
    | @ofHead n m hm hk hup =>
      obtain ⟨c, hc, hid, -⟩ := hg.commit_of_placed hm hk
      have hnone := (hg.up_eq_nil_iff hm).mp hup
      rw [hid] at hnone ⊢
      exact ⟨c, List.mem_of_getElem? hc, History.isHead_iff.mpr hnone, head_ofHead references c.id⟩
    | ofMerge _ _ hlt hq =>
      -- A merge passes on the head of its own branch, which is older.
      obtain ⟨c, hc, hhead, heq⟩ := ih _ hlt hq
      exact ⟨c, hc, hhead, heq⟩

theorem heads_named_iff (hb : build cs references = .ok g) :
    (∀ (b : BranchId) (r : Branch), g.branches[b]? = some r → r.head ≠ none) ↔
      ∀ c ∈ cs, History.isHead cs c → ∃ q ∈ references, q.target = c.id := by
  constructor
  · intro hnamed c hc hhead
    have hg := depicts_of_build hb
    obtain ⟨hbranched, -⟩ := branched_of_build hb
    obtain ⟨n, m, hn, hm, -, hid⟩ := hg.exists_node hc
    have hup := (hg.up_eq_nil_iff hm).mpr (hid ▸ History.isHead_iff.mp hhead)
    have hne := hnamed _ _ (hbranched.branch_of_head hm hup)
    rw [head_ofHead, hid] at hne
    by_contra hnone
    exact hne (if_neg hnone)
  · intro hreferenced b r hr
    obtain ⟨c, hc, hhead, heq⟩ := exists_head_of_branch hb hr
    rw [heq, if_pos (hreferenced c hc hhead)]
    exact Option.some_ne_none _

end Graph

end CommitGraph
