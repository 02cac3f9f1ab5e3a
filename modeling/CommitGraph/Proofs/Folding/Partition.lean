import CommitGraph.Proofs.Folding.Apart

namespace CommitGraph

/-- The node, or both ends of the edge, belong to the chain or bound it. -/
def Chain.Covers (c : Chain) (g : Graph) : Element → Prop
  | .node n => c.has n
  | .edge e => ∃ d, g.edges[e]? = some d ∧ c.has d.upper ∧ c.has d.lower

theorem Chain.has_iff {c : Chain} {n : NodeId} :
    c.has n ↔ c.upper = n ∨ c.lower = n ∨ n ∈ c.inner := by
  simp [Chain.has, or_assoc]

namespace Graph

variable {g : Graph} {c c' : Chain} {n : NodeId} {e : EdgeId} {d : Edge} {el : Element}

theorem Sound.joined_of_upNodes (hg : g.Sound) {m : Node} (hm : g.nodes[n]? = some m) {k : NodeId}
    (hk : k ∈ g.upNodes m) : g.Joined k n := by
  obtain ⟨e, he, hupper⟩ := List.mem_filterMap.mp hk
  obtain ⟨d, hd, rfl⟩ := Option.map_eq_some_iff.mp hupper
  obtain ⟨d', hd', hl⟩ := (hg.mem_up hm).mp he
  cases hd.symm.trans hd'
  exact ⟨e, d, hd, rfl, hl⟩

theorem IsChain.has_of_joined_lower (hg : g.Sound) (hc : g.IsChain c) {k : NodeId}
    (hk : k ∈ c.inner) (hj : g.Joined n k) : c.has n := by
  rw [Chain.has_iff]
  rcases hc.mem_or_eq_upper hg hk hj with hn | hn
  · exact .inr (.inr hn)
  · exact .inl hn.symm

theorem IsChain.has_of_joined_upper (hg : g.Sound) (hc : g.IsChain c) {k : NodeId}
    (hk : k ∈ c.inner) (hj : g.Joined k n) : c.has n := by
  rw [Chain.has_iff]
  rcases hc.mem_or_eq_lower hg hk hj with hn | hn
  · exact .inr (.inr hn)
  · exact .inr (.inl hn.symm)

theorem Sound.exists_of_chainThroughOnly (hg : g.Sound) {ns : List NodeId}
    (hc : g.chainThroughOnly ns = some c) : ∃ k, ns = [k] ∧ k ∈ c.inner := by
  unfold chainThroughOnly at hc
  split at hc
  · next k =>
    split at hc
    · next hk =>
      cases hc
      exact ⟨k, rfl, (hg.isChain_chainThrough hk).2⟩
    · cases hc
  · cases hc

/-- An element belongs to the chain found at it or bounds it. -/
theorem Sound.covers_of_chainAt? (hg : g.Sound) (h : g.chainAt? el = some c) : c.Covers g el := by
  have hc := hg.isChain_of_chainAt? h
  cases el with
  | node n =>
    simp only [chainAt?] at h
    split at h
    · next hs =>
      cases h
      exact Chain.has_iff.mpr (.inr (.inr (hg.isChain_chainThrough hs).2))
    -- A node that is not simple bounds the chain of its only neighbour.
    · obtain ⟨m, hm, h⟩ := Option.bind_eq_some_iff.mp h
      rw [Option.orElse_eq_orElse, Option.orElse_eq_or, Option.or_eq_some_iff] at h
      rcases h with h | ⟨-, h⟩
      · obtain ⟨k, hk, hmem⟩ := hg.exists_of_chainThroughOnly h
        exact hc.has_of_joined_lower hg hmem
          (hg.joined_of_downNodes hm (hk ▸ List.mem_singleton_self k))
      · obtain ⟨k, hk, hmem⟩ := hg.exists_of_chainThroughOnly h
        exact hc.has_of_joined_upper hg hmem
          (hg.joined_of_upNodes hm (hk ▸ List.mem_singleton_self k))
  | edge e =>
    obtain ⟨d, hd, h⟩ := Option.bind_eq_some_iff.mp h
    have hj : g.Joined d.upper d.lower := ⟨e, d, hd, rfl, rfl⟩
    refine ⟨d, hd, ?_⟩
    split at h
    · next hs =>
      cases h
      have hmem := (hg.isChain_chainThrough hs).2
      exact ⟨hc.has_of_joined_lower hg hmem hj, Chain.has_iff.mpr (.inr (.inr hmem))⟩
    · split at h
      · next hs =>
        cases h
        have hmem := (hg.isChain_chainThrough hs).2
        exact ⟨Chain.has_iff.mpr (.inr (.inr hmem)), hc.has_of_joined_upper hg hmem hj⟩
      · cases h

theorem IsChain.chainAt?_node (hg : g.Sound) (hc : g.IsChain c) (hn : n ∈ c.inner) :
    g.chainAt? (.node n) = some c := by
  rw [chainAt?, if_pos (hc.simple n hn), hc.chainThrough_eq hg hn]

theorem IsChain.chainAt?_edge (hg : g.Sound) (hc : g.IsChain c) (he : g.InChain c e) :
    g.chainAt? (.edge e) = some c := by
  obtain ⟨d, hd, hends⟩ := he
  rw [chainAt?, hd, Option.bind_some]
  -- The lower end is asked first; if it is simple, it is inside together with the upper end.
  by_cases hl : d.lower ∈ c.inner
  · rw [if_pos (hc.simple _ hl), hc.chainThrough_eq hg hl]
  · have hu : d.upper ∈ c.inner := hends.resolve_right hl
    have hlower : g.isSimple d.lower = false := by
      by_contra hs
      exact hl (hc.mem_of_joined hg hu ⟨e, d, hd, rfl, rfl⟩ (by simpa using hs))
    rw [hlower, if_neg Bool.false_ne_true, if_pos (hc.simple _ hu), hc.chainThrough_eq hg hu]

/-- The rows of a chain go down all the way from its upper to its lower end. -/
theorem IsChain.pairwise_rowOf (hg : g.Sound) (hc : g.IsChain c) :
    ((c.upper :: c.inner ++ [c.lower]).map g.rowOf).Pairwise (· < ·) := by
  rw [List.pairwise_map]
  exact (hc.joined.imp fun _ _ h => hg.rowOf_lt_rowOf h).pairwise

theorem IsChain.eq_or_disjoint (hg : g.Sound) (hc : g.IsChain c) (hc' : g.IsChain c') :
    c = c' ∨ c.inner.Disjoint c'.inner := by
  by_cases hboth : ∃ n, n ∈ c.inner ∧ n ∈ c'.inner
  · obtain ⟨n, hn, hn'⟩ := hboth
    exact .inl (hc.eq_of_mem hg hc' hn hn')
  · exact .inr fun n hn hn' => hboth ⟨n, hn, hn'⟩

/-- What is found at an element is a longest run of simple nodes, lower and lower between two nodes
that are not simple, and the element belongs to it or bounds it. The runs divide the simple nodes
among them, and each is found at all of its inner nodes and at all edges that touch one. -/
theorem chains_of_build {cs : List Commit} {references : List Reference}
    (hb : build cs references = .ok g) :
    (∀ el c, g.chainAt? el = some c → g.IsChain c ∧ c.upper < g.nodes.size ∧
      c.lower < g.nodes.size ∧ ((c.upper :: c.inner ++ [c.lower]).map g.rowOf).Pairwise (· < ·) ∧
      c.Covers g el) ∧
    (∀ n, g.isSimple n → ∃! c, (∃ el, g.chainAt? el = some c) ∧ n ∈ c.inner) ∧
    (∀ el c, g.chainAt? el = some c → (∀ n ∈ c.inner, g.chainAt? (.node n) = some c) ∧
      ∀ e, g.InChain c e → g.chainAt? (.edge e) = some c) ∧
    ∀ el el' c c', g.chainAt? el = some c → g.chainAt? el' = some c' →
      c = c' ∨ c.inner.Disjoint c'.inner := by
  have hg := (depicts_of_build hb).toSound
  refine ⟨fun el c h => ?_, fun n hn => ?_, fun el c h => ?_, fun el el' c c' h h' => ?_⟩
  · have hc := hg.isChain_of_chainAt? h
    obtain ⟨hupper, hlower⟩ := hc.ends_lt hg
    exact ⟨hc, hupper, hlower, hc.pairwise_rowOf hg, hg.covers_of_chainAt? h⟩
  · obtain ⟨hc, hmem⟩ := hg.isChain_chainThrough hn
    refine ⟨g.chainThrough n, ⟨⟨.node n, hc.chainAt?_node hg hmem⟩, hmem⟩, ?_⟩
    rintro c ⟨⟨el, h⟩, hn⟩
    exact (hg.isChain_of_chainAt? h).eq_of_mem hg hc hn hmem
  · have hc := hg.isChain_of_chainAt? h
    exact ⟨fun n hn => hc.chainAt?_node hg hn, fun e he => hc.chainAt?_edge hg he⟩
  · exact (hg.isChain_of_chainAt? h).eq_or_disjoint hg (hg.isChain_of_chainAt? h')

/-- A chain of three commits above a fork, found from the head that bounds it and from an edge. -/
theorem chains_of_build_fork :
    ∃ (g : Graph) (c : Chain),
      build [⟨0, [1], 0⟩, ⟨1, [2], 0⟩, ⟨2, [3], 0⟩, ⟨3, [4], 0⟩, ⟨5, [4], 0⟩, ⟨4, [], 0⟩] [] =
        .ok g ∧
      g.chainAt? (.node 0) = some c ∧ c.inner = [1, 2, 3] ∧ c.Covers g (.node 0) ∧
      g.chainAt? (.node 2) = some c ∧ g.chainAt? (.edge 3) = some c := by
  have hfork : ∃ (g : Graph) (c : Chain),
      build [⟨0, [1], 0⟩, ⟨1, [2], 0⟩, ⟨2, [3], 0⟩, ⟨3, [4], 0⟩, ⟨5, [4], 0⟩, ⟨4, [], 0⟩] [] =
        .ok g ∧
      g.chainAt? (.node 0) = some c ∧ c.inner = [1, 2, 3] ∧ g.edges[3]? = some ⟨3, 4, 0⟩ :=
    ⟨_, _, rfl, rfl, rfl, rfl⟩
  obtain ⟨g, c, hb, h, hi, he⟩ := hfork
  obtain ⟨hcovers, -, hfound, -⟩ := chains_of_build hb
  obtain ⟨hnode, hedge⟩ := hfound _ c h
  refine ⟨g, c, hb, h, hi, (hcovers _ c h).2.2.2.2, hnode 2 (by simp [hi]), hedge 3 ?_⟩
  exact ⟨_, he, .inl (by simp [hi])⟩

end Graph

end CommitGraph
