import CommitGraph.Graph.Build
import CommitGraph.Proofs.Drawing.Ways
import CommitGraph.Proofs.Graph.Depiction

namespace CommitGraph

namespace Graph

/-- What stands for a commit after contraction: for one inside a folded chain the lower end of the
chain. -/
def standIn (g : Graph) (f : Folding) (c : CommitId) : CommitId :=
  match g.nodeOf? c with
  | none => c
  | some n =>
    if f.isNodeVisible g n then c
    else (g.nodes[(g.chainThrough n).lower]?.map (·.commit)).getD c

/-- The commits in visible rows, each parent replaced by what stands for it. -/
def contract (g : Graph) (f : Folding) (cs : List Commit) : List Commit :=
  (cs.zipIdx.filter fun x => f.isVisible x.2).map fun x =>
    { x.1 with parents := x.1.parents.map (g.standIn f) }

variable {g : Graph} {f : Folding} {cs : List Commit} {c : Commit} {i k : Nat} {n : NodeId}
  {m : Node}

@[simp] theorem length_contract (g : Graph) (f : Folding) (cs : List Commit) :
    (g.contract f cs).length = f.visibleAbove cs.length := by
  rw [contract, List.length_map, length_filter_zipIdx, Folding.visibleAbove]

theorem getElem?_contract : (g.contract f cs)[k]? = some c ↔
    ∃ i b, cs[i]? = some b ∧ f.isVisible i ∧ f.visibleAbove i = k ∧
      c = { b with parents := b.parents.map (g.standIn f) } := by
  rw [contract, List.getElem?_map, Option.map_eq_some_iff]
  constructor
  · rintro ⟨⟨b, i⟩, hb, rfl⟩
    obtain ⟨hi, hv, hk⟩ := getElem?_filter_zipIdx.mp hb
    exact ⟨i, b, hi, hv, hk, rfl⟩
  · rintro ⟨i, b, hi, hv, hk, rfl⟩
    exact ⟨(b, i), getElem?_filter_zipIdx.mpr ⟨hi, hv, hk⟩, rfl⟩

end Graph

namespace Folding

variable {g : Graph} {f : Folding} {marked : Chain → Bool} {n b : NodeId} {m mb : Node}

theorem Hides.lower_of_reaches (hg : g.Sound) (hf : f.Hides g marked) {c : Chain}
    (hc : g.IsChain c) (hmarked : marked c) (hn : n ∈ c.inner) (hb : g.Reaches f n b) :
    c.lower = b := by
  induction hb with
  | stop hv => simp [hf.isNodeVisible hg hc hn, hmarked] at hv
  | @pass n k b m hv hm hdown hb ih =>
    have hjoined := hg.joined_of_downNodes hm (hdown ▸ List.mem_singleton_self k)
    by_cases hk : g.isSimple k
    · exact ih (hc.mem_of_joined hg hn hjoined hk)
    · -- The first node that is not simple is where the walk down stops.
      obtain ⟨us, ds, hi⟩ := List.mem_iff_append.mp hn
      have hwalk := (hc.walks hg hi).2
      have hstep := hg.stepDown_eq_some.mpr ⟨hc.simple n hn, hjoined⟩
      have hstop := hg.stepDown_eq_none.mpr (by simpa using hk)
      have hlower := (hwalk.unique (.step hstep (.stop hstop))).2
      cases hb with
      | stop => exact hlower
      | pass hvk hmk => exact absurd (hf.isSimple hg hmk hvk) hk

/-- What stands for a commit is where the way down from its node leads. -/
theorem Hides.standIn_eq (hg : g.Sound) (hf : f.Hides g marked) (hm : g.nodes[n]? = some m)
    (hb : g.Reaches f n b) (hmb : g.nodes[b]? = some mb) : g.standIn f m.commit = mb.commit := by
  rw [Graph.standIn, hg.nodeOf?_commit hm]
  dsimp only
  split
  · next hv =>
    cases hb.unique (.stop hv)
    cases hm.symm.trans hmb
    rfl
  · next hv =>
    obtain ⟨c, hc, hmarked, hn⟩ := hf.exists_chain hg hm (by simpa using hv)
    rw [hc.chainThrough_eq hg hn, hf.lower_of_reaches hg hc hmarked hn hb, hmb]
    rfl

variable {cs : List Commit} {a c : Commit} {i j : Nat}

theorem Hides.forall₂_standIn (hd : g.Depicts cs) (hf : f.Hides g marked)
    (hm : g.nodes[n]? = some m) (hk : m.kind = .loaded) :
    ∃ c, cs[m.row]? = some c ∧ m.commit = c.id ∧
      List.Forall₂ (fun e p => ∃ (d : Edge) (b : NodeId) (mb : Node), g.edges[e]? = some d ∧
        d.upper = n ∧ g.Reaches f d.lower b ∧ g.nodes[b]? = some mb ∧ mb.commit = p)
        m.down (c.parents.map (g.standIn f)) := by
  obtain ⟨c, hc, hid, hps⟩ := hd.commit_of_placed hm hk
  refine ⟨c, hc, hid, ?_⟩
  rw [List.forall₂_map_right_iff]
  apply (forall₂_mem hps).imp
  rintro e _ ⟨⟨d, ml, he, hml, rfl⟩, hdown, -⟩
  obtain ⟨d', hd', hu⟩ := (hd.mem_down hm).mp hdown
  cases he.symm.trans hd'
  obtain ⟨b, hb⟩ := hf.exists_reaches hd.toSound hml
  have hmb := Array.getElem?_eq_getElem (hb.lt_size hd.toSound (hd.lower_lt he))
  exact ⟨d, b, _, he, hu, hb, hmb, (hf.standIn_eq hd.toSound hml hb hmb).symm⟩

/-- Contraction replaces parents by commits below. -/
theorem Hides.lt_of_mem_standIn (hd : g.Depicts cs) (hf : f.Hides g marked)
    (hi : cs[i]? = some a) (hj : cs[j]? = some c) (hmem : c.id ∈ a.parents.map (g.standIn f)) :
    i < j := by
  obtain ⟨n, m, hm, hk, rfl, -⟩ := hd.placed_of_commit hi
  obtain ⟨n', m', hm', -, rfl, hid'⟩ := hd.placed_of_commit hj
  obtain ⟨a', ha', -, hps⟩ := hf.forall₂_standIn hd hm hk
  cases hi.symm.trans ha'
  obtain ⟨e, -, d, b, mb, he, hu, hb, hmb, hc⟩ := exists_mem_left hps hmem
  cases hd.node_unique hmb hm' (hc.trans hid'.symm)
  have hrow := Nat.lt_of_lt_of_le (hd.row_lt_row he) (hb.rowOf_le hd.toSound)
  rwa [hu, Graph.rowOf_eq hm, Graph.rowOf_eq hm'] at hrow

theorem Hides.childrenFirst_contract (hd : g.Depicts cs) (hf : f.Hides g marked)
    (ho : ChildrenFirst cs) : ChildrenFirst (g.contract f cs) := by
  constructor
  · rw [List.pairwise_iff_getElem]
    intro k l hk hl hkl
    obtain ⟨i, a, hi, -, rfl, ha⟩ := Graph.getElem?_contract.mp (List.getElem?_eq_getElem hk)
    obtain ⟨j, c, hj, -, rfl, hc⟩ := Graph.getElem?_contract.mp (List.getElem?_eq_getElem hl)
    rw [ha, hc]
    -- Contraction keeps the order of the commits that it keeps.
    have hij : i < j := by
      by_contra hji
      have := f.visibleAbove_mono (Nat.le_of_not_lt hji)
      omega
    constructor
    · obtain ⟨hi', rfl⟩ := List.getElem?_eq_some_iff.mp hi
      obtain ⟨hj', rfl⟩ := List.getElem?_eq_some_iff.mp hj
      exact (List.pairwise_iff_getElem.mp ho.1 i j hi' hj' hij).1
    · intro hmem
      exact Nat.lt_asymm hij (hf.lt_of_mem_standIn hd hj hi hmem)
  · intro b hb
    obtain ⟨k, hk⟩ := List.mem_iff_getElem?.mp hb
    obtain ⟨i, a, hi, -, -, rfl⟩ := Graph.getElem?_contract.mp hk
    intro hmem
    exact Nat.lt_irrefl i (hf.lt_of_mem_standIn hd hi hi hmem)

theorem Hides.exists_edge_into (hg : g.Sound) (hf : f.Hides g marked)
    (hm : g.nodes[n]? = some m) (hup : m.up ≠ []) (hb : g.Reaches f n b) :
    ∃ (e : EdgeId) (d : Edge), g.edges[e]? = some d ∧ f.isNodeVisible g d.upper ∧
      g.Reaches f d.lower b := by
  -- A hidden upper end has an edge into it in turn, from a row further up.
  induction hk : g.rowOf n using Nat.strong_induction_on generalizing n m with
  | _ k ih =>
    obtain ⟨e, es, hes⟩ := List.exists_cons_of_ne_nil hup
    obtain ⟨d, hd, rfl⟩ := (hg.mem_up hm).mp (hes ▸ List.mem_cons_self)
    cases hv : f.isNodeVisible g d.upper with
    | true => exact ⟨e, d, hd, hv, hb⟩
    | false =>
      obtain ⟨mu, hmu, -⟩ := hg.exists_upper hd
      have hsimple := hf.isSimple hg hmu hv
      obtain ⟨mu', e₁, -, hmu', hup', -⟩ := hg.up_of_simple hsimple
      cases hmu.symm.trans hmu'
      obtain ⟨mu', e₂, -, hmu', hdown, -⟩ := hg.down_of_simple hsimple
      cases hmu.symm.trans hmu'
      have he := (hg.mem_down hmu).mpr ⟨d, hd, rfl⟩
      rw [hdown, List.mem_singleton] at he
      have hstep : g.downNodes mu = [d.lower] := by simp [Graph.downNodes, hdown, ← he, hd]
      exact ih _ (hk ▸ hg.row_lt_row hd) hmu (by simp [hup']) (.pass hv hmu hstep hb) rfl

theorem Hides.isNodeVisible_of_unloaded (hg : g.Sound) (hf : f.Hides g marked)
    (hm : g.nodes[n]? = some m) (hk : m.kind = .unloaded) : f.isNodeVisible g n := by
  by_contra hv
  obtain ⟨m', e, d, -, -, hd, rfl⟩ := hg.down_of_simple (hf.isSimple hg hm (by simpa using hv))
  obtain ⟨m', hm', hk'⟩ := hg.exists_upper hd
  cases hm.symm.trans hm'
  simp [hk] at hk'

end Folding

namespace Graph

/-- The nodes of two graphs stand for one commit. -/
def SameCommit (g g' : Graph) (n n' : NodeId) : Prop :=
  ∃ m m', g.nodes[n]? = some m ∧ g'.nodes[n']? = some m' ∧ m.commit = m'.commit

/-- The way of an edge of the first graph and an edge of the second lead to one commit. -/
def SameTarget (g g' : Graph) (f : Folding) (e e' : EdgeId) : Prop :=
  ∃ (d d' : Edge) (b : NodeId), g.edges[e]? = some d ∧ g'.edges[e']? = some d' ∧
    g.Reaches f d.lower b ∧ g.SameCommit g' b d'.lower

/-- The second graph depicts the history of the first with the marked chains contracted. -/
structure Contracts (g g' : Graph) (f : Folding) (marked : Chain → Bool) (cs : List Commit) :
    Prop where
  depicts : g.Depicts cs
  hides : f.Hides g marked
  depicts' : g'.Depicts (g.contract f cs)

variable {g g' : Graph} {f : Folding} {marked : Chain → Bool} {cs : List Commit}
  {n k n' k' : NodeId} {m m' : Node}

theorem SameCommit.biUnique (hg : g.Sound) (hg' : g'.Sound) :
    Relator.BiUnique (g.SameCommit g') := by
  constructor
  · rintro n k n' ⟨m, m', hm, hm', hc⟩ ⟨mk, mk', hmk, hmk', hck⟩
    cases hm'.symm.trans hmk'
    exact hg.node_unique hm hmk (hc.trans hck.symm)
  · rintro n n' k' ⟨m, m', hm, hm', hc⟩ ⟨mk, mk', hmk, hmk', hck⟩
    cases hm.symm.trans hmk
    exact hg'.node_unique hm' hmk' (hc.symm.trans hck)

theorem Contracts.exists_loaded (h : g.Contracts g' f marked cs) (hm : g.nodes[n]? = some m)
    (hk : m.kind = .loaded) (hv : f.isNodeVisible g n) :
    ∃ (n' : NodeId) (m' : Node), g'.nodes[n']? = some m' ∧ m'.kind = .loaded ∧
      m'.row = f.visibleAbove m.row ∧ m.commit = m'.commit ∧
      List.Forall₂ (g.SameTarget g' f) m.down m'.down := by
  obtain ⟨c, hc, hid, hps⟩ := h.hides.forall₂_standIn h.depicts hm hk
  rw [Folding.isNodeVisible, rowOf_eq hm] at hv
  have hc' : (g.contract f cs)[f.visibleAbove m.row]? =
      some { c with parents := c.parents.map (g.standIn f) } :=
    getElem?_contract.mpr ⟨m.row, c, hc, hv, rfl, rfl⟩
  obtain ⟨n', m', hm', hk', hr', hid'⟩ := h.depicts'.placed_of_commit hc'
  obtain ⟨c', hc'', -, hps'⟩ := h.depicts'.commit_of_placed hm' hk'
  rw [hr', hc'] at hc''
  cases hc''
  refine ⟨n', m', hm', hk', hr', hid.trans hid'.symm, (forall₂_of_right hps hps').imp ?_⟩
  rintro e e' ⟨p, ⟨d, b, mb, he, -, hb, hmb, hp⟩, d', ml, hd', hml, hp'⟩
  exact ⟨d, d', b, he, hd', hb, mb, ml, hmb, hml, hp.trans hp'.symm⟩

theorem Contracts.exists_unloaded (h : g.Contracts g' f marked cs) (hm : g.nodes[n]? = some m)
    (hk : m.kind = .unloaded) :
    ∃ (n' : NodeId) (m' : Node), g'.nodes[n']? = some m' ∧ m'.kind = .unloaded ∧
      m'.row = f.visibleAbove m.row ∧ m.commit = m'.commit := by
  have hg := h.depicts.toSound
  have hv := h.hides.isNodeVisible_of_unloaded hg hm hk
  obtain ⟨e, d, hd, hu, hb⟩ := h.hides.exists_edge_into hg hm (hg.up_ne_nil hm hk) (.stop hv)
  obtain ⟨mu, hmu, hku⟩ := hg.exists_upper hd
  obtain ⟨u', mu', -, -, -, -, hdown⟩ := h.exists_loaded hmu hku hu
  have he := (hg.mem_down hmu).mpr ⟨d, hd, rfl⟩
  obtain ⟨e', -, d₁, d', b, hd₁, -, hb₁, m₁, m', hm₁, hm', hc⟩ := exists_mem_right hdown he
  cases hd.symm.trans hd₁
  cases hb.unique hb₁
  cases hm.symm.trans hm₁
  obtain ⟨hrow, hout⟩ := h.depicts.waiting_row hm hk
  -- Contraction adds no commits, so the parent is outside the contracted history too.
  have hk' : m'.kind = .unloaded := by
    cases hk' : m'.kind with
    | unloaded => rfl
    | loaded =>
      obtain ⟨c', hc', hid', -⟩ := h.depicts'.commit_of_placed hm' hk'
      obtain ⟨i, c, hi, -, -, rfl⟩ := getElem?_contract.mp hc'
      exact absurd (List.mem_map.mpr ⟨c, List.mem_of_getElem? hi, (hc.trans hid').symm⟩) hout
  obtain ⟨hrow', -⟩ := h.depicts'.waiting_row hm' hk'
  exact ⟨d'.lower, m', hm', hk', by rw [hrow', length_contract, hrow], hc⟩

/-- A visible node has a counterpart of its kind, in its place among the visible rows, whose edges
lead to the same commits. -/
theorem Contracts.exists_same (h : g.Contracts g' f marked cs) (hm : g.nodes[n]? = some m)
    (hv : f.isNodeVisible g n) :
    ∃ (n' : NodeId) (m' : Node), g'.nodes[n']? = some m' ∧ m.commit = m'.commit ∧
      m.kind = m'.kind ∧ m'.row = f.visibleAbove m.row ∧
      List.Forall₂ (g.SameTarget g' f) m.down m'.down := by
  cases hk : m.kind with
  | loaded =>
    obtain ⟨n', m', hm', hk', hr', hc, hdown⟩ := h.exists_loaded hm hk hv
    exact ⟨n', m', hm', hc, hk'.symm, hr', hdown⟩
  | unloaded =>
    obtain ⟨n', m', hm', hk', hr', hc⟩ := h.exists_unloaded hm hk
    refine ⟨n', m', hm', hc, hk'.symm, hr', ?_⟩
    rw [h.depicts.down_eq_nil hm hk, h.depicts'.down_eq_nil hm' hk']
    exact .nil

theorem Contracts.of_sameCommit (h : g.Contracts g' f marked cs) (hm : g.nodes[n]? = some m)
    (hv : f.isNodeVisible g n) (hm' : g'.nodes[n']? = some m') (hc : m.commit = m'.commit) :
    m.kind = m'.kind ∧ m'.row = f.visibleAbove m.row ∧
      List.Forall₂ (g.SameTarget g' f) m.down m'.down := by
  obtain ⟨k', mk, hmk, hck, hall⟩ := h.exists_same hm hv
  cases h.depicts'.node_unique hmk hm' (hck.symm.trans hc)
  cases hmk.symm.trans hm'
  exact hall

theorem Contracts.exists_visible_loaded (h : g.Contracts g' f marked cs)
    (hm' : g'.nodes[n']? = some m') (hk' : m'.kind = .loaded) :
    ∃ (n : NodeId) (m : Node), g.nodes[n]? = some m ∧ f.isNodeVisible g n ∧
      m.commit = m'.commit := by
  obtain ⟨c', hc', hid', -⟩ := h.depicts'.commit_of_placed hm' hk'
  obtain ⟨i, c, hi, hv, -, rfl⟩ := getElem?_contract.mp hc'
  obtain ⟨n, m, hm, -, rfl, hid⟩ := h.depicts.placed_of_commit hi
  exact ⟨n, m, hm, by rwa [Folding.isNodeVisible, rowOf_eq hm], hid.trans hid'.symm⟩

/-- Every node of the contracted history is such a counterpart. -/
theorem Contracts.exists_visible (h : g.Contracts g' f marked cs) (hm' : g'.nodes[n']? = some m') :
    ∃ (n : NodeId) (m : Node), g.nodes[n]? = some m ∧ f.isNodeVisible g n ∧
      m.commit = m'.commit := by
  cases hk' : m'.kind with
  | loaded => exact h.exists_visible_loaded hm' hk'
  | unloaded =>
    have hg' := h.depicts'.toSound
    obtain ⟨e', es, hes⟩ := List.exists_cons_of_ne_nil (hg'.up_ne_nil hm' hk')
    obtain ⟨d', hd', rfl⟩ := (hg'.mem_up hm').mp (hes ▸ List.mem_cons_self)
    obtain ⟨mu', hmu', hku'⟩ := hg'.exists_upper hd'
    obtain ⟨u, mu, hmu, hv, hc⟩ := h.exists_visible_loaded hmu' hku'
    obtain ⟨-, -, hdown⟩ := h.of_sameCommit hmu hv hmu' hc
    have he' := (hg'.mem_down hmu').mpr ⟨d', hd', rfl⟩
    obtain ⟨e, -, d, d₁', b, -, hd₁', hb, m, m₁', hm, hm₁', hcb⟩ := exists_mem_left hdown he'
    cases hd'.symm.trans hd₁'
    cases hm'.symm.trans hm₁'
    exact ⟨b, m, hm, hb.isNodeVisible, hcb⟩

theorem Contracts.size_rows (h : g.Contracts g' f marked cs) :
    g'.rows.size = f.visibleAbove g.rows.size := by
  have hg := h.depicts.toSound
  have hg' := h.depicts'.toSound
  -- Every row has a node, whose counterpart has a row of its own.
  rcases Nat.lt_trichotomy g'.rows.size (f.visibleAbove g.rows.size) with hlt | heq | hlt
  · rw [← length_visibleRows] at hlt
    have hi := List.getElem?_eq_getElem hlt
    obtain ⟨hr, hv⟩ := mem_visibleRows.mp (List.mem_of_getElem? hi)
    obtain ⟨n, m, hm, hmr⟩ := hg.exists_of_row hr
    rw [← hmr, ← rowOf_eq hm] at hv
    obtain ⟨n', m', hm', -, -, hrow, -⟩ := h.exists_same hm hv
    rw [hmr, visibleAbove_of_getElem? hi, ← rowOf_eq hm'] at hrow
    exact absurd (hg'.rowOf_lt_size hm') (by omega)
  · exact heq
  · obtain ⟨n', m', hm', hmr'⟩ := hg'.exists_of_row hlt
    obtain ⟨n, m, hm, hv, hc⟩ := h.exists_visible hm'
    obtain ⟨-, hrow, -⟩ := h.of_sameCommit hm hv hm' hc
    have hplace := Folding.visibleAbove_lt hv (hg.rowOf_lt_size hm)
    rw [rowOf_eq hm] at hplace
    omega

end Graph

end CommitGraph
