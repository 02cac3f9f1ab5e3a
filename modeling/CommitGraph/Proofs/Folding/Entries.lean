import CommitGraph.Proofs.Folding.Contraction

namespace CommitGraph

/-- The edge leads from the upper end of the chain to its first inner node. -/
def Graph.Enters (g : Graph) (c : Chain) (e : EdgeId) : Prop :=
  ∃ d, g.edges[e]? = some d ∧ d.upper = c.upper ∧ c.inner.head? = some d.lower

/-- The rows inside the chain are hidden. -/
def Folding.FoldsAway (f : Folding) (g : Graph) (c : Chain) : Prop :=
  g.IsChain c ∧ ∀ n ∈ c.inner, f.isNodeVisible g n = false

namespace Graph

variable {g : Graph} {c c' : Chain} {e e' : EdgeId} {d d' : Edge}

theorem Sound.edge_into_simple (hg : g.Sound) (hs : g.isSimple d.lower)
    (hd : g.edges[e]? = some d) (hd' : g.edges[e']? = some d') (hl : d'.lower = d.lower) :
    e = e' := by
  obtain ⟨m, e₀, -, hm, hup, -⟩ := hg.up_of_simple hs
  have he := (hg.mem_up hm).mpr ⟨d, hd, rfl⟩
  have he' := (hg.mem_up hm).mpr ⟨d', hd', hl⟩
  rw [hup, List.mem_singleton] at he he'
  exact he.trans he'.symm

theorem Enters.lower_mem (h : g.Enters c e) (hd : g.edges[e]? = some d) : d.lower ∈ c.inner := by
  obtain ⟨d', hd', -, hl⟩ := h
  cases hd.symm.trans hd'
  exact List.mem_of_head? hl

theorem IsChain.exists_enters (hc : g.IsChain c) : ∃ e, g.Enters c e := by
  obtain ⟨n, ns, hi⟩ := List.exists_cons_of_ne_nil hc.inner_ne_nil
  have hjoined := hc.joined
  rw [hi] at hjoined
  obtain ⟨e, d, hd, hu, rfl⟩ := (List.isChain_cons_cons.mp hjoined).1
  exact ⟨e, d, hd, hu, by rw [hi, List.head?_cons]⟩

theorem IsChain.enters_unique (hg : g.Sound) (hc : g.IsChain c) (h : g.Enters c e)
    (h' : g.Enters c e') : e = e' := by
  obtain ⟨d, hd, -, hl⟩ := h
  obtain ⟨d', hd', -, hl'⟩ := h'
  exact hg.edge_into_simple (hc.simple _ (List.mem_of_head? hl)) hd hd'
    (Option.some_inj.mp (hl'.symm.trans hl))

theorem Enters.chain_unique (hg : g.Sound) (hc : g.IsChain c) (hc' : g.IsChain c')
    (h : g.Enters c e) (h' : g.Enters c' e) : c = c' := by
  obtain ⟨d, hd, -⟩ := id h
  exact hc.eq_of_mem hg hc' (h.lower_mem hd) (h'.lower_mem hd)

theorem IsChain.enters_of_mem (hg : g.Sound) (hc : g.IsChain c) (hd : g.edges[e]? = some d)
    (hl : d.lower ∈ c.inner) (hu : d.upper ∉ c.inner) : g.Enters c e := by
  obtain ⟨us, ds, hi⟩ := List.mem_iff_append.mp hl
  have hwalk := (hc.walks hg hi).1
  have hstep := hg.stepUp_eq_some.mpr ⟨hc.simple _ hl, e, d, hd, rfl, rfl⟩
  generalize htop : c.upper = top at hwalk
  cases hwalk with
  | step hs hw =>
    cases hs.symm.trans hstep
    generalize hrev : us.reverse = above at hw
    cases hw with
    | stop =>
      rw [List.reverse_eq_nil_iff.mp hrev] at hi
      exact ⟨d, hd, htop.symm, by rw [hi, List.nil_append, List.head?_cons]⟩
    | step =>
      -- The walk up goes on inside the chain.
      have hmem : d.upper ∈ us := List.mem_reverse.mp (hrev ▸ List.mem_cons_self)
      exact absurd (hi ▸ List.mem_append_left _ hmem) hu

theorem Enters.chainAt?_eq (hg : g.Sound) (hc : g.IsChain c) (h : g.Enters c e) :
    g.chainAt? (.edge e) = some c := by
  obtain ⟨d, hd, -⟩ := id h
  have hl := h.lower_mem hd
  simp only [chainAt?, hd, Option.bind_some]
  rw [if_pos (hc.simple _ hl), hc.chainThrough_eq hg hl]

theorem IsChain.rowOf_between (hg : g.Sound) (hc : g.IsChain c) {n : NodeId} (hn : n ∈ c.inner) :
    g.rowOf c.upper < g.rowOf n ∧ g.rowOf n < g.rowOf c.lower := by
  have hrows := (hc.joined.imp fun _ _ h => hg.rowOf_lt_rowOf h).pairwise
  exact ⟨(List.pairwise_cons.mp hrows).1 n (List.mem_append_left _ hn),
    (List.pairwise_append.mp hrows).2.2 n (List.mem_cons_of_mem _ hn) _
      (List.mem_singleton_self _)⟩

theorem IsChain.rowOf_lt_rowOf (hg : g.Sound) (hc : g.IsChain c) :
    g.rowOf c.upper < g.rowOf c.lower := by
  obtain ⟨n, ns, hi⟩ := List.exists_cons_of_ne_nil hc.inner_ne_nil
  obtain ⟨hu, hl⟩ := hc.rowOf_between hg (hi ▸ List.mem_cons_self : n ∈ c.inner)
  exact Nat.lt_trans hu hl

theorem IsChain.first_span (hg : g.Sound) (hc : g.IsChain c) :
    (c.span g).first = g.rowOf c.upper :=
  Nat.min_eq_left (Nat.le_of_lt (hc.rowOf_lt_rowOf hg))

theorem IsChain.last_span (hg : g.Sound) (hc : g.IsChain c) :
    (c.span g).last = g.rowOf c.lower :=
  Nat.max_eq_right (Nat.le_of_lt (hc.rowOf_lt_rowOf hg))

end Graph

namespace Folding

variable {g : Graph} {f : Folding} {marked : Chain → Bool} {c : Chain} {e : EdgeId} {d : Edge}

theorem Hides.foldsAway_iff (hg : g.Sound) (hf : f.Hides g marked) (hc : g.IsChain c) :
    f.FoldsAway g c ↔ marked c := by
  constructor
  · rintro ⟨-, hall⟩
    obtain ⟨n, ns, hi⟩ := List.exists_cons_of_ne_nil hc.inner_ne_nil
    have hn : n ∈ c.inner := by simp [hi]
    have hv := hf.isNodeVisible hg hc hn
    rw [hall n hn] at hv
    simpa using hv.symm
  · intro hm
    exact ⟨hc, fun n hn => by rw [hf.isNodeVisible hg hc hn, hm, Bool.not_true]⟩

theorem Hides.exists_entered (hg : g.Sound) (hf : f.Hides g marked) (hd : g.edges[e]? = some d)
    (hu : f.isNodeVisible g d.upper) (hl : f.isNodeVisible g d.lower = false) :
    ∃ c, f.FoldsAway g c ∧ g.Enters c e := by
  obtain ⟨c, hc, hmarked, hmem⟩ :=
    hf.exists_chain hg (Array.getElem?_eq_getElem (hg.lower_lt hd)) hl
  have hfolds := (hf.foldsAway_iff hg hc).mpr hmarked
  refine ⟨c, hfolds, hc.enters_of_mem hg hd hmem fun hmem => ?_⟩
  rw [hfolds.2 _ hmem] at hu
  cases hu

/-- The ends of a chain are always visible. -/
theorem Hides.isNodeVisible_ends (hg : g.Sound) (hf : f.Hides g marked) (hc : g.IsChain c) :
    f.isNodeVisible g c.upper ∧ f.isNodeVisible g c.lower := by
  have hvisible : ∀ n, n < g.nodes.size → g.isSimple n = false → f.isNodeVisible g n := by
    intro n hn hs
    by_contra hv
    rw [hf.isSimple hg (Array.getElem?_eq_getElem hn) (by simpa using hv)] at hs
    cases hs
  obtain ⟨hu, hl⟩ := hc.ends_lt hg
  exact ⟨hvisible _ hu hc.upper_not_simple, hvisible _ hl hc.lower_not_simple⟩

theorem Hides.isVisible_flip (hg : g.Sound) (hf : f.Hides g marked) (hc : f.FoldsAway g c)
    (row : Nat) : (f.flip g c).isVisible row =
      if row ∈ c.inner.map g.rowOf then true else f.isVisible row := by
  have hmarked := (hf.foldsAway_iff hg hc.1).mp hc
  rw [Folding.flip, hf.isFolded hg hc.1, hmarked, isVisible_setNodes]
  by_cases hrow : row ∈ c.inner.map g.rowOf
  · obtain ⟨n, hn, rfl⟩ := List.mem_map.mp hrow
    obtain ⟨m, hm, -⟩ := Graph.isSimple_iff.mp (hc.1.simple n hn)
    rw [if_pos ⟨hrow, hf.size_eq ▸ hg.rowOf_lt_size hm⟩, if_pos hrow, Bool.not_true, Bool.not_false]
  · rw [if_neg (mt And.left hrow), if_neg hrow]

end Folding

end CommitGraph
