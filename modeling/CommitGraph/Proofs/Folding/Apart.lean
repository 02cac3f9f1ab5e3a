import CommitGraph.Proofs.Drawing.Steady
import CommitGraph.Proofs.Folding.Entries

namespace CommitGraph

/-- The row is above the upper end of the chain or below its lower end. -/
def Chain.Off (c : Chain) (g : Graph) (r : Nat) : Prop := r < g.rowOf c.upper ∨ g.rowOf c.lower < r

namespace Graph

variable {g : Graph} {c : Chain} {a b : NodeId} {e : EdgeId} {d : Edge} {r : Nat}

theorem IsChain.off_iff (hg : g.Sound) (hc : g.IsChain c) :
    c.Off g r ↔ (c.span g).has r = false := by
  rw [Chain.Off, RowSpan.has, hc.first_span hg, hc.last_span hg, Bool.and_eq_false_iff,
    decide_eq_false_iff_not, decide_eq_false_iff_not, Nat.not_le, Nat.not_le]

theorem IsChain.mem_or_eq_lower (hg : g.Sound) (hc : g.IsChain c) (ha : a ∈ c.inner)
    (hj : g.Joined a b) : b ∈ c.inner ∨ b = c.lower := by
  by_cases hb : g.isSimple b
  · exact .inl (hc.mem_of_joined hg ha hj hb)
  · obtain ⟨us, ds, hi⟩ := List.mem_iff_append.mp ha
    have hstep := hg.stepDown_eq_some.mpr ⟨hc.simple a ha, hj⟩
    have hstop := hg.stepDown_eq_none.mpr (by simpa using hb)
    exact .inr ((hc.walks hg hi).2.unique (.step hstep (.stop hstop))).2.symm

theorem IsChain.mem_or_eq_upper (hg : g.Sound) (hc : g.IsChain c) (hb : b ∈ c.inner)
    (hj : g.Joined a b) : a ∈ c.inner ∨ a = c.upper := by
  by_cases ha : a ∈ c.inner
  · exact .inl ha
  · obtain ⟨e, d, hd, rfl, rfl⟩ := hj
    obtain ⟨d', hd', hu, -⟩ := hc.enters_of_mem hg hd hb ha
    cases hd.symm.trans hd'
    exact .inr hu

end Graph

namespace Folding

variable {f f' : Folding} {g : Graph} {marked marked' : Chain → Bool} {c : Chain}
  {n k : NodeId} {e : EdgeId} {d : Edge} {r x y : Nat}

theorem visibleAbove_lt_iff (hx : f.isVisible x) :
    f.visibleAbove x < f.visibleAbove y ↔ x < y := by
  constructor
  · intro hlt
    by_contra hle
    have := f.visibleAbove_mono (Nat.le_of_not_lt hle)
    omega
  · exact visibleAbove_lt hx

theorem visibleAbove_eq_succ_iff (hx : f.isVisible x) (hlt : x < y) :
    f.visibleAbove y = f.visibleAbove x + 1 ↔ ∀ z, x < z → z < y → f.isVisible z = false := by
  constructor
  · intro heq z hxz hzy
    by_contra hz
    have hone := visibleAbove_lt hx hxz
    have htwo := visibleAbove_lt (by simpa using hz) hzy
    omega
  · intro hgap
    induction y, hlt using Nat.le_induction with
    | base => rw [visibleAbove_succ, if_pos hx]
    | succ y hle ih =>
      rw [visibleAbove_succ, hgap y hle (Nat.lt_succ_self y), ih fun z hz hzy =>
        hgap z hz (Nat.lt_succ_of_lt hzy)]
      rfl

theorem Hides.marked_of_inChain (hg : g.Sound) (hf : f.Hides g marked) (hc : g.IsChain c)
    (he : g.InChain c e) (hd : g.edges[e]? = some d)
    (hl : f.isNodeVisible g d.lower = false) : marked c := by
  have hmem : d.lower ∈ c.inner := by
    obtain ⟨d', hd', hu | hl'⟩ := he
    · cases hd.symm.trans hd'
      have hs := hf.isSimple hg (Array.getElem?_eq_getElem (hg.lower_lt hd)) hl
      exact hc.mem_of_joined hg hu ⟨e, d, hd, rfl, rfl⟩ hs
    · cases hd.symm.trans hd'
      exact hl'
  rw [hf.isNodeVisible hg hc hmem] at hl
  simpa using hl

theorem Hides.enters_of_inChain (hg : g.Sound) (hf : f.Hides g marked) (hc : g.IsChain c)
    (hmarked : marked c) (he : g.InChain c e) (hd : g.edges[e]? = some d)
    (hu : f.isNodeVisible g d.upper) : g.Enters c e := by
  have hout : d.upper ∉ c.inner := by
    intro hmem
    rw [hf.isNodeVisible hg hc hmem, hmarked] at hu
    cases hu
  obtain ⟨d', hd', hu' | hl⟩ := he
  · cases hd.symm.trans hd'
    exact absurd hu' hout
  · cases hd.symm.trans hd'
    exact hc.enters_of_mem hg hd hl hout

/-- The way of an edge of a chain stays between the ends of the chain. -/
theorem Hides.rows_of_inChain (hg : g.Sound) (hf : f.Hides g marked) (hc : g.IsChain c)
    (he : g.InChain c e) (hd : g.edges[e]? = some d) (hn : g.Reaches f d.lower n) :
    g.rowOf c.upper ≤ g.rowOf d.upper ∧ g.rowOf n ≤ g.rowOf c.lower := by
  have hjoined : g.Joined d.upper d.lower := ⟨e, d, hd, rfl, rfl⟩
  have hends : (d.upper ∈ c.inner ∨ d.upper = c.upper) ∧
      (d.lower ∈ c.inner ∨ d.lower = c.lower) := by
    obtain ⟨d', hd', hu | hl⟩ := he
    · cases hd.symm.trans hd'
      exact ⟨.inl hu, hc.mem_or_eq_lower hg hu hjoined⟩
    · cases hd.symm.trans hd'
      exact ⟨hc.mem_or_eq_upper hg hl hjoined, .inl hl⟩
  constructor
  · rcases hends.1 with hu | hu
    · exact Nat.le_of_lt (hc.rowOf_between hg hu).1
    · rw [hu]
  · cases hv : f.isNodeVisible g d.lower with
    | true =>
      cases hn.unique (.stop hv)
      rcases hends.2 with hl | hl
      · exact Nat.le_of_lt (hc.rowOf_between hg hl).2
      · rw [hl]
    | false =>
      have hmarked := hf.marked_of_inChain hg hc he hd hv
      rcases hends.2 with hl | hl
      · rw [hf.lower_of_reaches hg hc hmarked hl hn]
      · rw [hl, (hf.isNodeVisible_ends hg hc).2] at hv
        cases hv

/-- The marks of two foldings are the same on all chains but one. -/
structure Apart (f f' : Folding) (g : Graph) (marked marked' : Chain → Bool) (c : Chain) :
    Prop where
  hides : f.Hides g marked
  hides' : f'.Hides g marked'
  chain : g.IsChain c
  marked_eq : ∀ c', c' ≠ c → marked c' = marked' c'

theorem Hides.apart_flip (hg : g.Sound) (hf : f.Hides g marked) (hc : g.IsChain c) :
    f.Apart (f.flip g c) g marked (Function.update marked c !marked c) c where
  hides := hf
  hides' := hf.flip hg hc
  chain := hc
  marked_eq _ hne := (Function.update_of_ne hne _ _).symm

theorem Apart.symm (h : f.Apart f' g marked marked' c) : f'.Apart f g marked' marked c :=
  ⟨h.hides', h.hides, h.chain, fun c' hc' => (h.marked_eq c' hc').symm⟩

theorem Apart.hidden (h : f.Apart f' g marked marked' c) (hr : r ∉ c.inner.map g.rowOf)
    (hv : f.isVisible r = false) : f'.isVisible r = false := by
  obtain ⟨c', hc', hmarked, hmem⟩ := (h.hides.hidden_iff r).mp hv
  have hne : c' ≠ c := by
    rintro rfl
    exact hr hmem
  exact (h.hides'.hidden_iff r).mpr ⟨c', hc', h.marked_eq c' hne ▸ hmarked, hmem⟩

theorem Apart.isVisible_eq (h : f.Apart f' g marked marked' c) (hr : r ∉ c.inner.map g.rowOf) :
    f.isVisible r = f'.isVisible r := by
  cases hv : f.isVisible r with
  | false => exact (h.hidden hr hv).symm
  | true =>
    by_contra hne
    have hv' := h.symm.hidden hr (by simpa using Ne.symm hne)
    rw [hv] at hv'
    cases hv'

theorem Apart.isNodeVisible_eq (hg : g.Sound) (h : f.Apart f' g marked marked' c)
    (hlt : n < g.nodes.size) (hn : n ∉ c.inner) : f.isNodeVisible g n = f'.isNodeVisible g n := by
  apply h.isVisible_eq
  intro hmem
  obtain ⟨k, hk, hrow⟩ := List.mem_map.mp hmem
  cases hg.eq_of_rowOf_eq (h.chain.simple k hk) (Array.getElem?_eq_getElem hlt) hrow.symm
  exact hn hk

theorem Apart.reaches (hg : g.Sound) (h : f.Apart f' g marked marked' c)
    (hlt : n < g.nodes.size) (hn : n ∉ c.inner) (hk : g.Reaches f n k) : g.Reaches f' n k := by
  induction hk with
  | stop hv => exact .stop (h.isNodeVisible_eq hg hlt hn ▸ hv)
  | @pass n j k m hv hm hdown _ ih =>
    obtain ⟨e, d, hd, rfl, rfl⟩ := hg.joined_of_downNodes hm (hdown ▸ List.mem_singleton_self j)
    have hj : d.lower ∉ c.inner := by
      intro hmem
      -- A hidden node above an inner node is no end of the chain.
      rcases h.chain.mem_or_eq_upper hg hmem ⟨e, d, hd, rfl, rfl⟩ with hu | hu
      · exact hn hu
      · rw [hu, (h.hides.isNodeVisible_ends hg h.chain).1] at hv
        cases hv
    exact .pass (h.isNodeVisible_eq hg hlt hn ▸ hv) hm hdown (ih (hg.lower_lt hd) hj)

/-- Only inside the chain is a row visible in one of the foldings and hidden in the other, and the
ends of the chain are visible in both. So a row off the chain has the same neighbours. -/
theorem Apart.gap (hg : g.Sound) (h : f.Apart f' g marked marked' c)
    (hoff : c.Off g x ∨ c.Off g y) (hgap : ∀ z, x < z → z < y → f.isVisible z = false) :
    ∀ z, x < z → z < y → f'.isVisible z = false := by
  intro z hxz hzy
  apply h.hidden _ (hgap z hxz hzy)
  intro hmem
  obtain ⟨n, hn, rfl⟩ := List.mem_map.mp hmem
  obtain ⟨hu, hl⟩ := h.chain.rowOf_between hg hn
  obtain ⟨hvu, hvl⟩ := h.hides.isNodeVisible_ends hg h.chain
  by_cases hx : x < g.rowOf c.upper
  · have hhidden := hgap _ hx (Nat.lt_trans hu hzy)
    rw [← Folding.isNodeVisible, hvu] at hhidden
    cases hhidden
  · have hy : g.rowOf c.lower < y := by
      unfold Chain.Off at hoff
      omega
    have hhidden := hgap _ (Nat.lt_trans hxz hl) hy
    rw [← Folding.isNodeVisible, hvl] at hhidden
    cases hhidden

theorem Apart.next_iff (hg : g.Sound) (h : f.Apart f' g marked marked' c) (hx : f.isVisible x)
    (hx' : f'.isVisible x) (hxy : x < y) (hoff : c.Off g x ∨ c.Off g y) :
    f.visibleAbove y = f.visibleAbove x + 1 ↔ f'.visibleAbove y = f'.visibleAbove x + 1 := by
  rw [visibleAbove_eq_succ_iff hx hxy, visibleAbove_eq_succ_iff hx' hxy]
  exact ⟨h.gap hg hoff, h.symm.gap hg hoff⟩

theorem Apart.next (hg : g.Sound) (h : f.Apart f' g marked marked' c) (hx : f.isVisible x)
    (hx' : f'.isVisible x) (hoff : c.Off g x)
    (hy : (g.visibleRows f)[f.visibleAbove x + 1]? = some y) :
    (g.visibleRows f')[f'.visibleAbove x + 1]? = some y ∧ f.isVisible y ∧ f'.isVisible y ∧
      x < y ∧ (y = g.rowOf c.upper ∨ c.Off g y) := by
  obtain ⟨hlt, hv⟩ := Graph.mem_visibleRows.mp (List.mem_of_getElem? hy)
  have hplace := Graph.visibleAbove_of_getElem? hy
  have hxy := (visibleAbove_lt_iff hx).mp (Nat.lt_of_lt_of_eq (Nat.lt_succ_self _) hplace.symm)
  have hgap := (visibleAbove_eq_succ_iff hx hxy).mp hplace
  -- The upper end is always visible, so the next row is not further down inside the chain.
  have hbeside : y = g.rowOf c.upper ∨ c.Off g y := by
    rcases hoff with hu | hl
    · by_contra hin
      unfold Chain.Off at hin
      have hhidden := hgap _ hu (by omega)
      rw [← Folding.isNodeVisible, (h.hides.isNodeVisible_ends hg h.chain).1] at hhidden
      cases hhidden
    · exact .inr (.inr (Nat.lt_trans hl hxy))
  have hv' : f'.isVisible y := by
    rw [← h.isVisible_eq _]
    · exact hv
    · intro hmem
      obtain ⟨n, hn, rfl⟩ := List.mem_map.mp hmem
      have := h.chain.rowOf_between hg hn
      unfold Chain.Off at hbeside
      omega
  have hplace' := (h.next_iff hg hx hx' hxy (.inl hoff)).mp hplace
  exact ⟨hplace' ▸ Graph.getElem?_visibleRows hlt hv', hv, hv', hxy, hbeside⟩

end Folding

end CommitGraph
