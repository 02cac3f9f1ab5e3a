import CommitGraph.Proofs.Drawing.Alike
import CommitGraph.Proofs.Folding.Contraction

namespace CommitGraph

namespace Graph

/-- Nodes for one commit, or edges at one place among the edges to the parents of one commit. -/
inductive SameElement (g g' : Graph) : Element → Element → Prop
  | node {n n' : NodeId} : g.SameCommit g' n n' → SameElement g g' (.node n) (.node n')
  | edge {u u' : NodeId} {m m' : Node} {k : Nat} {e e' : EdgeId} : g.nodes[u]? = some m →
    g'.nodes[u']? = some m' → m.commit = m'.commit → m.down[k]? = some e → m'.down[k]? = some e' →
    SameElement g g' (.edge e) (.edge e')

/-- Cells of one kind in one column, for what is the same in both graphs. -/
structure SameCell (g g' : Graph) (c c' : Cell) : Prop where
  column_eq : c.column = c'.column
  kind_eq : c.kind = c'.kind
  element : g.SameElement g' c.element c'.element

structure SameLink (g g' : Graph) (l l' : Link) : Prop where
  upColumn_eq : l.upColumn = l'.upColumn
  downColumn_eq : l.downColumn = l'.downColumn
  element : g.SameElement g' (.edge l.edge) (.edge l'.edge)

structure SameRow (g g' : Graph) (r r' : DrawnRow) : Prop where
  cells : List.Forall₂ (g.SameCell g') r.cells r'.cells
  links : List.Forall₂ (g.SameLink g') r.links r'.links

def AllUnloaded (g : Graph) (r : Nat) : Prop :=
  ∀ n ∈ g.nodesInRow r, ∃ m, g.nodes[n]? = some m ∧ m.kind = .unloaded

variable {g g' : Graph} {e e₁ e₂ : EdgeId}

/-- A parent outside the history shares its row with such parents only. -/
theorem Sound.allUnloaded (hg : g.Sound) {n : NodeId} {m : Node} (hm : g.nodes[n]? = some m)
    (hkind : m.kind = .unloaded) : g.AllUnloaded m.row := by
  intro k hk
  obtain ⟨mk, hmk, hrow⟩ := hg.mem_nodesInRow.mp hk
  cases hkk : mk.kind with
  | unloaded => exact ⟨mk, hmk, hkk⟩
  | loaded =>
    have hmem := hg.mem_nodesInRow.mpr ⟨m, hm, hrow.symm⟩
    rw [hg.nodesInRow_eq hmk hkk, List.mem_singleton] at hmem
    cases hmem
    cases hm.symm.trans hmk
    simp [hkk] at hkind

theorem SameElement.symm {x x' : Element} (h : g.SameElement g' x x') : g'.SameElement g x' x := by
  cases h with
  | node h =>
    obtain ⟨m, m', hm, hm', hc⟩ := h
    exact .node ⟨m', m, hm', hm, hc.symm⟩
  | edge hm hm' hc he he' => exact .edge hm' hm hc.symm he' he

theorem SameElement.edge_unique (hg : g.Sound) (hg' : g'.Sound)
    (h₁ : g.SameElement g' (.edge e) (.edge e₁)) (h₂ : g.SameElement g' (.edge e) (.edge e₂)) :
    e₁ = e₂ := by
  cases h₁ with
  | edge hm hm₁ hc₁ he he₁ =>
    cases h₂ with
    | edge hm' hm₂ hc₂ he' he₂ =>
      obtain ⟨rfl, rfl⟩ := hg.edge_place hm hm' he he'
      cases hm.symm.trans hm'
      cases hg'.node_unique hm₁ hm₂ (hc₁.symm.trans hc₂)
      cases hm₁.symm.trans hm₂
      exact Option.some_inj.mp (he₁.symm.trans he₂)

end Graph

namespace Plan

/-- Wires for one edge between the same places and to the same commit. -/
structure SameWire (p q : Plan) (f : Folding) (w w' : Wire) : Prop where
  element : p.graph.SameElement q.graph (.edge w.edge) (.edge w'.edge)
  lower : p.graph.SameCommit q.graph w.lower w'.lower
  top_eq : w.top = w'.top
  bottom_eq : w.bottom = w'.bottom
  isWire : ∃ d, p.graph.IsWire f d w
  isWire' : ∃ d, q.graph.IsWire (.unfolded q.graph.rows.size) d w'

abbrev SameSlot (p q : Plan) (f : Folding) : Slot → Slot → Prop :=
  Slot.Alike (p.graph.SameCommit q.graph) (p.SameWire q f)

/-- A plan with the marked chains folded away, and one for the contracted history. -/
structure Mirrors (p q : Plan) (f : Folding) (marked : Chain → Bool) (cs : List Commit) : Prop where
  contracts : p.graph.Contracts q.graph f marked cs
  follows : p.Follows f
  unfolded : q.Follows (.unfolded q.graph.rows.size)
  options_eq : q.options = p.options

variable {p q : Plan} {f : Folding} {marked : Chain → Bool} {cs : List Commit} {n n' : NodeId}
  {m m' : Node} {w w' : Wire} {i r : Nat} {above above' : List Slot}

theorem Mirrors.sound (h : p.Mirrors q f marked cs) : p.graph.Sound := h.contracts.depicts.toSound

theorem Mirrors.sound' (h : p.Mirrors q f marked cs) : q.graph.Sound := h.contracts.depicts'.toSound

theorem Mirrors.levelled (h : p.Mirrors q f marked cs) : p.Levelled (p.graph.visibleRows f) :=
  h.follows.levelled h.sound

theorem Mirrors.levelled' (h : p.Mirrors q f marked cs) :
    q.Levelled (q.graph.visibleRows (.unfolded q.graph.rows.size)) :=
  h.unfolded.levelled h.sound'

theorem Mirrors.row_eq (h : p.Mirrors q f marked cs)
    (hr : (p.graph.visibleRows f)[i]? = some r) :
    (q.graph.visibleRows (.unfolded q.graph.rows.size))[i]? = some i := by
  have hlt := (List.getElem?_eq_some_iff.mp hr).1
  rw [Graph.length_visibleRows, ← h.contracts.size_rows] at hlt
  rw [Graph.visibleRows_unfolded, List.getElem?_range hlt]

theorem SameWire.biUnique (hg : p.graph.Sound) (hg' : q.graph.Sound) :
    Relator.BiUnique (p.SameWire q f) := by
  constructor
  · intro v w w' h h'
    obtain ⟨d, hd⟩ := h.isWire
    obtain ⟨d', hd'⟩ := h'.isWire
    exact hd.unique hd' (h.element.symm.edge_unique hg' hg h'.element.symm)
  · intro w v v' h h'
    obtain ⟨d, hd⟩ := h.isWire'
    obtain ⟨d', hd'⟩ := h'.isWire'
    exact hd.unique hd' (h.element.edge_unique hg hg' h'.element)

theorem SameSlot.biUnique (hg : p.graph.Sound) (hg' : q.graph.Sound) :
    Relator.BiUnique (p.SameSlot q f) :=
  Slot.Alike.biUnique (Graph.SameCommit.biUnique hg hg') (SameWire.biUnique hg hg')

theorem SameWire.alike_arrival (h : p.SameWire q f w w') (i : Nat) :
    p.SameSlot q f (arrival i w) (arrival i w') := by
  unfold arrival
  rw [← h.bottom_eq]
  split
  · exact .node h.lower
  · exact .wire h

theorem Mirrors.sameWires (h : p.Mirrors q f marked cs) (hv : f.isNodeVisible p.graph n)
    (hn : p.graph.SameCommit q.graph n n') :
    List.Forall₂ (p.SameWire q f) (p.wiresFrom n) (q.wiresFrom n') := by
  obtain ⟨m, m', hm, hm', hc⟩ := hn
  obtain ⟨-, hrow, hdown⟩ := h.contracts.of_sameCommit hm hv hm' hc
  have hwires := h.follows.forall₂_wiresFrom hm hv
  have hwires' := h.unfolded.forall₂_wiresFrom hm' (Graph.isNodeVisible_unfolded _ _ _)
  refine forall₂_of_getElem? ?_ fun k w w' hw hw' => ?_
  · rw [← hwires.length_eq, hdown.length_eq, hwires'.length_eq]
  · obtain ⟨e, he, rfl, d, hd⟩ := exists_getElem?_left hwires hw
    obtain ⟨e', he', rfl, d', hd'⟩ := exists_getElem?_left hwires' hw'
    obtain ⟨e', he'', d₁, d₁', b, hd₁, hd₁', hb, hsame⟩ := exists_getElem?_right hdown he
    cases he'.symm.trans he''
    cases hd.found.symm.trans hd₁
    cases hd'.found.symm.trans hd₁'
    have hlower := hd.reaches.unique hb
    have hlower' := hd'.lower_eq_unfolded
    have hupper := (h.levelled.upper_eq (List.mem_of_getElem? hw)).symm.trans hd.upper_eq
    have hupper' := (h.levelled'.upper_eq (List.mem_of_getElem? hw')).symm.trans hd'.upper_eq
    rw [← hlower, ← hlower'] at hsame
    refine ⟨.edge hm hm' hc he he', hsame, ?_, ?_, ⟨d, hd⟩, ⟨d', hd'⟩⟩
    · rw [hd.top_eq, hd'.top_eq, ← hupper, ← hupper', Graph.rowOf_eq hm, Graph.rowOf_eq hm', hrow,
        Folding.visibleAbove_unfolded]
    · obtain ⟨mb, mb', hmb, hmb', hcb⟩ := hsame
      obtain ⟨-, hrowb, -⟩ := h.contracts.of_sameCommit hmb hd.reaches.isNodeVisible hmb' hcb
      rw [hd.bottom_eq, hd'.bottom_eq, Graph.rowOf_eq hmb, Graph.rowOf_eq hmb', hrowb,
        Folding.visibleAbove_unfolded]

theorem Follows.exists_arrival (hp : p.Follows f) (hg : p.graph.Sound)
    (hf : f.Hides p.graph marked) (hr : (p.graph.visibleRows f)[i]? = some r)
    (hc : p.Crosses above i) (hm : p.graph.nodes[n]? = some m) (hmr : m.row = r)
    (hup : m.up ≠ []) : ∃ w ∈ above.flatMap p.leaving, w.bottom = i ∧ w.lower = n := by
  obtain ⟨-, hv⟩ := Graph.mem_visibleRows.mp (List.mem_of_getElem? hr)
  have hnv : f.isNodeVisible p.graph n := by rwa [Folding.isNodeVisible, Graph.rowOf_eq hm, hmr]
  obtain ⟨e, d, hd, hu, hreach⟩ := hf.exists_edge_into hg hm hup (.stop hnv)
  obtain ⟨w, -, hw⟩ := hf.exists_isWire hg hd
  have hlower := hw.reaches.unique hreach
  -- The wire starts above and ends here, so it crosses into this row.
  have hmem : w ∈ p.wiresFrom w.upper :=
    (hp.mem_wiresFrom hg).mpr ⟨hw.upper_eq ▸ hu, d, hw, hw.upper_eq.symm⟩
  have hspan := hp.spans hg hmem
  have hbottom : w.bottom = i := by
    rw [hw.bottom_eq, hlower, Graph.rowOf_eq hm, hmr, Graph.visibleAbove_of_getElem? hr]
  have htop := hspan.top_lt_bottom
  exact ⟨w, (hc.mem_iff w).mpr ⟨hmem, by omega, by omega⟩, hbottom, hlower⟩

/-- Parents outside the history stand where wires arrive. -/
theorem Follows.nextSlots_of_allUnloaded (hp : p.Follows f) (hg : p.graph.Sound)
    (hf : f.Hides p.graph marked) (hr : (p.graph.visibleRows f)[i]? = some r)
    (hc : p.Crosses above i) (hnodes : p.graph.AllUnloaded r) :
    p.nextSlots above i (p.graph.nodesInRow r) = p.nextSlots above i [] := by
  apply nextSlots_of_arrived
  intro n hn
  obtain ⟨m, hm, hkind⟩ := hnodes n hn
  have hmr := (Graph.rowOf_eq hm).symm.trans (hg.rowOf_of_mem hn)
  exact hp.exists_arrival hg hf hr hc hm hmr (hg.up_ne_nil hm hkind)

/-- The rows of both drawings have the same nodes, or all their nodes are reached by wires. -/
theorem Mirrors.nodes_alike (h : p.Mirrors q f marked cs)
    (hr : (p.graph.visibleRows f)[i]? = some r) :
    List.Forall₂ (p.graph.SameCommit q.graph) (p.graph.nodesInRow r) (q.graph.nodesInRow i) ∨
      p.graph.AllUnloaded r ∧ q.graph.AllUnloaded i := by
  have hg := h.sound
  have hg' := h.sound'
  obtain ⟨hlt, hv⟩ := Graph.mem_visibleRows.mp (List.mem_of_getElem? hr)
  obtain ⟨n, m, hm, rfl⟩ := hg.exists_of_row hlt
  have hnv : f.isNodeVisible p.graph n := by rwa [Folding.isNodeVisible, Graph.rowOf_eq hm]
  obtain ⟨n', m', hm', hc, hk, hrow, -⟩ := h.contracts.exists_same hm hnv
  rw [Graph.visibleAbove_of_getElem? hr] at hrow
  subst hrow
  -- A commit is alone in its row; the parents outside the history share theirs.
  cases hkind : m.kind with
  | loaded =>
    left
    rw [hg.nodesInRow_eq hm hkind, hg'.nodesInRow_eq hm' (hk ▸ hkind)]
    exact .cons ⟨m, m', hm, hm', hc⟩ .nil
  | unloaded =>
    right
    exact ⟨hg.allUnloaded hm hkind, hg'.allUnloaded hm' (hk ▸ hkind)⟩

theorem Mirrors.alike_row (h : p.Mirrors q f marked cs)
    (hr : (p.graph.visibleRows f)[i]? = some r)
    (hc : p.Crosses above i) (hc' : q.Crosses above' i)
    (habove : List.Forall₂ (p.SameWire q f) (above.flatMap p.leaving)
      (above'.flatMap q.leaving)) :
    List.Forall₂ (p.SameSlot q f)
      (p.nextSlots above i (p.graph.nodesInRow r))
      (q.nextSlots above' i (q.graph.nodesInRow i)) := by
  have hg := h.sound
  have hg' := h.sound'
  have hR := Graph.SameCommit.biUnique hg hg'
  have harrive := habove.imp fun _ _ hw => hw.alike_arrival i
  rcases h.nodes_alike hr with hnodes | ⟨hnodes, hnodes'⟩
  · exact forall₂_nextSlots hR harrive hnodes
  · -- Such nodes may be listed in different orders, but then wires give all of them their places.
    rw [h.follows.nextSlots_of_allUnloaded hg h.contracts.hides hr hc hnodes,
      h.unfolded.nextSlots_of_allUnloaded hg' (Folding.hides_unfolded _) (h.row_eq hr) hc' hnodes']
    exact forall₂_nextSlots hR harrive .nil

theorem Mirrors.alike_leaving (h : p.Mirrors q f marked cs) {ss ss' : List Slot}
    (hv : ∀ n, .node n ∈ ss → f.isNodeVisible p.graph n)
    (hs : List.Forall₂ (p.SameSlot q f) ss ss') :
    List.Forall₂ (p.SameWire q f) (ss.flatMap p.leaving) (ss'.flatMap q.leaving) :=
  forall₂_flatMap_leaving hs fun n _ hn hmem => h.sameWires (hv n hmem) hn

/-- Above every place the rows of both drawings are alike. -/
theorem Mirrors.alike (h : p.Mirrors q f marked cs)
    (hr : (p.graph.visibleRows f)[i]? = some r) :
    List.Forall₂ (p.SameSlot q f)
      (p.slotsAbove (p.graph.visibleRows f) (i + 1))
      (q.slotsAbove (q.graph.visibleRows (.unfolded q.graph.rows.size)) (i + 1)) := by
  have hg := h.sound
  have hg' := h.sound'
  -- Row by row from the top, each from what leaves the one above it.
  induction i generalizing r with
  | zero =>
    rw [p.slotsAbove_succ hr, q.slotsAbove_succ (h.row_eq hr)]
    exact h.alike_row hr p.crosses_nil q.crosses_nil .nil
  | succ i ih =>
    have hlt := Nat.lt_of_succ_lt (List.getElem?_eq_some_iff.mp hr).1
    have hr' := List.getElem?_eq_getElem hlt
    have hfill := h.levelled.fills hg hr'
    have hfill' := h.levelled'.fills hg' (h.row_eq hr')
    have habove := h.alike_leaving (fun n => hfill.isNodeVisible hg hr') (ih hr')
    rw [p.slotsAbove_succ hr, q.slotsAbove_succ (h.row_eq hr)]
    exact h.alike_row hr (hfill.crosses hg h.levelled hr')
      (hfill'.crosses hg' h.levelled' (h.row_eq hr')) habove

theorem Mirrors.isShortened_eq (h : p.Mirrors q f marked cs) (hw : p.SameWire q f w w') :
    p.isShortened w = q.isShortened w' := by
  unfold isShortened
  rw [h.options_eq, hw.top_eq, hw.bottom_eq]

theorem Mirrors.isShown_eq (h : p.Mirrors q f marked cs) {s s' : Slot} (hs : p.SameSlot q f s s')
    (i : Nat) : p.isShown i s = q.isShown i s' := by
  cases hs with
  | node => rfl
  | wire hw => rw [isShown, isShown, h.isShortened_eq hw, hw.top_eq, hw.bottom_eq]

theorem Mirrors.alike_shown (h : p.Mirrors q f marked cs) {ss ss' : List Slot}
    (hs : List.Forall₂ (p.SameSlot q f) ss ss') (i : Nat) :
    List.Forall₂ (p.SameSlot q f) (p.shown i ss) (q.shown i ss') := by
  refine List.rel_filter ?_ hs
  intro t t' ht
  exact Bool.eq_iff_iff.mp (h.isShown_eq ht i)

theorem Mirrors.sameCell (h : p.Mirrors q f marked cs) {s s' : Slot} (hs : p.SameSlot q f s s')
    (hv : ∀ n, s = .node n → f.isNodeVisible p.graph n) (i k : Nat) :
    Option.Rel (p.graph.SameCell q.graph) (p.cell i k s) (q.cell i k s') := by
  cases hs with
  | @node n n' hn =>
    obtain ⟨m, m', hm, hm', hc⟩ := hn
    obtain ⟨hkind, -⟩ := h.contracts.of_sameCommit hm (hv n rfl) hm' hc
    rw [cell, cell, hm, hm', Option.map_some, Option.map_some, hkind]
    exact .some ⟨rfl, rfl, .node ⟨m, m', hm, hm', hc⟩⟩
  | wire hw =>
    rw [cell, cell]
    exact .some ⟨rfl, by rw [h.isShortened_eq hw, hw.top_eq], hw.element⟩

theorem Mirrors.sameCells (h : p.Mirrors q f marked cs) {shown shown' : List Slot}
    (hnodup : shown.Nodup) (hnodup' : shown'.Nodup)
    (hv : ∀ n, .node n ∈ shown → f.isNodeVisible p.graph n)
    (hs : List.Forall₂ (p.SameSlot q f) shown shown') (i : Nat) :
    List.Forall₂ (p.graph.SameCell q.graph) (p.cells i shown) (q.cells i shown') := by
  rw [cells_eq hnodup, cells_eq hnodup']
  refine List.rel_filterMap ?_ (forall₂_zipIdx (forall₂_mem hs) 0)
  rintro ⟨s, k⟩ ⟨s', _⟩ ⟨⟨hst, hmem, -⟩, rfl⟩
  exact h.sameCell hst (fun n hn => hv n (hn ▸ hmem)) i k

theorem Mirrors.sameLink (h : p.Mirrors q f marked cs) {shown shown' below below' : List Slot}
    (hshown : List.Forall₂ (p.SameSlot q f) shown shown')
    (hbelow : List.Forall₂ (p.SameSlot q f) below below') {s s' : Slot}
    (hs : p.SameSlot q f s s') (hw : p.SameWire q f w w') (i : Nat) :
    Option.Rel (p.graph.SameLink q.graph) (p.link i shown below s w)
      (q.link i shown' below' s' w') := by
  have hS : Relator.BiUnique (p.SameSlot q f) :=
    SameSlot.biUnique h.sound h.sound'
  unfold link
  rw [column?_eq_of_alike hS hshown hs, column?_eq_of_alike hS hbelow (hw.alike_arrival i)]
  cases column? shown' s' with
  | none => exact .none
  | some k =>
    cases column? below' (arrival i w') with
    | none => exact .none
    | some l => exact .some ⟨rfl, rfl, hw.element⟩

theorem Mirrors.sameLinks (h : p.Mirrors q f marked cs) {shown shown' below below' : List Slot}
    (hv : ∀ n, .node n ∈ shown → f.isNodeVisible p.graph n)
    (hshown : List.Forall₂ (p.SameSlot q f) shown shown')
    (hbelow : List.Forall₂ (p.SameSlot q f) below below') (i : Nat) :
    List.Forall₂ (p.graph.SameLink q.graph) (p.links i shown below)
      (q.links i shown' below') := by
  apply List.rel_flatMap (forall₂_mem hshown)
  rintro s s' ⟨hs, hmem, -⟩
  have hleaving : List.Forall₂ (p.SameWire q f) (p.leaving s) (q.leaving s') :=
    forall₂_leaving hs fun n _ hn heq => h.sameWires (hv n (heq ▸ hmem)) hn
  refine List.rel_filterMap ?_ hleaving
  intro w w' hw
  exact h.sameLink hshown hbelow hs hw i

theorem Mirrors.sameRow (h : p.Mirrors q f marked cs) {d d' : Drawing} {x x' : DrawnRow}
    (hd : p.draw (p.graph.visibleRows f) = .ok d)
    (hd' : q.draw (q.graph.visibleRows (.unfolded q.graph.rows.size)) = .ok d')
    (hx : d.rows[i]? = some x) (hx' : d'.rows[i]? = some x') : p.graph.SameRow q.graph x x' := by
  have hg := h.sound
  have hg' := h.sound'
  rw [h.levelled.getElem?_draw hg hd, Option.map_eq_some_iff] at hx
  rw [h.levelled'.getElem?_draw hg' hd', Option.map_eq_some_iff] at hx'
  obtain ⟨r, hr, rfl⟩ := hx
  obtain ⟨r', hr', rfl⟩ := hx'
  have hfill := h.levelled.fills hg hr
  have hfill' := h.levelled'.fills hg' hr'
  have hshown := h.alike_shown (h.alike hr) i
  have hv : ∀ n, .node n ∈ p.shown i (p.slotsAbove (p.graph.visibleRows f) (i + 1)) →
      f.isNodeVisible p.graph n :=
    fun n hn => hfill.isNodeVisible hg hr (List.mem_of_mem_filter hn)
  constructor
  · exact h.sameCells (hfill.nodup.filter _) (hfill'.nodup.filter _) hv hshown i
  · cases hnext : (p.graph.visibleRows f)[i + 1]? with
    | none =>
      have hlen : q.graph.rows.size ≤ i + 1 := by
        rw [h.contracts.size_rows, ← Graph.length_visibleRows]
        exact List.getElem?_eq_none_iff.mp hnext
      have hnext' : (q.graph.visibleRows (.unfolded q.graph.rows.size))[i + 1]? = none := by
        rw [Graph.visibleRows_unfolded, List.getElem?_eq_none_iff, List.length_range]
        exact hlen
      rw [hnext']
      exact .nil
    | some s =>
      rw [h.row_eq hnext]
      exact h.sameLinks hv hshown (h.alike_shown (h.alike hnext) (i + 1)) (i + 1)

theorem Mirrors.sameRows (h : p.Mirrors q f marked cs) {d d' : Drawing}
    (hd : p.draw (p.graph.visibleRows f) = .ok d)
    (hd' : q.draw (q.graph.visibleRows (.unfolded q.graph.rows.size)) = .ok d') :
    List.Forall₂ (p.graph.SameRow q.graph) d.rows d'.rows := by
  refine forall₂_of_getElem? ?_ fun i x x' hx hx' => h.sameRow hd hd' hx hx'
  have hrows := congrArg List.length (h.levelled.map_row_draw h.sound hd)
  have hrows' := congrArg List.length (h.levelled'.map_row_draw h.sound' hd')
  rw [List.length_map] at hrows hrows'
  rw [hrows, hrows', Graph.length_visibleRows, Graph.visibleRows_unfolded, List.length_range,
    h.contracts.size_rows]

end Plan

namespace Graph

variable {cs : List Commit} {references : List Reference} {f : Folding}

/-- A graph with folded chains is drawn like the contracted history, which has a graph too: the
rows have the same cells and links, up to the names of nodes and edges. -/
theorem draw_contract (hb : build cs references = .ok g) (hf : g.Reachable f)
    (references' : List Reference) (o : DrawOptions) (s s' : Selection) :
    ∃ g' d d', build (g.contract f cs) references' = .ok g' ∧ g.draw f o s = .ok d ∧
      g'.draw (.unfolded g'.rows.size) o s' = .ok d' ∧
      List.Forall₂ (g.SameRow g') d.rows d'.rows := by
  have hdep := depicts_of_build hb
  have horder := (exists_build_iff cs references).mp ⟨g, hb⟩
  obtain ⟨marked, hm⟩ := hf.exists_hides hdep.toSound
  obtain ⟨g', hb'⟩ :=
    (exists_build_iff (g.contract f cs) references').mpr (hm.childrenFirst_contract hdep horder)
  have hdep' := depicts_of_build hb'
  obtain ⟨p, rfl, rfl, -, hp, d, hdraw, hd⟩ := hm.exists_plan hdep.toSound o s
  obtain ⟨q, rfl, hoptions, -, hq, d', hdraw', hd'⟩ :=
    (Folding.hides_unfolded g').exists_plan hdep'.toSound p.options s'
  have hmirror : p.Mirrors q f marked cs := ⟨⟨hdep, hm, hdep'⟩, hp, hq, hoptions⟩
  exact ⟨q.graph, d, d', hb', hdraw, hdraw', hmirror.sameRows hd hd'⟩

/-- A chain of one commit: without it the upper commit is a child of the lower one. -/
theorem draw_contract_folded :
    ∃ g g' d d', build [⟨3, [2], 0⟩, ⟨2, [1], 0⟩, ⟨1, [], 0⟩] [] = .ok g ∧
      build [⟨3, [1], 0⟩, ⟨1, [], 0⟩] [] = .ok g' ∧
      g.draw ((Folding.unfolded g.rows.size).foldAll g) .standard .none = .ok d ∧
      g'.draw (.unfolded g'.rows.size) .standard .none = .ok d' ∧
      List.Forall₂ (g.SameRow g') d.rows d'.rows := by
  let g : Graph :=
    ⟨#[⟨3, 0, .loaded, 0, [], [0]⟩, ⟨2, 0, .loaded, 1, [0], [1]⟩, ⟨1, 0, .loaded, 2, [1], []⟩],
      #[⟨0, 1, 0⟩, ⟨1, 2, 0⟩], #[.ofHead 3 []], #[[0], [1], [2]]⟩
  have hb : build [⟨3, [2], 0⟩, ⟨2, [1], 0⟩, ⟨1, [], 0⟩] [] = .ok g := by decide
  have hc : g.contract ((Folding.unfolded g.rows.size).foldAll g)
      [⟨3, [2], 0⟩, ⟨2, [1], 0⟩, ⟨1, [], 0⟩] = [⟨3, [1], 0⟩, ⟨1, [], 0⟩] := by decide
  obtain ⟨g', d, d', hb', hd, hd', hsame⟩ :=
    draw_contract hb (.foldAll .unfolded) [] .standard .none .none
  rw [hc] at hb'
  exact ⟨g, g', d, d', hb, hb', hd, hd', hsame⟩

end Graph

end CommitGraph
