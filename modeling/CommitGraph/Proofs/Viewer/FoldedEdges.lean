import CommitGraph.Proofs.Drawing.Links
import CommitGraph.Proofs.Folding.Entries
import CommitGraph.Proofs.Viewer.Answers

namespace CommitGraph

namespace Drawing

/-- Something of the edge is drawn as leading through a folded chain. -/
def Flags (d : Drawing) (e : EdgeId) : Prop :=
  ∃ r ∈ d.rows,
    (∃ c ∈ r.cells, c.element = .edge e ∧ c.folded) ∨ ∃ l ∈ r.links, l.edge = e ∧ l.folded

/-- The edge stands for the folded chain. Whatever is drawn of it is drawn as folded. One link of it
leaves the cell of the upper end of the chain, and one gets to the cell of the lower end. -/
structure ShowsFolded (d : Drawing) (g : Graph) (c : Chain) (e : EdgeId) : Prop where
  folded_cell : ∀ r ∈ d.rows, ∀ x ∈ r.cellsFor (.edge e), x.folded
  folded_link : ∀ r ∈ d.rows, ∀ l ∈ r.linksFor e, l.folded
  leaves : ∃ r ∈ d.rows, ∃ x l, r.row = g.rowOf c.upper ∧ r.cellsFor (.node c.upper) = [x] ∧
    r.linksFor e = [l] ∧ l.upColumn = x.column
  arrives : ∃ i r r' x l, d.rows[i]? = some r ∧ d.rows[i + 1]? = some r' ∧
    r'.row = g.rowOf c.lower ∧ r'.cellsFor (.node c.lower) = [x] ∧ r.linksFor e = [l] ∧
    l.downColumn = x.column

end Drawing

namespace Plan

variable {p : Plan} {f : Folding} {rows : List Nat} {slots slots' : List Slot} {i row row' : Nat}
  {w : Wire} {c : Cell} {l : Link} {e : EdgeId} {d : Drawing}

theorem Fills.folded_of_mem_cells (hp : p.Follows f) (hg : p.graph.Sound)
    (hf : p.Fills row i slots) (hc : c ∈ p.cells i (p.shown i slots)) (he : c.element = .edge e) :
    ∃ w ∈ p.wiresFrom w.upper, w.edge = e ∧ w.folded = c.folded := by
  have hall := forall₂_cells (List.Nodup.of_map _ (hf.nodup_shown hp hg))
    (fun _ hn => hf.exists_node hg hn) i
  obtain ⟨⟨s, k⟩, hs, hcell, -, helement⟩ := exists_mem_left hall hc
  have hmem := List.mem_of_getElem? (List.mk_mem_zipIdx_iff_getElem?.mp hs)
  rw [helement] at he
  cases s with
  | node n => cases he
  | wire w =>
    cases hcell
    exact ⟨w, (hf.wire_mem_shown.mp hmem).1, Element.edge.inj he, rfl⟩

theorem Levelled.folded_of_mem_linksAt (hg : p.graph.Sound) (h : p.Levelled rows)
    (hr : rows[i]? = some row) (hl : l ∈ p.linksAt rows i) :
    ∃ w ∈ p.wiresFrom w.upper, w.edge = l.edge ∧ w.folded = l.folded := by
  cases hnext : rows[i + 1]? with
  | none =>
    rw [p.linksAt_eq_nil hnext] at hl
    cases hl
  | some row' =>
    rw [p.linksAt_eq hnext, links_eq, List.mem_filterMap] at hl
    obtain ⟨⟨s, w⟩, hx, hl⟩ := hl
    obtain ⟨a, b, -, -, rfl⟩ := link_eq_some.mp hl
    obtain ⟨hw, -⟩ := (h.fills hg hr).eq_departure hg h hr
      ((p.departures_shown_sublist i _).subset hx)
    exact ⟨w, hw, rfl, rfl⟩

theorem Fills.exists_link (hp : p.Follows f) (hg : p.graph.Sound) (h : p.Levelled rows)
    (hf : p.Fills row i slots) (hr : rows[i]? = some row) (hf' : p.Fills row' (i + 1) slots')
    (hw : w ∈ p.wiresFrom w.upper) (htop : w.top ≤ i) (hbottom : i < w.bottom)
    (hs : departure i w ∈ p.shown i slots) (hs' : arrival (i + 1) w ∈ p.shown (i + 1) slots') :
    ∃ c c' l, (p.cells i (p.shown i slots)).filter (·.element = (departure i w).element) = [c] ∧
      (p.cells (i + 1) (p.shown (i + 1) slots')).filter
        (·.element = (arrival (i + 1) w).element) = [c'] ∧
      (p.links (i + 1) (p.shown i slots) (p.shown (i + 1) slots')).filter (·.edge = w.edge) = [l] ∧
      l.upColumn = c.column ∧ l.downColumn = c'.column ∧ l.folded = w.folded := by
  obtain ⟨column, c, hcolumn, rfl, -, hcells⟩ :=
    cellsFor_of_mem (hf.nodup_shown hp hg) (fun _ hn => hf.exists_node hg hn) hs i
  obtain ⟨column', c', hcolumn', rfl, -, hcells'⟩ :=
    cellsFor_of_mem (hf'.nodup_shown hp hg) (fun _ hn => hf'.exists_node hg hn) hs' (i + 1)
  refine ⟨c, c', ⟨c.column, c'.column, w.edge, w.branch, w.folded, p.selection.has (.edge w.edge)⟩,
    hcells, hcells', ?_, rfl, rfl, rfl⟩
  rw [hf.links_of_wire hp hg h hr hw, if_pos ⟨htop, hbottom⟩, link, hcolumn, hcolumn']
  rfl

theorem Levelled.exists_link_from_upper (hp : p.Follows f) (hg : p.graph.Sound)
    (h : p.Levelled rows) (hd : p.draw rows = .ok d) (hw : w ∈ p.wiresFrom w.upper) :
    ∃ r ∈ d.rows, ∃ x l, r.row = p.graph.rowOf w.upper ∧ r.cellsFor (.node w.upper) = [x] ∧
      r.linksFor w.edge = [l] ∧ l.upColumn = x.column ∧ l.folded = w.folded := by
  have hspan := h.spans hw
  obtain ⟨row', hnext⟩ := h.exists_next hw hspan.top_lt_bottom
  have hf := h.fills hg hspan.upper_row
  have hf' := h.fills hg hnext
  have hnode : departure w.top w = .node w.upper := if_pos rfl
  have hshown := hnode ▸ hf.node_mem_shown.mpr hspan.upper_mem
  obtain ⟨x, -, l, hx, -, hl, hcolumn, -, hfolded⟩ := hf.exists_link hp hg h hspan.upper_row hf' hw
    (Nat.le_refl _) hspan.top_lt_bottom hshown (hf'.arrival_mem_shown h hnext hw rfl)
  rw [hnode] at hx
  rw [← p.linksAt_eq hnext] at hl
  have hr := h.row_of_draw hg hd w.top
  rw [hspan.upper_row, Option.map_some] at hr
  exact ⟨_, List.mem_of_getElem? hr, x, l, rfl, hx, hl, hcolumn, hfolded⟩

theorem Levelled.exists_link_to_lower (hp : p.Follows f) (hg : p.graph.Sound)
    (h : p.Levelled rows) (hd : p.draw rows = .ok d) (hw : w ∈ p.wiresFrom w.upper) :
    ∃ i r r' x l, d.rows[i]? = some r ∧ d.rows[i + 1]? = some r' ∧
      r'.row = p.graph.rowOf w.lower ∧ r'.cellsFor (.node w.lower) = [x] ∧
      r.linksFor w.edge = [l] ∧ l.downColumn = x.column := by
  have hspan := h.spans hw
  have hlt := hspan.top_lt_bottom
  obtain ⟨i, hi⟩ := Nat.exists_eq_add_one_of_ne_zero (Nat.ne_zero_of_lt hlt)
  have hnext := hspan.lower_row
  rw [hi] at hnext hlt
  have hrow := List.getElem?_eq_getElem
    (Nat.lt_of_succ_lt (List.getElem?_eq_some_iff.mp hnext).1)
  have hf := h.fills hg hrow
  have hf' := h.fills hg hnext
  have hnode : arrival (i + 1) w = .node w.lower := if_pos hi
  have hshown := hnode ▸ hf'.node_mem_shown.mpr hspan.lower_mem
  obtain ⟨-, x, l, -, hx, hl, -, hcolumn, -⟩ := hf.exists_link hp hg h hrow hf' hw
    (Nat.le_of_lt_succ hlt) (hi ▸ Nat.lt_succ_self i) (hf.departure_mem_shown h hrow hw hi) hshown
  rw [hnode] at hx
  rw [← p.linksAt_eq hnext] at hl
  have hr := h.row_of_draw hg hd i
  have hr' := h.row_of_draw hg hd (i + 1)
  rw [hrow, Option.map_some] at hr
  rw [hnext, Option.map_some] at hr'
  exact ⟨i, _, _, x, l, hr, hr', rfl, hx, hl, hcolumn⟩

theorem Levelled.folded_of_mem_draw (hp : p.Follows f) (hg : p.graph.Sound) (h : p.Levelled rows)
    (hd : p.draw rows = .ok d) {r : DrawnRow} (hr : r ∈ d.rows) :
    (∀ c ∈ r.cells, ∀ e, c.element = .edge e →
      ∃ w ∈ p.wiresFrom w.upper, w.edge = e ∧ w.folded = c.folded) ∧
      ∀ l ∈ r.links, ∃ w ∈ p.wiresFrom w.upper, w.edge = l.edge ∧ w.folded = l.folded := by
  obtain ⟨i, hi⟩ := List.mem_iff_getElem?.mp hr
  rw [h.row_of_draw hg hd, Option.map_eq_some_iff] at hi
  obtain ⟨row, hrow, rfl⟩ := hi
  exact ⟨fun c hc e he => (h.fills hg hrow).folded_of_mem_cells hp hg hc he,
    fun l hl => h.folded_of_mem_linksAt hg hrow hl⟩

theorem Levelled.flags_iff (hp : p.Follows f) (hg : p.graph.Sound) (h : p.Levelled rows)
    (hd : p.draw rows = .ok d) :
    d.Flags e ↔ ∃ w ∈ p.wiresFrom w.upper, w.edge = e ∧ w.folded := by
  constructor
  · rintro ⟨r, hr, ⟨c, hc, he, hfolded⟩ | ⟨l, hl, rfl, hfolded⟩⟩
    · obtain ⟨w, hw, rfl, heq⟩ := (h.folded_of_mem_draw hp hg hd hr).1 c hc e he
      exact ⟨w, hw, rfl, heq.trans hfolded⟩
    · obtain ⟨w, hw, he, heq⟩ := (h.folded_of_mem_draw hp hg hd hr).2 l hl
      exact ⟨w, hw, he, heq.trans hfolded⟩
  · rintro ⟨w, hw, rfl, hfolded⟩
    obtain ⟨r, hr, x, l, -, -, hl, -, heq⟩ := h.exists_link_from_upper hp hg hd hw
    obtain ⟨hl, he⟩ := List.mem_filter.mp (hl ▸ List.mem_singleton_self l : l ∈ r.linksFor w.edge)
    exact ⟨r, hr, .inr ⟨l, hl, by simpa using he, heq.trans hfolded⟩⟩

variable {marked : Chain → Bool} {ch : Chain}

theorem Follows.exists_wire_past (hp : p.Follows f) (hg : p.graph.Sound)
    (hf : f.Hides p.graph marked) (hc : f.FoldsAway p.graph ch) (he : p.graph.Enters ch e) :
    ∃ w ∈ p.wiresFrom w.upper, w.edge = e ∧ w.folded ∧ w.upper = ch.upper ∧
      w.lower = ch.lower := by
  have hmarked := (hf.foldsAway_iff hg hc.1).mp hc
  obtain ⟨d, hd, hu, -⟩ := id he
  obtain ⟨w, rfl, hwire⟩ := hf.exists_isWire hg hd
  have hl := he.lower_mem hd
  refine ⟨w, (hp.mem_wiresFrom hg).mpr ⟨?_, d, hwire, hwire.upper_eq.symm⟩, rfl, ?_,
    hwire.upper_eq.trans hu, (hf.lower_of_reaches hg hc.1 hmarked hl hwire.reaches).symm⟩
  · rw [hwire.upper_eq, hu]
    exact (hf.isNodeVisible_ends hg hc.1).1
  · rw [hwire.folded_eq, hc.2 _ hl, Bool.not_false]

/-- The edges that are drawn as folded are those into folded chains. -/
theorem Levelled.flags_iff_enters (hp : p.Follows f) (hg : p.graph.Sound)
    (hf : f.Hides p.graph marked) (h : p.Levelled rows) (hd : p.draw rows = .ok d) :
    d.Flags e ↔ ∃ c, f.FoldsAway p.graph c ∧ p.graph.Enters c e := by
  rw [h.flags_iff hp hg hd]
  constructor
  · rintro ⟨w, hw, rfl, hfolded⟩
    obtain ⟨hv, d, hwire, hu⟩ := (hp.mem_wiresFrom hg).mp hw
    rw [hwire.folded_eq] at hfolded
    exact hf.exists_entered hg hwire.found (hu ▸ hv) (by simpa using hfolded)
  · rintro ⟨c, hc, he⟩
    obtain ⟨w, hw, hwe, hfolded, -⟩ := hp.exists_wire_past hg hf hc he
    exact ⟨w, hw, hwe, hfolded⟩

theorem Levelled.showsFolded (hp : p.Follows f) (hg : p.graph.Sound)
    (hf : f.Hides p.graph marked) (h : p.Levelled rows) (hd : p.draw rows = .ok d)
    (hc : f.FoldsAway p.graph ch) (he : p.graph.Enters ch e) : d.ShowsFolded p.graph ch e := by
  obtain ⟨w, hw, rfl, hfolded, hu, hl⟩ := hp.exists_wire_past hg hf hc he
  constructor
  · intro r hr x hx
    obtain ⟨hx, helement⟩ := List.mem_filter.mp hx
    obtain ⟨w', hw', hedge, heq⟩ :=
      (h.folded_of_mem_draw hp hg hd hr).1 x hx w.edge (by simpa using helement)
    rw [← heq, hp.wire_unique hg hw' hw hedge, hfolded]
  · intro r hr l hl
    obtain ⟨hl, hedge⟩ := List.mem_filter.mp hl
    obtain ⟨w', hw', hedge', heq⟩ := (h.folded_of_mem_draw hp hg hd hr).2 l hl
    rw [← heq, hp.wire_unique hg hw' hw (hedge'.trans (by simpa using hedge)), hfolded]
  · obtain ⟨r, hr, x, l, hrow, hx, hlinks, hcolumn, -⟩ := h.exists_link_from_upper hp hg hd hw
    rw [hu] at hrow hx
    exact ⟨r, hr, x, l, hrow, hx, hlinks, hcolumn⟩
  · have harrives := h.exists_link_to_lower hp hg hd hw
    rwa [hl] at harrives

end Plan

namespace Viewer

/-- Flipping at the edge shows the rows inside the chain and changes no other row. -/
structure Unfolds (v : Viewer) (c : Chain) (e : EdgeId) : Prop where
  span : ∃ s, (v.flipAt (.edge e)).1 = .ok (some s) ∧ s.first = v.graph.rowOf c.upper ∧
    s.last = v.graph.rowOf c.lower
  graph_eq : (v.flipAt (.edge e)).2.graph = v.graph
  isVisible : ∀ row, (v.flipAt (.edge e)).2.folding.isVisible row =
    if row ∈ c.inner.map v.graph.rowOf then true else v.folding.isVisible row

variable {v : Viewer} {m : MarkedGraph} {c : Chain} {e : EdgeId}

theorem Matches.unfolds (h : v.Matches m) (hc : v.folding.FoldsAway v.graph c)
    (he : v.graph.Enters c e) : v.Unfolds c e := by
  have hat := he.chainAt?_eq h.sound hc.1
  constructor
  · obtain ⟨d, hd, -⟩ := he
    have hel : v.graph.hasElement (.edge e) := by
      simpa [Graph.hasElement] using (Array.getElem?_eq_some_iff.mp hd).1
    refine ⟨c.span v.graph, ?_, hc.1.first_span h.sound, hc.1.last_span h.sound⟩
    rw [h.flipAt_fst hel, hat, Option.map_some]
  · rw [h.flipAt_snd]
  · intro row
    rw [h.flipAt_snd, hat]
    exact h.hides.isVisible_flip h.sound hc row

/-- After any requests the folded chains and the edges that are drawn as folded belong to each
other one to one, by the edge into the chain. All that is drawn of the edge is drawn as folded, it
joins the cells at the ends of the chain, and a flip there shows the chain and nothing else. -/
theorem folded_edges_of_run (o o' : DrawOptions) (rs : List Request) :
    let v := (Viewer.empty o).run rs
    ∃ d, v.graph.draw v.folding o' v.selection = .ok d ∧
      (∀ c, v.folding.FoldsAway v.graph c → ∃! e, d.Flags e ∧ v.graph.Enters c e) ∧
      (∀ e, d.Flags e → ∃! c, v.folding.FoldsAway v.graph c ∧ v.graph.Enters c e) ∧
      ∀ c e, v.folding.FoldsAway v.graph c → v.graph.Enters c e →
        d.ShowsFolded v.graph c e ∧ v.Unfolds c e := by
  intro v
  have h : v.Matches (MarkedGraph.empty.run rs) := (matches_empty o).run rs
  obtain ⟨p, hgraph, -, -, hp, d, hdraw, hd⟩ := h.hides.exists_plan h.sound o' v.selection
  have hg : p.graph.Sound := hgraph ▸ h.sound
  have hf := hgraph ▸ h.hides
  rw [← hgraph] at hd
  have hlevel := hp.levelled hg
  -- Flags and folded chains are matched by the edges that lead into the chains.
  have hflags : ∀ e, d.Flags e ↔ ∃ c, v.folding.FoldsAway v.graph c ∧ v.graph.Enters c e :=
    fun e => hgraph ▸ hlevel.flags_iff_enters hp hg hf hd
  refine ⟨d, hdraw, fun c hc => ?_, fun e he => ?_, fun c e hc he => ⟨?_, h.unfolds hc he⟩⟩
  · obtain ⟨e, he⟩ := hc.1.exists_enters
    exact ⟨e, ⟨(hflags e).mpr ⟨c, hc, he⟩, he⟩, fun e' he' => hc.1.enters_unique h.sound he'.2 he⟩
  · obtain ⟨c, hc, hce⟩ := (hflags e).mp he
    exact ⟨c, ⟨hc, hce⟩, fun c' hc' => hc'.2.chain_unique h.sound hc'.1.1 hc.1 hce⟩
  · rw [← hgraph] at hc he ⊢
    exact hlevel.showsFolded hp hg hf hd hc he

/-- A chain of one commit, folded away and drawn as the edge from the commit above it. -/
theorem folded_edges_of_run_chain :
    let v := (Viewer.empty .standard).run
      [.load [⟨3, [2], 0⟩, ⟨2, [1], 0⟩, ⟨1, [], 0⟩] [], .foldAll]
    let c : Chain := ⟨0, 2, [1]⟩
    v.folding.FoldsAway v.graph c ∧ v.graph.Enters c 0 ∧
      ∃ d, v.draw = .ok d ∧ d.ShowsFolded v.graph c 0 ∧ v.Unfolds c 0 := by
  intro v c
  have hb : Graph.build [⟨3, [2], 0⟩, ⟨2, [1], 0⟩, ⟨1, [], 0⟩] [] = .ok v.graph := by decide
  have hat : v.graph.chainAt? (.node 1) = some c := rfl
  have hchain := (Graph.depicts_of_build hb).toSound.isChain_of_chainAt? hat
  have hfolded : v.folding.FoldsAway v.graph c := ⟨hchain, by decide⟩
  have hedge : v.graph.Enters c 0 := ⟨⟨0, 1, 0⟩, rfl, rfl, rfl⟩
  obtain ⟨d, hd, -, -, hshows⟩ := folded_edges_of_run .standard .standard
    [.load [⟨3, [2], 0⟩, ⟨2, [1], 0⟩, ⟨1, [], 0⟩] [], .foldAll]
  exact ⟨hfolded, hedge, d, hd, hshows c 0 hfolded hedge⟩

end Viewer

end CommitGraph
