import CommitGraph.Proofs.Drawing.Cells
import Mathlib.Data.List.Flatten

namespace CommitGraph

def DrawnRow.linksFor (r : DrawnRow) (e : EdgeId) : List Link := r.links.filter (·.edge = e)

/-- What shows an edge at place `i` of a drawing, if it leads from place `u` to place `v`: at its
ends the nodes there, and between them the edge itself. -/
def Element.onWay (e : EdgeId) (upper lower : NodeId) (u v i : Nat) : Element :=
  if i = u then .node upper else if i = v then .node lower else .edge e

namespace Plan

variable {p : Plan} {f : Folding} {rows : List Nat} {slots shown below : List Slot}
  {i j k row : Nat} {s : Slot} {n : NodeId} {w : Wire} {l : Link}

def departures (p : Plan) (slots : List Slot) : List (Slot × Wire) :=
  slots.flatMap fun s => (p.leaving s).map (s, ·)

def departure (position : Nat) (w : Wire) : Slot :=
  if w.top = position then .node w.upper else .wire w

theorem mem_departures : (s, w) ∈ p.departures slots ↔ s ∈ slots ∧ w ∈ p.leaving s := by
  simp [departures]

theorem map_snd_departures (p : Plan) (slots : List Slot) :
    (p.departures slots).map (·.2) = slots.flatMap p.leaving := by
  simp [departures, List.map_flatMap, Function.comp_def]

theorem links_eq (p : Plan) (j : Nat) (shown below : List Slot) :
    p.links j shown below =
      (p.departures shown).filterMap fun x => p.link j shown below x.1 x.2 := by
  rw [links, departures, List.filterMap_flatMap]
  simp only [List.filterMap_map, Function.comp_def]

theorem link_eq_some : p.link j shown below s w = some l ↔
    ∃ a b, column? shown s = some a ∧ column? below (arrival j w) = some b ∧
      l = { upColumn := a, downColumn := b, edge := w.edge, branch := w.branch, folded := w.folded
            selected := p.selection.has (.edge w.edge) } := by
  simp only [link, Option.bind_eq_bind, Option.bind_eq_some_iff, Option.pure_def,
    Option.some_inj, ← exists_and_left, @eq_comm _ _ l]

theorem column?_eq_none : column? shown s = none ↔ s ∉ shown := by
  rw [column?, List.lookup_eq_none_iff]
  constructor
  · intro h hs
    obtain ⟨k, hk⟩ := List.mem_iff_getElem?.mp hs
    simpa using h (s, k) (List.mem_reverse.mpr (List.mk_mem_zipIdx_iff_getElem?.mpr hk))
  · rintro h ⟨t, k⟩ ht
    have hmem := List.mem_of_getElem?
      (List.mk_mem_zipIdx_iff_getElem?.mp (List.mem_reverse.mp ht))
    simp only [bne_iff_ne, ne_eq]
    rintro rfl
    exact h hmem

theorem Fills.eq_departure (hg : p.graph.Sound) (h : p.Levelled rows) (hf : p.Fills row i slots)
    (hr : rows[i]? = some row) (hx : (s, w) ∈ p.departures slots) :
    w ∈ p.wiresFrom w.upper ∧ w.top ≤ i ∧ i < w.bottom ∧ s = departure i w := by
  obtain ⟨hs, hw⟩ := mem_departures.mp hx
  have hmem : w ∈ slots.flatMap p.leaving := List.mem_flatMap.mpr ⟨s, hs, hw⟩
  obtain ⟨hfrom, htop, hbottom⟩ := ((hf.crosses hg h hr).mem_iff w).mp hmem
  refine ⟨hfrom, Nat.le_of_lt_succ htop, hbottom, ?_⟩
  cases s with
  | node n =>
    have hstart := h.top_eq hr (hg.rowOf_of_mem ((hf.node_mem n).mp hs)) hw
    rw [departure, if_pos hstart, h.upper_eq hw]
  | wire v =>
    cases List.mem_singleton.mp hw
    have hpass := ((hf.wire_mem w).mp hs).2.1
    rw [departure, if_neg (Nat.ne_of_lt hpass)]

theorem departures_shown_sublist (p : Plan) (i : Nat) (slots : List Slot) :
    (p.departures (p.shown i slots)).Sublist (p.departures slots) :=
  List.filter_sublist.flatMap _

theorem Fills.nodup_departures (hp : p.Follows f) (hg : p.graph.Sound) (h : p.Levelled rows)
    (hf : p.Fills row i slots) (hr : rows[i]? = some row) :
    ((p.departures (p.shown i slots)).map (·.2.edge)).Nodup := by
  have hwires : ((p.departures slots).map (·.2)).Nodup := by
    rw [map_snd_departures]
    exact (hf.crosses hg h hr).nodup
  have hedges : ((p.departures slots).map (·.2.edge)).Nodup := by
    refine List.Nodup.map_on ?_ (List.Nodup.of_map _ hwires)
    rintro ⟨s, w⟩ hx ⟨s', w'⟩ hx' he
    obtain ⟨hw, -, -, rfl⟩ := hf.eq_departure hg h hr hx
    obtain ⟨hw', -, -, rfl⟩ := hf.eq_departure hg h hr hx'
    rw [hp.wire_unique hg hw hw' he]
  exact hedges.sublist ((p.departures_shown_sublist i slots).map _)

theorem filter_edge_links (p : Plan) (j : Nat) (shown below : List Slot) (e : EdgeId) :
    (p.links j shown below).filter (·.edge = e) =
      ((p.departures shown).filter (·.2.edge = e)).filterMap fun x =>
        p.link j shown below x.1 x.2 := by
  rw [links_eq]
  apply filter_filterMap_eq
  rintro ⟨s, w⟩ - l hl
  obtain ⟨a, b, -, -, rfl⟩ := link_eq_some.mp hl
  rfl

theorem Fills.links_of_wire (hp : p.Follows f) (hg : p.graph.Sound) (h : p.Levelled rows)
    (hf : p.Fills row i slots) (hr : rows[i]? = some row) (hw : w ∈ p.wiresFrom w.upper) :
    (p.links j (p.shown i slots) below).filter (·.edge = w.edge) =
      if w.top ≤ i ∧ i < w.bottom then
        (p.link j (p.shown i slots) below (departure i w) w).toList
      else [] := by
  have hown : ∀ x ∈ p.departures (p.shown i slots), x.2.edge = w.edge →
      w.top ≤ i ∧ i < w.bottom ∧ x = (departure i w, w) := by
    rintro ⟨s, v⟩ hx he
    obtain ⟨hv, htop, hbottom, rfl⟩ :=
      hf.eq_departure hg h hr ((p.departures_shown_sublist i slots).subset hx)
    cases hp.wire_unique hg hv hw he
    exact ⟨htop, hbottom, rfl⟩
  rw [filter_edge_links]
  by_cases hx : (departure i w, w) ∈ p.departures (p.shown i slots)
  · obtain ⟨htop, hbottom, -⟩ := hown _ hx rfl
    rw [if_pos ⟨htop, hbottom⟩,
      filter_eq_singleton (f := fun x => x.2.edge) (hf.nodup_departures hp hg h hr) hx]
    cases hl : p.link j (p.shown i slots) below (departure i w) w <;> simp [hl]
  · have hnil : (p.departures (p.shown i slots)).filter (·.2.edge = w.edge) = [] := by
      rw [List.filter_eq_nil_iff]
      intro x hmem he
      obtain ⟨-, -, rfl⟩ := hown x hmem (by simpa using he)
      exact hx hmem
    rw [hnil, List.filterMap_nil]
    split
    · next hopen =>
      -- The slot that the wire would leave from is not drawn, so it has no column.
      have hslot : departure i w ∉ p.shown i slots := by
        intro hs
        refine hx (mem_departures.mpr ⟨hs, ?_⟩)
        rw [departure]
        split
        · exact hw
        · exact List.mem_singleton_self w
      cases hl : p.link j (p.shown i slots) below (departure i w) w with
      | none => rfl
      | some l =>
        obtain ⟨a, -, ha, -⟩ := link_eq_some.mp hl
        rw [column?_eq_none.mpr hslot] at ha
        cases ha
    · rfl

theorem Fills.cell_of_slot (hp : p.Follows f) (hg : p.graph.Sound) (hf : p.Fills row i slots)
    (hs : ∀ w, s = .wire w → w ∈ p.wiresFrom w.upper) :
    (∃ c, (p.cells i (p.shown i slots)).filter (·.element = s.element) = [c] ∧
      column? (p.shown i slots) s = some c.column) ∨
      (p.cells i (p.shown i slots)).filter (·.element = s.element) = [] ∧
        column? (p.shown i slots) s = none := by
  have hnodup := hf.nodup_shown hp hg
  by_cases hmem : s ∈ p.shown i slots
  · obtain ⟨column, c, hcolumn, rfl, -, hcells⟩ :=
      cellsFor_of_mem hnodup (fun _ hn => hf.exists_node hg hn) hmem i
    exact .inl ⟨c, hcells, hcolumn⟩
  · refine .inr ⟨cellsFor_of_not_mem (List.Nodup.of_map _ hnodup)
      (fun _ hn => hf.exists_node hg hn) ?_ i, column?_eq_none.mpr hmem⟩
    intro t ht he
    -- Two wires of one edge are one wire, so an element tells its slot.
    have hts : t = s := by
      cases t with
      | node n =>
        cases s with
        | node k => rw [Element.node.inj he]
        | wire w => cases he
      | wire v =>
        cases s with
        | node k => cases he
        | wire w =>
          have hv := (hf.wire_mem_shown.mp ht).1
          rw [hp.wire_unique hg hv (hs w rfl) (Element.edge.inj he)]
    exact hmem (hts ▸ ht)

theorem element_departure (hb : i < w.bottom) :
    (departure i w).element = .onWay w.edge w.upper w.lower w.top w.bottom i := by
  unfold departure Element.onWay
  by_cases htop : w.top = i
  · rw [if_pos htop, if_pos htop.symm]
    rfl
  · rw [if_neg htop, if_neg (Ne.symm htop), if_neg (Nat.ne_of_lt hb)]
    rfl

theorem element_arrival (hw : w.top < j) :
    (arrival j w).element = .onWay w.edge w.upper w.lower w.top w.bottom j := by
  unfold arrival Element.onWay
  rw [if_neg (Nat.ne_of_gt hw)]
  by_cases hbottom : w.bottom = j
  · rw [if_pos hbottom, if_pos hbottom.symm]
    rfl
  · rw [if_neg hbottom, if_neg (Ne.symm hbottom)]
    rfl

/-- The link of a wire joins the cells that show its edge in the two rows, if both rows show it. -/
theorem Fills.links_between (hp : p.Follows f) (hg : p.graph.Sound) (h : p.Levelled rows)
    {slots' : List Slot} {row' : Nat} (hf : p.Fills row i slots) (hr : rows[i]? = some row)
    (hf' : p.Fills row' (i + 1) slots') (hw : w ∈ p.wiresFrom w.upper) (htop : w.top ≤ i)
    (hbottom : i < w.bottom) :
    let links := (p.links (i + 1) (p.shown i slots) (p.shown (i + 1) slots')).filter
      (·.edge = w.edge)
    let above := (p.cells i (p.shown i slots)).filter
      (·.element = .onWay w.edge w.upper w.lower w.top w.bottom i)
    let below := (p.cells (i + 1) (p.shown (i + 1) slots')).filter
      (·.element = .onWay w.edge w.upper w.lower w.top w.bottom (i + 1))
    (∃ c c', above = [c] ∧ below = [c'] ∧ links =
      [{ upColumn := c.column, downColumn := c'.column, edge := w.edge, branch := w.branch
         folded := w.folded, selected := p.selection.has (.edge w.edge) }]) ∨
      (above = [] ∨ below = []) ∧ links = [] := by
  intro links above below
  have hlinks : links =
      (p.link (i + 1) (p.shown i slots) (p.shown (i + 1) slots') (departure i w) w).toList :=
    (hf.links_of_wire hp hg h hr hw).trans (if_pos ⟨htop, hbottom⟩)
  have hdeparture : ∀ v, departure i w = .wire v → v ∈ p.wiresFrom v.upper := by
    intro v hv
    rw [departure] at hv
    split at hv
    · cases hv
    · cases hv
      exact hw
  have harrival : ∀ v, arrival (i + 1) w = .wire v → v ∈ p.wiresFrom v.upper := by
    intro v hv
    obtain ⟨-, rfl⟩ := arrival_eq_wire.mp hv
    exact hw
  have habove := hf.cell_of_slot hp hg hdeparture
  have hbelow := hf'.cell_of_slot hp hg harrival
  rw [element_departure hbottom] at habove
  rw [element_arrival (Nat.lt_succ_of_le htop)] at hbelow
  rw [link] at hlinks
  -- A link needs the columns of both slots, and only slots with cells have columns.
  rcases habove with ⟨c, hc, hcolumn⟩ | ⟨hnil, hnone⟩
  · rcases hbelow with ⟨c', hc', hcolumn'⟩ | ⟨hnil, hnone⟩
    · rw [hcolumn, hcolumn'] at hlinks
      exact .inl ⟨c, c', hc, hc', hlinks⟩
    · rw [hcolumn, hnone] at hlinks
      exact .inr ⟨.inr hnil, hlinks⟩
  · rw [hnone] at hlinks
    exact .inr ⟨.inl hnil, hlinks⟩

theorem filter_upColumn_links (hnodup : shown.Nodup) (hk : column? shown s = some k) (j : Nat)
    (below : List Slot) :
    (p.links j shown below).filter (·.upColumn = k) =
      (p.leaving s).filterMap (p.link j shown below s) := by
  have hsame : ∀ t, column? shown t = some k ↔ t = s := by
    intro t
    constructor
    · intro ht
      have hplace := (column?_eq_some.mp ht).1.symm.trans (column?_eq_some.mp hk).1
      exact Option.some_inj.mp hplace
    · rintro rfl
      exact hk
  have hmem : s ∈ shown := List.mem_of_getElem? (column?_eq_some.mp hk).1
  rw [links_eq, filter_filterMap_eq (q := fun x => x.1 = s), departures,
    filter_fst_flatMap hnodup hmem, List.filterMap_map]
  · rfl
  · rintro ⟨t, w⟩ - l hl
    obtain ⟨a, b, ha, -, rfl⟩ := link_eq_some.mp hl
    have hcolumn := hsame t
    rw [ha, Option.some_inj] at hcolumn
    exact decide_eq_decide.mpr hcolumn

theorem Fills.arrival_mem_shown (h : p.Levelled rows) (hf : p.Fills row (i + 1) slots)
    (hr : rows[i + 1]? = some row) (hw : w ∈ p.wiresFrom n) (htop : w.top = i) :
    arrival (i + 1) w ∈ p.shown (i + 1) slots := by
  have hspan := h.spans hw
  rw [arrival]
  split
  · next hbottom =>
    rw [hf.node_mem_shown]
    have hrow := hspan.lower_row
    rw [hbottom, hr] at hrow
    cases hrow
    exact hspan.lower_mem
  · next hbottom =>
    have hlt := hspan.top_lt_bottom
    rw [hf.wire_mem_shown, h.upper_eq hw]
    exact ⟨hw, by omega, by omega, .inr (.inl (by rw [htop]))⟩

/-- Above its lower node a wire is shown, if only as what is left of it. -/
theorem Fills.departure_mem_shown (h : p.Levelled rows) (hf : p.Fills row i slots)
    (hr : rows[i]? = some row) (hw : w ∈ p.wiresFrom w.upper) (hbottom : w.bottom = i + 1) :
    departure i w ∈ p.shown i slots := by
  have hspan := h.spans hw
  rw [departure]
  split
  · next htop =>
    rw [hf.node_mem_shown]
    have hrow := hspan.upper_row
    rw [htop, hr] at hrow
    cases hrow
    exact hspan.upper_mem
  · next htop =>
    have hlt := hspan.top_lt_bottom
    rw [hf.wire_mem_shown]
    exact ⟨hw, by omega, by omega, .inr (.inr hbottom.symm)⟩

theorem Fills.links_from_node (hg : p.graph.Sound) (h : p.Levelled rows)
    {slots' : List Slot} {row' : Nat} (hf : p.Fills row i slots) (hr : rows[i]? = some row)
    (hf' : p.Fills row' (i + 1) slots') (hr' : rows[i + 1]? = some row')
    (hn : n ∈ p.graph.nodesInRow row) (hk : column? (p.shown i slots) (.node n) = some k) :
    ((p.links (i + 1) (p.shown i slots) (p.shown (i + 1) slots')).filter (·.upColumn = k)).map
        (·.edge) = (p.wiresFrom n).map (·.edge) := by
  have hnodup : (p.shown i slots).Nodup := hf.nodup.filter _
  rw [filter_upColumn_links hnodup hk]
  refine (map_eq_map_of_forall₂ (forall₂_filterMap (R := fun w l => l.edge = w.edge) ?_) ?_).symm
  · intro w hw
    have htop := h.top_eq hr (hg.rowOf_of_mem hn) hw
    obtain ⟨b, hb⟩ := Option.ne_none_iff_exists'.mp
      (mt column?_eq_none.mp (not_not.mpr (hf'.arrival_mem_shown h hr' hw htop)))
    exact ⟨_, link_eq_some.mpr ⟨k, b, hk, hb, rfl⟩, rfl⟩
  · intro w l hl
    exact hl.symm

theorem Fills.of_mem_links (hp : p.Follows f) (hg : p.graph.Sound) (h : p.Levelled rows)
    (hf : p.Fills row i slots) (hr : rows[i]? = some row)
    (hl : l ∈ p.links j (p.shown i slots) below) :
    ∃ d, p.graph.edges[l.edge]? = some d ∧ f.isNodeVisible p.graph d.upper := by
  rw [links_eq, List.mem_filterMap] at hl
  obtain ⟨⟨s, w⟩, hx, hl⟩ := hl
  obtain ⟨a, b, -, -, rfl⟩ := link_eq_some.mp hl
  obtain ⟨hw, -⟩ := hf.eq_departure hg h hr ((p.departures_shown_sublist i slots).subset hx)
  obtain ⟨hv, d, hd, hu⟩ := (hp.mem_wiresFrom hg).mp hw
  exact ⟨d, hd.found, hu ▸ hv⟩

/-- There is a row below every row where a wire is still open. -/
theorem Levelled.exists_next (h : p.Levelled rows) (hw : w ∈ p.wiresFrom n) (hi : i < w.bottom) :
    ∃ row, rows[i + 1]? = some row := by
  have hlt := (List.getElem?_eq_some_iff.mp (h.spans hw).lower_row).1
  exact ⟨_, List.getElem?_eq_getElem (by omega)⟩

def linksAt (p : Plan) (rows : List Nat) (i : Nat) : List Link :=
  (rows[i + 1]?).elim [] fun _ => p.links (i + 1) (p.shown i (p.slotsAbove rows (i + 1)))
    (p.shown (i + 1) (p.slotsAbove rows (i + 2)))

theorem linksAt_eq_nil (p : Plan) (hnext : rows[i + 1]? = none) : p.linksAt rows i = [] := by
  rw [linksAt, hnext, Option.elim_none]

theorem linksAt_eq (p : Plan) (hnext : rows[i + 1]? = some row) :
    p.linksAt rows i = p.links (i + 1) (p.shown i (p.slotsAbove rows (i + 1)))
      (p.shown (i + 1) (p.slotsAbove rows (i + 2))) := by
  rw [linksAt, hnext, Option.elim_some]

theorem Levelled.linksAt_of_closed (hp : p.Follows f) (hg : p.graph.Sound) (h : p.Levelled rows)
    (hr : rows[i]? = some row) (hw : w ∈ p.wiresFrom w.upper)
    (hclosed : ¬ (w.top ≤ i ∧ i < w.bottom)) :
    (p.linksAt rows i).filter (·.edge = w.edge) = [] := by
  cases hnext : rows[i + 1]? with
  | none => rw [p.linksAt_eq_nil hnext, List.filter_nil]
  | some row' =>
    rw [p.linksAt_eq hnext, (h.fills hg hr).links_of_wire hp hg h hr hw, if_neg hclosed]

theorem Levelled.of_mem_linksAt (hp : p.Follows f) (hg : p.graph.Sound) (h : p.Levelled rows)
    (hr : rows[i]? = some row) (hl : l ∈ p.linksAt rows i) :
    ∃ d, p.graph.edges[l.edge]? = some d ∧ f.isNodeVisible p.graph d.upper := by
  cases hnext : rows[i + 1]? with
  | none =>
    rw [p.linksAt_eq_nil hnext] at hl
    cases hl
  | some row' =>
    rw [p.linksAt_eq hnext] at hl
    exact (h.fills hg hr).of_mem_links hp hg h hr hl

theorem Levelled.row_of_draw (hg : p.graph.Sound) (h : p.Levelled rows) {d : Drawing}
    (hd : p.draw rows = .ok d) (i : Nat) :
    d.rows[i]? = rows[i]?.map fun row =>
      ⟨row, p.cells i (p.shown i (p.slotsAbove rows (i + 1))), p.linksAt rows i⟩ :=
  h.getElem?_draw hg hd i

theorem Levelled.linksAt_from_node (hg : p.graph.Sound) (h : p.Levelled rows)
    (hr : rows[i]? = some row) (hn : n ∈ p.graph.nodesInRow row)
    (hk : column? (p.shown i (p.slotsAbove rows (i + 1))) (.node n) = some k) :
    ((p.linksAt rows i).filter (·.upColumn = k)).map (·.edge) =
      (p.wiresFrom n).map (·.edge) := by
  cases hnext : rows[i + 1]? with
  | some row' =>
    rw [p.linksAt_eq hnext]
    exact (h.fills hg hr).links_from_node hg h hr (h.fills hg hnext) hnext hn hk
  | none =>
    -- Below the last row there is nothing for a wire to lead to.
    have hnil : p.wiresFrom n = [] := by
      rw [List.eq_nil_iff_forall_not_mem]
      intro w hw
      have htop := h.top_eq hr (hg.rowOf_of_mem hn) hw
      have hlt := (h.spans hw).top_lt_bottom
      obtain ⟨row', hrow'⟩ := h.exists_next hw (htop ▸ hlt)
      simp [hnext] at hrow'
    rw [p.linksAt_eq_nil hnext, hnil, List.filter_nil, List.map_nil, List.map_nil]

end Plan

namespace Graph

variable {g : Graph} {f : Folding} {o : DrawOptions} {s : Selection} {d : Drawing}

/-- From the upper node of a visible edge at place `u` to its lower node at place `v`, each row has
the edge's one link if the edge is shown there and in the next row, between the cells that show it,
and no other links. So every edge below a node has its link there. -/
theorem links_of_draw {cs : List Commit} {references : List Reference}
    (hb : build cs references = .ok g) (hd : g.draw f o s = .ok d) :
    ∀ i r, d.rows[i]? = some r →
      (∀ e edge, g.edges[e]? = some edge → f.isNodeVisible g edge.upper →
        ∃ lower u v, g.Reaches f edge.lower lower ∧ d.position? (g.rowOf edge.upper) = some u ∧
          d.position? (g.rowOf lower) = some v ∧ u < v ∧
          if u ≤ i ∧ i < v then
            ∃ r', d.rows[i + 1]? = some r' ∧
              let above := r.cellsFor (.onWay e edge.upper lower u v i)
              let below := r'.cellsFor (.onWay e edge.upper lower u v (i + 1))
              ((∃ c c', above = [c] ∧ below = [c'] ∧ r.linksFor e =
                [{ upColumn := c.column, downColumn := c'.column, edge := e, branch := edge.branch
                   folded := !f.isNodeVisible g edge.lower, selected := s.has (.edge e) }]) ∨
                (above = [] ∨ below = []) ∧ r.linksFor e = [])
          else r.linksFor e = []) ∧
      (∀ l ∈ r.links, ∃ edge, g.edges[l.edge]? = some edge ∧ f.isNodeVisible g edge.upper) ∧
      ∀ n m, g.nodes[n]? = some m → m.row = r.row →
        ∃ c, r.cellsFor (.node n) = [c] ∧
          (r.links.filter (·.upColumn = c.column)).map (·.edge) = m.down := by
  have hg := (depicts_of_build hb).toSound
  obtain ⟨p, rfl, rfl, rfl, hp, hplan⟩ := hg.exists_plan hd
  have hlevel := hp.levelled hg
  have hdraw := hlevel.row_of_draw hg hplan
  intro i r hr
  rw [hdraw, Option.map_eq_some_iff] at hr
  obtain ⟨row, hrow, rfl⟩ := hr
  have hf := hlevel.fills hg hrow
  simp only [DrawnRow.cellsFor, DrawnRow.linksFor]
  refine ⟨fun e edge he hv => ?_, fun l hl => ?_, fun n m hm hmr => ?_⟩
  · obtain ⟨m, hm, -⟩ := hg.exists_upper he
    have hdown := (hg.mem_down hm).mpr ⟨edge, he, rfl⟩
    -- A visible edge has one wire, and what is drawn of the wire is drawn of the edge.
    obtain ⟨w, hw, rfl, edge', hwire⟩ := exists_mem_right (hp.forall₂_wiresFrom hm hv) hdown
    cases he.symm.trans hwire.found
    have hspan := hp.spans hg hw
    rw [← hwire.upper_eq] at hw ⊢
    refine ⟨w.lower, w.top, w.bottom, hwire.reaches, hg.position?_eq hd hspan.upper_row,
      hg.position?_eq hd hspan.lower_row, hspan.top_lt_bottom, ?_⟩
    split
    · next hopen =>
      obtain ⟨row', hnext⟩ := hlevel.exists_next hw hopen.2
      have hlinks := hf.links_between hp hg hlevel hrow (hlevel.fills hg hnext) hw hopen.1 hopen.2
      rw [← p.linksAt_eq hnext, hwire.branch_eq, hwire.folded_eq] at hlinks
      have hbelow := hdraw (i + 1)
      rw [hnext, Option.map_some] at hbelow
      exact ⟨_, hbelow, hlinks⟩
    · next hclosed => exact hlevel.linksAt_of_closed hp hg hrow hw hclosed
  · exact hlevel.of_mem_linksAt hp hg hrow hl
  · have hn : n ∈ p.graph.nodesInRow row := hg.mem_nodesInRow.mpr ⟨m, hm, hmr⟩
    have hv := hf.isNodeVisible hg hrow ((hf.node_mem n).mpr hn)
    obtain ⟨c, hc, hcolumn⟩ | ⟨-, hnone⟩ := hf.cell_of_slot (s := .node n) hp hg (by simp)
    · rw [← hp.map_edge hm hv]
      exact ⟨c, hc, hlevel.linksAt_from_node hg hrow hn hcolumn⟩
    · exact absurd (hf.node_mem_shown.mpr hn) (Plan.column?_eq_none.mp hnone)

/-- The long edge of the first head is cut between the second and the fourth row. -/
theorem links_of_draw_shortened :
    ∃ (g : Graph) (d : Drawing),
      build [⟨1, [5], 0⟩, ⟨2, [3], 0⟩, ⟨3, [4], 0⟩, ⟨4, [5], 0⟩, ⟨5, [], 0⟩] [] = .ok g ∧
      g.draw (.unfolded 5) ⟨false, 2⟩ .none = .ok d ∧
      d.rows.map (fun r => r.links.map fun l => (l.upColumn, l.downColumn)) =
        [[(0, 0)], [(1, 0)], [(0, 1)], [(0, 0), (1, 0)], []] ∧
      ∀ (i : Nat) (r : DrawnRow), d.rows[i]? = some r → ∀ (n : NodeId) (m : Node),
        g.nodes[n]? = some m → m.row = r.row → ∃ c, r.cellsFor (.node n) = [c] ∧
          (r.links.filter (·.upColumn = c.column)).map (·.edge) = m.down := by
  have hdraw : ∃ (g : Graph) (d : Drawing),
      build [⟨1, [5], 0⟩, ⟨2, [3], 0⟩, ⟨3, [4], 0⟩, ⟨4, [5], 0⟩, ⟨5, [], 0⟩] [] = .ok g ∧
      g.draw (.unfolded 5) ⟨false, 2⟩ .none = .ok d ∧
      d.rows.map (fun r => r.links.map fun l => (l.upColumn, l.downColumn)) =
        [[(0, 0)], [(1, 0)], [(0, 1)], [(0, 0), (1, 0)], []] := ⟨_, _, rfl, rfl, rfl⟩
  obtain ⟨g, d, hb, hd, hcolumns⟩ := hdraw
  exact ⟨g, d, hb, hd, hcolumns, fun i r hr => (links_of_draw hb hd i r hr).2.2⟩

end Graph

end CommitGraph
