import CommitGraph.Proofs.Drawing.Links
import CommitGraph.Proofs.Drawing.Twins

namespace CommitGraph

namespace Graph

/-- The edge leads past the row, from a visible node to the first visible one on its way. -/
def Passes (g : Graph) (f : Folding) (e : EdgeId) (r : Nat) : Prop :=
  ∃ d n, g.edges[e]? = some d ∧ f.isNodeVisible g d.upper ∧ g.Reaches f d.lower n ∧
    g.rowOf d.upper < r ∧ r < g.rowOf n

/-- Only the ends of the edge are drawn, because it leads past too many visible rows. -/
def Shortens (g : Graph) (f : Folding) (o : DrawOptions) (e : EdgeId) : Prop :=
  o.longEdgesInFull = false ∧ ∃ d n, g.edges[e]? = some d ∧ g.Reaches f d.lower n ∧
    o.effectiveThreshold < f.visibleAbove (g.rowOf n) - f.visibleAbove (g.rowOf d.upper)

/-- An edge that leads past the row is shortened for both foldings or for neither. -/
def ShortensAlike (g : Graph) (f f' : Folding) (o : DrawOptions) (r : Nat) : Prop :=
  ∀ e, g.Passes f e r → (g.Shortens f o e ↔ g.Shortens f' o e)

end Graph

/-- Row `below` of the graph is drawn right below row `r`, with different elements in the two
drawings. -/
def Drawing.ChangesBelow (d d' : Drawing) (r below : Nat) : Prop :=
  ∃ (i : Nat) (x y y' : DrawnRow), d.rows[i]? = some x ∧ x.row = r ∧ d.rows[i + 1]? = some y ∧
    y' ∈ d'.rows ∧ y.row = below ∧ y'.row = below ∧
    y.cells.map (·.element) ≠ y'.cells.map (·.element)

namespace Plan

variable {p p' q : Plan} {f f' : Folding} {marked marked' : Chain → Bool} {c : Chain}
  {v w u : Wire} {n : NodeId} {r y : Nat} {s t : Slot}

theorem Follows.isShortened_iff (hp : p.Follows f) (hg : p.graph.Sound)
    (hv : v ∈ p.wiresFrom n) :
    p.isShortened v = true ↔ p.graph.Shortens f p.options v.edge := by
  obtain ⟨-, d, hd, -⟩ := (hp.mem_wiresFrom hg).mp hv
  rw [isShortened, Bool.and_eq_true, Bool.not_eq_true', decide_eq_true_eq, hd.top_eq,
    hd.bottom_eq]
  constructor
  · rintro ⟨hfull, hlong⟩
    exact ⟨hfull, d, v.lower, hd.found, hd.reaches, hlong⟩
  · rintro ⟨hfull, d', n, hd', hn, hlong⟩
    cases hd.found.symm.trans hd'
    cases hd.reaches.unique hn
    exact ⟨hfull, hlong⟩

def shownAt (p : Plan) (f : Folding) (r : Nat) : List Slot :=
  p.shown (f.visibleAbove r) (p.slotsAt f r)

def drawnAt (p : Plan) (f : Folding) (r : Nat) : DrawnRow :=
  ⟨r, p.cells (f.visibleAbove r) (p.shownAt f r),
    p.linksAt (p.graph.visibleRows f) (f.visibleAbove r)⟩

theorem linksAt_visibleAbove (p : Plan)
    (hy : (p.graph.visibleRows f)[f.visibleAbove r + 1]? = some y) :
    p.linksAt (p.graph.visibleRows f) (f.visibleAbove r) =
      p.links (f.visibleAbove r + 1) (p.shownAt f r) (p.shownAt f y) := by
  rw [p.linksAt_eq hy, shownAt, shownAt, slotsAt, slotsAt, Graph.visibleAbove_of_getElem? hy]

theorem Fills.isShortened_eq_false_iff (hp : p.Follows f) (hg : p.graph.Sound) {i : Nat}
    {slots : List Slot} (hf : p.Fills r i slots) (hv : .wire v ∈ slots) :
    p.isShortened v = false ↔
      ∃ x ∈ p.cells i (p.shown i slots), x.element = .edge v.edge ∧ x.kind = .edge := by
  obtain ⟨hmem, htop, hbottom⟩ := (hf.wire_mem v).mp hv
  have hcells := hf.cells_wire hp hg hmem
  constructor
  · intro hfull
    rw [if_pos ⟨htop, hbottom, .inl hfull⟩] at hcells
    obtain ⟨column, hx⟩ := hcells
    have hcell := List.mem_of_mem_filter (hx ▸ List.mem_singleton_self _)
    exact ⟨_, hcell, rfl, by rw [hfull, Bool.not_false, if_pos rfl]⟩
  · rintro ⟨x, hx, he, hkind⟩
    have hcell : x ∈ (p.cells i (p.shown i slots)).filter (·.element = .edge v.edge) :=
      List.mem_filter.mpr ⟨hx, decide_eq_true he⟩
    split at hcells
    · obtain ⟨column, heq⟩ := hcells
      rw [heq, List.mem_singleton] at hcell
      subst hcell
      by_contra hshort
      rw [Bool.not_eq_false] at hshort
      rw [hshort, Bool.not_true, if_neg Bool.false_ne_true] at hkind
      split at hkind <;> cases hkind
    · rw [hcells] at hcell
      cases hcell

variable {h : p.Flips p' q f f' marked marked' c}

theorem Flips.Row.nodup_shownAt (hr : h.Row r) : (p.shownAt f r).Nodup := hr.fills.nodup.filter _

theorem Flips.Row.nodup_shownAt' (hr : h.Row r) : (p'.shownAt f' r).Nodup :=
  hr.fills'.nodup.filter _

theorem Flips.isShortened_eq_iff (h : p.Flips p' q f f' marked marked' c) (hvw : p.Twin p' v w) :
    p.isShortened v = p'.isShortened w ↔
      (p.graph.Shortens f p.options v.edge ↔ p.graph.Shortens f' p.options v.edge) := by
  rw [Bool.eq_iff_iff, h.folds.follows.isShortened_iff h.sound hvw.mem,
    h.folds'.follows.isShortened_iff h.folds'.sound hvw.mem', h.graph_eq, h.options_eq,
    hvw.edge_eq]

theorem Flips.Row.passes (hr : h.Row r) (hv : .wire v ∈ p.slotsAt f r) :
    p.graph.Passes f v.edge r := by
  obtain ⟨hmem, hup, hlo⟩ := hr.of_mem_slotsAt hv
  obtain ⟨hvis, d, hd, hu⟩ := (h.folds.follows.mem_wiresFrom h.sound).mp hmem
  rw [← hu] at hvis hup
  exact ⟨d, v.lower, hd.found, hvis, hd.reaches, hup, hlo⟩

theorem Flips.Row.exists_wire (hr : h.Row r) {e : EdgeId} (he : p.graph.Passes f e r) :
    ∃ v, .wire v ∈ p.slotsAt f r ∧ v.edge = e := by
  obtain ⟨d, n, hd, hvis, hn, hup, hlo⟩ := he
  obtain ⟨v, rfl, hwire⟩ := h.folds.hides.exists_isWire h.sound hd
  have hlower := hwire.reaches.unique hn
  rw [← hwire.upper_eq] at hvis hup
  rw [← hlower] at hlo
  have hmem : v ∈ p.wiresFrom v.upper :=
    (h.folds.follows.mem_wiresFrom h.sound).mpr ⟨hvis, d, hwire, hwire.upper_eq.symm⟩
  exact ⟨v, (hr.fills.wire_mem v).mpr ⟨hmem, (h.folds.follows.top_lt_iff h.sound hmem).mpr hup,
    (h.folds.follows.lt_bottom_iff h.sound hmem hr.visible).mpr hlo⟩, rfl⟩

theorem Flips.Row.top_iff (hr : h.Row r) (hoff : c.Off p.graph r) (hvw : p.Twin p' v w)
    (hv : .wire v ∈ p.slotsAt f r) :
    f.visibleAbove r = v.top + 1 ↔ f'.visibleAbove r = w.top + 1 := by
  obtain ⟨-, hup, hlo⟩ := hr.of_mem_slotsAt hv
  have hupper := (h.sameWay hoff hvw (Nat.le_of_lt hup) hlo).upper_eq
  have hvis := h.folds.follows.isVisible_upper h.sound hvw.mem
  have hvis' := h.folds'.follows.isVisible_upper h.folds'.sound hvw.mem'
  rw [h.graph_eq, ← hupper] at hvis'
  rw [h.folds.follows.top_eq h.sound hvw.mem, h.folds'.follows.top_eq h.folds'.sound hvw.mem',
    h.graph_eq, ← hupper]
  exact h.apart.next_iff h.sound hvis hvis' hup (.inr hoff)

theorem Flips.Row.bottom_iff (hr : h.Row r) (hoff : c.Off p.graph r) (hvw : p.Twin p' v w)
    (hup : p.graph.rowOf v.upper ≤ r) (hlo : r < p.graph.rowOf v.lower) :
    v.bottom = f.visibleAbove r + 1 ↔ w.bottom = f'.visibleAbove r + 1 := by
  rw [h.folds.follows.bottom_eq h.sound hvw.mem,
    h.folds'.follows.bottom_eq h.folds'.sound hvw.mem', h.graph_eq,
    ← (h.sameWay hoff hvw hup hlo).lower_eq]
  exact h.apart.next_iff h.sound hr.visible hr.visible' hlo (.inl hoff)

/-- Off the chain a wire is shown in both plans or in neither, if it is shortened in both or in
neither. Right below its upper end it is shown in any case. -/
theorem Flips.Row.isShown_eq (hr : h.Row r) (hoff : c.Off p.graph r) (hvw : p.Twin p' v w)
    (hv : .wire v ∈ p.slotsAt f r)
    (hshort : f.visibleAbove r ≠ v.top + 1 → p.isShortened v = p'.isShortened w) :
    p.isShown (f.visibleAbove r) (.wire v) = p'.isShown (f'.visibleAbove r) (.wire w) := by
  obtain ⟨-, hup, hlo⟩ := hr.of_mem_slotsAt hv
  have htop := hr.top_iff hoff hvw hv
  have hbottom := hr.bottom_iff hoff hvw (Nat.le_of_lt hup) hlo
  by_cases hfirst : f.visibleAbove r = v.top + 1
  · simp only [isShown, decide_eq_true hfirst, decide_eq_true (htop.mp hfirst), Bool.or_true,
      Bool.true_or]
  · simp only [isShown, hshort hfirst, htop, eq_comm (a := f.visibleAbove r + 1),
      eq_comm (a := f'.visibleAbove r + 1), hbottom]

theorem Flips.Row.forall₂_shownAt (hr : h.Row r) (hoff : c.Off p.graph r)
    (hshort : ∀ v w, .wire v ∈ p.slotsAt f r → p.Twin p' v w →
      f.visibleAbove r ≠ v.top + 1 → p.isShortened v = p'.isShortened w) :
    List.Forall₂ (p.TwinSlot p') (p.shownAt f r) (p'.shownAt f' r) := by
  refine (List.rel_filter ?_ (forall₂_mem (hr.alike hoff))).imp fun s t hst => hst.1
  rintro s t ⟨hst, hs, -⟩
  cases hst with
  | node heq => rfl
  | wire hvw => exact Bool.eq_iff_iff.mp (hr.isShown_eq hoff hvw hs (hshort _ _ hs hvw))

theorem Flips.Row.isShortened_eq (hr : h.Row r)
    (hshort : p.graph.ShortensAlike f f' p.options r) (hvw : p.Twin p' v w)
    (hv : .wire v ∈ p.slotsAt f r) : p.isShortened v = p'.isShortened w :=
  (h.isShortened_eq_iff hvw).mpr (hshort v.edge (hr.passes hv))

theorem Flips.Row.alike_shown (hr : h.Row r) (hoff : c.Off p.graph r)
    (hshort : p.graph.ShortensAlike f f' p.options r) :
    List.Forall₂ (p.TwinSlot p') (p.shownAt f r) (p'.shownAt f' r) :=
  hr.forall₂_shownAt hoff fun _ _ hv hvw _ => hr.isShortened_eq hshort hvw hv

theorem Flips.Row.cell_eq (hr : h.Row r) (hoff : c.Off p.graph r)
    (hshort : p.graph.ShortensAlike f f' p.options r) (hst : p.TwinSlot p' s t)
    (hs : s ∈ p.slotsAt f r) (k : Nat) :
    p.cell (f.visibleAbove r) k s = p'.cell (f'.visibleAbove r) k t := by
  cases hst with
  | node heq => rw [cell, cell, heq, h.graph_eq, h.selection_eq]
  | @wire v w hvw =>
    obtain ⟨-, hup, hlo⟩ := hr.of_mem_slotsAt hs
    have hway := h.sameWay hoff hvw (Nat.le_of_lt hup) hlo
    simp only [cell, hr.isShortened_eq hshort hvw hs, hr.top_iff hoff hvw hs, hway.branch_eq,
      hway.folded_eq, hway.edge_eq, h.selection_eq]

theorem Flips.Row.cells_eq (hr : h.Row r) (hoff : c.Off p.graph r)
    (hshort : p.graph.ShortensAlike f f' p.options r) :
    (p.drawnAt f r).cells = (p'.drawnAt f' r).cells := by
  change p.cells _ _ = p'.cells _ _
  rw [Plan.cells_eq hr.nodup_shownAt, Plan.cells_eq hr.nodup_shownAt']
  have halike := forall₂_zipIdx (forall₂_mem (hr.alike_shown hoff hshort)) 0
  apply filterMap_eq_filterMap_of_forall₂ halike
  rintro ⟨s, k⟩ ⟨t, _⟩ ⟨⟨hst, hs, -⟩, rfl⟩
  exact hr.cell_eq hoff hshort hst (List.mem_of_mem_filter hs) k

/-- Whether an edge that leads past a row is shortened can be seen there. -/
theorem Flips.Row.shortensAlike (hr : h.Row r) (hoff : c.Off p.graph r)
    (hcells : (p.drawnAt f r).cells = (p'.drawnAt f' r).cells) :
    p.graph.ShortensAlike f f' p.options r := by
  intro e he
  obtain ⟨v, hv, rfl⟩ := hr.exists_wire he
  obtain ⟨t, ht, hvt⟩ := exists_mem_right (hr.alike hoff) hv
  cases hvt with
  | wire hvw =>
    have hfull := hr.fills.isShortened_eq_false_iff h.folds.follows h.sound hv
    have hfull' := hr.fills'.isShortened_eq_false_iff h.folds'.follows h.folds'.sound ht
    change _ ↔ ∃ x ∈ (p.drawnAt f r).cells, _ at hfull
    rw [hcells] at hfull
    rw [← hvw.edge_eq] at hfull'
    rw [← h.isShortened_eq_iff hvw, Bool.eq_iff_iff, ← not_iff_not, Bool.not_eq_true,
      Bool.not_eq_true]
    exact hfull.trans hfull'.symm

theorem Flips.Row.forall₂_leaving (hr : h.Row r) (hst : p.TwinSlot p' s t)
    (hs : s ∈ p.slotsAt f r) : List.Forall₂ (p.Twin p') (p.leaving s) (p'.leaving t) := by
  apply Plan.forall₂_leaving hst
  rintro n _ rfl rfl
  have hn := (hr.fills.node_mem n).mp hs
  obtain ⟨m, hm, -⟩ := h.sound.mem_nodesInRow.mp hn
  have hrow := h.sound.rowOf_of_mem hn
  refine h.twin_wiresFrom ?_ ?_ hm
  · rw [Folding.isNodeVisible, hrow, hr.visible]
  · rw [Folding.isNodeVisible, hrow, hr.visible']

theorem Flips.Row.link_eq (hr : h.Row r) (hoff : c.Off p.graph r)
    (hshown : List.Forall₂ (p.TwinSlot p') (p.shownAt f r) (p'.shownAt f' r))
    (hbelow : List.Forall₂ (p.TwinSlot p') (p.shownAt f y) (p'.shownAt f' y))
    (hst : p.TwinSlot p' s t) (hs : s ∈ p.slotsAt f r) (hvw : p.Twin p' v w)
    (hv : v ∈ p.leaving s) :
    p.link (f.visibleAbove r + 1) (p.shownAt f r) (p.shownAt f y) s v =
      p'.link (f'.visibleAbove r + 1) (p'.shownAt f' r) (p'.shownAt f' y) t w := by
  have hcross := hr.fills.crosses h.sound h.folds.levelled
    (Graph.getElem?_visibleRows hr.lt_size hr.visible)
  obtain ⟨hmem, htop, hbottom⟩ := (hcross.mem_iff v).mp (List.mem_flatMap.mpr ⟨s, hs, hv⟩)
  have hup := (h.folds.follows.top_le_iff h.sound hmem hr.visible).mp (Nat.le_of_lt_succ htop)
  have hlo := (h.folds.follows.lt_bottom_iff h.sound hmem hr.visible).mp hbottom
  -- The wire leads past the row, where twins differ only in the places of their ends.
  have hway := h.sameWay hoff hvw hup hlo
  have hiff := hr.bottom_iff hoff hvw hup hlo
  have harrival : p.TwinSlot p' (arrival (f.visibleAbove r + 1) v)
      (arrival (f'.visibleAbove r + 1) w) := by
    unfold arrival
    by_cases hb : v.bottom = f.visibleAbove r + 1
    · rw [if_pos hb, if_pos (hiff.mp hb)]
      exact .node hway.lower_eq
    · rw [if_neg hb, if_neg (mt hiff.mpr hb)]
      exact .wire hvw
  rw [link, link, column?_eq_of_alike h.biUnique hshown hst,
    column?_eq_of_alike h.biUnique hbelow harrival, hway.branch_eq, hway.folded_eq, hway.edge_eq,
    h.selection_eq]

theorem Flips.Row.links_eq (hr : h.Row r) (hoff : c.Off p.graph r)
    (hshown : List.Forall₂ (p.TwinSlot p') (p.shownAt f r) (p'.shownAt f' r))
    (hbelow : List.Forall₂ (p.TwinSlot p') (p.shownAt f y) (p'.shownAt f' y)) :
    p.links (f.visibleAbove r + 1) (p.shownAt f r) (p.shownAt f y) =
      p'.links (f'.visibleAbove r + 1) (p'.shownAt f' r) (p'.shownAt f' y) := by
  apply flatMap_eq_flatMap_of_forall₂ (forall₂_mem hshown)
  rintro s t ⟨hst, hs, -⟩
  have hslot := List.mem_of_mem_filter hs
  apply filterMap_eq_filterMap_of_forall₂ (forall₂_mem (hr.forall₂_leaving hst hslot))
  rintro v w ⟨hvw, hv, -⟩
  exact hr.link_eq hoff hshown hbelow hst hslot hvw hv

theorem Flips.Row.alike_of_elements (hr : h.Row r)
    (helements : (p.drawnAt f r).cells.map (·.element) =
      (p'.drawnAt f' r).cells.map (·.element)) :
    List.Forall₂ (p.TwinSlot p') (p.shownAt f r) (p'.shownAt f' r) := by
  change (p.cells _ _).map _ = (p'.cells _ _).map _ at helements
  rw [map_element_cells hr.nodup_shownAt fun _ hn => hr.fills.exists_node h.sound hn,
    map_element_cells hr.nodup_shownAt' fun _ hn =>
      hr.fills'.exists_node h.folds'.sound hn] at helements
  -- Cells stand in the order of their slots, and an element tells its slot.
  have hsame := List.forall₂_eq_eq_eq ▸ helements
  rw [List.forall₂_map_left_iff, List.forall₂_map_right_iff] at hsame
  apply (forall₂_mem hsame).imp
  rintro s t ⟨he, hs, ht⟩
  cases s with
  | node n =>
    cases t with
    | node k => exact .node (Element.node.inj he)
    | wire w => cases he
  | wire v =>
    cases t with
    | node k => cases he
    | wire w =>
      exact .wire ⟨(hr.fills.wire_mem_shown.mp hs).1, (hr.fills'.wire_mem_shown.mp ht).1,
        Element.edge.inj he⟩

theorem Flips.Row.mem_slotsAt_of_next (hr : h.Row r) (hy : h.Row y)
    (hnext : f.visibleAbove y = f.visibleAbove r + 1) (hv : .wire v ∈ p.slotsAt f y)
    (htop : f.visibleAbove y ≠ v.top + 1) : .wire v ∈ p.slotsAt f r := by
  obtain ⟨hmem, hlt, hbottom⟩ := (hy.fills.wire_mem v).mp hv
  exact (hr.fills.wire_mem v).mpr ⟨hmem, by omega, by omega⟩

theorem Flips.Row.alike_shown_next (hr : h.Row r) (hy : h.Row y)
    (hnext : f.visibleAbove y = f.visibleAbove r + 1) (hoff : c.Off p.graph y)
    (hshort : p.graph.ShortensAlike f f' p.options r) :
    List.Forall₂ (p.TwinSlot p') (p.shownAt f y) (p'.shownAt f' y) :=
  hy.forall₂_shownAt hoff fun _ _ hv hvw htop =>
    hr.isShortened_eq hshort hvw (hr.mem_slotsAt_of_next hy hnext hv htop)

theorem Flips.Row.next_eq (hr : h.Row r) (hoff : c.Off p.graph r) :
    (p.graph.visibleRows f)[f.visibleAbove r + 1]? =
      (p.graph.visibleRows f')[f'.visibleAbove r + 1]? := by
  apply Option.ext
  intro y
  constructor
  · intro hy
    exact (h.apart.next h.sound hr.visible hr.visible' hoff hy).1
  · intro hy
    exact (h.apart.symm.next h.sound hr.visible' hr.visible hoff hy).1

/-- The links below a row off the chain are the same, unless the upper end of the chain is next and
shows different elements. -/
theorem Flips.Row.links_eq_or (hr : h.Row r) (hoff : c.Off p.graph r)
    (hshort : p.graph.ShortensAlike f f' p.options r) :
    (p.drawnAt f r).links = (p'.drawnAt f' r).links ∨
      (p.graph.visibleRows f)[f.visibleAbove r + 1]? = some (p.graph.rowOf c.upper) ∧
        h.Row (p.graph.rowOf c.upper) ∧
        (p.drawnAt f (p.graph.rowOf c.upper)).cells.map (·.element) ≠
          (p'.drawnAt f' (p.graph.rowOf c.upper)).cells.map (·.element) := by
  have hshown := hr.alike_shown hoff hshort
  cases hy : (p.graph.visibleRows f)[f.visibleAbove r + 1]? with
  | none =>
    have hy' : (p'.graph.visibleRows f')[f'.visibleAbove r + 1]? = none := by
      rw [h.graph_eq, ← hr.next_eq hoff, hy]
    exact .inl ((p.linksAt_eq_nil hy).trans (p'.linksAt_eq_nil hy').symm)
  | some y =>
    obtain ⟨hy', hvis, hvis', -, hbeside⟩ :=
      h.apart.next h.sound hr.visible hr.visible' hoff hy
    have hrow : h.Row y := ⟨hvis, hvis', (Graph.mem_visibleRows.mp (List.mem_of_getElem? hy)).1⟩
    have hlinks : (p.drawnAt f r).links = _ := p.linksAt_visibleAbove hy
    have hlinks' : (p'.drawnAt f' r).links = _ := p'.linksAt_visibleAbove (h.graph_eq ▸ hy')
    have hnext := Graph.visibleAbove_of_getElem? hy
    -- The next row is that of the upper end, or it is off the chain like this one.
    rcases hbeside with rfl | hoff'
    · by_cases helements : (p.drawnAt f (p.graph.rowOf c.upper)).cells.map (·.element) =
          (p'.drawnAt f' (p.graph.rowOf c.upper)).cells.map (·.element)
      · rw [hlinks, hlinks']
        exact .inl (hr.links_eq hoff hshown (hrow.alike_of_elements helements))
      · exact .inr ⟨rfl, hrow, helements⟩
    · rw [hlinks, hlinks']
      exact .inl (hr.links_eq hoff hshown (hr.alike_shown_next hrow hnext hoff' hshort))

theorem Follows.getElem?_draw (hp : p.Follows f) (hg : p.graph.Sound) {d : Drawing}
    (hd : p.draw (p.graph.visibleRows f) = .ok d) {i : Nat}
    (hr : (p.graph.visibleRows f)[i]? = some r) : d.rows[i]? = some (p.drawnAt f r) := by
  rw [(hp.levelled hg).row_of_draw hg hd, hr, Option.map_some]
  obtain rfl := Graph.visibleAbove_of_getElem? hr
  rfl

theorem Follows.mem_draw (hp : p.Follows f) (hg : p.graph.Sound) {d : Drawing}
    (hd : p.draw (p.graph.visibleRows f) = .ok d) {x : DrawnRow} (hx : x ∈ d.rows) :
    x = p.drawnAt f x.row ∧ f.isVisible x.row ∧ x.row < p.graph.rows.size := by
  obtain ⟨i, hi⟩ := List.mem_iff_getElem?.mp hx
  rw [(hp.levelled hg).row_of_draw hg hd, Option.map_eq_some_iff] at hi
  obtain ⟨r, hr, rfl⟩ := hi
  obtain ⟨hlt, hvis⟩ := Graph.mem_visibleRows.mp (List.mem_of_getElem? hr)
  obtain rfl := Graph.visibleAbove_of_getElem? hr
  exact ⟨rfl, hvis, hlt⟩

/-- A row off the chain has the same cells in both drawings exactly if every edge that leads past it
is shortened in both or in neither. Then it has the same links too, unless the upper end of the
chain is next and shows different elements. -/
theorem Flips.redrawn (h : p.Flips p' q f f' marked marked' c) {d d' : Drawing} {x x' : DrawnRow}
    (hd : p.draw (p.graph.visibleRows f) = .ok d)
    (hd' : p'.draw (p'.graph.visibleRows f') = .ok d') (hx : x ∈ d.rows) (hx' : x' ∈ d'.rows)
    (hrow : x.row = x'.row) (hoff : c.Off p.graph x.row) :
    (x.cells = x'.cells ↔ p.graph.ShortensAlike f f' p.options x.row) ∧
      (x.cells = x'.cells →
        x.links = x'.links ∨ d.ChangesBelow d' x.row (p.graph.rowOf c.upper)) := by
  obtain ⟨hdrawn, hvis, hlt⟩ := h.folds.follows.mem_draw h.sound hd hx
  obtain ⟨hdrawn', hvis', -⟩ := h.folds'.follows.mem_draw h.folds'.sound hd' hx'
  rw [← hrow] at hdrawn' hvis'
  have hr : h.Row x.row := ⟨hvis, hvis', hlt⟩
  have hcells : x.cells = x'.cells ↔ p.graph.ShortensAlike f f' p.options x.row := by
    rw [hdrawn, hdrawn']
    exact ⟨hr.shortensAlike hoff, hr.cells_eq hoff⟩
  refine ⟨hcells, fun heq => ?_⟩
  rcases hr.links_eq_or hoff (hcells.mp heq) with hlinks | ⟨hnext, hupper, helements⟩
  · rw [← hdrawn, ← hdrawn'] at hlinks
    exact .inl hlinks
  · have hhere := h.folds.follows.getElem?_draw h.sound hd
      (Graph.getElem?_visibleRows hlt hvis)
    have hbelow := h.folds.follows.getElem?_draw h.sound hd hnext
    have hbelow' := h.folds'.follows.getElem?_draw h.folds'.sound hd'
      (Graph.getElem?_visibleRows (h.graph_eq ▸ hupper.lt_size) hupper.visible')
    exact .inr ⟨_, _, _, _, hhere, rfl, hbelow, List.mem_of_getElem? hbelow', rfl, rfl, helements⟩

end Plan

theorem Folding.Apart.redrawn {g : Graph} {f f' : Folding} {marked marked' : Chain → Bool}
    {c : Chain} (hg : g.Sound) (h : f.Apart f' g marked marked' c) (o : DrawOptions)
    (s : Selection) :
    ∃ d d', g.draw f o s = .ok d ∧ g.draw f' o s = .ok d' ∧
      d.rows.map (·.row) = g.visibleRows f ∧ d'.rows.map (·.row) = g.visibleRows f' ∧
      ∀ r ∈ d.rows, ∀ r' ∈ d'.rows, r.row = r'.row → c.Off g r.row →
        (r.cells = r'.cells ↔ g.ShortensAlike f f' o r.row) ∧
        (r.cells = r'.cells → r.links = r'.links ∨ d.ChangesBelow d' r.row (g.rowOf c.upper)) := by
  obtain ⟨p, rfl, rfl, rfl, hp, d, hdraw, hd⟩ := h.hides.exists_plan hg o s
  obtain ⟨p', hgraph, ho, hs, hp', d', hdraw', hd'⟩ :=
    h.hides'.exists_plan hg p.options p.selection
  obtain ⟨q, hgraph₀, -, -, hq, -⟩ :=
    (Folding.hides_unfolded p.graph).exists_plan hg p.options p.selection
  have hfolds : p.Folds q f marked := ⟨hg, h.hides, hgraph₀, hp, hq⟩
  have hfolds' : p'.Folds q f' marked' :=
    ⟨hgraph ▸ hg, hgraph ▸ h.hides', hgraph₀.trans hgraph.symm, hp', hgraph ▸ hq⟩
  have hflips : p.Flips p' q f f' marked marked' c :=
    ⟨hfolds, hfolds', h.chain, h.marked_eq, ho, hs⟩
  rw [← hgraph] at hd'
  refine ⟨d, d', hdraw, hdraw', hfolds.levelled.map_row_draw hg hd, ?_, ?_⟩
  · rw [← hgraph]
    exact hfolds'.levelled.map_row_draw hfolds'.sound hd'
  · intro r hr r' hr' hrow hoff
    exact hflips.redrawn hd hd' hr hr' hrow hoff

end CommitGraph
