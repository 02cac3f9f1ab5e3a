import CommitGraph.Proofs.Drawing.Links

namespace CommitGraph

namespace Drawing

def HasCell (d : Drawing) (i : Nat) (c : Cell) : Prop := ∃ r, d.rows[i]? = some r ∧ c ∈ r.cells

/-- A link leads from the first cell, at a place of the drawing, to the second, at the next one. -/
def Joins (d : Drawing) (i : Nat) (c c' : Cell) : Prop :=
  d.HasCell i c ∧ d.HasCell (i + 1) c' ∧ ∃ r, d.rows[i]? = some r ∧
    ∃ l ∈ r.links, l.upColumn = c.column ∧ l.downColumn = c'.column

/-- The cells are the stubs of one edge, the first one at place `i` and the second at place `j`. -/
structure IsPair (d : Drawing) (i j : Nat) (c c' : Cell) : Prop where
  hasDown : d.HasCell i c
  kind_down : c.kind = .stubDown
  hasUp : d.HasCell j c'
  kind_up : c'.kind = .stubUp
  element_eq : c.element = c'.element

/-- Stubs come in pairs. From the row above the first to the row below the second it is further than
the threshold, and the edge has no other cells. A link joins stubs of consecutive rows if they are
a pair. -/
structure Stubbed (d : Drawing) (o : DrawOptions) : Prop where
  exists_up : ∀ {i : Nat} {c : Cell}, d.HasCell i c → c.kind = .stubDown →
    ∃ j c', d.IsPair i j c c'
  exists_down : ∀ {j : Nat} {c' : Cell}, d.HasCell j c' → c'.kind = .stubUp →
    ∃ i c, d.IsPair i j c c'
  distance : ∀ {i j : Nat} {c c' : Cell}, d.IsPair i j c c' →
    o.longEdgesInFull = false ∧ i < j ∧ i + max o.threshold 2 < j + 2
  eq_or_eq : ∀ {i j k : Nat} {c c' x : Cell}, d.IsPair i j c c' → d.HasCell k x →
    x.element = c.element → k = i ∧ x = c ∨ k = j ∧ x = c'
  joins_iff : ∀ {i : Nat} {c c' : Cell}, d.HasCell i c → c.kind = .stubDown →
    d.HasCell (i + 1) c' → c'.kind = .stubUp → (d.Joins i c c' ↔ d.IsPair i (i + 1) c c')

end Drawing

namespace Plan

variable {p : Plan} {f : Folding} {rows : List Nat} {slots shown : List Slot}
  {i j k row : Nat} {s t : Slot} {w w' : Wire} {c c' : Cell} {d : Drawing}

theorem column?_inj (hs : column? shown s = some k) (ht : column? shown t = some k) : s = t :=
  Option.some_inj.mp ((column?_eq_some.mp hs).1.symm.trans (column?_eq_some.mp ht).1)

theorem mem_cells : c ∈ p.cells i shown ↔
    ∃ s ∈ shown, ∃ k, column? shown s = some k ∧ p.cell i k s = some c := by
  simp only [cells, List.mem_filterMap, Option.bind_eq_some_iff]

theorem isShortened_iff : p.isShortened w ↔
    p.options.longEdgesInFull = false ∧ w.top + max p.options.threshold 2 < w.bottom := by
  rw [isShortened, Bool.and_eq_true, Bool.not_eq_true', decide_eq_true_eq,
    Nat.lt_sub_iff_add_lt']
  rfl

/-- The cell is a stub of the wire, in a row at place `i`. -/
structure IsStub (p : Plan) (i : Nat) (shown : List Slot) (w : Wire) (c : Cell) : Prop where
  mem_wiresFrom : w ∈ p.wiresFrom w.upper
  shortened : p.isShortened w
  element_eq : c.element = .edge w.edge
  column_eq : column? shown (.wire w) = some c.column
  place_of_down : c.kind = .stubDown → i = w.top + 1
  place_of_up : c.kind = .stubUp → i + 1 = w.bottom

theorem Fills.exists_wire (hf : p.Fills row i slots) (hc : c ∈ p.cells i (p.shown i slots))
    (hkind : c.kind = .stubDown ∨ c.kind = .stubUp) :
    ∃ w, p.IsStub i (p.shown i slots) w c := by
  obtain ⟨s, hs, k, hk, hc⟩ := mem_cells.mp hc
  cases s with
  | node n =>
    obtain ⟨m, -, rfl⟩ := Option.map_eq_some_iff.mp hc
    cases hm : m.kind <;> simp [hm] at hkind
  | wire w =>
    obtain ⟨hw, -, -, hplace⟩ := hf.wire_mem_shown.mp hs
    cases hc
    cases hshort : p.isShortened w with
    | false => simp [hshort] at hkind
    | true =>
      have hplace : i = w.top + 1 ∨ i + 1 = w.bottom := by simpa [hshort] using hplace
      refine ⟨w, hw, hshort, rfl, hk, ?_, ?_⟩
      · intro hdown
        by_contra htop
        simp [htop] at hdown
      · intro hup
        refine hplace.resolve_left fun htop => ?_
        simp [htop] at hup

/-- A shortened wire has its stubs below its upper end and above its lower end, and no other
cells. -/
theorem Fills.cells_shortened (hp : p.Follows f) (hg : p.graph.Sound) (hf : p.Fills row i slots)
    (hw : w ∈ p.wiresFrom w.upper) (hshort : p.isShortened w) :
    if i = w.top + 1 ∨ i + 1 = w.bottom then
      ∃ c, (p.cells i (p.shown i slots)).filter (·.element = .edge w.edge) = [c] ∧
        c.kind = if i = w.top + 1 then .stubDown else .stubUp
    else (p.cells i (p.shown i slots)).filter (·.element = .edge w.edge) = [] := by
  have hlong := (isShortened_iff.mp hshort).2
  have hcells := hf.cells_wire hp hg hw
  simp only [hshort, Bool.true_eq_false, false_or, Bool.not_true, Bool.false_eq_true,
    if_false] at hcells
  split
  · next hplace =>
    rw [if_pos (by omega)] at hcells
    obtain ⟨column, hcells⟩ := hcells
    exact ⟨_, hcells, rfl⟩
  · next hplace => rwa [if_neg fun hopen => hplace hopen.2.2] at hcells

def drawnSlots (p : Plan) (rows : List Nat) (i : Nat) : List Slot :=
  p.shown i (p.slotsAbove rows (i + 1))

theorem mem_cellsFor {r : DrawnRow} {el : Element} :
    c ∈ r.cellsFor el ↔ c ∈ r.cells ∧ c.element = el := by
  rw [DrawnRow.cellsFor, List.mem_filter, decide_eq_true_eq]

theorem hasCell_iff (hg : p.graph.Sound) (h : p.Levelled rows) (hd : p.draw rows = .ok d) :
    d.HasCell i c ↔ ∃ row, rows[i]? = some row ∧ c ∈ p.cells i (p.drawnSlots rows i) := by
  simp only [Drawing.HasCell, h.row_of_draw hg hd, Option.map_eq_some_iff]
  constructor
  · rintro ⟨r, ⟨row, hrow, rfl⟩, hc⟩
    exact ⟨row, hrow, hc⟩
  · rintro ⟨row, hrow, hc⟩
    exact ⟨_, ⟨row, hrow, rfl⟩, hc⟩

section Drawn

variable (hp : p.Follows f) (hg : p.graph.Sound)
  (hd : p.draw (p.graph.visibleRows f) = .ok d)

include hp hg hd

theorem exists_isStub (hc : d.HasCell i c) (hkind : c.kind = .stubDown ∨ c.kind = .stubUp) :
    ∃ w, p.IsStub i (p.drawnSlots (p.graph.visibleRows f) i) w c := by
  have hlevel := hp.levelled hg
  obtain ⟨row, hrow, hc⟩ := (hasCell_iff hg hlevel hd).mp hc
  exact (hlevel.fills hg hrow).exists_wire hc hkind

theorem cellsFor_of_shortened {r : DrawnRow} (hr : d.rows[i]? = some r)
    (hw : w ∈ p.wiresFrom w.upper) (hshort : p.isShortened w) :
    if i = w.top + 1 ∨ i + 1 = w.bottom then
      ∃ c, r.cellsFor (.edge w.edge) = [c] ∧
        c.kind = if i = w.top + 1 then .stubDown else .stubUp
    else r.cellsFor (.edge w.edge) = [] := by
  have hlevel := hp.levelled hg
  rw [hlevel.row_of_draw hg hd, Option.map_eq_some_iff] at hr
  obtain ⟨row, hrow, rfl⟩ := hr
  exact (hlevel.fills hg hrow).cells_shortened hp hg hw hshort

theorem exists_cell_of_shortened (hw : w ∈ p.wiresFrom w.upper) (hshort : p.isShortened w)
    (hplace : i = w.top + 1 ∨ i + 1 = w.bottom) :
    ∃ c, d.HasCell i c ∧ c.element = .edge w.edge ∧
      c.kind = if i = w.top + 1 then .stubDown else .stubUp := by
  have hlevel := hp.levelled hg
  have hlong := (isShortened_iff.mp hshort).2
  have hlast := (List.getElem?_eq_some_iff.mp (hlevel.spans hw).lower_row).1
  obtain ⟨r, hr⟩ : ∃ r, d.rows[i]? = some r := by
    rw [hlevel.row_of_draw hg hd, List.getElem?_eq_getElem (by omega)]
    exact ⟨_, rfl⟩
  have hcells := cellsFor_of_shortened hp hg hd hr hw hshort
  rw [if_pos hplace] at hcells
  obtain ⟨c, hcells, hkind⟩ := hcells
  obtain ⟨hc, helement⟩ := mem_cellsFor.mp (hcells ▸ List.mem_singleton_self c)
  exact ⟨c, ⟨r, hr, hc⟩, helement, hkind⟩

theorem place_of_shortened (hw : w ∈ p.wiresFrom w.upper) (hshort : p.isShortened w)
    (hc : d.HasCell i c) (he : c.element = .edge w.edge) : i = w.top + 1 ∨ i + 1 = w.bottom := by
  obtain ⟨r, hr, hc⟩ := hc
  by_contra hplace
  have hcells := cellsFor_of_shortened hp hg hd hr hw hshort
  rw [if_neg hplace] at hcells
  have hmem := mem_cellsFor.mpr ⟨hc, he⟩
  rw [hcells] at hmem
  cases hmem

theorem eq_of_shortened (hw : w ∈ p.wiresFrom w.upper) (hshort : p.isShortened w)
    (hc : d.HasCell i c) (he : c.element = .edge w.edge) (hc' : d.HasCell i c')
    (he' : c'.element = .edge w.edge) : c = c' := by
  have hplace := place_of_shortened hp hg hd hw hshort hc he
  obtain ⟨r, hr, hc⟩ := hc
  obtain ⟨r', hr', hc'⟩ := hc'
  cases hr.symm.trans hr'
  have hcells := cellsFor_of_shortened hp hg hd hr hw hshort
  rw [if_pos hplace] at hcells
  obtain ⟨x, hcells, -⟩ := hcells
  have hmem := mem_cellsFor.mpr ⟨hc, he⟩
  have hmem' := mem_cellsFor.mpr ⟨hc', he'⟩
  rw [hcells, List.mem_singleton] at hmem hmem'
  rw [hmem, hmem']

theorem exists_isStub_of_isPair (h : d.IsPair i j c c') :
    ∃ w, p.IsStub i (p.drawnSlots (p.graph.visibleRows f) i) w c ∧
      p.IsStub j (p.drawnSlots (p.graph.visibleRows f) j) w c' := by
  obtain ⟨w, hw⟩ := exists_isStub hp hg hd h.hasDown (.inl h.kind_down)
  obtain ⟨w', hw'⟩ := exists_isStub hp hg hd h.hasUp (.inr h.kind_up)
  have helement := hw.element_eq.symm.trans (h.element_eq.trans hw'.element_eq)
  cases hp.wire_unique hg hw.mem_wiresFrom hw'.mem_wiresFrom (Element.edge.inj helement)
  exact ⟨w, hw, hw'⟩

theorem exists_link_iff {a b row' : Nat} (hr : (p.graph.visibleRows f)[i]? = some row)
    (hr' : (p.graph.visibleRows f)[i + 1]? = some row') :
    (∃ r, d.rows[i]? = some r ∧ ∃ l ∈ r.links, l.upColumn = a ∧ l.downColumn = b) ↔
      ∃ s v, v ∈ p.leaving s ∧ column? (p.drawnSlots (p.graph.visibleRows f) i) s = some a ∧
        column? (p.drawnSlots (p.graph.visibleRows f) (i + 1)) (arrival (i + 1) v) = some b := by
  rw [(hp.levelled hg).row_of_draw hg hd, hr, Option.map_some]
  simp only [Option.some_inj, exists_eq_left', linksAt_eq _ hr', links_eq, List.mem_filterMap]
  constructor
  · rintro ⟨l, ⟨⟨s, v⟩, hx, hl⟩, rfl, rfl⟩
    obtain ⟨a, b, ha, hb, rfl⟩ := link_eq_some.mp hl
    exact ⟨s, v, (mem_departures.mp hx).2, ha, hb⟩
  · rintro ⟨s, v, hv, ha, hb⟩
    have hs := List.mem_of_getElem? (column?_eq_some.mp ha).1
    exact ⟨_, ⟨(s, v), mem_departures.mpr ⟨hs, hv⟩, link_eq_some.mpr ⟨a, b, ha, hb, rfl⟩⟩, rfl, rfl⟩

theorem joins_iff (hc : d.HasCell i c) (hkind : c.kind = .stubDown) (hc' : d.HasCell (i + 1) c')
    (hkind' : c'.kind = .stubUp) : d.Joins i c c' ↔ d.IsPair i (i + 1) c c' := by
  have hlevel := hp.levelled hg
  obtain ⟨row, hr, -⟩ := (hasCell_iff hg hlevel hd).mp hc
  obtain ⟨row', hr', -⟩ := (hasCell_iff hg hlevel hd).mp hc'
  rw [Drawing.Joins, exists_link_iff hp hg hd hr hr']
  constructor
  · rintro ⟨-, -, s, v, hv, ha, hb⟩
    obtain ⟨w, hw⟩ := exists_isStub hp hg hd hc (.inl hkind)
    obtain ⟨w', hw'⟩ := exists_isStub hp hg hd hc' (.inr hkind')
    -- Columns tell slots apart, so the wire that is linked is the one of either stub.
    obtain rfl := column?_inj ha hw.column_eq
    obtain rfl := List.mem_singleton.mp hv
    obtain ⟨-, rfl⟩ := arrival_eq_wire.mp (column?_inj hb hw'.column_eq)
    exact ⟨hc, hkind, hc', hkind', hw.element_eq.trans hw'.element_eq.symm⟩
  · intro h
    obtain ⟨w, hw, hw'⟩ := exists_isStub_of_isPair hp hg hd h
    have hbottom := hw'.place_of_up hkind'
    have harrival : arrival (i + 1) w = .wire w := arrival_eq_wire.mpr ⟨by omega, rfl⟩
    exact ⟨hc, hc', .wire w, w, List.mem_singleton_self w, hw.column_eq,
      harrival ▸ hw'.column_eq⟩

theorem stubbed : d.Stubbed p.options := by
  constructor
  case exists_up =>
    intro i c hc hkind
    obtain ⟨w, hw⟩ := exists_isStub hp hg hd hc (.inl hkind)
    have hlong := (isShortened_iff.mp hw.shortened).2
    obtain ⟨c', hc', he, hkind'⟩ := exists_cell_of_shortened hp hg hd (i := w.bottom - 1)
      hw.mem_wiresFrom hw.shortened (.inr (by omega))
    rw [if_neg (by omega)] at hkind'
    exact ⟨_, c', hc, hkind, hc', hkind', hw.element_eq.trans he.symm⟩
  case exists_down =>
    intro j c' hc' hkind'
    obtain ⟨w, hw⟩ := exists_isStub hp hg hd hc' (.inr hkind')
    obtain ⟨c, hc, he, hkind⟩ := exists_cell_of_shortened hp hg hd (i := w.top + 1)
      hw.mem_wiresFrom hw.shortened (.inl rfl)
    rw [if_pos rfl] at hkind
    exact ⟨_, c, hc, hkind, hc', hkind', he.trans hw.element_eq.symm⟩
  case distance =>
    intro i j c c' h
    obtain ⟨w, hw, hw'⟩ := exists_isStub_of_isPair hp hg hd h
    obtain ⟨hoption, hlong⟩ := isShortened_iff.mp hw.shortened
    -- Both stubs belong to one wire, and its length tells how far they are apart.
    have htop := hw.place_of_down h.kind_down
    have hbottom := hw'.place_of_up h.kind_up
    exact ⟨hoption, by omega, by omega⟩
  case eq_or_eq =>
    intro i j k c c' x h hx he
    obtain ⟨w, hw, hw'⟩ := exists_isStub_of_isPair hp hg hd h
    have htop := hw.place_of_down h.kind_down
    have hbottom := hw'.place_of_up h.kind_up
    have hxw := he.trans hw.element_eq
    rcases place_of_shortened hp hg hd hw.mem_wiresFrom hw.shortened hx hxw with hk | hk
    · obtain rfl : k = i := by omega
      exact .inl ⟨rfl, eq_of_shortened hp hg hd hw.mem_wiresFrom hw.shortened hx hxw h.hasDown
        hw.element_eq⟩
    · obtain rfl : k = j := by omega
      exact .inr ⟨rfl, eq_of_shortened hp hg hd hw.mem_wiresFrom hw.shortened hx hxw h.hasUp
        hw'.element_eq⟩
  case joins_iff => exact joins_iff hp hg hd

end Drawn

end Plan

namespace Graph

variable {g : Graph} {f : Folding} {o : DrawOptions} {s : Selection} {d : Drawing}

/-- What stubs there are in a drawing, and how they are joined. Only with a threshold above the
least one is there a row between the stubs of every edge. -/
theorem stubs_of_draw {cs : List Commit} {references : List Reference}
    (hb : build cs references = .ok g) (hd : g.draw f o s = .ok d) : d.Stubbed o := by
  have hg := (depicts_of_build hb).toSound
  obtain ⟨p, rfl, rfl, rfl, hp, hd⟩ := hg.exists_plan hd
  exact Plan.stubbed hp hg hd

/-- With a threshold of three rows an edge over four of them has a row between its stubs. -/
theorem stubs_of_draw_apart :
    ∃ (g : Graph) (d : Drawing),
      build [⟨1, [5], 0⟩, ⟨2, [3], 0⟩, ⟨3, [4], 0⟩, ⟨4, [], 0⟩, ⟨5, [], 0⟩] [] = .ok g ∧
      g.draw (.unfolded 5) ⟨false, 3⟩ .none = .ok d ∧
      d.rows.map (·.cells.map (·.kind)) =
        [[.commit], [.stubDown, .commit], [.commit], [.stubUp, .commit], [.commit]] ∧
      d.Stubbed ⟨false, 3⟩ := by
  have hdraw : ∃ (g : Graph) (d : Drawing),
      build [⟨1, [5], 0⟩, ⟨2, [3], 0⟩, ⟨3, [4], 0⟩, ⟨4, [], 0⟩, ⟨5, [], 0⟩] [] = .ok g ∧
      g.draw (.unfolded 5) ⟨false, 3⟩ .none = .ok d ∧
      d.rows.map (·.cells.map (·.kind)) =
        [[.commit], [.stubDown, .commit], [.commit], [.stubUp, .commit], [.commit]] :=
    ⟨_, _, rfl, rfl, rfl⟩
  obtain ⟨g, d, hb, hd, hkinds⟩ := hdraw
  exact ⟨g, d, hb, hd, hkinds, stubs_of_draw hb hd⟩

/-- With the least threshold an edge over three rows has no row between its stubs, and a link joins
them. -/
theorem joined_stubs :
    ∃ (g : Graph) (d : Drawing) (c c' : Cell),
      build [⟨1, [4], 0⟩, ⟨2, [3], 0⟩, ⟨3, [], 0⟩, ⟨4, [], 0⟩] [] = .ok g ∧
      g.draw (.unfolded 4) ⟨false, 2⟩ .none = .ok d ∧ d.IsPair 1 2 c c' ∧ d.Joins 1 c c' := by
  let l : Link := ⟨0, 0, 0, 0, false, false⟩
  let c : Cell := ⟨0, .edge 0, .stubDown, 0, false, false⟩
  let c' : Cell := ⟨0, .edge 0, .stubUp, 0, false, false⟩
  have hdraw : ∃ (g : Graph) (d : Drawing),
      build [⟨1, [4], 0⟩, ⟨2, [3], 0⟩, ⟨3, [], 0⟩, ⟨4, [], 0⟩] [] = .ok g ∧
      g.draw (.unfolded 4) ⟨false, 2⟩ .none = .ok d ∧
      d.rows[1]? = some ⟨1, [c, ⟨1, .node 2, .commit, 1, false, false⟩],
        [l, ⟨1, 1, 1, 1, false, false⟩]⟩ ∧
      d.rows[2]? = some ⟨2, [c', ⟨1, .node 3, .commit, 1, false, false⟩], [l]⟩ :=
    ⟨_, _, rfl, rfl, rfl, rfl⟩
  obtain ⟨g, d, hb, hd, hr, hr'⟩ := hdraw
  have hc : d.HasCell 1 c := ⟨_, hr, List.mem_cons_self⟩
  have hc' : d.HasCell 2 c' := ⟨_, hr', List.mem_cons_self⟩
  exact ⟨g, d, c, c', hb, hd, ⟨hc, rfl, hc', rfl, rfl⟩, hc, hc', _, hr, l, List.mem_cons_self,
    rfl, rfl⟩

end Graph

end CommitGraph
