import CommitGraph.Proofs.Drawing.Crossings
import CommitGraph.Proofs.Drawing.DeadEnds

namespace CommitGraph

/-- Edges are shortened under the first options at least wherever they are under the second. -/
def DrawOptions.Coarser (o o' : DrawOptions) : Prop :=
  o'.longEdgesInFull = true ∨ o.longEdgesInFull = false ∧ o'.longEdgesInFull = false ∧
    o.effectiveThreshold ≤ o'.effectiveThreshold

def Element.isNode : Element → Bool
  | .node _ => true
  | .edge _ => false

def Cell.unplaced (c : Cell) : Cell := { c with column := 0 }

def DrawnRow.nodeCells (r : DrawnRow) : List Cell :=
  (r.cells.filter (·.element.isNode)).map Cell.unplaced

/-- The row has the nodes of another one and some of its edges, in the same order. -/
structure DrawnRow.Thins (r r' : DrawnRow) : Prop where
  elements : (r.cells.map (·.element)).Sublist (r'.cells.map (·.element))
  nodes : r.nodeCells = r'.nodeCells
  width_le : r.width ≤ r'.width

/-- The drawing has the rows of another one, thinned out, and some of its links, which join the same
elements. -/
structure Drawing.Thins (d d' : Drawing) : Prop where
  rows : d.rows.map (·.row) = d'.rows.map (·.row)
  thins : ∀ {i : Nat} {r r' : DrawnRow}, d.rows[i]? = some r → d'.rows[i]? = some r' → r.Thins r'
  links : ∀ {i : Nat} {r r' : DrawnRow}, d.rows[i]? = some r → d'.rows[i]? = some r' →
    ∀ l ∈ r.links, ∃ up down above below,
      { l with upColumn := up, downColumn := down } ∈ r'.links ∧
      d.elementAt? i l.upColumn = some above ∧ d'.elementAt? i up = some above ∧
      d.elementAt? (i + 1) l.downColumn = some below ∧ d'.elementAt? (i + 1) down = some below

namespace Plan

variable {p : Plan} {o : DrawOptions} {rows : List Nat} {slots shown below : List Slot}
  {i row : Nat} {s : Slot} {w : Wire} {c : Cell} {l : Link} {d d' : Drawing}

def under (p : Plan) (o : DrawOptions) : Plan := { p with options := o }

/-- Where things would stand does not depend on the options. -/
@[simp] theorem under_slotsAbove (p : Plan) (o : DrawOptions) (rows : List Nat) (i : Nat) :
    (p.under o).slotsAbove rows i = p.slotsAbove rows i := by
  induction i with
  | zero => rfl
  | succ i ih =>
    rw [slotsAbove, ih]
    rfl

theorem isShortened_of_coarser (h : p.options.Coarser o) (hw : (p.under o).isShortened w) :
    p.isShortened w := by
  rw [isShortened_iff] at hw ⊢
  obtain ⟨hfull', hlong⟩ : o.longEdgesInFull = false ∧ w.top + max o.threshold 2 < w.bottom := hw
  rcases h with hfull | ⟨hfull, -, hle⟩
  · rw [hfull'] at hfull
    cases hfull
  · have hthreshold : max p.options.threshold 2 ≤ max o.threshold 2 := hle
    exact ⟨hfull, by omega⟩

theorem isShown_of_coarser (h : p.options.Coarser o) (hs : p.isShown i s) :
    (p.under o).isShown i s := by
  cases s with
  | node n => rfl
  | wire w =>
    rw [isShown] at hs ⊢
    cases hw : (p.under o).isShortened w with
    | false => rfl
    | true => simpa [isShortened_of_coarser h hw] using hs

theorem shown_sublist (h : p.options.Coarser o) (i : Nat) (slots : List Slot) :
    (p.shown i slots).Sublist ((p.under o).shown i slots) :=
  List.monotone_filter_right slots fun _ hs => isShown_of_coarser h hs

theorem drawnSlots_sublist (h : p.options.Coarser o) (rows : List Nat) (i : Nat) :
    (p.drawnSlots rows i).Sublist ((p.under o).drawnSlots rows i) := by
  rw [drawnSlots, drawnSlots, under_slotsAbove]
  exact shown_sublist h i _

theorem filter_isNode_shown (p : Plan) (i : Nat) (slots : List Slot) :
    (p.shown i slots).filter (·.element.isNode) = slots.filter (·.element.isNode) := by
  rw [shown, List.filter_filter]
  apply List.filter_congr
  intro s _
  cases s <;> simp [Slot.element, Element.isNode, isShown]

theorem element_of_cell {k : Nat} (hc : p.cell i k s = some c) : c.element = s.element := by
  cases s with
  | node n =>
    obtain ⟨m, -, rfl⟩ := Option.map_eq_some_iff.mp hc
    rfl
  | wire w =>
    cases hc
    rfl

theorem map_unplaced_cell (k : Nat) :
    (p.cell i k s).map Cell.unplaced = p.cell i 0 s := by
  cases s with
  | node n => simp [cell, Cell.unplaced, Function.comp_def]
  | wire w => rfl

theorem map_unplaced_cells (h : shown.Nodup) :
    (p.cells i shown).map Cell.unplaced = shown.filterMap (p.cell i 0) := by
  rw [cells_eq h, List.map_filterMap]
  simp only [map_unplaced_cell]
  conv_rhs => rw [← List.zipIdx_map_fst 0 shown, List.filterMap_map]
  rfl

theorem nodeCells_eq {r : DrawnRow} (h : (p.shown i slots).Nodup)
    (hr : r.cells = p.cells i (p.shown i slots)) :
    r.nodeCells = (slots.filter (·.element.isNode)).filterMap (p.cell i 0) := by
  calc r.nodeCells
      = ((p.cells i (p.shown i slots)).map Cell.unplaced).filter (·.element.isNode) := by
        rw [DrawnRow.nodeCells, hr, List.filter_map]
        rfl
    _ = ((p.shown i slots).filterMap (p.cell i 0)).filter (·.element.isNode) := by
        rw [map_unplaced_cells h]
    _ = ((p.shown i slots).filter (·.element.isNode)).filterMap (p.cell i 0) :=
        filter_filterMap_eq fun s _ c hc => congrArg Element.isNode (element_of_cell hc)
    _ = (slots.filter (·.element.isNode)).filterMap (p.cell i 0) := by
        rw [filter_isNode_shown]

theorem filterMap_cell_under (p : Plan) (o : DrawOptions) (i : Nat) (slots : List Slot) :
    (slots.filter (·.element.isNode)).filterMap ((p.under o).cell i 0) =
      (slots.filter (·.element.isNode)).filterMap (p.cell i 0) := by
  apply List.filterMap_congr
  intro s hs
  cases s with
  | node n => rfl
  | wire w => simp [Slot.element, Element.isNode] at hs

theorem Fills.element_of_column (hg : p.graph.Sound) (hf : p.Fills row i slots)
    (hc : c ∈ p.cells i (p.shown i slots))
    (hcolumn : c.column = (p.shown i slots).idxOf s) : c.element = s.element := by
  obtain ⟨t, ht, hcolumn', helement⟩ := hf.exists_slot hg hc
  rw [helement, (List.idxOf_inj ht).mp (hcolumn'.symm.trans hcolumn)]

theorem elementAt?_idxOf (hg : p.graph.Sound) (h : p.Levelled rows) (hd : p.draw rows = .ok d)
    (hr : rows[i]? = some row) (hs : s ∈ p.drawnSlots rows i) :
    d.elementAt? i ((p.drawnSlots rows i).idxOf s) = some s.element := by
  have hf := h.fills hg hr
  have hrow : d.rows[i]? = some ⟨row, p.cells i (p.drawnSlots rows i), p.linksAt rows i⟩ := by
    rw [h.row_of_draw hg hd, hr]
    rfl
  obtain ⟨c, hc, hcolumn, -⟩ := hf.exists_cell_at hg (List.getElem?_idxOf hs)
  rw [Drawing.elementAt?, hrow, Option.bind_eq_bind, Option.bind_some]
  cases hfind : (p.cells i (p.drawnSlots rows i)).find?
      (·.column = (p.drawnSlots rows i).idxOf s) with
  | none => exact absurd (decide_eq_true hcolumn) (List.find?_eq_none.mp hfind c hc)
  | some c' =>
    have hc' := List.mem_of_find?_eq_some hfind
    have hcolumn' : c'.column = (p.drawnSlots rows i).idxOf s := by
      simpa using List.find?_some hfind
    exact congrArg some (hf.element_of_column hg hc' hcolumn')

theorem exists_link_of_sublist {j : Nat} {shown' below' : List Slot} (hshown : shown'.Nodup)
    (hbelow : below'.Nodup) (hsub : shown.Sublist shown') (hsub' : below.Sublist below')
    (o : DrawOptions) (hl : l ∈ p.links j shown below) :
    ∃ s ∈ shown, ∃ t ∈ below, l.upColumn = shown.idxOf s ∧ l.downColumn = below.idxOf t ∧
      { l with upColumn := shown'.idxOf s, downColumn := below'.idxOf t } ∈
        (p.under o).links j shown' below' := by
  rw [links_eq_map (hshown.sublist hsub) (hbelow.sublist hsub')] at hl
  rw [links_eq_map hshown hbelow]
  obtain ⟨⟨s, w⟩, hx, rfl⟩ := List.mem_map.mp hl
  obtain ⟨hx, hw⟩ := List.mem_filter.mp hx
  have hw := of_decide_eq_true hw
  refine ⟨s, (mem_departures.mp hx).1, arrival j w, hw, rfl, rfl, List.mem_map.mpr ⟨(s, w), ?_, rfl⟩⟩
  exact List.mem_filter.mpr ⟨(hsub.flatMap _).subset hx, decide_eq_true (hsub'.subset hw)⟩

theorem exists_link_under (hg : p.graph.Sound) (h : p.options.Coarser o)
    (hlevel' : (p.under o).Levelled rows) (hr : rows[i]? = some row) (hl : l ∈ p.linksAt rows i) :
    ∃ row', rows[i + 1]? = some row' ∧
      ∃ s ∈ p.drawnSlots rows i, ∃ t ∈ p.drawnSlots rows (i + 1),
        l.upColumn = (p.drawnSlots rows i).idxOf s ∧
        l.downColumn = (p.drawnSlots rows (i + 1)).idxOf t ∧
        { l with
          upColumn := ((p.under o).drawnSlots rows i).idxOf s
          downColumn := ((p.under o).drawnSlots rows (i + 1)).idxOf t } ∈
            (p.under o).linksAt rows i := by
  have hg' : (p.under o).graph.Sound := hg
  cases hnext : rows[i + 1]? with
  | none =>
    rw [p.linksAt_eq_nil hnext] at hl
    cases hl
  | some row' =>
    rw [p.linksAt_eq_links hnext] at hl
    rw [(p.under o).linksAt_eq_links hnext]
    exact ⟨row', rfl, exists_link_of_sublist (hlevel'.nodup_drawnSlots hg' hr)
      (hlevel'.nodup_drawnSlots hg' hnext) (drawnSlots_sublist h rows i)
      (drawnSlots_sublist h rows (i + 1)) o hl⟩

theorem Fills.under (hf : p.Fills row i slots) (o : DrawOptions) :
    (p.under o).Fills row i slots :=
  ⟨hf.nodup, hf.node_mem, hf.wire_mem⟩

theorem Fills.thins (hg : p.graph.Sound) (h : p.options.Coarser o) (hf : p.Fills row i slots)
    {r r' : DrawnRow} (hr : r.cells = p.cells i (p.shown i slots))
    (hr' : r'.cells = (p.under o).cells i ((p.under o).shown i slots)) : r.Thins r' := by
  have hf' := hf.under o
  have hnodup : (p.shown i slots).Nodup := hf.nodup.filter _
  have hnodup' : ((p.under o).shown i slots).Nodup := hf'.nodup.filter _
  have helements : (r.cells.map (·.element)).Sublist (r'.cells.map (·.element)) := by
    rw [hr, hr', map_element_cells hnodup fun _ hn => hf.exists_node hg hn,
      map_element_cells hnodup' fun _ hn => hf'.exists_node hg hn]
    exact (shown_sublist h i slots).map _
  constructor
  case elements => exact helements
  case nodes => rw [nodeCells_eq hnodup hr, nodeCells_eq hnodup' hr', filterMap_cell_under]
  case width_le => simpa [DrawnRow.width] using helements.length_le

theorem thins (hg : p.graph.Sound) (h : p.options.Coarser o) (hlevel : p.Levelled rows)
    (hlevel' : (p.under o).Levelled rows) (hd : p.draw rows = .ok d)
    (hd' : (p.under o).draw rows = .ok d') : d.Thins d' := by
  have hg' : (p.under o).graph.Sound := hg
  have hdraw := hlevel.row_of_draw hg hd
  have hdraw' := hlevel'.row_of_draw hg' hd'
  constructor
  case rows => rw [hlevel.map_row_draw hg hd, hlevel'.map_row_draw hg' hd']
  case thins =>
    intro i r r' hr hr'
    rw [hdraw, Option.map_eq_some_iff] at hr
    rw [hdraw', Option.map_eq_some_iff] at hr'
    obtain ⟨row, hrow, rfl⟩ := hr
    obtain ⟨row', -, rfl⟩ := hr'
    exact (hlevel.fills hg hrow).thins hg h rfl (by rw [under_slotsAbove])
  case links =>
    intro i r r' hr hr' l hl
    rw [hdraw, Option.map_eq_some_iff] at hr
    rw [hdraw', Option.map_eq_some_iff] at hr'
    obtain ⟨row, hrow, rfl⟩ := hr
    obtain ⟨row', -, rfl⟩ := hr'
    obtain ⟨row', hnext, s, hs, t, ht, hup, hdown, hlink⟩ := exists_link_under hg h hlevel' hrow hl
    have hs' := (drawnSlots_sublist h rows i).subset hs
    have ht' := (drawnSlots_sublist h rows (i + 1)).subset ht
    refine ⟨_, _, s.element, t.element, hlink, ?_, elementAt?_idxOf hg' hlevel' hd' hrow hs', ?_,
      elementAt?_idxOf hg' hlevel' hd' hnext ht'⟩
    · rw [hup]
      exact elementAt?_idxOf hg hlevel hd hrow hs
    · rw [hdown]
      exact elementAt?_idxOf hg hlevel hd hnext ht

end Plan

namespace Graph

variable {g : Graph} {f : Folding} {o o₁ o₂ : DrawOptions} {s : Selection} {d : Drawing}

/-- Whether a graph can be drawn does not depend on the options, and under coarser ones its drawing
is thinner. -/
theorem draw_of_coarser {cs : List Commit} {references : List Reference}
    (hb : build cs references = .ok g) (hd : g.draw f o s = .ok d) (h : o₁.Coarser o₂) :
    ∃ d₁ d₂, g.draw f o₁ s = .ok d₁ ∧ g.draw f o₂ s = .ok d₂ ∧ d₁.Thins d₂ := by
  have hg := (depicts_of_build hb).toSound
  obtain ⟨ws, hws, -⟩ := bind_eq_ok.mp hd
  obtain ⟨d₁, hd₁, hplan₁⟩ := hg.exists_draw_of_wires hws o₁ s
  obtain ⟨d₂, hd₂, hplan₂⟩ := hg.exists_draw_of_wires hws o₂ s
  have hlevel₁ := (hg.follows hws o₁ s).levelled hg
  have hlevel₂ := (hg.follows hws o₂ s).levelled hg
  exact ⟨d₁, d₂, hd₁, hd₂, Plan.thins (p := ⟨g, ws, o₁, s⟩) hg h hlevel₁ hlevel₂ hplan₁ hplan₂⟩

/-- With the least threshold the long edge of the first head is missing from the third row. -/
theorem draw_of_coarser_least :
    ∃ (g : Graph) (d₁ d₂ : Drawing),
      build [⟨1, [5], 0⟩, ⟨2, [3], 0⟩, ⟨3, [4], 0⟩, ⟨4, [5], 0⟩, ⟨5, [], 0⟩] [] = .ok g ∧
      g.draw (.unfolded 5) ⟨false, 2⟩ .none = .ok d₁ ∧
      g.draw (.unfolded 5) .standard .none = .ok d₂ ∧
      d₁.rows.map (·.width) = [1, 2, 1, 2, 1] ∧ d₂.rows.map (·.width) = [1, 2, 2, 2, 1] ∧
      d₁.Thins d₂ := by
  have hdraw : ∃ (g : Graph) (d₁ d₂ : Drawing),
      build [⟨1, [5], 0⟩, ⟨2, [3], 0⟩, ⟨3, [4], 0⟩, ⟨4, [5], 0⟩, ⟨5, [], 0⟩] [] = .ok g ∧
      g.draw (.unfolded 5) ⟨false, 2⟩ .none = .ok d₁ ∧
      g.draw (.unfolded 5) .standard .none = .ok d₂ ∧
      d₁.rows.map (·.width) = [1, 2, 1, 2, 1] ∧ d₂.rows.map (·.width) = [1, 2, 2, 2, 1] :=
    ⟨_, _, _, rfl, rfl, rfl, rfl, rfl⟩
  obtain ⟨g, d₁, d₂, hb, hd₁, hd₂, hwidth₁, hwidth₂⟩ := hdraw
  have hcoarser : DrawOptions.Coarser ⟨false, 2⟩ .standard := .inr ⟨rfl, rfl, by decide⟩
  obtain ⟨d₁', d₂', hd₁', hd₂', hthins⟩ := draw_of_coarser hb hd₁ hcoarser
  cases hd₁.symm.trans hd₁'
  cases hd₂.symm.trans hd₂'
  exact ⟨g, d₁, d₂, hb, hd₁, hd₂, hwidth₁, hwidth₂, hthins⟩

end Graph

end CommitGraph
