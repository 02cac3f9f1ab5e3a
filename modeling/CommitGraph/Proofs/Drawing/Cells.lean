import CommitGraph.Graph.Build
import CommitGraph.Proofs.Drawing.Layout

namespace CommitGraph

def Slot.element : Slot → Element
  | .node n => .node n
  | .wire w => .edge w.edge

def DrawnRow.cellsFor (r : DrawnRow) (el : Element) : List Cell := r.cells.filter (·.element = el)

namespace Plan

variable {p : Plan} {f : Folding} {rows : List Nat} {slots shown : List Slot} {i k row : Nat}
  {s : Slot} {c : Cell}

theorem column?_concat (shown : List Slot) (a s : Slot) :
    column? (shown ++ [a]) s = if s = a then some shown.length else column? shown s := by
  rw [column?, List.zipIdx_append, List.reverse_append]
  by_cases hs : s = a
  · simp [hs]
  · have hbeq : (s == a) = false := by simpa using hs
    simp [hs, column?, List.lookup_cons, hbeq]

theorem column?_eq_some : column? shown s = some k ↔
    shown[k]? = some s ∧ ∀ j, k < j → shown[j]? ≠ some s := by
  -- From the right, since the search finds the last slot first.
  induction shown using List.reverseRecOn with
  | nil => simp [column?]
  | append_singleton shown a ih =>
    have hget : ∀ j, (shown ++ [a])[j]? = some s ↔
        shown[j]? = some s ∨ j = shown.length ∧ a = s := by
      intro j
      rcases Nat.lt_trichotomy j shown.length with hlt | rfl | hgt
      · simp [List.getElem?_append_left hlt, Nat.ne_of_lt hlt]
      · simp
      · have hlong : (shown ++ [a])[j]? = none := by
          rw [List.getElem?_eq_none_iff, List.length_append, List.length_singleton]
          omega
        have hshort : shown[j]? = none := List.getElem?_eq_none_iff.mpr (Nat.le_of_lt hgt)
        simp [hlong, hshort, Nat.ne_of_gt hgt]
    have hlt : ∀ {j}, shown[j]? = some s → j < shown.length :=
      fun hj => (List.getElem?_eq_some_iff.mp hj).1
    rw [column?_concat]
    simp only [hget, ne_eq]
    split
    · next hs =>
      rw [Option.some_inj]
      constructor
      · rintro rfl
        refine ⟨.inr ⟨rfl, hs.symm⟩, ?_⟩
        rintro j hj (hmem | ⟨heq, -⟩)
        · exact Nat.lt_asymm hj (hlt hmem)
        · exact Nat.ne_of_gt hj heq
      · rintro ⟨hk | ⟨hk, -⟩, hlast⟩
        · exact absurd (.inr ⟨rfl, hs.symm⟩) (hlast _ (hlt hk))
        · exact hk.symm
    · next hs =>
      rw [ih]
      simp [Ne.symm hs]

theorem column?_of_nodup (h : shown.Nodup) (hk : shown[k]? = some s) :
    column? shown s = some k := by
  refine column?_eq_some.mpr ⟨hk, fun j hj hs => ?_⟩
  obtain ⟨hk', hks⟩ := List.getElem?_eq_some_iff.mp hk
  obtain ⟨hj', hjs⟩ := List.getElem?_eq_some_iff.mp hs
  have := (List.Nodup.getElem_inj_iff h).mp (hks.trans hjs.symm)
  omega

theorem cells_eq (h : shown.Nodup) :
    p.cells i shown = shown.zipIdx.filterMap fun x => p.cell i x.2 x.1 := by
  have hmap : shown.zipIdx.map Prod.fst = shown := List.zipIdx_map_fst 0 shown
  rw [cells]
  conv_lhs => rw [← hmap, List.filterMap_map]
  apply List.filterMap_congr
  rintro ⟨s, k⟩ hs
  rw [List.mk_mem_zipIdx_iff_getElem?] at hs
  simp [hmap, column?_of_nodup h hs]

theorem exists_cell (hs : ∀ n, s = .node n → ∃ m, p.graph.nodes[n]? = some m) (i k : Nat) :
    ∃ c, p.cell i k s = some c ∧ c.column = k ∧ c.element = s.element := by
  cases s with
  | node n =>
    obtain ⟨m, hm⟩ := hs n rfl
    exact ⟨_, by rw [cell, hm, Option.map_some], rfl, rfl⟩
  | wire w => exact ⟨_, rfl, rfl, rfl⟩

theorem forall₂_cells (h : shown.Nodup)
    (hs : ∀ n, .node n ∈ shown → ∃ m, p.graph.nodes[n]? = some m) (i : Nat) :
    List.Forall₂ (fun x c => p.cell i x.2 x.1 = some c ∧ c.column = x.2 ∧ c.element = x.1.element)
      shown.zipIdx (p.cells i shown) := by
  rw [cells_eq h]
  refine forall₂_filterMap fun ⟨s, k⟩ hx => ?_
  have hmem := List.mem_of_getElem? (List.mk_mem_zipIdx_iff_getElem?.mp hx)
  obtain ⟨c, hc, hcolumn, helement⟩ := exists_cell (p := p) (fun n hn => hs n (hn ▸ hmem)) i k
  exact ⟨c, hc, hc, hcolumn, helement⟩

theorem map_column_cells (h : shown.Nodup)
    (hs : ∀ n, .node n ∈ shown → ∃ m, p.graph.nodes[n]? = some m) (i : Nat) :
    (p.cells i shown).map (·.column) = List.range (p.cells i shown).length := by
  have hall := forall₂_cells h hs i
  rw [← map_eq_map_of_forall₂ hall (f := Prod.snd) fun _ _ hc => hc.2.1.symm,
    ← hall.length_eq, List.zipIdx_map_snd, List.length_zipIdx, List.range_eq_range']

theorem map_element_cells (h : shown.Nodup)
    (hs : ∀ n, .node n ∈ shown → ∃ m, p.graph.nodes[n]? = some m) (i : Nat) :
    (p.cells i shown).map (·.element) = shown.map Slot.element := by
  rw [← map_eq_map_of_forall₂ (forall₂_cells h hs i) (f := fun x => x.1.element)
    fun _ _ hc => hc.2.2.symm]
  conv_rhs => rw [← List.zipIdx_map_fst 0 shown, List.map_map]
  rfl

theorem cellsFor_of_mem (h : (shown.map Slot.element).Nodup)
    (hs : ∀ n, .node n ∈ shown → ∃ m, p.graph.nodes[n]? = some m) (hmem : s ∈ shown) (i : Nat) :
    ∃ column c, column? shown s = some column ∧ c.column = column ∧
      p.cell i column s = some c ∧ (p.cells i shown).filter (·.element = s.element) = [c] := by
  obtain ⟨k, hk⟩ := List.mem_iff_getElem?.mp hmem
  have hnodup := List.Nodup.of_map _ h
  have hall := forall₂_cells hnodup hs i
  obtain ⟨c, hc, hcell, hcolumn, helement⟩ :=
    exists_mem_right hall (List.mk_mem_zipIdx_iff_getElem?.mpr hk)
  refine ⟨k, c, column?_of_nodup hnodup hk, hcolumn, hcell, ?_⟩
  rw [← helement]
  refine filter_eq_singleton ?_ hc
  rwa [map_element_cells hnodup hs]

theorem cellsFor_of_not_mem (h : shown.Nodup)
    (hs : ∀ n, .node n ∈ shown → ∃ m, p.graph.nodes[n]? = some m) {el : Element}
    (hel : ∀ s ∈ shown, s.element ≠ el) (i : Nat) :
    (p.cells i shown).filter (·.element = el) = [] := by
  rw [List.filter_eq_nil_iff]
  intro c hc
  have hmem : c.element ∈ (p.cells i shown).map (·.element) := List.mem_map_of_mem hc
  rw [map_element_cells h hs, List.mem_map] at hmem
  obtain ⟨s, hs, helement⟩ := hmem
  simpa [← helement] using hel s hs

theorem Follows.wire_unique (hp : p.Follows f) (hg : p.graph.Sound) {n n' : NodeId} {w w' : Wire}
    (hw : w ∈ p.wiresFrom n) (hw' : w' ∈ p.wiresFrom n') (he : w.edge = w'.edge) : w = w' := by
  obtain ⟨-, d, hd, -⟩ := (hp.mem_wiresFrom hg).mp hw
  obtain ⟨-, d', hd', -⟩ := (hp.mem_wiresFrom hg).mp hw'
  exact hd.unique hd' he

theorem Fills.nodup_elements (hp : p.Follows f) (hg : p.graph.Sound) (hf : p.Fills row i slots) :
    (slots.map Slot.element).Nodup := by
  apply hf.nodup.map_on
  intro s hs t ht he
  cases s <;> cases t <;> simp only [Slot.element, Element.node.injEq, Element.edge.injEq,
    reduceCtorEq] at he
  · rw [he]
  · rw [hp.wire_unique hg ((hf.wire_mem _).mp hs).1 ((hf.wire_mem _).mp ht).1 he]

theorem Fills.exists_node (hf : p.Fills row i slots) (hg : p.graph.Sound) {n : NodeId}
    (hn : .node n ∈ p.shown i slots) : ∃ m, p.graph.nodes[n]? = some m := by
  obtain ⟨m, hm, -⟩ := hg.mem_nodesInRow.mp ((hf.node_mem n).mp (List.mem_of_mem_filter hn))
  exact ⟨m, hm⟩

theorem Fills.isNodeVisible (hg : p.graph.Sound) (hf : p.Fills row i slots)
    (hr : (p.graph.visibleRows f)[i]? = some row) {n : NodeId} (hn : .node n ∈ slots) :
    f.isNodeVisible p.graph n := by
  obtain ⟨-, hv⟩ := Graph.mem_visibleRows.mp (List.mem_of_getElem? hr)
  rwa [Folding.isNodeVisible, hg.rowOf_of_mem ((hf.node_mem n).mp hn)]

theorem Fills.nodup_shown (hp : p.Follows f) (hg : p.graph.Sound) (hf : p.Fills row i slots) :
    ((p.shown i slots).map Slot.element).Nodup :=
  (hf.nodup_elements hp hg).sublist (List.filter_sublist.map _)

theorem Fills.node_mem_shown (hf : p.Fills row i slots) {n : NodeId} :
    .node n ∈ p.shown i slots ↔ n ∈ p.graph.nodesInRow row := by
  rw [shown, List.mem_filter, hf.node_mem]
  exact and_iff_left rfl

theorem Fills.wire_mem_shown (hf : p.Fills row i slots) {w : Wire} :
    .wire w ∈ p.shown i slots ↔ w ∈ p.wiresFrom w.upper ∧ w.top < i ∧ i < w.bottom ∧
      (p.isShortened w = false ∨ i = w.top + 1 ∨ i + 1 = w.bottom) := by
  rw [shown, List.mem_filter, hf.wire_mem, isShown]
  simp [or_assoc, and_assoc]

theorem Fills.cells_node (hp : p.Follows f) (hg : p.graph.Sound) (hf : p.Fills row i slots)
    {n : NodeId} {m : Node} (hm : p.graph.nodes[n]? = some m) :
    if m.row = row then
      ∃ column, (p.cells i (p.shown i slots)).filter (·.element = .node n) =
        [{ column, element := .node n
           kind := match m.kind with
             | .loaded => .commit
             | .unloaded => .endCommit
           branch := m.branch, folded := false, selected := p.selection.has (.node n) }]
    else (p.cells i (p.shown i slots)).filter (·.element = .node n) = [] := by
  have hnodup := hf.nodup_shown hp hg
  split
  · next hrow =>
    have hmem := hf.node_mem_shown.mpr (hg.mem_nodesInRow.mpr ⟨m, hm, hrow⟩)
    obtain ⟨column, c, -, -, hc, hcells⟩ :=
      cellsFor_of_mem hnodup (fun _ hn => hf.exists_node hg hn) hmem i
    rw [cell, hm] at hc
    cases hc
    exact ⟨column, hcells⟩
  · next hrow =>
    refine cellsFor_of_not_mem (List.Nodup.of_map _ hnodup) (fun _ hn => hf.exists_node hg hn) ?_ i
    rintro (k | w) hs he
    · cases he
      have hk := hg.rowOf_of_mem (hf.node_mem_shown.mp hs)
      exact hrow ((Graph.rowOf_eq hm).symm.trans hk)
    · cases he

/-- A wire has a cell in the rows that it passes, or only beside its ends if it is shortened. -/
theorem Fills.cells_wire (hp : p.Follows f) (hg : p.graph.Sound) (hf : p.Fills row i slots)
    {n : NodeId} {w : Wire} (hw : w ∈ p.wiresFrom n) :
    if w.top < i ∧ i < w.bottom ∧ (p.isShortened w = false ∨ i = w.top + 1 ∨ i + 1 = w.bottom) then
      ∃ column, (p.cells i (p.shown i slots)).filter (·.element = .edge w.edge) =
        [{ column, element := .edge w.edge
           kind := if !p.isShortened w then .edge
             else if i = w.top + 1 then .stubDown else .stubUp
           branch := w.branch, folded := w.folded, selected := p.selection.has (.edge w.edge) }]
    else (p.cells i (p.shown i slots)).filter (·.element = .edge w.edge) = [] := by
  have hnodup := hf.nodup_shown hp hg
  have hupper := (hp.levelled hg).upper_eq hw
  split
  · next hopen =>
    have hmem := hf.wire_mem_shown.mpr ⟨hupper ▸ hw, hopen⟩
    obtain ⟨column, c, -, -, hc, hcells⟩ :=
      cellsFor_of_mem hnodup (fun _ hn => hf.exists_node hg hn) hmem i
    cases hc
    exact ⟨column, hcells⟩
  · next hopen =>
    refine cellsFor_of_not_mem (List.Nodup.of_map _ hnodup) (fun _ hn => hf.exists_node hg hn) ?_ i
    rintro (k | v) hs he
    · cases he
    · obtain ⟨hv, hv'⟩ := hf.wire_mem_shown.mp hs
      cases hp.wire_unique hg hv hw (Element.edge.inj he)
      exact hopen hv'

/-- There is no cell for anything else. -/
theorem Fills.of_mem_cells (hp : p.Follows f) (hg : p.graph.Sound) (hf : p.Fills row i slots)
    (hc : c ∈ p.cells i (p.shown i slots)) :
    (∃ n, c.element = .node n ∧ n ∈ p.graph.nodesInRow row) ∨
      ∃ e d, c.element = .edge e ∧ p.graph.edges[e]? = some d ∧
        f.isNodeVisible p.graph d.upper := by
  have hmem : c.element ∈ (p.cells i (p.shown i slots)).map (·.element) := List.mem_map_of_mem hc
  rw [map_element_cells (List.Nodup.of_map _ (hf.nodup_shown hp hg))
    (fun _ hn => hf.exists_node hg hn), List.mem_map] at hmem
  obtain ⟨n | w, hs, he⟩ := hmem
  · exact .inl ⟨n, he.symm, hf.node_mem_shown.mp hs⟩
  · obtain ⟨hv, d, hd, hu⟩ := (hp.mem_wiresFrom hg).mp (hf.wire_mem_shown.mp hs).1
    exact .inr ⟨w.edge, d, he.symm, hd.found, hu ▸ hv⟩

end Plan

namespace Graph

variable {g : Graph} {f : Folding} {o : DrawOptions} {s : Selection} {d : Drawing}

theorem Sound.exists_plan (hg : g.Sound) (hd : g.draw f o s = .ok d) :
    ∃ p : Plan, p.graph = g ∧ p.options = o ∧ p.selection = s ∧ p.Follows f ∧
      p.draw (g.visibleRows f) = .ok d := by
  obtain ⟨ws, hws, hd⟩ := bind_eq_ok.mp hd
  exact ⟨⟨g, ws, o, s⟩, rfl, rfl, rfl, hg.follows hws o s, hd⟩

theorem Sound.map_row_draw (hg : g.Sound) (hd : g.draw f o s = .ok d) :
    d.rows.map (·.row) = g.visibleRows f := by
  obtain ⟨p, rfl, -, -, hp, hplan⟩ := hg.exists_plan hd
  exact (hp.levelled hg).map_row_draw hg hplan

/-- The rows of a drawing go down, so it does not matter in which order they are searched. -/
theorem Sound.pairwise_row_draw (hg : g.Sound) (hd : g.draw f o s = .ok d) :
    (d.rows.map (·.row)).Pairwise (· < ·) :=
  hg.map_row_draw hd ▸ g.pairwise_visibleRows f

theorem Sound.position?_eq (hg : g.Sound) (hd : g.draw f o s = .ok d) {i row : Nat}
    (hi : (g.visibleRows f)[i]? = some row) : d.position? row = some i := by
  rw [← hg.map_row_draw hd, List.getElem?_map, Option.map_eq_some_iff] at hi
  exact (Drawing.position?_eq_some_iff (hg.pairwise_row_draw hd)).mpr hi

/-- A drawing has the visible rows, and in each of them one cell for every node of the row and for
every edge that is open there, and no other cells. An edge is open between the place `u` of its
upper node and the place `v` of the first visible node on its way down. -/
theorem cells_of_draw {cs : List Commit} {references : List Reference}
    (hb : build cs references = .ok g) (hd : g.draw f o s = .ok d) :
    d.rows.map (·.row) = g.visibleRows f ∧
      ∀ i r, d.rows[i]? = some r →
        r.cells.map (·.column) = List.range r.cells.length ∧
        (∀ n m, g.nodes[n]? = some m →
          if m.row = r.row then
            ∃ column, r.cellsFor (.node n) =
              [{ column, element := .node n
                 kind := match m.kind with
                   | .loaded => .commit
                   | .unloaded => .endCommit
                 branch := m.branch, folded := false, selected := s.has (.node n) }]
          else r.cellsFor (.node n) = []) ∧
        (∀ e edge, g.edges[e]? = some edge → f.isNodeVisible g edge.upper →
          ∃ lower u v, g.Reaches f edge.lower lower ∧ d.position? (g.rowOf edge.upper) = some u ∧
            d.position? (g.rowOf lower) = some v ∧
            let shortened := !o.longEdgesInFull && decide (max o.threshold 2 < v - u)
            if u < i ∧ i < v ∧ (shortened = false ∨ i = u + 1 ∨ i + 1 = v) then
              ∃ column, r.cellsFor (.edge e) =
                [{ column, element := .edge e
                   kind := if !shortened then .edge else if i = u + 1 then .stubDown else .stubUp
                   branch := edge.branch, folded := !f.isNodeVisible g edge.lower
                   selected := s.has (.edge e) }]
            else r.cellsFor (.edge e) = []) ∧
        ∀ c ∈ r.cells, (∃ n, c.element = .node n ∧ n ∈ g.nodesInRow r.row) ∨
          ∃ e edge, c.element = .edge e ∧ g.edges[e]? = some edge ∧
            f.isNodeVisible g edge.upper := by
  have hg := (depicts_of_build hb).toSound
  obtain ⟨p, rfl, rfl, rfl, hp, hplan⟩ := hg.exists_plan hd
  have hlevel := hp.levelled hg
  refine ⟨hg.map_row_draw hd, fun i r hr => ?_⟩
  rw [hlevel.getElem?_draw hg hplan, Option.map_eq_some_iff] at hr
  obtain ⟨row, hrow, rfl⟩ := hr
  have hf := hlevel.fills hg hrow
  simp only [DrawnRow.cellsFor]
  refine ⟨?_, fun n m hm => hf.cells_node hp hg hm, fun e edge he hv => ?_,
    fun c hc => hf.of_mem_cells hp hg hc⟩
  · exact Plan.map_column_cells (List.Nodup.of_map _ (hf.nodup_shown hp hg))
      (fun _ hn => hf.exists_node hg hn) i
  · obtain ⟨m, hm, -⟩ := hg.exists_upper he
    have hdown := (hg.mem_down hm).mpr ⟨edge, he, rfl⟩
    obtain ⟨w, hw, rfl, edge', hwire⟩ := exists_mem_right (hp.forall₂_wiresFrom hm hv) hdown
    cases he.symm.trans hwire.found
    have hspan := hp.spans hg hw
    have hcells := hf.cells_wire hp hg hw
    rw [hwire.branch_eq, hwire.folded_eq] at hcells
    refine ⟨w.lower, w.top, w.bottom, hwire.reaches, ?_, ?_, hcells⟩
    · exact hg.position?_eq hd (hwire.upper_eq ▸ hspan.upper_row)
    · exact hg.position?_eq hd hspan.lower_row

/-- A folded chain of one commit between two others. -/
theorem cells_of_draw_folded :
    ∃ g d, build [⟨3, [2], 0⟩, ⟨2, [1], 0⟩, ⟨1, [], 0⟩] [] = .ok g ∧
      g.draw ⟨#[false, true, false]⟩ .standard .none = .ok d ∧ d.rows.map (·.row) = [0, 2] := by
  let g : Graph :=
    ⟨#[⟨3, 0, .loaded, 0, [], [0]⟩, ⟨2, 0, .loaded, 1, [0], [1]⟩, ⟨1, 0, .loaded, 2, [1], []⟩],
      #[⟨0, 1, 0⟩, ⟨1, 2, 0⟩], #[.ofHead 3 []], #[[0], [1], [2]]⟩
  let d : Drawing :=
    ⟨[⟨0, [⟨0, .node 0, .commit, 0, false, false⟩], [⟨0, 0, 0, 0, true, false⟩]⟩,
      ⟨2, [⟨0, .node 2, .commit, 0, false, false⟩], []⟩]⟩
  have hb : build [⟨3, [2], 0⟩, ⟨2, [1], 0⟩, ⟨1, [], 0⟩] [] = .ok g := by decide
  have hd : g.draw ⟨#[false, true, false]⟩ .standard .none = .ok d := by decide
  exact ⟨g, d, hb, hd, (cells_of_draw hb hd).1⟩

end Graph

end CommitGraph
