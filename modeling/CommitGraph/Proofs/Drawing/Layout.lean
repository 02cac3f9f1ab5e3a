import CommitGraph.Proofs.Drawing.Levels

namespace CommitGraph

namespace Slot

variable {placed : List NodeId} {ss : List Slot} {n : NodeId} {w : Wire}

theorem wire_mem_firsts : .wire w ∈ firsts placed ss ↔ .wire w ∈ ss := by
  fun_induction firsts placed ss with
  | case1 => rfl
  | case2 placed v ss ih => simp [ih]
  | case3 placed k ss _ ih => simp [ih]
  | case4 placed k ss _ ih => simp [ih]

theorem node_mem_firsts : .node n ∈ firsts placed ss ↔ .node n ∈ ss ∧ n ∉ placed := by
  fun_induction firsts placed ss with
  | case1 => simp
  | case2 placed v ss ih => simp [ih]
  | case3 placed k ss hk ih =>
    rw [ih, List.mem_cons, Slot.node.injEq]
    constructor
    · rintro ⟨hn, hp⟩
      exact ⟨.inr hn, hp⟩
    · rintro ⟨rfl | hn, hp⟩
      · exact absurd hk hp
      · exact ⟨hn, hp⟩
  | case4 placed k ss hk ih =>
    rw [List.mem_cons, ih, List.mem_cons, Slot.node.injEq, List.mem_cons]
    by_cases hn : n = k
    · simp [hn, hk]
    · simp [hn]

theorem nodup_firsts (h : ss.Pairwise fun s t => ∀ w, s = .wire w → t ≠ .wire w) :
    (firsts placed ss).Nodup := by
  fun_induction firsts placed ss with
  | case1 => exact List.nodup_nil
  | case2 placed v ss ih =>
    obtain ⟨hv, hss⟩ := List.pairwise_cons.mp h
    refine List.nodup_cons.mpr ⟨fun hmem => ?_, ih hss⟩
    exact hv _ (wire_mem_firsts.mp hmem) v rfl rfl
  | case3 placed k ss _ ih => exact ih (List.pairwise_cons.mp h).2
  | case4 placed k ss _ ih =>
    refine List.nodup_cons.mpr ⟨fun hmem => ?_, ih (List.pairwise_cons.mp h).2⟩
    exact (node_mem_firsts.mp hmem).2 List.mem_cons_self

end Slot

namespace Plan

variable {p : Plan} {rows : List Nat} {above slots : List Slot} {i row : Nat} {n : NodeId}
  {v w : Wire}

theorem arrival_eq_node : arrival i w = .node n ↔ w.bottom = i ∧ w.lower = n := by
  rw [arrival]
  split <;> simp [*]

theorem arrival_eq_wire : arrival i w = .wire v ↔ w.bottom ≠ i ∧ w = v := by
  rw [arrival]
  split <;> simp [*]

/-- The wires that leave some slots are those that cross into the row at a place. -/
structure Crosses (p : Plan) (above : List Slot) (i : Nat) : Prop where
  nodup : (above.flatMap p.leaving).Nodup
  mem_iff : ∀ w, w ∈ above.flatMap p.leaving ↔
    w ∈ p.wiresFrom w.upper ∧ w.top < i ∧ i ≤ w.bottom

/-- The slots are the nodes of a row and the wires that pass it at its place. -/
structure Fills (p : Plan) (row i : Nat) (slots : List Slot) : Prop where
  nodup : slots.Nodup
  node_mem : ∀ n, .node n ∈ slots ↔ n ∈ p.graph.nodesInRow row
  wire_mem : ∀ w, .wire w ∈ slots ↔ w ∈ p.wiresFrom w.upper ∧ w.top < i ∧ i < w.bottom

theorem crosses_nil (p : Plan) : p.Crosses [] 0 := by
  constructor <;> simp

/-- Nodes may arrive more than once, but no wire does. -/
theorem Crosses.wires_once (hc : p.Crosses above i) (nodes : List NodeId) :
    ((above.flatMap p.leaving).map (arrival i) ++ nodes.map Slot.node).Pairwise
      fun s t => ∀ w, s = .wire w → t ≠ .wire w := by
  rw [List.pairwise_append]
  refine ⟨?_, ?_, ?_⟩
  · rw [List.pairwise_map]
    refine hc.nodup.imp fun {w w'} hne v hv hv' => hne ?_
    exact (arrival_eq_wire.mp hv).2.trans (arrival_eq_wire.mp hv').2.symm
  · rw [List.pairwise_map]
    exact List.pairwise_of_forall (by simp)
  · intro s _ t ht v _ hv
    obtain ⟨n, -, hn⟩ := List.mem_map.mp ht
    cases hn.trans hv

theorem Crosses.fills (h : p.Levelled rows) (hc : p.Crosses above i) (hr : rows[i]? = some row) :
    p.Fills row i (p.nextSlots above i (p.graph.nodesInRow row)) where
  nodup := Slot.nodup_firsts (hc.wires_once _)
  node_mem n := by
    rw [nextSlots, Slot.node_mem_firsts, List.mem_append, List.mem_map]
    constructor
    · rintro ⟨⟨w, hw, hn⟩ | hn, -⟩
      · obtain ⟨rfl, rfl⟩ := arrival_eq_node.mp hn
        have hspan := h.spans ((hc.mem_iff w).mp hw).1
        cases hr.symm.trans hspan.lower_row
        exact hspan.lower_mem
      · simpa using hn
    · intro hn
      exact ⟨.inr (List.mem_map_of_mem hn), by simp⟩
  wire_mem w := by
    have hnode : .wire w ∉ (p.graph.nodesInRow row).map Slot.node := by simp
    rw [nextSlots, Slot.wire_mem_firsts, List.mem_append, or_iff_left hnode, List.mem_map]
    constructor
    · rintro ⟨v, hv, hw⟩
      obtain ⟨hne, rfl⟩ := arrival_eq_wire.mp hw
      obtain ⟨hmem, htop, hbottom⟩ := (hc.mem_iff v).mp hv
      exact ⟨hmem, htop, by omega⟩
    · rintro ⟨hmem, htop, hbottom⟩
      refine ⟨w, (hc.mem_iff w).mpr ⟨hmem, htop, by omega⟩, ?_⟩
      exact arrival_eq_wire.mpr ⟨by omega, rfl⟩

theorem Levelled.top_eq (h : p.Levelled rows) (hr : rows[i]? = some row)
    (hn : p.graph.rowOf n = row) (hw : w ∈ p.wiresFrom n) : w.top = i := by
  have hrow := (h.spans hw).upper_row
  rw [h.upper_eq hw, hn] at hrow
  exact h.place_unique hrow hr

theorem Fills.wire_not_mem (hg : p.graph.Sound) (h : p.Levelled rows) (hf : p.Fills row i slots)
    (hr : rows[i]? = some row) (hn : .node n ∈ slots) (hw : w ∈ p.wiresFrom n) :
    .wire w ∉ slots := by
  intro hpass
  have htop := h.top_eq hr (hg.rowOf_of_mem ((hf.node_mem n).mp hn)) hw
  have hbelow := ((hf.wire_mem w).mp hpass).2.1
  omega

theorem Fills.crosses (hg : p.graph.Sound) (h : p.Levelled rows) (hf : p.Fills row i slots)
    (hr : rows[i]? = some row) : p.Crosses slots (i + 1) where
  nodup := by
    rw [List.nodup_flatMap]
    constructor
    · rintro (n | w) _
      · exact h.nodup_wiresFrom n
      · exact List.pairwise_singleton _ w
    · refine hf.nodup.imp_of_mem fun {s t} hs ht hne => ?_
      intro w hws hwt
      cases s with
      | node n =>
        cases t with
        | node k => exact hne (by rw [← h.upper_eq hws, ← h.upper_eq hwt])
        | wire v =>
          cases List.mem_singleton.mp hwt
          exact hf.wire_not_mem hg h hr hs hws ht
      | wire v =>
        cases List.mem_singleton.mp hws
        cases t with
        | node k => exact hf.wire_not_mem hg h hr ht hwt hs
        | wire v' => exact hne (by rw [List.mem_singleton.mp hwt])
  mem_iff w := by
    rw [List.mem_flatMap]
    constructor
    · rintro ⟨n | v, hs, hw⟩
      · have htop := h.top_eq hr (hg.rowOf_of_mem ((hf.node_mem n).mp hs)) hw
        have := (h.spans hw).top_lt_bottom
        exact ⟨h.upper_eq hw ▸ hw, by omega, by omega⟩
      · cases List.mem_singleton.mp hw
        obtain ⟨hmem, htop, hbottom⟩ := (hf.wire_mem w).mp hs
        exact ⟨hmem, by omega, by omega⟩
    · rintro ⟨hmem, htop, hbottom⟩
      -- A wire that is open below either passes the row or starts at one of its nodes.
      rcases Nat.lt_or_eq_of_le (Nat.le_of_lt_succ htop) with htop | rfl
      · exact ⟨.wire w, (hf.wire_mem w).mpr ⟨hmem, htop, hbottom⟩, List.mem_singleton_self w⟩
      · have hspan := h.spans hmem
        cases hr.symm.trans hspan.upper_row
        exact ⟨.node w.upper, (hf.node_mem _).mpr hspan.upper_mem, hmem⟩

def slotsAbove (p : Plan) (rows : List Nat) : Nat → List Slot
  | 0 => []
  | i + 1 => p.nextSlots (p.slotsAbove rows i) i ((rows[i]?).elim [] p.graph.nodesInRow)

theorem slotsAbove_succ (p : Plan) (hr : rows[i]? = some row) :
    p.slotsAbove rows (i + 1) =
      p.nextSlots (p.slotsAbove rows i) i (p.graph.nodesInRow row) := by
  rw [slotsAbove, hr, Option.elim_some]

theorem getElem?_slotsFrom (p : Plan) {rest : List Nat} (hrest : rows.drop i = rest) (k : Nat) :
    (p.slotsFrom (p.slotsAbove rows i) i rest)[k]? =
      rest[k]?.map fun _ => p.slotsAbove rows (i + k + 1) := by
  induction rest generalizing i k with
  | nil => rfl
  | cons row rest ih =>
    have hr : rows[i]? = some row := by rw [← List.head?_drop, hrest, List.head?_cons]
    have hdrop : rows.drop (i + 1) = rest := by rw [← List.tail_drop, hrest, List.tail_cons]
    rw [slotsFrom, ← p.slotsAbove_succ hr]
    cases k with
    | zero => rfl
    | succ k =>
      rw [List.getElem?_cons_succ, ih hdrop, List.getElem?_cons_succ, Nat.add_right_comm i 1 k]
      rfl

theorem getElem?_slotsFrom_nil (p : Plan) (rows : List Nat) (i : Nat) :
    (p.slotsFrom [] 0 rows)[i]? = rows[i]?.map fun _ => p.slotsAbove rows (i + 1) := by
  have hslots := p.getElem?_slotsFrom (List.drop_zero (l := rows)) i
  rwa [Nat.zero_add] at hslots

/-- The wires that leave the rows above a place cross into the row there. -/
theorem Levelled.crosses (hg : p.graph.Sound) (h : p.Levelled rows) (hi : i ≤ rows.length) :
    p.Crosses (p.slotsAbove rows i) i := by
  induction i with
  | zero => exact p.crosses_nil
  | succ i ih =>
    have hr := List.getElem?_eq_getElem (show i < rows.length from hi)
    rw [p.slotsAbove_succ hr]
    exact ((ih (Nat.le_of_lt hi)).fills h hr).crosses hg h hr

/-- The slots of a row are the nodes and the wires that belong there. -/
theorem Levelled.fills (hg : p.graph.Sound) (h : p.Levelled rows) (hr : rows[i]? = some row) :
    p.Fills row i (p.slotsAbove rows (i + 1)) := by
  have hi := (List.getElem?_eq_some_iff.mp hr).1
  rw [p.slotsAbove_succ hr]
  exact (h.crosses hg (Nat.le_of_lt hi)).fills h hr

theorem Levelled.checkOpen_eq_ok (h : p.Levelled rows) (hc : p.Crosses above i)
    (hr : rows[i]? = some row) : p.checkOpen above row = .ok () := by
  apply forM_eq_ok.mpr
  intro w hw
  obtain ⟨hmem, -, hbottom⟩ := (hc.mem_iff w).mp hw
  have := h.row_le hr (h.spans hmem).lower_row hbottom
  rw [if_neg (by omega)]

theorem Levelled.checkSpan_eq_ok (h : p.Levelled rows) (hf : p.Fills row i slots) {s : Slot}
    (hs : s ∈ slots) : p.checkSpan rows s = .ok () := by
  cases s with
  | node n => rfl
  | wire w =>
    have hspan := h.spans ((hf.wire_mem w).mp hs).1
    have hupper := List.mem_of_getElem? hspan.upper_row
    have hlower := List.mem_of_getElem? hspan.lower_row
    have hdown : ¬ w.bottom < w.top := Nat.not_lt_of_lt hspan.top_lt_bottom
    simp [checkSpan, checkEnd, hupper, hlower, hdown, bind, Except.bind]

theorem Levelled.check_eq_ok (hg : p.graph.Sound) (h : p.Levelled rows) :
    p.check rows (p.slotsFrom [] 0 rows) = .ok () := by
  refine bind_eq_ok.mpr ⟨(), forM_eq_ok.mpr fun x hx => ?_, forM_eq_ok.mpr fun slots hmem => ?_⟩
  · obtain ⟨above, row⟩ := x
    obtain ⟨k, hk⟩ := List.mem_iff_getElem?.mp hx
    obtain ⟨habove, hr⟩ := List.getElem?_zip_eq_some.mp hk
    have hk := (List.getElem?_eq_some_iff.mp hr).1
    have heq : above = p.slotsAbove rows k := by
      cases k with
      | zero => exact (Option.some_inj.mp habove).symm
      | succ k =>
        rw [List.getElem?_cons_succ, getElem?_slotsFrom_nil,
          List.getElem?_eq_getElem (Nat.lt_of_succ_lt hk)] at habove
        exact (Option.some_inj.mp habove).symm
    exact h.checkOpen_eq_ok (heq ▸ h.crosses hg (Nat.le_of_lt hk)) hr
  · obtain ⟨k, hk⟩ := List.mem_iff_getElem?.mp hmem
    rw [getElem?_slotsFrom_nil, Option.map_eq_some_iff] at hk
    obtain ⟨row, hr, rfl⟩ := hk
    exact forM_eq_ok.mpr fun s hs => h.checkSpan_eq_ok (h.fills hg hr) hs

def layout (p : Plan) (rows : List Nat) : List (Nat × List Slot) :=
  rows.zipIdx.map fun (row, i) => (row, p.shown i (p.slotsAbove rows (i + 1)))

theorem getElem?_layout (p : Plan) (rows : List Nat) (i : Nat) :
    (p.layout rows)[i]? =
      rows[i]?.map fun row => (row, p.shown i (p.slotsAbove rows (i + 1))) := by
  rw [layout, List.getElem?_map, List.getElem?_zipIdx, Option.map_map, Nat.zero_add]
  rfl

/-- Whatever is asked for can be drawn. -/
theorem Levelled.draw_eq (hg : p.graph.Sound) (h : p.Levelled rows) :
    p.draw rows = .ok ⟨p.rowsFrom 0 (p.layout rows)⟩ := by
  have hlayout : rows.zip ((p.slotsFrom [] 0 rows).zipIdx.map fun x => p.shown x.2 x.1) =
      p.layout rows := by
    apply List.ext_getElem?
    intro i
    rw [getElem?_layout, List.zip_eq_zipWith, List.getElem?_zipWith, List.getElem?_map,
      List.getElem?_zipIdx, getElem?_slotsFrom_nil, Nat.zero_add]
    cases rows[i]? <;> rfl
  rw [draw, h.check_eq_ok hg, ← hlayout]
  rfl

theorem getElem?_rowsFrom (p : Plan) (k i : Nat) (l : List (Nat × List Slot)) :
    (p.rowsFrom k l)[i]? = l[i]?.map fun x =>
      ⟨x.1, p.cells (k + i) x.2,
        (l[i + 1]?).elim [] fun y => p.links (k + i + 1) x.2 y.2⟩ := by
  induction l generalizing k i with
  | nil => rfl
  | cons x l ih =>
    obtain ⟨row, shown⟩ := x
    cases i with
    | zero => cases l <;> rfl
    | succ i =>
      have hcons : (p.rowsFrom k ((row, shown) :: l))[i + 1]? = (p.rowsFrom (k + 1) l)[i]? := by
        cases l <;> rfl
      rw [hcons, ih]
      simp only [List.getElem?_cons_succ, Nat.add_assoc, Nat.add_comm 1]

theorem Levelled.getElem?_draw (hg : p.graph.Sound) (h : p.Levelled rows) {d : Drawing}
    (hd : p.draw rows = .ok d) (i : Nat) :
    d.rows[i]? = rows[i]?.map fun row =>
      ⟨row, p.cells i (p.shown i (p.slotsAbove rows (i + 1))),
        (rows[i + 1]?).elim [] fun _ => p.links (i + 1) (p.shown i (p.slotsAbove rows (i + 1)))
          (p.shown (i + 1) (p.slotsAbove rows (i + 2)))⟩ := by
  rw [h.draw_eq hg] at hd
  cases hd
  rw [getElem?_rowsFrom, getElem?_layout, getElem?_layout, Option.map_map, Nat.zero_add]
  cases rows[i + 1]? <;> rfl

theorem Levelled.map_row_draw (hg : p.graph.Sound) (h : p.Levelled rows) {d : Drawing}
    (hd : p.draw rows = .ok d) : d.rows.map (·.row) = rows := by
  apply List.ext_getElem?
  intro i
  rw [List.getElem?_map, h.getElem?_draw hg hd, Option.map_map]
  exact Option.map_id'

end Plan

end CommitGraph
