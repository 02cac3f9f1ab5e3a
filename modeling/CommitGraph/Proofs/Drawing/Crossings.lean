import CommitGraph.Proofs.Drawing.Stubs

namespace CommitGraph

/-- A link that leaves further right arrives further left. -/
def Link.CrossedBy (l l' : Link) : Prop :=
  l.upColumn < l'.upColumn ∧ l'.downColumn < l.downColumn

/-- The links from one row to the next leave in the order of the cells above, and arrive at cells
for the first time in the order of the cells below. Only at nodes do several links arrive. A node at
which none arrives stands to the right of the edges and of the other nodes. -/
structure DrawnRow.Untangled (r r' : DrawnRow) : Prop where
  leaving : (r.links.map (·.upColumn)).Pairwise (· ≤ ·)
  arriving : (r.links.map (·.downColumn)).eraseDups.Pairwise (· < ·)
  shared : r.links.Pairwise fun l l' => l.downColumn = l'.downColumn →
    ∃ c ∈ r'.cells, c.column = l'.downColumn ∧ ∃ n, c.element = .node n
  unreached : ∀ c ∈ r'.cells, (∃ n, c.element = .node n) →
    (∀ l ∈ r.links, l.downColumn ≠ c.column) → ∀ c' ∈ r'.cells,
      (∃ e, c'.element = .edge e) ∨ (∃ l ∈ r.links, l.downColumn = c'.column) →
        c'.column < c.column

/-- Where links leave in order and first arrive in order, a link that crosses another comes after
one with the same end, from no further right than that other. -/
theorem DrawnRow.exists_first_of_crossedBy {r : DrawnRow}
    (hleaving : (r.links.map (·.upColumn)).Pairwise (· ≤ ·))
    (harriving : (r.links.map (·.downColumn)).eraseDups.Pairwise (· < ·)) {l l' : Link}
    (hl : l ∈ r.links) (hl' : l' ∈ r.links) (hcross : l.CrossedBy l') :
    ∃ first, [first, l'].Sublist r.links ∧ first.upColumn ≤ l.upColumn ∧
      first.downColumn = l'.downColumn := by
  obtain ⟨i, hi, rfl⟩ := List.mem_iff_getElem.mp hl
  obtain ⟨j, hj, rfl⟩ := List.mem_iff_getElem.mp hl'
  obtain ⟨hup, hdown⟩ := hcross
  have hplace : (r.links.map (·.downColumn))[i]? = some r.links[i].downColumn := by simp [hi]
  -- The cell that `l'` gets to stands left of that of `l`, so another link gets there before `l`.
  obtain ⟨k, hki, hk⟩ := exists_before_of_lt harriving hplace (List.mem_map_of_mem hl') hdown
  rw [List.getElem?_map, Option.map_eq_some_iff] at hk
  obtain ⟨first, hfirst, hsame⟩ := hk
  obtain ⟨hk, rfl⟩ := List.getElem?_eq_some_iff.mp hfirst
  have hleaving := List.pairwise_iff_getElem.mp (List.pairwise_map.mp hleaving)
  have hleft := hleaving k i hk hi hki
  refine ⟨_, ?_, hleft, hsame⟩
  have hkj : k < j := by
    rcases Nat.lt_trichotomy k j with hkj | rfl | hjk
    · exact hkj
    · omega
    · have := hleaving j k hj hk hjk
      omega
  have hmem : r.links[j] ∈ r.links.drop (k + 1) :=
    List.mem_drop_iff_getElem.mpr ⟨j - (k + 1), by omega, by simp only [Nat.add_sub_cancel' hkj]⟩
  refine ((List.singleton_sublist.mpr hmem).cons_cons _).trans ?_
  rw [List.getElem_cons_drop]
  exact List.drop_sublist k _

/-- A link crosses another only to join a node that was reached by one from no further right than
that other. -/
theorem DrawnRow.Untangled.joins_of_crossedBy {r r' : DrawnRow} (h : r.Untangled r') {l l' : Link}
    (hl : l ∈ r.links) (hl' : l' ∈ r.links) (hcross : l.CrossedBy l') :
    ∃ first ∈ r.links, first.upColumn ≤ l.upColumn ∧ first.downColumn = l'.downColumn ∧
      ∃ c ∈ r'.cells, c.column = l'.downColumn ∧ ∃ n, c.element = .node n := by
  obtain ⟨first, hsub, hleft, hsame⟩ :=
    DrawnRow.exists_first_of_crossedBy h.leaving h.arriving hl hl' hcross
  exact ⟨first, hsub.subset List.mem_cons_self, hleft, hsame,
    List.pairwise_iff_forall_sublist.mp h.shared hsub hsame⟩

namespace Slot

variable {placed : List NodeId} {ss : List Slot}

theorem firsts_eq_eraseDups (h : ss.Pairwise fun s t => ∀ w, s = .wire w → t ≠ .wire w) :
    firsts placed ss = (ss.filter (· ∉ placed.map Slot.node)).eraseDups := by
  fun_induction firsts placed ss with
  | case1 => rfl
  | case2 placed w ss ih =>
    obtain ⟨hw, hss⟩ := List.pairwise_cons.mp h
    have hrest : (ss.filter (· ∉ placed.map Slot.node)).filter (fun s => !s == .wire w) =
        ss.filter (· ∉ placed.map Slot.node) := by
      rw [List.filter_eq_self]
      intro s hs
      simpa using hw s (List.mem_of_mem_filter hs) w rfl
    rw [ih hss, List.filter_cons_of_pos (by simp), List.eraseDups_cons, hrest]
  | case3 placed k ss hk ih =>
    rw [ih (List.pairwise_cons.mp h).2, List.filter_cons_of_neg (by simpa using hk)]
  | case4 placed k ss hk ih =>
    rw [ih (List.pairwise_cons.mp h).2, List.filter_cons_of_pos (by simpa using hk),
      List.eraseDups_cons, List.filter_filter]
    congr 2
    apply List.filter_congr
    intro s _
    rw [Bool.eq_iff_iff]
    simp [not_or]

end Slot

namespace Plan

variable {p : Plan} {rows : List Nat} {slots shown below : List Slot}
  {i j k row row' : Nat} {s : Slot} {w : Wire} {c : Cell}

def arrivals (p : Plan) (j : Nat) (above : List Slot) : List Slot :=
  (p.departures above).map fun x => arrival j x.2

theorem Crosses.nextSlots_eq (hc : p.Crosses slots j) (nodes : List NodeId) :
    p.nextSlots slots j nodes = (p.arrivals j slots ++ nodes.map Slot.node).eraseDups := by
  have harrivals : (slots.flatMap p.leaving).map (arrival j) = p.arrivals j slots := by
    rw [← map_snd_departures, List.map_map]
    rfl
  rw [nextSlots, Slot.firsts_eq_eraseDups (hc.wires_once nodes), harrivals]
  simp

theorem column?_of_mem (h : shown.Nodup) (hs : s ∈ shown) :
    column? shown s = some (shown.idxOf s) :=
  column?_of_nodup h (List.getElem?_idxOf hs)

/-- A link for every wire that leaves the slots above and arrives at one of those below, from place
to place. -/
theorem links_eq_map (h : shown.Nodup) (h' : below.Nodup) (j : Nat) :
    p.links j shown below =
      ((p.departures shown).filter fun x => arrival j x.2 ∈ below).map fun x =>
        { upColumn := shown.idxOf x.1, downColumn := below.idxOf (arrival j x.2), edge := x.2.edge
          branch := x.2.branch, folded := x.2.folded, selected := p.selection.has (.edge x.2.edge) } := by
  rw [links_eq, ← List.filterMap_eq_map, List.filterMap_filter]
  apply List.filterMap_congr
  rintro ⟨s, w⟩ hx
  have hs := column?_of_mem h (mem_departures.mp hx).1
  by_cases hw : arrival j w ∈ below
  · simp [link, hs, column?_of_mem h' hw, hw]
  · simp [link, hs, column?_eq_none.mpr hw, hw]

theorem departures_filter (q : Slot → Bool) (slots : List Slot) :
    p.departures (slots.filter q) = (p.departures slots).filter fun x => q x.1 := by
  rw [departures, departures, List.filter_flatMap]
  induction slots with
  | nil => rfl
  | cons s slots ih =>
    cases hs : q s with
    | false => simp [hs, ih, List.filter_map]
    | true => simp [hs, ih, List.filter_map, Function.comp_def]

theorem linksAt_eq_links (p : Plan) (hnext : rows[i + 1]? = some row') :
    p.linksAt rows i = p.links (i + 1) (p.drawnSlots rows i) (p.drawnSlots rows (i + 1)) :=
  p.linksAt_eq hnext

theorem Levelled.nodup_drawnSlots (hg : p.graph.Sound) (h : p.Levelled rows)
    (hr : rows[i]? = some row) : (p.drawnSlots rows i).Nodup :=
  (h.fills hg hr).nodup.filter _

/-- Whether a wire is shown in the row above the one where it arrives; at nodes all wires are. -/
def leavesShown (p : Plan) (i : Nat) : Slot → Bool
  | .node _ => true
  | .wire w => p.isShown i (departure i w)

theorem Fills.isShown_eq_leavesShown (hg : p.graph.Sound) (h : p.Levelled rows)
    (hf : p.Fills row i slots) (hr : rows[i]? = some row) (hx : (s, w) ∈ p.departures slots) :
    p.isShown i s = p.leavesShown i (arrival (i + 1) w) := by
  obtain ⟨hw, -, -, rfl⟩ := hf.eq_departure hg h hr hx
  cases harrive : arrival (i + 1) w with
  | node n =>
    -- What is left of a shortened wire above its lower end is shown in any case.
    have hbottom := (arrival_eq_node.mp harrive).1
    exact (List.mem_filter.mp (hf.departure_mem_shown h hr hw hbottom)).2
  | wire v =>
    obtain ⟨-, rfl⟩ := arrival_eq_wire.mp harrive
    rfl

/-- The wires that leave the slots that are drawn are those that leave all slots, less some that do
not arrive at nodes. -/
theorem Levelled.arrivals_drawnSlots (hg : p.graph.Sound) (h : p.Levelled rows)
    (hr : rows[i]? = some row) :
    p.arrivals (i + 1) (p.drawnSlots rows i) =
      (p.arrivals (i + 1) (p.slotsAbove rows (i + 1))).filter (p.leavesShown i) := by
  rw [arrivals, arrivals, drawnSlots, shown, departures_filter, List.filter_map]
  congr 1
  apply List.filter_congr
  rintro ⟨s, w⟩ hx
  exact (h.fills hg hr).isShown_eq_leavesShown hg h hr hx

theorem Levelled.slotsAbove_eq_eraseDups (hg : p.graph.Sound) (h : p.Levelled rows)
    (hr : rows[i]? = some row) :
    p.slotsAbove rows (i + 1) =
      (p.arrivals i (p.slotsAbove rows i) ++ (p.graph.nodesInRow row).map Slot.node).eraseDups := by
  have hi := (List.getElem?_eq_some_iff.mp hr).1
  rw [p.slotsAbove_succ hr, (h.crosses hg (Nat.le_of_lt hi)).nextSlots_eq]

theorem Levelled.arrivals_sublist (hg : p.graph.Sound) (h : p.Levelled rows)
    (hr : rows[i]? = some row) (hr' : rows[i + 1]? = some row') :
    ((p.arrivals (i + 1) (p.drawnSlots rows i)).filter
      (· ∈ p.drawnSlots rows (i + 1))).eraseDups.Sublist (p.drawnSlots rows (i + 1)) := by
  have hsub : (p.arrivals (i + 1) (p.slotsAbove rows (i + 1))).eraseDups.Sublist
      (p.slotsAbove rows (i + 2)) := by
    rw [h.slotsAbove_eq_eraseDups hg hr', List.eraseDups_append]
    exact List.sublist_append_left _ _
  have hmono : ((p.slotsAbove rows (i + 2)).filter (· ∈ p.drawnSlots rows (i + 1))).Sublist
      (p.drawnSlots rows (i + 1)) := by
    apply List.monotone_filter_right
    intro s hs
    exact (List.mem_filter.mp (of_decide_eq_true hs)).2
  have hshown := h.arrivals_drawnSlots hg hr
  rw [hshown, ← filter_eraseDups, ← filter_eraseDups]
  exact ((List.filter_sublist.trans hsub).filter _).trans hmono

theorem pairwise_upColumn_links (h : shown.Nodup) (h' : below.Nodup) (j : Nat) :
    ((p.links j shown below).map (·.upColumn)).Pairwise (· ≤ ·) := by
  rw [links_eq_map h h', List.map_map, List.pairwise_map]
  apply List.Pairwise.filter
  rw [departures, List.pairwise_flatMap]
  constructor
  · intro s _
    rw [List.pairwise_map]
    exact List.pairwise_of_forall fun _ _ => Nat.le_refl _
  · refine (pairwise_idxOf h).imp fun {s t} hlt x hx y hy => ?_
    obtain ⟨v, -, rfl⟩ := List.mem_map.mp hx
    obtain ⟨w, -, rfl⟩ := List.mem_map.mp hy
    exact Nat.le_of_lt hlt

theorem map_downColumn_links (h : shown.Nodup) (h' : below.Nodup) (j : Nat) :
    (p.links j shown below).map (·.downColumn) =
      ((p.arrivals j shown).filter (· ∈ below)).map below.idxOf := by
  rw [links_eq_map h h', arrivals, List.filter_map, List.map_map, List.map_map]
  rfl

theorem Levelled.pairwise_downColumn_links (hg : p.graph.Sound) (h : p.Levelled rows)
    (hr : rows[i]? = some row) (hr' : rows[i + 1]? = some row') :
    ((p.links (i + 1) (p.drawnSlots rows i) (p.drawnSlots rows (i + 1))).map
      (·.downColumn)).eraseDups.Pairwise (· < ·) := by
  have hbelow := h.nodup_drawnSlots hg hr'
  rw [map_downColumn_links (h.nodup_drawnSlots hg hr) hbelow, eraseDups_map, List.pairwise_map]
  · exact (pairwise_idxOf hbelow).sublist (h.arrivals_sublist hg hr hr')
  · intro s hs t _ heq
    exact (List.idxOf_inj (of_decide_eq_true (List.mem_filter.mp hs).2)).mp heq

/-- Two links that arrive at one slot arrive at a node. -/
theorem Levelled.pairwise_shared_links (hg : p.graph.Sound) (h : p.Levelled rows)
    (hr : rows[i]? = some row) (hr' : rows[i + 1]? = some row') :
    (p.links (i + 1) (p.drawnSlots rows i) (p.drawnSlots rows (i + 1))).Pairwise fun l l' =>
      l.downColumn = l'.downColumn →
        ∃ n, (p.drawnSlots rows (i + 1))[l'.downColumn]? = some (.node n) := by
  have hwires : ((p.departures (p.drawnSlots rows i)).map (·.2)).Nodup := by
    refine List.Nodup.sublist ((p.departures_shown_sublist i _).map _) ?_
    rw [map_snd_departures]
    exact ((h.fills hg hr).crosses hg h hr).nodup
  rw [links_eq_map (h.nodup_drawnSlots hg hr) (h.nodup_drawnSlots hg hr'), List.pairwise_map]
  refine ((List.pairwise_map.mp hwires).filter _).imp_of_mem fun {x y} hx hy hne heq => ?_
  have hx := of_decide_eq_true (List.mem_filter.mp hx).2
  have hy := of_decide_eq_true (List.mem_filter.mp hy).2
  have harrive := (List.idxOf_inj hx).mp heq
  have hplace := List.getElem?_idxOf hy
  -- Two wires that go on stay two, so if both arrive at one slot it is a node.
  cases hslot : arrival (i + 1) y.2 with
  | node n => exact ⟨n, hslot ▸ hplace⟩
  | wire w =>
    rw [hslot] at harrive
    exact absurd ((arrival_eq_wire.mp harrive).2.trans (arrival_eq_wire.mp hslot).2.symm) hne

/-- A node at which no link arrives stands behind the slots at which links arrive and behind the
wires. -/
theorem Levelled.idxOf_lt_of_unreached (hg : p.graph.Sound) (h : p.Levelled rows)
    (hr : rows[i]? = some row) (hr' : rows[i + 1]? = some row') {n : NodeId}
    (hn : .node n ∈ p.drawnSlots rows (i + 1))
    (hfree : .node n ∉ p.arrivals (i + 1) (p.drawnSlots rows i))
    (hs : s ∈ p.drawnSlots rows (i + 1))
    (hkind : (∃ w, s = .wire w) ∨ s ∈ p.arrivals (i + 1) (p.drawnSlots rows i)) :
    (p.drawnSlots rows (i + 1)).idxOf s < (p.drawnSlots rows (i + 1)).idxOf (.node n) := by
  have hshown := h.arrivals_drawnSlots hg hr
  have hpairwise := pairwise_idxOf (h.nodup_drawnSlots hg hr')
  -- First stands what arrives, shown or not, and then the nodes that are left.
  have hsplit := congrArg (p.shown (i + 1)) (h.slotsAbove_eq_eraseDups hg hr')
  rw [List.eraseDups_append, shown, shown, List.filter_append] at hsplit
  change p.drawnSlots rows (i + 1) = _ at hsplit
  rw [hsplit] at hn hs hpairwise ⊢
  refine (List.pairwise_append.mp hpairwise).2.2 s ?_ (.node n) ?_
  · refine (List.mem_append.mp hs).resolve_right fun hback => ?_
    have hleft := List.mem_eraseDups.mp (List.mem_of_mem_filter hback)
    simp only [List.removeAll, List.mem_filter, List.mem_map, Bool.not_eq_true',
      List.elem_eq_mem, decide_eq_false_iff_not] at hleft
    rcases hkind with ⟨w, rfl⟩ | harrive
    · simp at hleft
    · rw [hshown] at harrive
      exact hleft.2 (List.mem_of_mem_filter harrive)
  · refine (List.mem_append.mp hn).resolve_left fun hfront => hfree ?_
    rw [hshown, List.mem_filter]
    exact ⟨List.mem_eraseDups.mp (List.mem_of_mem_filter hfront), rfl⟩

theorem exists_link_to (h : shown.Nodup) (h' : below.Nodup) (hs : s ∈ below) :
    (∃ l ∈ p.links j shown below, l.downColumn = below.idxOf s) ↔ s ∈ p.arrivals j shown := by
  rw [← List.mem_map, map_downColumn_links h h', List.mem_map]
  constructor
  · rintro ⟨t, ht, heq⟩
    obtain ⟨harrive, ht⟩ := List.mem_filter.mp ht
    exact (List.idxOf_inj (of_decide_eq_true ht)).mp heq ▸ harrive
  · intro harrive
    exact ⟨s, List.mem_filter.mpr ⟨harrive, decide_eq_true hs⟩, rfl⟩

theorem Fills.exists_slot (hg : p.graph.Sound) (hf : p.Fills row i slots)
    (hc : c ∈ p.cells i (p.shown i slots)) :
    ∃ s ∈ p.shown i slots, c.column = (p.shown i slots).idxOf s ∧ c.element = s.element := by
  have hnodup : (p.shown i slots).Nodup := hf.nodup.filter _
  obtain ⟨⟨s, k⟩, hx, -, hcolumn, helement⟩ :=
    exists_mem_left (forall₂_cells hnodup (fun _ hn => hf.exists_node hg hn) i) hc
  have hplace := List.mk_mem_zipIdx_iff_getElem?.mp hx
  have hs := List.mem_of_getElem? hplace
  have hk := (column?_of_mem hnodup hs).symm.trans (column?_of_nodup hnodup hplace)
  exact ⟨s, hs, hcolumn.trans (Option.some_inj.mp hk).symm, helement⟩

theorem Fills.exists_cell_at (hg : p.graph.Sound) (hf : p.Fills row i slots)
    (hk : (p.shown i slots)[k]? = some s) :
    ∃ c ∈ p.cells i (p.shown i slots), c.column = k ∧ c.element = s.element := by
  obtain ⟨c, hc, -, hcolumn, helement⟩ :=
    exists_mem_right (forall₂_cells (hf.nodup.filter _) (fun _ hn => hf.exists_node hg hn) i)
      (List.mk_mem_zipIdx_iff_getElem?.mpr hk)
  exact ⟨c, hc, hcolumn, helement⟩

end Plan

namespace Graph

variable {g : Graph} {f : Folding} {o : DrawOptions} {s : Selection} {d : Drawing}
  {r r' : DrawnRow} {i : Nat}

/-- Links arrive in order, except where they join a node that was reached from the left; only there
do they cross others. -/
theorem crossings_of_draw {cs : List Commit} {references : List Reference}
    (hb : build cs references = .ok g) (hd : g.draw f o s = .ok d) (hr : d.rows[i]? = some r)
    (hr' : d.rows[i + 1]? = some r') :
    r.Untangled r' ∧ ∀ l ∈ r.links, ∀ l' ∈ r.links, l.CrossedBy l' →
      ∃ first ∈ r.links, first.upColumn ≤ l.upColumn ∧ first.downColumn = l'.downColumn ∧
        ∃ c ∈ r'.cells, c.column = l'.downColumn ∧ ∃ n, c.element = .node n := by
  suffices huntangled : r.Untangled r' from
    ⟨huntangled, fun l hl l' hl' => huntangled.joins_of_crossedBy hl hl'⟩
  have hg := (depicts_of_build hb).toSound
  obtain ⟨p, rfl, rfl, rfl, hp, hd⟩ := hg.exists_plan hd
  have hlevel := hp.levelled hg
  rw [hlevel.row_of_draw hg hd, Option.map_eq_some_iff] at hr hr'
  obtain ⟨row, hrow, rfl⟩ := hr
  obtain ⟨row', hrow', rfl⟩ := hr'
  have hf' := hlevel.fills hg hrow'
  have hshown := hlevel.nodup_drawnSlots hg hrow
  have hbelow := hlevel.nodup_drawnSlots hg hrow'
  rw [p.linksAt_eq_links hrow']
  constructor
  case leaving => exact Plan.pairwise_upColumn_links hshown hbelow _
  case arriving => exact hlevel.pairwise_downColumn_links hg hrow hrow'
  case shared =>
    refine (hlevel.pairwise_shared_links hg hrow hrow').imp fun {l l'} hsame heq => ?_
    obtain ⟨n, hn⟩ := hsame heq
    obtain ⟨c, hc, hcolumn, helement⟩ := hf'.exists_cell_at hg hn
    exact ⟨c, hc, hcolumn, n, helement⟩
  case unreached =>
    rintro c hc ⟨n, hcn⟩ hfree c' hc' hkind
    obtain ⟨t, ht, hcolumn, helement⟩ := hf'.exists_slot hg hc
    obtain ⟨t', ht', hcolumn', helement'⟩ := hf'.exists_slot hg hc'
    cases t with
    | wire w => cases hcn.symm.trans helement
    | node k =>
      -- No link gets to the node, so no wire that is drawn does.
      have hnone : .node k ∉ p.arrivals (i + 1) (p.drawnSlots (p.graph.visibleRows f) i) := by
        intro harrive
        obtain ⟨l, hl, hto⟩ := (Plan.exists_link_to hshown hbelow ht).mpr harrive
        exact hfree l hl (hto.trans hcolumn.symm)
      rw [hcolumn, hcolumn']
      refine hlevel.idxOf_lt_of_unreached hg hrow hrow' ht hnone ht' (hkind.imp ?_ ?_)
      · rintro ⟨e, he⟩
        cases t' with
        | node m => cases he.symm.trans helement'
        | wire w => exact ⟨w, rfl⟩
      · rintro ⟨l, hl, hto⟩
        exact (Plan.exists_link_to hshown hbelow ht').mp ⟨l, hl, hto.trans hcolumn'⟩

/-- The edge of the third head crosses that of the second on its way to the parent of the first. -/
theorem crossings_of_draw_join :
    ∃ (g : Graph) (d : Drawing) (r r' : DrawnRow),
      build [⟨1, [4], 0⟩, ⟨2, [5], 0⟩, ⟨3, [4], 0⟩, ⟨4, [], 0⟩, ⟨5, [], 0⟩] [] = .ok g ∧
      g.draw (.unfolded 5) .standard .none = .ok d ∧ d.rows[2]? = some r ∧ d.rows[3]? = some r' ∧
      r.links.map (fun l => (l.upColumn, l.downColumn)) = [(0, 0), (1, 1), (2, 0)] ∧
      r.Untangled r' := by
  have hdraw : ∃ (g : Graph) (d : Drawing) (r r' : DrawnRow),
      build [⟨1, [4], 0⟩, ⟨2, [5], 0⟩, ⟨3, [4], 0⟩, ⟨4, [], 0⟩, ⟨5, [], 0⟩] [] = .ok g ∧
      g.draw (.unfolded 5) .standard .none = .ok d ∧ d.rows[2]? = some r ∧ d.rows[3]? = some r' ∧
      r.links.map (fun l => (l.upColumn, l.downColumn)) = [(0, 0), (1, 1), (2, 0)] :=
    ⟨_, _, _, _, rfl, rfl, rfl, rfl, rfl⟩
  obtain ⟨g, d, r, r', hb, hd, hr, hr', hcolumns⟩ := hdraw
  exact ⟨g, d, r, r', hb, hd, hr, hr', hcolumns, (crossings_of_draw hb hd hr hr').1⟩

end Graph

end CommitGraph
