import CommitGraph.Graph.Build
import CommitGraph.Proofs.Drawing.Alike
import CommitGraph.Proofs.Drawing.Cells
import CommitGraph.Proofs.Drawing.Ways

namespace CommitGraph

namespace Plan

/-- A plan with the marked chains folded away, and one of the same graph with all rows visible. -/
structure Folds (p q : Plan) (f : Folding) (marked : Chain → Bool) : Prop where
  sound : p.graph.Sound
  hides : f.Hides p.graph marked
  graph_eq : q.graph = p.graph
  follows : p.Follows f
  unfolded : q.Follows (.unfolded p.graph.rows.size)

/-- The edge of the second wire lies on the way of the first. -/
def Covers (p : Plan) (f : Folding) (v w : Wire) : Prop := p.graph.Along f v.edge w.edge

variable {p q : Plan} {f : Folding} {marked : Chain → Bool} {r : Nat} {v w : Wire} {n : NodeId}

theorem Folds.levelled (h : p.Folds q f marked) : p.Levelled (p.graph.visibleRows f) :=
  h.follows.levelled h.sound

theorem Folds.sound' (h : p.Folds q f marked) : q.graph.Sound := h.graph_eq ▸ h.sound

theorem Folds.levelled' (h : p.Folds q f marked) : q.Levelled (List.range p.graph.rows.size) := by
  have hlevel := h.unfolded.levelled h.sound'
  rwa [Graph.visibleRows_unfolded, h.graph_eq] at hlevel

theorem Folds.mem_wiresFrom' (h : p.Folds q f marked) : w ∈ q.wiresFrom n ↔
    ∃ d, p.graph.IsWire (.unfolded p.graph.rows.size) d w ∧ d.upper = n := by
  rw [h.unfolded.mem_wiresFrom h.sound', and_iff_right (Graph.isNodeVisible_unfolded _ _ _),
    h.graph_eq]

theorem Folds.crosses (h : p.Folds q f marked) (hr : r ≤ p.graph.rows.size) :
    p.Crosses (p.slotsAbove (p.graph.visibleRows f) (f.visibleAbove r)) (f.visibleAbove r) := by
  apply h.levelled.crosses h.sound
  rw [Graph.length_visibleRows]
  exact f.visibleAbove_mono hr

theorem Folds.crosses' (h : p.Folds q f marked) (hr : r ≤ p.graph.rows.size) :
    q.Crosses (q.slotsAbove (List.range p.graph.rows.size) r) r :=
  h.levelled'.crosses h.sound' (hr.trans_eq List.length_range.symm)

theorem Folds.alike_arrival (h : p.Folds q f marked) (hr : f.isVisible r)
    (hv : v ∈ p.wiresFrom v.upper) (hw : w ∈ q.wiresFrom w.upper) (hbottom : r ≤ w.bottom)
    (hvw : p.Covers f v w) :
    Slot.Alike Eq (p.Covers f) (arrival (f.visibleAbove r) v) (arrival r w) := by
  obtain ⟨-, d, hd, -⟩ := (h.follows.mem_wiresFrom h.sound).mp hv
  obtain ⟨d', hd', -⟩ := h.mem_wiresFrom'.mp hw
  have hreach := hvw.reaches hd.found hd'.found hd.reaches
  have hbottom' := hd'.bottom_eq_unfolded
  -- If the lower end of the edge is hidden, both go on; else they arrive together or not at all.
  cases hvis : f.isNodeVisible p.graph d'.lower with
  | true =>
    have hlower : v.lower = d'.lower := hreach.unique (.stop hvis)
    have hiff : v.bottom = f.visibleAbove r ↔ w.bottom = r := by
      rw [hd.bottom_eq, hlower, hbottom']
      exact ⟨Folding.eq_of_visibleAbove_eq hvis hr, fun heq => by rw [heq]⟩
    by_cases harrive : w.bottom = r
    · unfold arrival
      rw [if_pos (hiff.mpr harrive), if_pos harrive]
      exact .node (hlower.trans hd'.lower_eq_unfolded.symm)
    · unfold arrival
      rw [if_neg (mt hiff.mp harrive), if_neg harrive]
      exact .wire hvw
  | false =>
    have hne : p.graph.rowOf d'.lower ≠ r := by
      rintro rfl
      simp [Folding.isNodeVisible, hr] at hvis
    have hlt : r < p.graph.rowOf v.lower :=
      Nat.lt_of_lt_of_le (by omega) (hreach.rowOf_le h.sound)
    have hplace := Folding.visibleAbove_lt hr hlt
    rw [← hd.bottom_eq] at hplace
    unfold arrival
    rw [if_neg (by omega), if_neg (by omega)]
    exact .wire hvw

theorem Folds.alike_row (h : p.Folds q f marked) (hr : f.isVisible r)
    (hlt : r < p.graph.rows.size)
    (habove : List.Forall₂ (p.Covers f)
      ((p.slotsAbove (p.graph.visibleRows f) (f.visibleAbove r)).flatMap p.leaving)
      ((q.slotsAbove (List.range p.graph.rows.size) r).flatMap q.leaving)) :
    List.Forall₂ (Slot.Alike Eq (p.Covers f))
      (p.slotsAbove (p.graph.visibleRows f) (f.visibleAbove r + 1))
      (q.slotsAbove (List.range p.graph.rows.size) (r + 1)) := by
  rw [p.slotsAbove_succ (Graph.getElem?_visibleRows hlt hr),
    q.slotsAbove_succ (List.getElem?_range hlt), h.graph_eq]
  refine forall₂_nextSlots ⟨fun _ _ _ h h' => h.trans h'.symm, fun _ _ _ h h' => h.symm.trans h'⟩
    ((forall₂_mem habove).imp ?_) ?_
  · rintro v w ⟨hvw, hv, hw⟩
    obtain ⟨hv, -, -⟩ := ((h.crosses (Nat.le_of_lt hlt)).mem_iff v).mp hv
    obtain ⟨hw, -, hbottom⟩ := ((h.crosses' (Nat.le_of_lt hlt)).mem_iff w).mp hw
    exact h.alike_arrival hr hv hw hbottom hvw
  · exact List.forall₂_refl _

theorem Folds.alike_wiresFrom (h : p.Folds q f marked) (hn : f.isNodeVisible p.graph n)
    {m : Node} (hm : p.graph.nodes[n]? = some m) :
    List.Forall₂ (p.Covers f) (p.wiresFrom n) (q.wiresFrom n) := by
  have hv := h.follows.map_edge hm hn
  have hw := h.unfolded.map_edge (h.graph_eq ▸ hm) (Graph.isNodeVisible_unfolded _ _ _)
  have hedge : List.Forall₂ (fun e e' => p.graph.Along f e e') ((p.wiresFrom n).map (·.edge))
      ((q.wiresFrom n).map (·.edge)) := by
    rw [hv, hw, List.forall₂_same]
    exact fun _ _ => .here
  rwa [List.forall₂_map_left_iff, List.forall₂_map_right_iff] at hedge

theorem Folds.edge_of_arrival (h : p.Folds q f marked) (hn : p.graph.isSimple n) {m : Node}
    (hm : p.graph.nodes[n]? = some m) {e : EdgeId} (hup : m.up = [e])
    (hw : w ∈ q.wiresFrom w.upper) (hbottom : w.bottom = p.graph.rowOf n) :
    w.lower = n ∧ w.edge = e := by
  obtain ⟨d, hd, -⟩ := h.mem_wiresFrom'.mp hw
  rw [hd.bottom_eq_unfolded] at hbottom
  have hlower := Array.getElem?_eq_getElem (h.sound.lower_lt hd.found)
  have hn' := h.sound.eq_of_rowOf_eq hn hlower hbottom
  refine ⟨hd.lower_eq_unfolded.trans hn', ?_⟩
  have hmem := (h.sound.mem_up hm).mpr ⟨d, hd.found, hn'⟩
  rwa [hup, List.mem_singleton] at hmem

theorem Folds.exists_wire (h : p.Folds q f marked) {e : EdgeId} {d : Edge}
    (hd : p.graph.edges[e]? = some d) :
    ∃ w ∈ q.wiresFrom w.upper, w.top = p.graph.rowOf d.upper ∧ w.bottom = p.graph.rowOf d.lower ∧
      w.lower = d.lower := by
  obtain ⟨w, -, hw⟩ := (Folding.hides_unfolded p.graph).exists_isWire h.sound hd
  refine ⟨w, ?_, ?_, hw.bottom_eq_unfolded, hw.lower_eq_unfolded⟩
  · exact h.mem_wiresFrom'.mpr ⟨d, hw, hw.upper_eq.symm⟩
  · rw [hw.top_eq, Folding.visibleAbove_unfolded]

/-- With all rows visible, a simple node takes the place of the wire that arrives there. -/
theorem Folds.slotsAbove_simple (h : p.Folds q f marked) (hn : p.graph.isSimple n)
    (hlt : p.graph.rowOf n < p.graph.rows.size) :
    q.slotsAbove (List.range p.graph.rows.size) (p.graph.rowOf n + 1) =
      ((q.slotsAbove (List.range p.graph.rows.size) (p.graph.rowOf n)).flatMap q.leaving).map
        (arrival (p.graph.rowOf n)) := by
  have hcross := h.crosses' (Nat.le_of_lt hlt)
  obtain ⟨m, e, d, hm, hup, hd, rfl⟩ := h.sound.up_of_simple hn
  -- The wire places the node, so listing it adds nothing, and then there is nothing to leave out.
  rw [q.slotsAbove_succ (List.getElem?_range hlt), nextSlots, h.graph_eq,
    h.sound.nodesInRow_of_simple hn, Slot.firsts_append_nodes, Slot.firsts_eq_self]
  · apply hcross.nodup.map_on
    intro v hv w hw heq
    obtain ⟨hv, -, -⟩ := (hcross.mem_iff v).mp hv
    obtain ⟨hw, -, -⟩ := (hcross.mem_iff w).mp hw
    by_cases hb : v.bottom = p.graph.rowOf d.lower
    · rw [arrival, if_pos hb] at heq
      have hb' := (arrival_eq_node.mp heq.symm).1
      apply h.unfolded.wire_unique h.sound' hv hw
      rw [(h.edge_of_arrival hn hm hup hv hb).2, (h.edge_of_arrival hn hm hup hw hb').2]
    · rw [arrival, if_neg hb] at heq
      exact (arrival_eq_wire.mp heq.symm).2.symm
  · simp
  · simp only [List.mem_singleton, forall_eq, List.not_mem_nil, false_or]
    obtain ⟨w, hw, htop, hbottom, hlower⟩ := h.exists_wire hd
    have hrow := h.sound.row_lt_row hd
    refine List.mem_map.mpr ⟨w, (hcross.mem_iff w).mpr ⟨hw, by omega, by omega⟩, ?_⟩
    exact arrival_eq_node.mpr ⟨hbottom, hlower⟩

/-- Below a hidden row the edge out of its node has taken the place of the edge into it. -/
theorem Folds.alike_hidden (h : p.Folds q f marked) (hr : f.isVisible r = false)
    (hlt : r < p.graph.rows.size) {vs : List Wire}
    (habove : List.Forall₂ (p.Covers f) vs
      ((q.slotsAbove (List.range p.graph.rows.size) r).flatMap q.leaving)) :
    List.Forall₂ (p.Covers f) vs
      ((q.slotsAbove (List.range p.graph.rows.size) (r + 1)).flatMap q.leaving) := by
  obtain ⟨c, hc, -, hrow⟩ := (h.hides.hidden_iff r).mp hr
  obtain ⟨k, hk, rfl⟩ := List.mem_map.mp hrow
  have hsimple := hc.simple k hk
  have hcross := h.crosses' (Nat.le_of_lt hlt)
  obtain ⟨m, e₁, d₁, hm, hup, hd₁, rfl⟩ := h.sound.up_of_simple hsimple
  obtain ⟨m', e₂, -, hm', hdown, -⟩ := h.sound.down_of_simple hsimple
  cases hm.symm.trans hm'
  rw [h.slotsAbove_simple hsimple hlt, List.flatMap_map, ← List.flatMap_singleton' vs]
  apply List.rel_flatMap (forall₂_mem habove)
  rintro v w ⟨hvw, -, hw⟩
  change List.Forall₂ _ [v] (q.leaving (arrival (p.graph.rowOf d₁.lower) w))
  -- The wire into the simple node is replaced by the one out of it, which lies on the same way.
  by_cases hb : w.bottom = p.graph.rowOf d₁.lower
  · obtain ⟨hlower, hedge⟩ := h.edge_of_arrival hsimple hm hup ((hcross.mem_iff w).mp hw).1 hb
    have hwires := h.unfolded.map_edge (h.graph_eq ▸ hm) (Graph.isNodeVisible_unfolded _ _ _)
    rw [hdown] at hwires
    obtain ⟨w', hw', rfl⟩ := List.map_eq_singleton_iff.mp hwires
    rw [arrival, if_pos hb, hlower, leaving, hw']
    exact .cons (.down hvw (hedge ▸ hd₁) hr hm hdown) .nil
  · rw [arrival, if_neg hb]
    exact .cons hvw .nil

/-- Between any two rows the wires of both drawings are alike. -/
theorem Folds.alike (h : p.Folds q f marked) (hr : r ≤ p.graph.rows.size) :
    List.Forall₂ (p.Covers f)
      ((p.slotsAbove (p.graph.visibleRows f) (f.visibleAbove r)).flatMap p.leaving)
      ((q.slotsAbove (List.range p.graph.rows.size) r).flatMap q.leaving) := by
  -- The induction is over all rows of the graph: a hidden row is a step of one drawing only.
  induction r with
  | zero => exact .nil
  | succ r ih =>
    have habove := ih (Nat.le_of_lt hr)
    rw [Folding.visibleAbove_succ]
    cases hv : f.isVisible r with
    | false =>
      rw [if_neg (by simp)]
      exact h.alike_hidden hv hr habove
    | true =>
      rw [if_pos rfl]
      apply forall₂_flatMap_leaving (h.alike_row hv hr habove)
      rintro n _ rfl hn
      have hfill := h.levelled.fills h.sound (Graph.getElem?_visibleRows hr hv)
      have hmem := (hfill.node_mem n).mp hn
      obtain ⟨m, hm, -⟩ := h.sound.mem_nodesInRow.mp hmem
      refine h.alike_wiresFrom ?_ hm
      rw [Folding.isNodeVisible, h.sound.rowOf_of_mem hmem, hv]

end Plan

namespace Graph

/-- An edge of a chain, also one that leads into the chain or out of it. -/
def InChain (g : Graph) (c : Chain) (e : EdgeId) : Prop :=
  ∃ d, g.edges[e]? = some d ∧ (d.upper ∈ c.inner ∨ d.lower ∈ c.inner)

/-- Cells that look alike and show the same element, or two edges of a chain that is folded away for
one of them. -/
structure SamePlace (g : Graph) (a b : Cell) : Prop where
  column_eq : a.column = b.column
  kind_eq : a.kind = b.kind
  branch_eq : a.branch = b.branch
  element : a.element = b.element ∨ ∃ e e' c, a.element = .edge e ∧ b.element = .edge e' ∧
    g.IsChain c ∧ g.InChain c e ∧ g.InChain c e' ∧ (a.folded ∨ b.folded)

end Graph

namespace Plan

variable {p p' q : Plan} {f f' : Folding} {marked marked' : Chain → Bool} {r : Nat} {u v w : Wire}

theorem Folds.exists_chain (h : p.Folds q f marked) (h' : p'.Folds q f' marked')
    (hv : v ∈ p.wiresFrom v.upper) (hw : w ∈ p'.wiresFrom w.upper) (hu : u ∈ q.wiresFrom u.upper)
    (hvu : p.Covers f v u) (hwu : p'.Covers f' w u) (hne : v.edge ≠ w.edge) :
    ∃ c, p.graph.IsChain c ∧ p.graph.InChain c v.edge ∧ p.graph.InChain c w.edge ∧
      (v.folded ∨ w.folded) := by
  have hgraph : p'.graph = p.graph := h'.graph_eq.symm.trans h.graph_eq
  obtain ⟨-, d, hd, -⟩ := (h.follows.mem_wiresFrom h.sound).mp hv
  obtain ⟨-, d', hd', -⟩ := (h'.follows.mem_wiresFrom h'.sound).mp hw
  obtain ⟨d₀, hd₀, -⟩ := h.mem_wiresFrom'.mp hu
  have hides' := h'.hides
  rw [Covers] at hvu hwu
  rw [hgraph] at hd' hwu hides'
  -- If neither wire leads over hidden nodes, both are the edge that they cover.
  have hfolded : v.folded ∨ w.folded := by
    by_contra hnone
    rw [hd.folded_eq, hd'.folded_eq] at hnone
    simp only [Bool.not_eq_true', not_or, Bool.not_eq_false] at hnone
    have hvu' := hvu.eq_of_visible hd.found hnone.1
    have hwu' := hwu.eq_of_visible hd'.found hnone.2
    exact hne (hvu'.trans hwu'.symm)
  rcases h.hides.eq_or_exists_chain_of_along h.sound hvu hd.found hd₀.found with
    heq | ⟨c, hc, hl, hup⟩
  · rcases hides'.eq_or_exists_chain_of_along h.sound hwu hd'.found hd₀.found with
      heq' | ⟨c', hc', hl', hup'⟩
    · exact absurd (heq.trans heq'.symm) hne
    · exact ⟨c', hc', heq ▸ ⟨d₀, hd₀.found, .inl hup'⟩, ⟨d', hd'.found, .inr hl'⟩, hfolded⟩
  · rcases hides'.eq_or_exists_chain_of_along h.sound hwu hd'.found hd₀.found with
      heq' | ⟨c', hc', hl', hup'⟩
    · exact ⟨c, hc, ⟨d, hd.found, .inr hl⟩, heq' ▸ ⟨d₀, hd₀.found, .inl hup⟩, hfolded⟩
    · cases hc.eq_of_mem h.sound hc' hup hup'
      exact ⟨c, hc, ⟨d, hd.found, .inr hl⟩, ⟨d', hd'.found, .inr hl'⟩, hfolded⟩

theorem Folds.branch_eq (h : p.Folds q f marked) (hv : v ∈ p.wiresFrom v.upper)
    (hu : u ∈ q.wiresFrom u.upper) (hvu : p.Covers f v u) : v.branch = u.branch := by
  obtain ⟨-, d, hd, -⟩ := (h.follows.mem_wiresFrom h.sound).mp hv
  obtain ⟨d₀, hd₀, -⟩ := h.mem_wiresFrom'.mp hu
  have hbranch := h.hides.branch_eq_of_along h.sound hvu
  rw [hd.found, hd₀.found] at hbranch
  rw [hd.branch_eq, hd₀.branch_eq]
  exact Option.some_inj.mp hbranch

theorem isShortened_of_inFull (ho : p.options.longEdgesInFull) (w : Wire) :
    p.isShortened w = false := by
  simp [isShortened, ho]

theorem shown_of_inFull (ho : p.options.longEdgesInFull) (i : Nat) (slots : List Slot) :
    p.shown i slots = slots := by
  apply List.filter_eq_self.mpr
  intro s _
  cases s with
  | node n => rfl
  | wire w => simp [isShown, isShortened_of_inFull ho]

theorem Folds.samePlace_cell (h : p.Folds q f marked) (h' : p'.Folds q f' marked')
    (ho : p.options.longEdgesInFull) (ho' : p'.options.longEdgesInFull) {i i' : Nat}
    {row row' : Nat} {ss ss' us : List Slot} {s t x : Slot} (hs : p.Fills row i ss)
    (ht : p'.Fills row' i' ss') (hx : q.Fills r r us) (hmem : s ∈ ss) (hmem' : t ∈ ss')
    (hmemx : x ∈ us) (hsx : s.Alike Eq (p.Covers f) x) (htx : t.Alike Eq (p'.Covers f') x)
    (k : Nat) : Option.Rel p.graph.SamePlace (p.cell i k s) (p'.cell i' k t) := by
  have hgraph : p'.graph = p.graph := h'.graph_eq.symm.trans h.graph_eq
  cases hsx with
  | node heq =>
    subst heq
    cases htx with
    | @node n _ heq =>
      subst heq
      rw [cell, cell, hgraph]
      cases p.graph.nodes[n]? with
      | none => exact .none
      | some m => exact .some ⟨rfl, rfl, rfl, .inl rfl⟩
  | @wire v u hvu =>
    cases htx with
    | @wire w _ hwu =>
      obtain ⟨hv, -, -⟩ := (hs.wire_mem v).mp hmem
      obtain ⟨hw, -, -⟩ := (ht.wire_mem w).mp hmem'
      obtain ⟨hu, -, -⟩ := (hx.wire_mem u).mp hmemx
      have hbranch := (h.branch_eq hv hu hvu).trans (h'.branch_eq hw hu hwu).symm
      refine .some ⟨rfl, ?_, hbranch, ?_⟩
      · simp only [isShortened_of_inFull ho, isShortened_of_inFull ho', Bool.not_false, if_true]
      · by_cases hedge : v.edge = w.edge
        · exact .inl (congrArg Element.edge hedge)
        · obtain ⟨c, hc, hcv, hcw, hfolded⟩ := h.exists_chain h' hv hw hu hvu hwu hedge
          exact .inr ⟨v.edge, w.edge, c, rfl, rfl, hc, hcv, hcw, hfolded⟩

/-- A row that both foldings leave visible has the same cells, up to edges of folded chains. -/
theorem Folds.samePlace_cells (h : p.Folds q f marked) (h' : p'.Folds q f' marked')
    (ho : p.options.longEdgesInFull) (ho' : p'.options.longEdgesInFull) (hr : f.isVisible r)
    (hr' : f'.isVisible r) (hlt : r < p.graph.rows.size) :
    let i := f.visibleAbove r
    let i' := f'.visibleAbove r
    List.Forall₂ p.graph.SamePlace
      (p.cells i (p.shown i (p.slotsAbove (p.graph.visibleRows f) (i + 1))))
      (p'.cells i' (p'.shown i' (p'.slotsAbove (p'.graph.visibleRows f') (i' + 1)))) := by
  intro i i'
  have hgraph : p'.graph = p.graph := h'.graph_eq.symm.trans h.graph_eq
  have hlt' : r < p'.graph.rows.size := hgraph ▸ hlt
  have hfill := h.levelled.fills h.sound (Graph.getElem?_visibleRows hlt hr)
  have hfill' := h'.levelled.fills h'.sound (Graph.getElem?_visibleRows hlt' hr')
  have hfill₀ := h.levelled'.fills h.sound' (List.getElem?_range hlt)
  have halike := h.alike_row hr hlt (h.alike (Nat.le_of_lt hlt))
  have halike' := h'.alike_row hr' hlt' (h'.alike (Nat.le_of_lt hlt'))
  rw [hgraph] at halike'
  rw [shown_of_inFull ho, shown_of_inFull ho', cells_eq hfill.nodup, cells_eq hfill'.nodup, hgraph]
  -- Slots of both rows that are alike to one slot of the full drawing stand side by side.
  have hboth := forall₂_of_right (forall₂_mem halike) (forall₂_mem halike')
  refine List.rel_filterMap ?_ (forall₂_zipIdx hboth 0)
  rintro ⟨s, k⟩ ⟨t, _⟩ ⟨⟨x, ⟨hsx, hs, hx⟩, htx, ht, -⟩, rfl⟩
  exact h.samePlace_cell h' ho ho' hfill (hgraph ▸ hfill') hfill₀ hs ht hx hsx htx k

end Plan

namespace Graph

variable {cs : List Commit} {references : List Reference} {g : Graph} {f f' : Folding}
  {o : DrawOptions}

/-- With long edges drawn in full, folding moves no cell: rows that two foldings leave visible have
equally many cells, and in every column the same node, the same edge, or two edges of one chain. -/
theorem cells_unmoved (hb : build cs references = .ok g) (hf : g.Reachable f)
    (hf' : g.Reachable f') (ho : o.longEdgesInFull) (s : Selection) :
    ∃ d d', g.draw f o s = .ok d ∧ g.draw f' o s = .ok d' ∧
      d.rows.map (·.row) = g.visibleRows f ∧ d'.rows.map (·.row) = g.visibleRows f' ∧
      ∀ r ∈ d.rows, ∀ r' ∈ d'.rows, r.row = r'.row →
        List.Forall₂ g.SamePlace r.cells r'.cells := by
  have hg := (depicts_of_build hb).toSound
  obtain ⟨marked, hm⟩ := hf.exists_hides hg
  obtain ⟨marked', hm'⟩ := hf'.exists_hides hg
  obtain ⟨p, rfl, rfl, rfl, hp, d, hdraw, hd⟩ := hm.exists_plan hg o s
  obtain ⟨p', hpg, hpo, -, hp', d', hdraw', hd'⟩ := hm'.exists_plan hg p.options p.selection
  obtain ⟨q, hqg, -, -, hq, -⟩ :=
    (Folding.hides_unfolded p.graph).exists_plan hg p.options p.selection
  -- Each drawing is compared with the one that shows all rows.
  have hfolds : p.Folds q f marked := ⟨hg, hm, hqg, hp, hq⟩
  have hfolds' : p'.Folds q f' marked' :=
    ⟨hpg ▸ hg, hpg ▸ hm', hqg.trans hpg.symm, hp', hpg ▸ hq⟩
  rw [← hpg] at hd'
  refine ⟨d, d', hdraw, hdraw', hfolds.levelled.map_row_draw hg hd, ?_, ?_⟩
  · rw [← hpg]
    exact hfolds'.levelled.map_row_draw hfolds'.sound hd'
  · intro r hr r' hr' hrow
    obtain ⟨i, hi⟩ := List.mem_iff_getElem?.mp hr
    obtain ⟨i', hi'⟩ := List.mem_iff_getElem?.mp hr'
    rw [hfolds.levelled.getElem?_draw hg hd, Option.map_eq_some_iff] at hi
    rw [hfolds'.levelled.getElem?_draw hfolds'.sound hd', Option.map_eq_some_iff] at hi'
    obtain ⟨row, hi, rfl⟩ := hi
    obtain ⟨row', hi', rfl⟩ := hi'
    obtain rfl : row = row' := hrow
    obtain ⟨hlt, hv⟩ := mem_visibleRows.mp (List.mem_of_getElem? hi)
    obtain ⟨-, hv'⟩ := mem_visibleRows.mp (List.mem_of_getElem? hi')
    obtain rfl := visibleAbove_of_getElem? hi
    obtain rfl := visibleAbove_of_getElem? hi'
    exact hfolds.samePlace_cells hfolds' ho (hpo ▸ ho) hv hv' hlt

/-- A chain of one commit, shown and folded away. -/
theorem cells_unmoved_folded :
    ∃ g d d', build [⟨3, [2], 0⟩, ⟨2, [1], 0⟩, ⟨1, [], 0⟩] [] = .ok g ∧
      g.draw (.unfolded g.rows.size) ⟨true, 30⟩ .none = .ok d ∧
      g.draw ((Folding.unfolded g.rows.size).foldAll g) ⟨true, 30⟩ .none = .ok d' ∧
      ∀ r ∈ d.rows, ∀ r' ∈ d'.rows, r.row = r'.row →
        List.Forall₂ g.SamePlace r.cells r'.cells := by
  obtain ⟨g, hb⟩ : ∃ g, build [⟨3, [2], 0⟩, ⟨2, [1], 0⟩, ⟨1, [], 0⟩] [] = .ok g := ⟨_, rfl⟩
  obtain ⟨d, d', hd, hd', -, -, hsame⟩ :=
    cells_unmoved (o := ⟨true, 30⟩) hb .unfolded (.foldAll .unfolded) rfl .none
  exact ⟨g, d, d', hb, hd, hd', hsame⟩

end Graph

end CommitGraph
