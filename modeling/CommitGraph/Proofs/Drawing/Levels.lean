import CommitGraph.Proofs.Drawing.Wires
import Mathlib.Data.List.Nodup

namespace CommitGraph

namespace Folding

variable {f : Folding} {i j : Nat}

theorem visibleAbove_succ (f : Folding) (i : Nat) :
    f.visibleAbove (i + 1) = f.visibleAbove i + if f.isVisible i then 1 else 0 := by
  simp [visibleAbove, List.range_succ, List.countP_append, List.countP_singleton]

theorem visibleAbove_mono (f : Folding) (h : i ≤ j) : f.visibleAbove i ≤ f.visibleAbove j := by
  induction j, h using Nat.le_induction with
  | base => exact Nat.le_refl _
  | succ j _ ih =>
    rw [visibleAbove_succ]
    omega

theorem visibleAbove_lt (hi : f.isVisible i) (h : i < j) : f.visibleAbove i < f.visibleAbove j := by
  have hmono := f.visibleAbove_mono (show i + 1 ≤ j from h)
  rw [visibleAbove_succ, if_pos hi] at hmono
  omega

theorem eq_of_visibleAbove_eq (hi : f.isVisible i) (hj : f.isVisible j)
    (h : f.visibleAbove i = f.visibleAbove j) : i = j := by
  rcases Nat.lt_trichotomy i j with hlt | heq | hlt
  · have := visibleAbove_lt hi hlt
    omega
  · exact heq
  · have := visibleAbove_lt hj hlt
    omega

end Folding

namespace Graph

variable {g : Graph} {f : Folding} {r : Nat}

@[simp] theorem mem_visibleRows : r ∈ g.visibleRows f ↔ r < g.rows.size ∧ f.isVisible r := by
  simp [visibleRows]

theorem pairwise_visibleRows (g : Graph) (f : Folding) :
    (g.visibleRows f).Pairwise (· < ·) :=
  List.pairwise_lt_range.filter _

@[simp] theorem length_visibleRows (g : Graph) (f : Folding) :
    (g.visibleRows f).length = f.visibleAbove g.rows.size :=
  List.countP_eq_length_filter.symm

theorem getElem?_visibleRows (hr : r < g.rows.size) (hv : f.isVisible r) :
    (g.visibleRows f)[f.visibleAbove r]? = some r := by
  -- Cut the rows at this one; the part before it has as many visible rows as lie above.
  obtain ⟨k, hk⟩ := Nat.exists_eq_add_of_lt hr
  have hrange : List.range g.rows.size =
      List.range r ++ r :: (List.range k).map (r + 1 + ·) := by
    rw [hk, Nat.add_right_comm, List.range_add, List.range_succ, List.append_assoc]
    rfl
  rw [visibleRows, hrange, List.filter_append, List.filter_cons_of_pos hv, Folding.visibleAbove,
    List.countP_eq_length_filter, List.getElem?_append_right (Nat.le_refl _), Nat.sub_self,
    List.getElem?_cons_zero]

theorem visibleAbove_of_getElem? {i : Nat} (hi : (g.visibleRows f)[i]? = some r) :
    f.visibleAbove r = i := by
  obtain ⟨hr, hv⟩ := mem_visibleRows.mp (List.mem_of_getElem? hi)
  have hnodup : (g.visibleRows f).Nodup := (g.pairwise_visibleRows f).imp Nat.ne_of_lt
  have hplace := getElem?_visibleRows hr hv
  exact (List.getElem?_inj (List.getElem?_eq_some_iff.mp hplace).1 hnodup).mp (hplace.trans hi.symm)

end Graph

namespace Plan

structure Spans (p : Plan) (rows : List Nat) (w : Wire) : Prop where
  top_lt_bottom : w.top < w.bottom
  upper_row : rows[w.top]? = some (p.graph.rowOf w.upper)
  lower_row : rows[w.bottom]? = some (p.graph.rowOf w.lower)
  upper_mem : w.upper ∈ p.graph.nodesInRow (p.graph.rowOf w.upper)
  lower_mem : w.lower ∈ p.graph.nodesInRow (p.graph.rowOf w.lower)

/-- The wires of a plan are spans between rows that get lower and lower. -/
structure Levelled (p : Plan) (rows : List Nat) : Prop where
  pairwise_lt : rows.Pairwise (· < ·)
  nodup_wiresFrom : ∀ n, (p.wiresFrom n).Nodup
  upper_eq : ∀ {n : NodeId} {w : Wire}, w ∈ p.wiresFrom n → w.upper = n
  spans : ∀ {n : NodeId} {w : Wire}, w ∈ p.wiresFrom n → p.Spans rows w

variable {p : Plan} {f : Folding} {rows : List Nat} {n : NodeId} {w : Wire}

theorem Levelled.row_lt (h : p.Levelled rows) {i j a b : Nat} (hi : rows[i]? = some a)
    (hj : rows[j]? = some b) (hij : i < j) : a < b := by
  obtain ⟨hi', rfl⟩ := List.getElem?_eq_some_iff.mp hi
  obtain ⟨hj', rfl⟩ := List.getElem?_eq_some_iff.mp hj
  exact List.pairwise_iff_getElem.mp h.pairwise_lt i j hi' hj' hij

theorem Levelled.row_le (h : p.Levelled rows) {i j a b : Nat} (hi : rows[i]? = some a)
    (hj : rows[j]? = some b) (hij : i ≤ j) : a ≤ b := by
  rcases Nat.lt_or_eq_of_le hij with hlt | rfl
  · exact Nat.le_of_lt (h.row_lt hi hj hlt)
  · exact Nat.le_of_eq (Option.some_inj.mp (hi.symm.trans hj))

theorem Levelled.place_unique (h : p.Levelled rows) {i j a : Nat} (hi : rows[i]? = some a)
    (hj : rows[j]? = some a) : i = j := by
  have hnodup : rows.Nodup := h.pairwise_lt.imp Nat.ne_of_lt
  exact (List.getElem?_inj (List.getElem?_eq_some_iff.mp hi).1 hnodup).mp (hi.trans hj.symm)

theorem Follows.map_edge (h : p.Follows f) {m : Node} (hm : p.graph.nodes[n]? = some m)
    (hv : f.isNodeVisible p.graph n) : (p.wiresFrom n).map (·.edge) = m.down := by
  have hedge := map_eq_map_of_forall₂ (h.forall₂_wiresFrom hm hv) (f := id) fun _ _ he => he.1.symm
  rw [← hedge, List.map_id]

theorem Follows.mem_wiresFrom (h : p.Follows f) (hg : p.graph.Sound) :
    w ∈ p.wiresFrom n ↔
      f.isNodeVisible p.graph n ∧ ∃ d, p.graph.IsWire f d w ∧ d.upper = n := by
  constructor
  · intro hw
    obtain ⟨hv, m, hm⟩ := h.of_mem_wiresFrom hw
    obtain ⟨e, he, rfl, d, hd⟩ := exists_mem_left (h.forall₂_wiresFrom hm hv) hw
    rw [hg.down_eq hm] at he
    obtain ⟨d', hd', hu⟩ := Graph.mem_edgesFrom.mp he
    cases hd.found.symm.trans hd'
    exact ⟨hv, d, hd, hu⟩
  · rintro ⟨hv, d, hd, rfl⟩
    obtain ⟨m, hm, -⟩ := hg.exists_upper hd.found
    have he := (hg.mem_down hm).mpr ⟨d, hd.found, rfl⟩
    obtain ⟨w', hw', he', d', hd'⟩ := exists_mem_right (h.forall₂_wiresFrom hm hv) he
    exact hd'.unique hd he' ▸ hw'

theorem Follows.nodup_wiresFrom (h : p.Follows f) (hg : p.graph.Sound) (n : NodeId) :
    (p.wiresFrom n).Nodup := by
  cases hws : p.wiresFrom n with
  | nil => exact List.nodup_nil
  | cons w ws =>
    obtain ⟨hv, m, hm⟩ := h.of_mem_wiresFrom (hws ▸ List.mem_cons_self)
    have hnodup : ((p.wiresFrom n).map (·.edge)).Nodup := by
      rw [h.map_edge hm hv]
      exact hg.nodup_down hm
    exact hws ▸ List.Nodup.of_map _ hnodup

theorem Follows.spans (h : p.Follows f) (hg : p.graph.Sound) (hw : w ∈ p.wiresFrom n) :
    p.Spans (p.graph.visibleRows f) w := by
  obtain ⟨hv, d, hd, rfl⟩ := (h.mem_wiresFrom hg).mp hw
  obtain ⟨mu, hmu, -⟩ := hg.exists_upper hd.found
  have hml := Array.getElem?_eq_getElem (hd.reaches.lt_size hg (hg.lower_lt hd.found))
  have hrow : p.graph.rowOf d.upper < p.graph.rowOf w.lower :=
    Nat.lt_of_lt_of_le (hg.row_lt_row hd.found) (hd.reaches.rowOf_le hg)
  constructor
  · rw [hd.top_eq, hd.bottom_eq]
    exact Folding.visibleAbove_lt hv hrow
  · rw [hd.top_eq, hd.upper_eq]
    exact Graph.getElem?_visibleRows (hg.rowOf_lt_size hmu) hv
  · rw [hd.bottom_eq]
    exact Graph.getElem?_visibleRows (hg.rowOf_lt_size hml) hd.reaches.isNodeVisible
  · rw [hd.upper_eq]
    exact hg.mem_nodesInRow_rowOf hmu
  · exact hg.mem_nodesInRow_rowOf hml

theorem Follows.levelled (h : p.Follows f) (hg : p.graph.Sound) :
    p.Levelled (p.graph.visibleRows f) where
  pairwise_lt := p.graph.pairwise_visibleRows f
  nodup_wiresFrom := h.nodup_wiresFrom hg
  upper_eq hw := by
    obtain ⟨-, d, hd, hu⟩ := (h.mem_wiresFrom hg).mp hw
    exact hd.upper_eq.trans hu
  spans hw := h.spans hg hw

end Plan

end CommitGraph
