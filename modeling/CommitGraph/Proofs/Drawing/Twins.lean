import CommitGraph.Proofs.Drawing.Steady
import CommitGraph.Proofs.Folding.Apart

namespace CommitGraph

/-- The wires lead the same way. Their ends may be in other places among the visible rows. -/
structure Wire.SameWay (v w : Wire) : Prop where
  edge_eq : v.edge = w.edge
  branch_eq : v.branch = w.branch
  upper_eq : v.upper = w.upper
  lower_eq : v.lower = w.lower
  folded_eq : v.folded = w.folded

namespace Plan

variable {p p' q : Plan} {f f' : Folding} {marked marked' : Chain → Bool} {c : Chain}
  {v w u : Wire} {n : NodeId} {r y : Nat} {s t : Slot}

theorem Follows.isVisible_upper (hp : p.Follows f) (hg : p.graph.Sound) (hv : v ∈ p.wiresFrom n) :
    f.isVisible (p.graph.rowOf v.upper) := by
  obtain ⟨hvis, d, hd, hu⟩ := (hp.mem_wiresFrom hg).mp hv
  rw [hd.upper_eq, hu]
  exact hvis

theorem Follows.top_eq (hp : p.Follows f) (hg : p.graph.Sound) (hv : v ∈ p.wiresFrom n) :
    v.top = f.visibleAbove (p.graph.rowOf v.upper) := by
  obtain ⟨-, d, hd, -⟩ := (hp.mem_wiresFrom hg).mp hv
  rw [hd.top_eq, hd.upper_eq]

theorem Follows.bottom_eq (hp : p.Follows f) (hg : p.graph.Sound) (hv : v ∈ p.wiresFrom n) :
    v.bottom = f.visibleAbove (p.graph.rowOf v.lower) := by
  obtain ⟨-, d, hd, -⟩ := (hp.mem_wiresFrom hg).mp hv
  exact hd.bottom_eq

theorem Follows.top_lt_iff (hp : p.Follows f) (hg : p.graph.Sound) (hv : v ∈ p.wiresFrom n) :
    v.top < f.visibleAbove r ↔ p.graph.rowOf v.upper < r := by
  rw [hp.top_eq hg hv]
  exact Folding.visibleAbove_lt_iff (hp.isVisible_upper hg hv)

theorem Follows.top_le_iff (hp : p.Follows f) (hg : p.graph.Sound) (hv : v ∈ p.wiresFrom n)
    (hr : f.isVisible r) : v.top ≤ f.visibleAbove r ↔ p.graph.rowOf v.upper ≤ r := by
  rw [hp.top_eq hg hv, ← Nat.not_lt, Folding.visibleAbove_lt_iff hr, Nat.not_lt]

theorem Follows.lt_bottom_iff (hp : p.Follows f) (hg : p.graph.Sound) (hv : v ∈ p.wiresFrom n)
    (hr : f.isVisible r) : f.visibleAbove r < v.bottom ↔ r < p.graph.rowOf v.lower := by
  rw [hp.bottom_eq hg hv]
  exact Folding.visibleAbove_lt_iff hr

def slotsAt (p : Plan) (f : Folding) (r : Nat) : List Slot :=
  p.slotsAbove (p.graph.visibleRows f) (f.visibleAbove r + 1)

/-- Wires of two plans for one edge. -/
structure Twin (p p' : Plan) (v w : Wire) : Prop where
  mem : v ∈ p.wiresFrom v.upper
  mem' : w ∈ p'.wiresFrom w.upper
  edge_eq : v.edge = w.edge

abbrev TwinSlot (p p' : Plan) : Slot → Slot → Prop := Slot.Alike Eq (p.Twin p')

/-- Two plans of one graph whose foldings differ by a chain, and one with all rows visible. -/
structure Flips (p p' q : Plan) (f f' : Folding) (marked marked' : Chain → Bool) (c : Chain) :
    Prop where
  folds : p.Folds q f marked
  folds' : p'.Folds q f' marked'
  chain : p.graph.IsChain c
  marked_eq : ∀ c', c' ≠ c → marked c' = marked' c'
  options_eq : p'.options = p.options
  selection_eq : p'.selection = p.selection

theorem Flips.sound (h : p.Flips p' q f f' marked marked' c) : p.graph.Sound := h.folds.sound

theorem Flips.graph_eq (h : p.Flips p' q f f' marked marked' c) : p'.graph = p.graph :=
  h.folds'.graph_eq.symm.trans h.folds.graph_eq

theorem Flips.apart (h : p.Flips p' q f f' marked marked' c) :
    f.Apart f' p.graph marked marked' c :=
  ⟨h.folds.hides, h.graph_eq ▸ h.folds'.hides, h.chain, h.marked_eq⟩

theorem Flips.biUnique (h : p.Flips p' q f f' marked marked' c) :
    Relator.BiUnique (p.TwinSlot p') := by
  apply Slot.Alike.biUnique
  · exact ⟨fun _ _ _ h h' => h.trans h'.symm, fun _ _ _ h h' => h.symm.trans h'⟩
  · constructor
    · intro v w u hv hw
      exact h.folds.follows.wire_unique h.sound hv.mem hw.mem (hv.edge_eq.trans hw.edge_eq.symm)
    · intro v w u hw hu
      exact h.folds'.follows.wire_unique h.folds'.sound hw.mem' hu.mem'
        (hw.edge_eq.symm.trans hu.edge_eq)

theorem Flips.not_inChain (h : p.Flips p' q f f' marked marked' c) (hoff : c.Off p.graph r)
    (hv : v ∈ p.wiresFrom v.upper) (hup : p.graph.rowOf v.upper ≤ r)
    (hlo : r < p.graph.rowOf v.lower) : ¬ p.graph.InChain c v.edge := by
  intro hin
  obtain ⟨-, d, hd, -⟩ := (h.folds.follows.mem_wiresFrom h.sound).mp hv
  have hrows := h.folds.hides.rows_of_inChain h.sound h.chain hin hd.found hd.reaches
  rw [← hd.upper_eq] at hrows
  unfold Chain.Off at hoff
  omega

/-- Twins that lead through a row off the chain are the same but for their places. -/
theorem Flips.sameWay (h : p.Flips p' q f f' marked marked' c) (hoff : c.Off p.graph r)
    (hvw : p.Twin p' v w) (hup : p.graph.rowOf v.upper ≤ r) (hlo : r < p.graph.rowOf v.lower) :
    v.SameWay w := by
  obtain ⟨-, d, hd, -⟩ := (h.folds.follows.mem_wiresFrom h.sound).mp hvw.mem
  obtain ⟨-, d', hd', -⟩ := (h.folds'.follows.mem_wiresFrom h.folds'.sound).mp hvw.mem'
  rw [h.graph_eq] at hd'
  have hfound := hd.found
  rw [hvw.edge_eq, hd'.found] at hfound
  cases hfound
  have hlt := h.sound.lower_lt hd.found
  have hnot : d.lower ∉ c.inner := fun hmem =>
    h.not_inChain hoff hvw.mem hup hlo ⟨d, hd.found, .inr hmem⟩
  have hreach := h.apart.reaches h.sound hlt hnot hd.reaches
  constructor
  · exact hvw.edge_eq
  · exact hd.branch_eq.trans hd'.branch_eq.symm
  · exact hd.upper_eq.trans hd'.upper_eq.symm
  · exact hreach.unique hd'.reaches
  · rw [hd.folded_eq, hd'.folded_eq, h.apart.isNodeVisible_eq h.sound hlt hnot]

theorem Flips.twin_of_covers (h : p.Flips p' q f f' marked marked' c)
    (hv : v ∈ p.wiresFrom v.upper) (hw : w ∈ p'.wiresFrom w.upper) (hu : u ∈ q.wiresFrom u.upper)
    (hvu : p.Covers f v u) (hwu : p'.Covers f' w u) (hout : ¬ p.graph.InChain c v.edge) :
    p.Twin p' v w := by
  refine ⟨hv, hw, ?_⟩
  by_contra hne
  obtain ⟨c', hc', hcv, hcw, hfolded⟩ := h.folds.exists_chain h.folds' hv hw hu hvu hwu hne
  have hother : c' ≠ c := by
    rintro rfl
    exact hout hcv
  obtain ⟨hvis, d, hd, hup⟩ := (h.folds.follows.mem_wiresFrom h.sound).mp hv
  obtain ⟨hvis', d', hd', hup'⟩ := (h.folds'.follows.mem_wiresFrom h.folds'.sound).mp hw
  rw [h.graph_eq] at hd' hvis'
  have hides' := h.apart.hides'
  -- The chain is marked in both foldings, and both edges lead into it.
  have hmarked : marked c' := by
    rcases hfolded with hf | hf
    · rw [hd.folded_eq, Bool.not_eq_true'] at hf
      exact h.folds.hides.marked_of_inChain h.sound hc' hcv hd.found hf
    · rw [hd'.folded_eq, Bool.not_eq_true'] at hf
      rw [h.marked_eq c' hother]
      exact hides'.marked_of_inChain h.sound hc' hcw hd'.found hf
  have henters := h.folds.hides.enters_of_inChain h.sound hc' hmarked hcv hd.found (hup ▸ hvis)
  have henters' := hides'.enters_of_inChain h.sound hc' (h.marked_eq c' hother ▸ hmarked) hcw
    hd'.found (hup' ▸ hvis')
  exact hne (hc'.enters_unique h.sound henters henters')

theorem Flips.twin_wiresFrom (h : p.Flips p' q f f' marked marked' c)
    (hv : f.isNodeVisible p.graph n) (hv' : f'.isNodeVisible p.graph n) {m : Node}
    (hm : p.graph.nodes[n]? = some m) :
    List.Forall₂ (p.Twin p') (p.wiresFrom n) (p'.wiresFrom n) := by
  have hedge := h.folds.follows.map_edge hm hv
  have hedge' := h.folds'.follows.map_edge (h.graph_eq ▸ hm) (h.graph_eq ▸ hv')
  have hsame : List.Forall₂ Eq ((p.wiresFrom n).map (·.edge)) ((p'.wiresFrom n).map (·.edge)) := by
    rw [hedge, hedge']
    exact List.forall₂_refl _
  rw [List.forall₂_map_left_iff, List.forall₂_map_right_iff] at hsame
  apply (forall₂_mem hsame).imp
  rintro v w ⟨he, hv, hw⟩
  exact ⟨h.folds.levelled.upper_eq hv ▸ hv, h.folds'.levelled.upper_eq hw ▸ hw, he⟩

structure Flips.Row (h : p.Flips p' q f f' marked marked' c) (r : Nat) : Prop where
  visible : f.isVisible r
  visible' : f'.isVisible r
  lt_size : r < p.graph.rows.size

variable {h : p.Flips p' q f f' marked marked' c}

theorem Flips.Row.fills (hr : h.Row r) : p.Fills r (f.visibleAbove r) (p.slotsAt f r) :=
  h.folds.levelled.fills h.sound (Graph.getElem?_visibleRows hr.lt_size hr.visible)

theorem Flips.Row.fills' (hr : h.Row r) : p'.Fills r (f'.visibleAbove r) (p'.slotsAt f' r) :=
  h.folds'.levelled.fills h.folds'.sound
    (Graph.getElem?_visibleRows (h.graph_eq ▸ hr.lt_size) hr.visible')

theorem Flips.Row.of_mem_slotsAt (hr : h.Row r) (hv : .wire v ∈ p.slotsAt f r) :
    v ∈ p.wiresFrom v.upper ∧ p.graph.rowOf v.upper < r ∧ r < p.graph.rowOf v.lower := by
  obtain ⟨hmem, htop, hbottom⟩ := (hr.fills.wire_mem v).mp hv
  exact ⟨hmem, (h.folds.follows.top_lt_iff h.sound hmem).mp htop,
    (h.folds.follows.lt_bottom_iff h.sound hmem hr.visible).mp hbottom⟩

/-- Off the chain both plans have the same slots. -/
theorem Flips.Row.alike (hr : h.Row r) (hoff : c.Off p.graph r) :
    List.Forall₂ (p.TwinSlot p') (p.slotsAt f r) (p'.slotsAt f' r) := by
  have hlt' : r < p'.graph.rows.size := h.graph_eq ▸ hr.lt_size
  have hfill₀ := h.folds.levelled'.fills h.folds.sound' (List.getElem?_range hr.lt_size)
  have halike := h.folds.alike_row hr.visible hr.lt_size (h.folds.alike (Nat.le_of_lt hr.lt_size))
  have halike' := h.folds'.alike_row hr.visible' hlt' (h.folds'.alike (Nat.le_of_lt hlt'))
  rw [congrArg (·.rows.size) h.graph_eq] at halike'
  -- Both rows are alike to the one of the plan that shows all rows.
  apply (forall₂_of_right (forall₂_mem halike) (forall₂_mem halike')).imp
  rintro s t ⟨x, ⟨hsx, hs, hx⟩, htx, ht, -⟩
  cases hsx with
  | node heq =>
    cases htx with
    | node heq' => exact .node (heq.trans heq'.symm)
  | wire hvx =>
    cases htx with
    | wire hwx =>
      obtain ⟨hv, hup, hlo⟩ := hr.of_mem_slotsAt hs
      have hw := ((hr.fills'.wire_mem _).mp ht).1
      have hu := ((hfill₀.wire_mem _).mp hx).1
      have hout := h.not_inChain hoff hv (Nat.le_of_lt hup) hlo
      exact .wire (h.twin_of_covers hv hw hu hvx hwx hout)

end Plan

end CommitGraph
