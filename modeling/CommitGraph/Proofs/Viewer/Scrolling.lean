import CommitGraph.Proofs.Folding.Entries
import CommitGraph.Proofs.Viewer.Redrawing

namespace CommitGraph

namespace Folding

variable {f : Folding} {g : Graph} {marked : Chain → Bool} {row r k : Nat}

/-- The lowest of the visible rows down to a row. -/
structure Nearest (f : Folding) (row r : Nat) : Prop where
  lt_size : r < f.size
  isVisible : f.isVisible r
  le : r ≤ row
  greatest : ∀ r' ≤ row, r' < f.size → f.isVisible r' → r' ≤ r

theorem position?_eq_some :
    f.position? row = some k ↔ ∃ r, f.Nearest row r ∧ f.visibleAbove r = k := by
  rw [position?, List.take_range, Option.map_eq_some_iff]
  apply exists_congr
  intro r
  rw [getLast?_filter_range]
  refine and_congr_left fun _ => ?_
  constructor
  · rintro ⟨hr, hv, hmax⟩
    exact ⟨by omega, hv, by omega, fun r' hle hlt => hmax r' (by omega)⟩
  · intro h
    have := h.lt_size
    have := h.le
    exact ⟨by omega, h.isVisible, fun r' hr' => h.greatest r' (by omega) (by omega)⟩

theorem nearest_self (hr : row < f.size) (hv : f.isVisible row) : f.Nearest row row :=
  ⟨hr, hv, Nat.le_refl _, fun _ hle _ _ => hle⟩

theorem exists_nearest (hs : 0 < f.size) (h0 : f.isVisible 0) (row : Nat) :
    ∃ r, f.Nearest row r := by
  induction row with
  | zero => exact ⟨0, nearest_self hs h0⟩
  | succ row ih =>
    by_cases hrow : row + 1 < f.size ∧ f.isVisible (row + 1)
    · exact ⟨row + 1, nearest_self hrow.1 hrow.2⟩
    · obtain ⟨r, hr⟩ := ih
      refine ⟨r, hr.lt_size, hr.isVisible, Nat.le_succ_of_le hr.le, fun r' hle hlt hv => ?_⟩
      refine hr.greatest r' (Nat.le_of_lt_succ (Nat.lt_of_le_of_ne hle ?_)) hlt hv
      rintro rfl
      exact hrow ⟨hlt, hv⟩

theorem hiddenCount_add_visibleAbove (f : Folding) :
    f.hiddenCount + f.visibleAbove f.size = f.size := by
  have hcount := List.length_eq_countP_add_countP (l := List.range f.size) f.isVisible
  rw [List.length_range] at hcount
  rw [hiddenCount_eq, visibleAbove, Nat.add_comm]
  exact hcount.symm

/-- The first row is never hidden, since simple nodes have a child above. -/
theorem Hides.isVisible_zero (hg : g.Sound) (hf : f.Hides g marked) : f.isVisible 0 := by
  by_contra hv
  obtain ⟨c, hc, -, hrow⟩ := (hf.hidden_iff 0).mp (by simpa using hv)
  obtain ⟨n, hn, hzero⟩ := List.mem_map.mp hrow
  obtain ⟨m, e, d, -, -, hd, rfl⟩ := hg.up_of_simple (hc.simple n hn)
  exact Nat.not_lt_zero _ (hzero ▸ hg.row_lt_row hd)

end Folding

theorem RowSpan.first_all (rows : Nat) : (RowSpan.all rows).first = 0 := Nat.zero_min _

theorem Drawing.position?_eq_none {d : Drawing} {row : Nat} (hrow : row ∉ d.rows.map (·.row)) :
    d.position? row = none := by
  rw [Drawing.position?, List.findIdx?_eq_none_iff]
  intro r hr
  refine decide_eq_false fun heq => hrow ?_
  exact List.mem_map.mpr ⟨r, hr, heq⟩

namespace Viewer

/-- What a viewer says about places is true of its drawing. The place for any row is that of the
lowest visible row down to it. -/
structure Scrolls (v : Viewer) (d : Drawing) : Prop where
  rows_eq : d.rows.map (·.row) = v.graph.visibleRows v.folding
  visibleCount_eq : v.visibleCount = d.size
  position?_eq_none : ∀ row, v.position? row = none ↔ v.graph.rows.size = 0
  position?_eq_some : ∀ row p, v.position? row = some p →
    ∃ r, d.rows[p]? = some r ∧ r.row ≤ row ∧
      ∀ row' ∈ v.graph.visibleRows v.folding, row' ≤ row → row' ≤ r.row
  position?_of_visible : ∀ row ∈ v.graph.visibleRows v.folding, d.position? row = v.position? row
  position?_of_hidden : ∀ row ∉ v.graph.visibleRows v.folding, d.position? row = none

/-- The place to scroll to for a row shows the row itself. -/
def ScrollsTo (v : Viewer) (row : Nat) : Prop :=
  ∃ d p r, v.draw = .ok d ∧ v.position? row = some p ∧ d.rows[p]? = some r ∧ r.row = row

variable {v : Viewer} {m : MarkedGraph} {d : Drawing} {row : Nat}

theorem Matches.mem_visibleRows (h : v.Matches m) :
    row ∈ v.graph.visibleRows v.folding ↔ row < v.folding.size ∧ v.folding.isVisible row := by
  rw [Graph.mem_visibleRows, h.hides.size_eq]

theorem Matches.position?_of_visible (h : v.Matches m)
    (hrow : row ∈ v.graph.visibleRows v.folding) :
    v.position? row = some (v.folding.visibleAbove row) := by
  obtain ⟨hlt, hv⟩ := h.mem_visibleRows.mp hrow
  exact Folding.position?_eq_some.mpr ⟨row, Folding.nearest_self hlt hv, rfl⟩

theorem Matches.exists_row (h : v.Matches m) (hd : v.draw = .ok d)
    (hrow : row ∈ v.graph.visibleRows v.folding) :
    ∃ r, d.rows[v.folding.visibleAbove row]? = some r ∧ r.row = row := by
  obtain ⟨hlt, hv⟩ := Graph.mem_visibleRows.mp hrow
  have hplace := Graph.getElem?_visibleRows hlt hv
  rwa [← h.sound.map_row_draw hd, List.getElem?_map, Option.map_eq_some_iff] at hplace

theorem Matches.visibleCount_eq (h : v.Matches m) (hd : v.draw = .ok d) :
    v.visibleCount = d.size := by
  have hrows := congrArg List.length (h.sound.map_row_draw hd)
  have hcount := v.folding.hiddenCount_add_visibleAbove
  rw [List.length_map, Graph.length_visibleRows, ← h.hides.size_eq] at hrows
  rw [visibleCount, Drawing.size]
  omega

theorem Matches.position?_eq_none (h : v.Matches m) (row : Nat) :
    v.position? row = none ↔ v.graph.rows.size = 0 := by
  constructor
  · intro hnone
    by_contra hrows
    have hsize : 0 < v.folding.size := h.hides.size_eq ▸ Nat.pos_of_ne_zero hrows
    obtain ⟨r, hr⟩ := Folding.exists_nearest hsize (h.hides.isVisible_zero h.sound) row
    have hsome := Folding.position?_eq_some.mpr ⟨r, hr, rfl⟩
    cases hnone.symm.trans hsome
  · intro hrows
    rw [Option.eq_none_iff_forall_ne_some]
    intro p hp
    obtain ⟨r, hr, -⟩ := Folding.position?_eq_some.mp hp
    have := hr.lt_size
    rw [h.hides.size_eq] at this
    omega

theorem Matches.scrolls (h : v.Matches m) (hd : v.draw = .ok d) : v.Scrolls d where
  rows_eq := h.sound.map_row_draw hd
  visibleCount_eq := h.visibleCount_eq hd
  position?_eq_none := h.position?_eq_none
  position?_eq_some row p hp := by
    obtain ⟨r, hr, rfl⟩ := Folding.position?_eq_some.mp hp
    obtain ⟨x, hx, rfl⟩ := h.exists_row hd (h.mem_visibleRows.mpr ⟨hr.lt_size, hr.isVisible⟩)
    refine ⟨x, hx, hr.le, fun row' hrow' hle => ?_⟩
    obtain ⟨hlt, hv⟩ := h.mem_visibleRows.mp hrow'
    exact hr.greatest row' hle hlt hv
  position?_of_visible row hrow := by
    obtain ⟨hlt, hv⟩ := Graph.mem_visibleRows.mp hrow
    rw [h.position?_of_visible hrow]
    exact h.sound.position?_eq hd (Graph.getElem?_visibleRows hlt hv)
  position?_of_hidden row hrow := Drawing.position?_eq_none (h.sound.map_row_draw hd ▸ hrow)

theorem Matches.scrollsTo (h : v.Matches m) (hrow : row ∈ v.graph.visibleRows v.folding) :
    v.ScrollsTo row := by
  obtain ⟨d, hd, -⟩ := h.exists_draw
  obtain ⟨r, hr, heq⟩ := h.exists_row hd hrow
  exact ⟨d, _, r, hd, h.position?_of_visible hrow, hr, heq⟩

theorem Matches.scrollsTo_flipAt (h : v.Matches m) {el : Element} {s : RowSpan}
    (hs : (v.flipAt el).1 = .ok (some s)) : (v.flipAt el).2.ScrollsTo s.first := by
  obtain ⟨c, hc, rfl, -⟩ := h.exists_chain hs
  have hgraph : (v.flipAt el).2.graph = v.graph := by rw [h.flipAt_snd]
  have hflip := h.flipAt el
  have hupper := Array.getElem?_eq_getElem (hc.ends_lt h.sound).1
  apply hflip.scrollsTo
  rw [Graph.mem_visibleRows, hc.first_span h.sound, hgraph]
  refine ⟨h.sound.rowOf_lt_size hupper, ?_⟩
  have hends := hflip.hides.isNodeVisible_ends hflip.sound (hgraph.symm ▸ hc)
  rw [Folding.isNodeVisible, hgraph] at hends
  exact hends.1

theorem Matches.scrollsTo_zero (h : v.Matches m) (hrows : v.graph.rows.size ≠ 0) :
    v.ScrollsTo 0 :=
  h.scrollsTo (Graph.mem_visibleRows.mpr
    ⟨Nat.pos_of_ne_zero hrows, h.hides.isVisible_zero h.sound⟩)

theorem Matches.graph_unfoldAll (h : v.Matches m) : v.unfoldAll.2.graph = v.graph := by
  rw [unfoldAll, h.checkFolding]

theorem Matches.graph_foldAll (h : v.Matches m) : v.foldAll.2.graph = v.graph := by
  rw [foldAll, h.checkFolding]

/-- After any requests the places to scroll to are those of the drawing. What a flip answers with
begins at a row that is shown after the flip, and so does what folding or unfolding everything
answers with, if there are rows at all. -/
theorem positions_of_run (o : DrawOptions) (rs : List Request) :
    let v := (Viewer.empty o).run rs
    (∃ d, v.draw = .ok d ∧ v.Scrolls d) ∧
      (∀ el s, (v.flipAt el).1 = .ok (some s) → (v.flipAt el).2.ScrollsTo s.first) ∧
      (v.graph.rows.size ≠ 0 → ∀ s, v.unfoldAll.1 = .ok s → v.unfoldAll.2.ScrollsTo s.first) ∧
      (v.graph.rows.size ≠ 0 → ∀ s, v.foldAll.1 = .ok s → v.foldAll.2.ScrollsTo s.first) := by
  intro v
  have h : v.Matches (MarkedGraph.empty.run rs) := (matches_empty o).run rs
  obtain ⟨d, hd, -⟩ := h.exists_draw
  refine ⟨⟨d, hd, h.scrolls hd⟩, fun el s hs => h.scrollsTo_flipAt hs, fun hrows s hs => ?_,
    fun hrows s hs => ?_⟩
  · cases hs.symm.trans h.answers.unfoldAll
    rw [RowSpan.first_all]
    exact (h.after .unfoldAll).scrollsTo_zero (h.graph_unfoldAll ▸ hrows)
  · cases hs.symm.trans h.answers.foldAll
    rw [RowSpan.first_all]
    exact (h.after .foldAll).scrollsTo_zero (h.graph_foldAll ▸ hrows)

/-- The chain of the third commit is folded away. Its row leads to that of the second commit. -/
theorem positions_of_run_chain :
    let v := (Viewer.empty .standard).run
      [.load [⟨9, [], 0⟩, ⟨3, [2], 0⟩, ⟨2, [1], 0⟩, ⟨1, [], 0⟩] []]
    let w := (v.flipAt (.node 2)).2
    (v.flipAt (.node 2)).1 = .ok (some (.between 1 3)) ∧ w.ScrollsTo 1 ∧
      [0, 1, 2, 3, 4].map w.position? = [some 0, some 1, some 1, some 2, some 2] := by
  intro v w
  have hs : (v.flipAt (.node 2)).1 = .ok (some (.between 1 3)) := rfl
  have hscroll := (positions_of_run .standard
    [.load [⟨9, [], 0⟩, ⟨3, [2], 0⟩, ⟨2, [1], 0⟩, ⟨1, [], 0⟩] []]).2.1 (.node 2) (.between 1 3) hs
  exact ⟨hs, hscroll, by decide +kernel⟩

end Viewer

end CommitGraph
