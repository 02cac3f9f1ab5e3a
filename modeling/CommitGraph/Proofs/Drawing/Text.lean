import CommitGraph.Drawing.Render
import CommitGraph.Proofs.Drawing.Cells

namespace CommitGraph

/-- No cell of a drawing lies outside its row. -/
def Drawing.IsInside (d : Drawing) : Prop := ∀ r ∈ d.rows, ∀ c ∈ r.cells, c.column < r.width

def DrawnRow.IsFlush (r : DrawnRow) : Prop :=
  r.cells.map (·.column) = List.range r.cells.length

theorem DrawnRow.IsFlush.column_lt {r : DrawnRow} (h : r.IsFlush) {c : Cell} (hc : c ∈ r.cells) :
    c.column < r.width := by
  have hmem : c.column ∈ r.cells.map (·.column) := List.mem_map_of_mem hc
  rwa [h, List.mem_range] at hmem

theorem DrawnRow.line?_of_inside {r : DrawnRow} (h : ∀ c ∈ r.cells, c.column < r.width)
    (g : Glyphs) (width : Nat) :
    r.line? g width = some (r.cells.foldl
      (fun line c => line.set (2 * c.column) (c.mark g)) (r.blankLine width)) := by
  have hall : r.cells.all fun c => c.column < max width r.width := by
    rw [List.all_eq_true]
    intro c hc
    exact decide_eq_true (Nat.lt_of_lt_of_le (h c hc) (Nat.le_max_right _ _))
  exact if_pos hall

namespace Drawing

variable {d : Drawing}

theorem IsInside.exists_lines (h : d.IsInside) (s : Style) (label : DrawnRow → String) :
    ∃ ls, d.lines s label = some ls := by
  have hrows : ∀ r ∈ d.rows, ∃ ls, rowLines s d.width (label r) r = some ls := by
    intro r hr
    exact ⟨_, by rw [rowLines, DrawnRow.line?_of_inside (h r hr), Option.map_some]⟩
  obtain ⟨lss, hlss⟩ := exists_mapM hrows
  exact ⟨lss.flatten, by rw [lines, hlss, Option.map_some]⟩

theorem IsInside.exists_render (h : d.IsInside) (s : Style) (label : DrawnRow → String) :
    ∃ text, d.render s label = some text := by
  obtain ⟨ls, hls⟩ := h.exists_lines s label
  exact ⟨_, by rw [render, hls, Option.map_some]⟩

end Drawing

namespace Plan

variable {p : Plan} {f : Folding} {d : Drawing}

theorem Follows.isFlush (hp : p.Follows f) (hg : p.graph.Sound)
    (hd : p.draw (p.graph.visibleRows f) = .ok d) {r : DrawnRow} (hr : r ∈ d.rows) :
    r.IsFlush := by
  have hlevel := hp.levelled hg
  obtain ⟨i, hi⟩ := List.mem_iff_getElem?.mp hr
  rw [hlevel.getElem?_draw hg hd, Option.map_eq_some_iff] at hi
  obtain ⟨row, hrow, rfl⟩ := hi
  have hf := hlevel.fills hg hrow
  exact map_column_cells (List.Nodup.of_map _ (hf.nodup_shown hp hg))
    (fun _ hn => hf.exists_node hg hn) i

theorem Follows.isInside (hp : p.Follows f) (hg : p.graph.Sound)
    (hd : p.draw (p.graph.visibleRows f) = .ok d) : d.IsInside :=
  fun _ hr _ hc => (hp.isFlush hg hd hr).column_lt hc

end Plan

end CommitGraph
