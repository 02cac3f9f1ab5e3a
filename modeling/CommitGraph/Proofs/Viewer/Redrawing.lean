import CommitGraph.Proofs.Drawing.Redrawing
import CommitGraph.Proofs.Viewer.Answers

namespace CommitGraph

namespace Viewer

variable {v : Viewer} {m : MarkedGraph} {el : Element} {s : RowSpan}

theorem Matches.exists_chain (h : v.Matches m) (hs : (v.flipAt el).1 = .ok (some s)) :
    ∃ c, v.graph.IsChain c ∧ s = c.span v.graph ∧ v.graph.chainAt? el = some c := by
  by_cases hel : v.graph.hasElement el
  · rw [h.flipAt_fst hel, Except.ok.injEq, Option.map_eq_some_iff] at hs
    obtain ⟨c, hc, rfl⟩ := hs
    exact ⟨c, h.sound.isChain_of_chainAt? hc, rfl, hc⟩
  · obtain ⟨e, hask⟩ := h.chainAt?_isError (by simpa using hel)
    rw [Viewer.flipAt, hask] at hs
    cases hs

/-- After any requests, a flip that answers with a span leaves a row outside the span the cells that
it has exactly if every edge that leads past the row is shortened before and after the flip, or
neither time. Such a row has the same links too, unless the first row of the span comes right below
it and shows different elements before and after. -/
theorem row_outside_flip (o o' : DrawOptions) (rs : List Request) (el : Element) (s : RowSpan)
    (hs : (((Viewer.empty o).run rs).flipAt el).1 = .ok (some s)) :
    let v := (Viewer.empty o).run rs
    let w := (v.flipAt el).2
    ∃ d d', v.graph.draw v.folding o' v.selection = .ok d ∧
      w.graph.draw w.folding o' w.selection = .ok d' ∧
      d.rows.map (·.row) = v.graph.visibleRows v.folding ∧
      d'.rows.map (·.row) = w.graph.visibleRows w.folding ∧
      ∀ r ∈ d.rows, ∀ r' ∈ d'.rows, r.row = r'.row → s.has r.row = false →
        (r.cells = r'.cells ↔ v.graph.ShortensAlike v.folding w.folding o' r.row) ∧
        (r.cells = r'.cells → r.links = r'.links ∨ d.ChangesBelow d' r.row s.first) := by
  intro v w
  have h : v.Matches (MarkedGraph.empty.run rs) := (matches_empty o).run rs
  -- The viewer hides the chains that are marked, and the flip changes one mark.
  obtain ⟨c, hc, rfl, hat⟩ := h.exists_chain hs
  have hw : w = { v with folding := v.folding.flip v.graph c } := by
    refine (h.flipAt_snd el).trans ?_
    rw [hat, Option.elim_some]
  obtain ⟨d, d', hd, hd', hrows, hrows', hsame⟩ :=
    (h.hides.apart_flip h.sound hc).redrawn h.sound o' v.selection
  rw [hw]
  refine ⟨d, d', hd, hd', hrows, hrows', fun r hr r' hr' hrow hout => ?_⟩
  rw [hc.first_span h.sound]
  exact hsame r hr r' hr' hrow ((hc.off_iff h.sound).mpr hout)

/-- The chain of the third commit leads from the second row to the fourth; an edge from the first
row to the last leads past it. -/
theorem row_outside_flip_crossed :
    let v := (Viewer.empty ⟨false, 4⟩).run
      [.load [⟨1, [6], 0⟩, ⟨2, [3], 0⟩, ⟨3, [4], 0⟩, ⟨4, [], 0⟩, ⟨5, [], 0⟩, ⟨6, [], 0⟩] []]
    let w := (v.flipAt (.node 3)).2
    (v.flipAt (.node 3)).1 = .ok (some (.between 1 3)) ∧
      ∃ d d', v.graph.draw v.folding ⟨false, 4⟩ v.selection = .ok d ∧
        w.graph.draw w.folding ⟨false, 4⟩ w.selection = .ok d' ∧
        d.rows.map (·.row) = v.graph.visibleRows v.folding ∧
        d'.rows.map (·.row) = w.graph.visibleRows w.folding ∧
        ∀ r ∈ d.rows, ∀ r' ∈ d'.rows, r.row = r'.row → (RowSpan.between 1 3).has r.row = false →
          (r.cells = r'.cells ↔ v.graph.ShortensAlike v.folding w.folding ⟨false, 4⟩ r.row) ∧
          (r.cells = r'.cells → r.links = r'.links ∨ d.ChangesBelow d' r.row 1) := by
  intro v w
  have hs : (v.flipAt (.node 3)).1 = .ok (some (.between 1 3)) := rfl
  exact ⟨hs, row_outside_flip ⟨false, 4⟩ ⟨false, 4⟩ _ (.node 3) (.between 1 3) hs⟩

/-- Rows outside the span can change. In the fifth row the edge of the first commit is a stub until
the chain is folded away, and then it is drawn in full. In the other graph it is shortened both
times, but its end comes up to the third row, where a link from the second one leads to it. -/
theorem row_outside_flip_changed :
    (let v := (Viewer.empty ⟨false, 4⟩).run
      [.load [⟨1, [6], 0⟩, ⟨2, [3], 0⟩, ⟨3, [4], 0⟩, ⟨4, [], 0⟩, ⟨5, [], 0⟩, ⟨6, [], 0⟩] []]
    let w := (v.flipAt (.node 3)).2
    ∃ s d d', (v.flipAt (.node 3)).1 = .ok (some s) ∧ v.draw = .ok d ∧ w.draw = .ok d' ∧
      ∃ r ∈ d.rows, ∃ r' ∈ d'.rows, r.row = r'.row ∧ s.has r.row = false ∧
        r.cells ≠ r'.cells) ∧
    let v := (Viewer.empty ⟨false, 2⟩).run
      [.load [⟨1, [5], 0⟩, ⟨2, [], 0⟩, ⟨3, [4], 0⟩, ⟨4, [6], 0⟩, ⟨5, [], 0⟩, ⟨6, [], 0⟩] []]
    let w := (v.flipAt (.node 4)).2
    ∃ s d d', (v.flipAt (.node 4)).1 = .ok (some s) ∧ v.draw = .ok d ∧ w.draw = .ok d' ∧
      ∃ r ∈ d.rows, ∃ r' ∈ d'.rows, r.row = r'.row ∧ s.has r.row = false ∧
        r.cells = r'.cells ∧ r.links ≠ r'.links := by
  constructor
  · exact ⟨_, _, _, rfl, rfl, rfl, by decide +kernel⟩
  · exact ⟨_, _, _, rfl, rfl, rfl, by decide +kernel⟩

end Viewer

end CommitGraph
