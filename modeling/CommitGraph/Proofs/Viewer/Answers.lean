import CommitGraph.Proofs.Drawing.Text
import CommitGraph.Proofs.Drawing.Ways
import CommitGraph.Proofs.Viewer.Marks
import CommitGraph.Report

namespace CommitGraph

namespace Graph

/-- Every number in a graph names something that is there, and edges lead to lower rows. -/
structure Closed (g : Graph) : Prop where
  down_lt : ∀ {n : NodeId} {m : Node}, g.nodes[n]? = some m → ∀ e ∈ m.down, e < g.edges.size
  up_lt : ∀ {n : NodeId} {m : Node}, g.nodes[n]? = some m → ∀ e ∈ m.up, e < g.edges.size
  row_lt : ∀ {n : NodeId} {m : Node}, g.nodes[n]? = some m → m.row < g.rows.size
  ends_lt : ∀ {e : EdgeId} {d : Edge}, g.edges[e]? = some d →
    d.upper < g.nodes.size ∧ d.lower < g.nodes.size ∧ g.rowOf d.upper < g.rowOf d.lower
  mem_row_lt : ∀ r, ∀ n ∈ g.nodesInRow r, n < g.nodes.size

variable {g : Graph} {n : NodeId} {m : Node}

theorem Sound.closed (hg : g.Sound) : g.Closed where
  down_lt hm e he := by
    obtain ⟨d, hd, -⟩ := (hg.mem_down hm).mp he
    exact (Array.getElem?_eq_some_iff.mp hd).1
  up_lt hm e he := by
    obtain ⟨d, hd, -⟩ := (hg.mem_up hm).mp he
    exact (Array.getElem?_eq_some_iff.mp hd).1
  row_lt hm := rowOf_eq hm ▸ hg.rowOf_lt_size hm
  ends_lt hd := ⟨hg.upper_lt hd, hg.lower_lt hd, hg.row_lt_row hd⟩
  mem_row_lt r n hn := by
    obtain ⟨m, hm, -⟩ := hg.mem_nodesInRow.mp hn
    exact (Array.getElem?_eq_some_iff.mp hm).1

theorem requireNode_eq_ok (hm : g.nodes[n]? = some m) : g.requireNode n = .ok m := by
  rw [requireNode, hm]

end Graph

namespace Viewer

/-- What a viewer owes its caller: the folding belongs to the graph and hides no node where edges
fork or end, requests about the graph are answered, and the graph is drawn and printed. -/
structure Answers (v : Viewer) : Prop where
  size_eq : v.folding.size = v.graph.rows.size
  closed : v.graph.Closed
  down_of_hidden : ∀ n m, v.graph.nodes[n]? = some m →
    v.folding.isNodeVisible v.graph n = false → m.down.length = 1
  flipAt : ∀ el, v.graph.hasElement el →
    (v.flipAt el).1 = .ok ((v.graph.chainAt? el).map (·.span v.graph))
  unfoldAll : v.unfoldAll.1 = .ok (.all v.graph.rows.size)
  foldAll : v.foldAll.1 = .ok (.all v.graph.rows.size)
  selectBranch : ∀ n m, v.graph.nodes[n]? = some m →
    (v.selectBranch n).1 = .ok (v.graph.nodesOfBranch m.branch).length
  draw : ∃ d, v.draw = .ok d ∧ ∀ s label, ∃ text, d.render s label = some text

variable {v : Viewer} {m : MarkedGraph}

theorem chainRows_eq_ok {c : Chain} (hu : c.upper < v.graph.nodes.size)
    (hl : c.lower < v.graph.nodes.size) :
    v.chainRows c = .ok (v.graph.rowOf c.upper, v.graph.rowOf c.lower) := by
  have hupper := Array.getElem?_eq_getElem hu
  have hlower := Array.getElem?_eq_getElem hl
  rw [chainRows, Graph.requireNode_eq_ok hupper, Graph.requireNode_eq_ok hlower,
    Graph.rowOf_eq hupper, Graph.rowOf_eq hlower]
  rfl

theorem Matches.flip_fst (h : v.Matches m) {c : Chain} (hc : v.graph.IsChain c) :
    (v.flip c).1 = .ok (c.span v.graph) := by
  obtain ⟨hu, hl⟩ := hc.ends_lt h.sound
  have hinner : c.inner.forM (fun n => (v.graph.requireNode n).map fun _ => ()) = .ok () := by
    apply forM_eq_ok.mpr
    intro n hn
    obtain ⟨k, hk, -⟩ := Graph.isSimple_iff.mp (hc.simple n hn)
    rw [Graph.requireNode_eq_ok hk]
    rfl
  simp only [flip, h.checkFolding, hinner, chainRows_eq_ok hu hl]
  rfl

theorem Matches.flipAt_fst (h : v.Matches m) {el : Element} (hel : v.graph.hasElement el) :
    (v.flipAt el).1 = .ok ((v.graph.chainAt? el).map (·.span v.graph)) := by
  rw [Viewer.flipAt, h.chainAt?_eq hel]
  cases hc : v.graph.chainAt? el with
  | none => rfl
  | some c =>
    simp only [h.flip_fst (h.sound.isChain_of_chainAt? hc)]
    rfl

theorem Matches.selectBranch_fst (h : v.Matches m) {n : NodeId} {k : Node}
    (hk : v.graph.nodes[n]? = some k) :
    (v.selectBranch n).1 = .ok (v.graph.nodesOfBranch k.branch).length := by
  have hnodes : v.branchNodes n = .ok (v.graph.nodesOfBranch k.branch) := by
    rw [branchNodes, h.checkFolding, Graph.requireNode_eq_ok hk]
    rfl
  rw [Viewer.selectBranch, hnodes]

/-- Where chains are hidden as wholes, the drawing is made and every cell has a place in its line. -/
theorem Matches.exists_draw (h : v.Matches m) :
    ∃ d, v.draw = .ok d ∧ ∀ s label, ∃ text, d.render s label = some text := by
  obtain ⟨p, hgraph, -, -, hp, d, hd, hplan⟩ := h.hides.exists_plan h.sound v.options v.selection
  rw [← hgraph] at hplan
  exact ⟨d, hd, (hp.isInside (hgraph ▸ h.sound) hplan).exists_render⟩

theorem Matches.length_down_of_hidden (h : v.Matches m) {n : NodeId} {k : Node}
    (hk : v.graph.nodes[n]? = some k) (hv : v.folding.isNodeVisible v.graph n = false) :
    k.down.length = 1 := by
  obtain ⟨k', hk', -, hdown⟩ := Graph.isSimple_iff.mp (h.hides.isSimple h.sound hk hv)
  cases hk.symm.trans hk'
  exact hdown

/-- The answers of a viewer come from its matching some marks, so they outlast every request. -/
theorem Matches.answers (h : v.Matches m) : v.Answers where
  size_eq := h.hides.size_eq
  closed := h.sound.closed
  down_of_hidden _ _ hk hv := h.length_down_of_hidden hk hv
  flipAt _ hel := h.flipAt_fst hel
  unfoldAll := by
    rw [Viewer.unfoldAll, h.checkFolding]
    rfl
  foldAll := by
    rw [Viewer.foldAll, h.checkFolding]
    rfl
  selectBranch _ _ hk := h.selectBranch_fst hk
  draw := h.exists_draw

end Viewer

namespace History

variable {h : History} {s : Settings} {f : DisplayFlags} {g : Graph}

/-- The requests by which a history comes on display. -/
def requests (h : History) (s : Settings) (f : DisplayFlags) : List Request :=
  .load h.commits h.references :: if f.fold || s.foldOnLoad then [.foldAll] else []

/-- A history that can be drawn is on display after some requests, so what holds after any requests
holds for it. -/
theorem display_eq_run (hb : Graph.build h.commits h.references = .ok g) :
    ∃ o, h.display s f = .ok ((Viewer.empty o).run (h.requests s f)) := by
  refine ⟨{ s.drawing with longEdgesInFull := s.drawing.longEdgesInFull || f.longEdges }, ?_⟩
  simp only [display, Viewer.load, hb, Except.map, requests, Viewer.run, List.foldl_cons,
    Viewer.after]
  split <;> rfl

theorem display_eq_error {e : BuildError}
    (hb : Graph.build h.commits h.references = .error e) : h.display s f = .error e := by
  simp only [display, Viewer.load, hb, Except.map]

theorem drawing_eq_error {e : BuildError}
    (hb : Graph.build h.commits h.references = .error e) : h.drawing s f = .error (.build e) := by
  rw [drawing, display_eq_error hb]
  rfl

theorem exists_drawing (hb : Graph.build h.commits h.references = .ok g) :
    ∃ text, h.drawing s f = .ok text := by
  obtain ⟨o, hdisplay⟩ := display_eq_run (s := s) (f := f) hb
  obtain ⟨d, hd, hrender⟩ := ((Viewer.matches_empty o).run (h.requests s f)).exists_draw
  obtain ⟨text, htext⟩ := hrender (style s f) fun r =>
    ((Viewer.empty o).run (h.requests s f)).graph.label h .terminal s.labelWidth r.row
  refine ⟨text, ?_⟩
  rw [drawing, hdisplay]
  simp only [Except.mapError, bind, Except.bind, hd, htext]
  rfl

end History

namespace Viewer

/-- After any requests every question about the graph is answered, and the graph is drawn and
printed. So a history can be printed unless its graph cannot be built. -/
theorem answers_of_run :
    (∀ (o : DrawOptions) (rs : List Request), ((Viewer.empty o).run rs).Answers) ∧
      ∀ (h : History) (s : Settings) (f : DisplayFlags) (e : ReportError),
        h.drawing s f = .error e ↔
          ∃ b, Graph.build h.commits h.references = .error b ∧ e = .build b := by
  refine ⟨fun o rs => ((matches_empty o).run rs).answers, fun h s f e => ?_⟩
  cases hb : Graph.build h.commits h.references with
  | error b =>
    rw [History.drawing_eq_error hb]
    simp [eq_comm]
  | ok g =>
    obtain ⟨text, htext⟩ := History.exists_drawing (s := s) (f := f) hb
    simp [htext]

end Viewer

end CommitGraph
