import CommitGraph.Proofs.Folding.Marks
import CommitGraph.Viewer
import Mathlib.Data.List.TakeWhile

namespace CommitGraph

/-- What a viewer can be asked. -/
inductive Request where
  | load (commits : List Commit) (references : List Reference)
  | flipAt (el : Element)
  | unfoldAll
  | foldAll
  | select (el : Element)
  | selectBranch (n : NodeId)
  | clearSelection
  | showLongEdges (inFull : Bool)
  | draw

/-- The viewer after a request, also after one that fails. -/
def Viewer.after (v : Viewer) : Request → Viewer
  | .load commits references =>
    match v.load commits references with
    | .ok w => w
    | .error _ => v
  | .flipAt el => (v.flipAt el).2
  | .unfoldAll => v.unfoldAll.2
  | .foldAll => v.foldAll.2
  | .select el => v.select [el]
  | .selectBranch n => (v.selectBranch n).2
  | .clearSelection => v.clearSelection
  | .showLongEdges inFull => v.showLongEdges inFull
  | .draw => v

def Viewer.run (v : Viewer) (rs : List Request) : Viewer := rs.foldl Viewer.after v

/-- A graph with a mark for each chain, set where the chain is folded. -/
@[ext]
structure MarkedGraph where
  graph : Graph
  marked : Chain → Bool

namespace MarkedGraph

def empty : MarkedGraph := ⟨.empty, fun _ => false⟩

def after (m : MarkedGraph) : Request → MarkedGraph
  | .load commits references =>
    match Graph.build commits references with
    | .ok g => ⟨g, fun _ => false⟩
    | .error _ => m
  | .flipAt el =>
    match m.graph.chainAt? el with
    | some c => { m with marked := Function.update m.marked c !m.marked c }
    | none => m
  | .unfoldAll => { m with marked := fun _ => false }
  | .foldAll => { m with marked := fun _ => true }
  | _ => m

def run (m : MarkedGraph) (rs : List Request) : MarkedGraph := rs.foldl after m

end MarkedGraph

namespace Viewer

variable {v w : Viewer} {m : MarkedGraph} {el el' : Element}

structure Matches (v : Viewer) (m : MarkedGraph) : Prop where
  graph_eq : v.graph = m.graph
  sound : v.graph.Sound
  hides : v.folding.Hides v.graph m.marked

theorem matches_empty (o : DrawOptions) : (Viewer.empty o).Matches .empty where
  graph_eq := rfl
  sound := (Graph.depicts_of_build (show Graph.build [] [] = .ok .empty from rfl)).toSound
  hides := Folding.hides_unfolded .empty

theorem Matches.checkFolding (h : v.Matches m) : v.checkFolding = .ok () := by
  rw [Viewer.checkFolding, if_pos h.hides.size_eq]

theorem chainAt?_eq_none {g : Graph} (hel : g.hasElement el = false) : g.chainAt? el = none := by
  cases el with
  | node n =>
    have hn : g.nodes[n]? = none := by simpa [Graph.hasElement] using hel
    simp [Graph.chainAt?, Graph.isSimple, hn]
  | edge e =>
    have he : g.edges[e]? = none := by simpa [Graph.hasElement] using hel
    simp [Graph.chainAt?, he]

theorem requireElement_isOk {g : Graph} (hel : g.hasElement el) : g.requireElement el = .ok () := by
  cases el with
  | node n =>
    have hn : n < g.nodes.size := by simpa [Graph.hasElement] using hel
    simp [Graph.requireElement, Graph.requireNode, Array.getElem?_eq_getElem hn, Except.map]
  | edge e =>
    have he : e < g.edges.size := by simpa [Graph.hasElement] using hel
    simp [Graph.requireElement, Graph.requireEdge, Array.getElem?_eq_getElem he, Except.map]

theorem requireElement_isError {g : Graph} (hel : g.hasElement el = false) :
    ∃ e, g.requireElement el = .error e := by
  cases el with
  | node n =>
    have hn : g.nodes[n]? = none := by simpa [Graph.hasElement] using hel
    exact ⟨.noNode n, by simp [Graph.requireElement, Graph.requireNode, hn, Except.map]⟩
  | edge e =>
    have he : g.edges[e]? = none := by simpa [Graph.hasElement] using hel
    exact ⟨.noEdge e, by simp [Graph.requireElement, Graph.requireEdge, he, Except.map]⟩

theorem knownPart_eq {c : Chain} (hc : v.graph.IsChain c) : v.knownPart c = c := by
  have hall : c.inner.takeWhile (· < v.graph.nodes.size) = c.inner := by
    rw [List.takeWhile_eq_self_iff]
    intro n hn
    simpa using Graph.lt_size_of_isSimple (hc.simple n hn)
  rw [knownPart, hall]

theorem Matches.chainAt?_eq (h : v.Matches m) (hel : v.graph.hasElement el) :
    v.chainAt? el = .ok (v.graph.chainAt? el) := by
  rw [Viewer.chainAt?, h.checkFolding, requireElement_isOk hel]
  rfl

theorem Matches.chainAt?_isError (h : v.Matches m) (hel : v.graph.hasElement el = false) :
    ∃ e, v.chainAt? el = .error e := by
  obtain ⟨e, he⟩ := requireElement_isError hel
  refine ⟨e, ?_⟩
  rw [Viewer.chainAt?, h.checkFolding, he]
  rfl

theorem Matches.flipAt_snd (h : v.Matches m) (el : Element) :
    (v.flipAt el).2 =
      { v with folding := (v.graph.chainAt? el).elim v.folding (v.folding.flip v.graph) } := by
  by_cases hel : v.graph.hasElement el
  · rw [flipAt, h.chainAt?_eq hel]
    cases hc : v.graph.chainAt? el with
    | none => rfl
    | some c =>
      simp only [flip, h.checkFolding, knownPart_eq (h.sound.isChain_of_chainAt? hc)]
      rfl
  · -- An element that is not there is refused, and no chain is found at it either.
    have hel' : v.graph.hasElement el = false := by simpa using hel
    obtain ⟨e, hask⟩ := h.chainAt?_isError hel'
    rw [flipAt, hask, chainAt?_eq_none hel']
    rfl

theorem Matches.flipAt (h : v.Matches m) (el : Element) :
    (v.flipAt el).2.Matches (m.after (.flipAt el)) := by
  rw [h.flipAt_snd, MarkedGraph.after, ← h.graph_eq]
  cases hc : v.graph.chainAt? el with
  | none => exact h
  | some c =>
    have hchain := h.sound.isChain_of_chainAt? hc
    exact ⟨rfl, h.sound, h.hides.flip h.sound hchain⟩

theorem Matches.load (h : v.Matches m) (commits : List Commit) (references : List Reference) :
    (v.after (.load commits references)).Matches (m.after (.load commits references)) := by
  cases hb : Graph.build commits references with
  | error e => simpa [after, Viewer.load, MarkedGraph.after, hb, Except.map] using h
  | ok g =>
    simp only [after, Viewer.load, MarkedGraph.after, hb, Except.map, display]
    exact ⟨rfl, (Graph.depicts_of_build hb).toSound, Folding.hides_unfolded g⟩

/-- One request keeps the viewer and the marks together. -/
theorem Matches.after (h : v.Matches m) (r : Request) : (v.after r).Matches (m.after r) := by
  -- Only flips and requests for all chains change what is folded.
  cases r with
  | load commits references => exact h.load commits references
  | flipAt el => exact h.flipAt el
  | unfoldAll =>
    simp only [Viewer.after, unfoldAll, h.checkFolding]
    exact ⟨h.graph_eq, h.sound, h.hides.unfolded⟩
  | foldAll =>
    simp only [Viewer.after, foldAll, h.checkFolding]
    exact ⟨h.graph_eq, h.sound, h.hides.foldAll h.sound⟩
  | selectBranch n =>
    simp only [Viewer.after, selectBranch]
    split
    · exact h
    · exact ⟨h.graph_eq, h.sound, h.hides⟩
  | select el => exact ⟨h.graph_eq, h.sound, h.hides⟩
  | clearSelection => exact ⟨h.graph_eq, h.sound, h.hides⟩
  | showLongEdges inFull => exact ⟨h.graph_eq, h.sound, h.hides⟩
  | draw => exact h

theorem Matches.run (h : v.Matches m) (rs : List Request) : (v.run rs).Matches (m.run rs) := by
  induction rs generalizing v m with
  | nil => exact h
  | cons r rs ih => exact ih (h.after r)

/-- Viewers that match the same marks differ at most in selection and options. -/
theorem Matches.eq (h : v.Matches m) (h' : w.Matches m) (hs : v.selection = w.selection)
    (ho : v.options = w.options) : v = w := by
  have hg : v.graph = w.graph := h.graph_eq.trans h'.graph_eq.symm
  have hf : v.folding = w.folding := (hg ▸ h.hides).eq h'.hides
  cases v
  cases w
  simp_all

theorem Matches.selection_flipAt (h : v.Matches m) (el : Element) :
    (v.flipAt el).2.selection = v.selection := by
  rw [h.flipAt_snd]

theorem Matches.options_flipAt (h : v.Matches m) (el : Element) :
    (v.flipAt el).2.options = v.options := by
  rw [h.flipAt_snd]

end Viewer

namespace MarkedGraph

variable {m : MarkedGraph} {el el' : Element}

theorem graph_flipAt : (m.after (.flipAt el)).graph = m.graph := by
  rw [after]
  split <;> rfl

theorem marked_flipAt (m : MarkedGraph) (el : Element) (c : Chain) :
    (m.after (.flipAt el)).marked c =
      if m.graph.chainAt? el = some c then !m.marked c else m.marked c := by
  rw [after]
  split
  · next c' hc' =>
    by_cases hc : c = c'
    · subst hc
      simp [hc']
    · simp [hc', Function.update_of_ne hc, Ne.symm hc]
  · next hc' => simp [hc']

theorem flipAt_comm (m : MarkedGraph) (el el' : Element) :
    (m.after (.flipAt el)).after (.flipAt el') = (m.after (.flipAt el')).after (.flipAt el) := by
  refine MarkedGraph.ext (by simp only [graph_flipAt]) (funext fun c => ?_)
  simp only [marked_flipAt, graph_flipAt]
  split <;> split <;> rfl

theorem flipAt_cancel (he : m.graph.chainAt? el = m.graph.chainAt? el') :
    (m.after (.flipAt el)).after (.flipAt el') = m := by
  refine MarkedGraph.ext (by simp only [graph_flipAt]) (funext fun c => ?_)
  simp only [marked_flipAt, graph_flipAt, he]
  split
  · exact Bool.not_not _
  · rfl

end MarkedGraph

namespace Viewer

variable {v : Viewer} {m : MarkedGraph} {el el' : Element}

theorem Matches.flipAt_comm (h : v.Matches m) (el el' : Element) :
    ((v.flipAt el).2.flipAt el').2 = ((v.flipAt el').2.flipAt el).2 := by
  have hone := (h.flipAt el).flipAt el'
  rw [m.flipAt_comm el el'] at hone
  refine hone.eq ((h.flipAt el').flipAt el) ?_ ?_
  · rw [(h.flipAt el).selection_flipAt, (h.flipAt el').selection_flipAt, h.selection_flipAt,
      h.selection_flipAt]
  · rw [(h.flipAt el).options_flipAt, (h.flipAt el').options_flipAt, h.options_flipAt,
      h.options_flipAt]

theorem Matches.flipAt_cancel (h : v.Matches m)
    (he : v.graph.chainAt? el = v.graph.chainAt? el') :
    ((v.flipAt el).2.flipAt el').2 = v := by
  have htwo := (h.flipAt el).flipAt el'
  rw [MarkedGraph.flipAt_cancel (h.graph_eq ▸ he)] at htwo
  refine htwo.eq h ?_ ?_
  · rw [(h.flipAt el).selection_flipAt, h.selection_flipAt]
  · rw [(h.flipAt el).options_flipAt, h.options_flipAt]

/-- After any requests the hidden rows are those inside the marked chains, no chain is hidden in
part, flips at two elements commute, and two flips of one chain cancel. -/
theorem hidden_rows_of_run (o : DrawOptions) (rs : List Request) :
    let v := (Viewer.empty o).run rs
    let m := MarkedGraph.empty.run rs
    v.graph = m.graph ∧
      (∀ row, v.folding.isVisible row = false ↔
        ∃ c, m.graph.IsChain c ∧ m.marked c ∧ row ∈ c.inner.map m.graph.rowOf) ∧
      (∀ c, m.graph.IsChain c → ∀ n ∈ c.inner, v.folding.isNodeVisible m.graph n = !m.marked c) ∧
      (∀ el el', ((v.flipAt el).2.flipAt el').2 = ((v.flipAt el').2.flipAt el).2) ∧
      ∀ el el', v.graph.chainAt? el = v.graph.chainAt? el' →
        ((v.flipAt el).2.flipAt el').2 = v := by
  intro v m
  have h : v.Matches m := (matches_empty o).run rs
  have hides := h.graph_eq ▸ h.hides
  have sound := h.graph_eq ▸ h.sound
  refine ⟨h.graph_eq, hides.hidden_iff, fun c hc n hn => hides.isNodeVisible sound hc hn,
    h.flipAt_comm, fun el el' he => h.flipAt_cancel he⟩

end Viewer

end CommitGraph
