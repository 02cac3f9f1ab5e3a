import CommitGraph.Proofs.Drawing.DeadEnds
import CommitGraph.Proofs.Folding.Marks

namespace CommitGraph

/-- Ways to go along an edge. -/
inductive Direction where
  | up
  | down

namespace Direction

def edges : Direction → Node → List EdgeId
  | up, m => m.up
  | down, m => m.down

/-- The end of an edge that is met first. -/
def near : Direction → Edge → NodeId
  | up, d => d.lower
  | down, d => d.upper

/-- The end of an edge that it leads to. -/
def far : Direction → Edge → NodeId
  | up, d => d.upper
  | down, d => d.lower

/-- The second row is met after the first. -/
def Ahead : Direction → Nat → Nat → Prop
  | up, r, s => s < r
  | down, r, s => r < s

instance (δ : Direction) : Trans δ.Ahead δ.Ahead δ.Ahead where
  trans {_ _ _} h h' := match δ with
    | up => Nat.lt_trans h' h
    | down => Nat.lt_trans h h'

end Direction

namespace Graph

variable {g : Graph} {f : Folding} {δ : Direction} {a b n : NodeId} {m : Node}
  {passed : List NodeId} {e : EdgeId} {d : Edge} {next : NodeId → Option NodeId}

/-- The only edge that leads on from one node leads to the other. -/
def OnlyEdge (g : Graph) (δ : Direction) (a b : NodeId) : Prop :=
  ∃ m e d, g.nodes[a]? = some m ∧ δ.edges m = [e] ∧ g.edges[e]? = some d ∧ δ.near d = a ∧
    δ.far d = b

/-- A walk that ends at a node of the graph, goes on by only edges and meets the rows in the order
of its direction. -/
structure Course (g : Graph) (δ : Direction) (next : NodeId → Option NodeId) (a : NodeId)
    (passed : List NodeId) (b : NodeId) : Prop where
  walk : Walk next a passed b
  last_lt : b < g.nodes.size
  joined : (passed ++ [b]).IsChain (g.OnlyEdge δ)
  rows : ((passed ++ [b]).map g.rowOf).Pairwise δ.Ahead

theorem Sound.ahead_of_onlyEdge (hg : g.Sound) (h : g.OnlyEdge δ a b) :
    δ.Ahead (g.rowOf a) (g.rowOf b) := by
  obtain ⟨m, e, d, -, -, hd, rfl, rfl⟩ := h
  cases δ with
  | up => exact hg.row_lt_row hd
  | down => exact hg.row_lt_row hd

theorem Sound.lt_size_of_onlyEdge (hg : g.Sound) (h : g.OnlyEdge δ a b) : b < g.nodes.size := by
  obtain ⟨m, e, d, -, -, hd, -, rfl⟩ := h
  cases δ with
  | up => exact hg.upper_lt hd
  | down => exact hg.lower_lt hd

theorem Sound.course_of_walk (hg : g.Sound)
    (honly : ∀ x y, next x = some y → g.OnlyEdge δ x y) (ha : a < g.nodes.size)
    (hw : Walk next a passed b) : g.Course δ next a passed b where
  walk := hw
  last_lt := hw.induct_last (P := (· < g.nodes.size))
    (fun x y hs => hg.lt_size_of_onlyEdge (honly x y hs)) ha
  joined := hw.isChain honly
  rows := by
    have hrows := hw.isChain fun x y hs => hg.ahead_of_onlyEdge (honly x y hs)
    exact ((List.isChain_map g.rowOf).mpr hrows).pairwise

theorem Sound.mem_edges (hg : g.Sound) (hm : g.nodes[n]? = some m) :
    e ∈ δ.edges m ↔ ∃ d, g.edges[e]? = some d ∧ δ.near d = n := by
  cases δ with
  | up => exact hg.mem_up hm
  | down => exact hg.mem_down hm

theorem Sound.onlyEdge_of_simple (hg : g.Sound) (ha : g.isSimple a) (hd : g.edges[e]? = some d)
    (hnear : δ.near d = a) : g.OnlyEdge δ a (δ.far d) := by
  obtain ⟨m, hm, hup, hdown⟩ := isSimple_iff.mp ha
  have hlen : (δ.edges m).length = 1 := by
    cases δ with
    | up => exact hup
    | down => exact hdown
  obtain ⟨e', he'⟩ := List.length_eq_one_iff.mp hlen
  have he := (hg.mem_edges hm).mpr ⟨d, hd, hnear⟩
  rw [he', List.mem_singleton] at he
  exact ⟨m, e, d, hm, he ▸ he', hd, hnear, rfl⟩

theorem Sound.onlyEdge_of_stepUp (hg : g.Sound) (hs : g.stepUp a = some b) :
    g.OnlyEdge .up a b := by
  obtain ⟨ha, e, d, hd, rfl, hl⟩ := hg.stepUp_eq_some.mp hs
  exact hg.onlyEdge_of_simple ha hd hl

theorem Sound.onlyEdge_of_stepDown (hg : g.Sound) (hs : g.stepDown a = some b) :
    g.OnlyEdge .down a b := by
  obtain ⟨ha, e, d, hd, hu, rfl⟩ := hg.stepDown_eq_some.mp hs
  exact hg.onlyEdge_of_simple ha hd hu

theorem Sound.onlyEdge_of_stepHidden (hg : g.Sound) (hs : g.stepHidden f a = some b) :
    g.OnlyEdge .down a b := by
  obtain ⟨m, hm, -, hnext⟩ := stepHidden_eq_some.mp hs
  obtain ⟨e, d, he, hd, hl⟩ := (hg.downNodes_eq_singleton hm).mp hnext
  obtain ⟨d', hd', hu⟩ := (hg.mem_down hm).mp (he ▸ List.mem_singleton_self e)
  cases hd.symm.trans hd'
  exact ⟨m, e, d, hm, he, hd, hu, hl⟩

theorem Sound.exists_course_up (hg : g.Sound) (hn : g.isSimple n) :
    ∃ us u, g.Course .up g.stepUp n (n :: us) u ∧ g.isSimple u = false := by
  obtain ⟨us, u, hw⟩ := hg.exists_walk_up hn
  exact ⟨us, u,
    hg.course_of_walk (fun _ _ => hg.onlyEdge_of_stepUp) (lt_size_of_isSimple hn) hw,
    hg.stepUp_eq_none.mp hw.next_eq_none⟩

theorem Sound.exists_course_down (hg : g.Sound) (hn : g.isSimple n) :
    ∃ ds l, g.Course .down g.stepDown n (n :: ds) l ∧ g.isSimple l = false := by
  obtain ⟨ds, l, hw⟩ := hg.exists_walk_down hn
  exact ⟨ds, l,
    hg.course_of_walk (fun _ _ => hg.onlyEdge_of_stepDown) (lt_size_of_isSimple hn) hw,
    hg.stepDown_eq_none.mp hw.next_eq_none⟩

theorem Sound.exists_course_hidden (hg : g.Sound) (f : Folding) (ha : a < g.nodes.size) :
    ∃ passed b, g.Course .down (g.stepHidden f) a passed b :=
  ⟨_, _, hg.course_of_walk (fun _ _ => hg.onlyEdge_of_stepHidden) ha (hg.walk_hidden f a)⟩

theorem hidden_of_walk (hw : Walk (g.stepHidden f) a passed b) :
    ∀ n ∈ passed, f.isNodeVisible g n = false := by
  intro n hn
  obtain ⟨m, -, hv, -⟩ := stepHidden_eq_some.mp (Option.some_get (hw.isSome_of_mem hn)).symm
  exact hv

/-- Each step leaves a hidden row that no other step leaves. -/
theorem Course.length_le_hiddenCount (h : g.Course .down (g.stepHidden f) a passed b) :
    passed.length ≤ f.hiddenCount := by
  have hrows := h.rows
  rw [List.map_append, List.pairwise_append] at hrows
  rw [← List.length_map g.rowOf]
  apply Folding.length_le_hiddenCount
  · exact hrows.1.imp Nat.ne_of_lt
  · exact List.forall_mem_map.mpr (hidden_of_walk h.walk)

/-- The walks along edges end. From a simple node they lead, up and down, to nodes that are not
simple, and from the lower end of an edge over hidden nodes, in no more steps than there are hidden
rows, to a visible node or to a dead end. -/
theorem walks_of_build {cs : List Commit} {references : List Reference}
    (hb : build cs references = .ok g) :
    (∀ n, g.isSimple n → ∃ us u ds l,
      g.Course .up g.stepUp n (n :: us) u ∧ g.isSimple u = false ∧
      g.Course .down g.stepDown n (n :: ds) l ∧ g.isSimple l = false ∧
      g.chainThrough n = ⟨u, l, us.reverse ++ n :: ds⟩) ∧
    ∀ f n m e, g.nodes[n]? = some m → e ∈ m.down →
      ∃ d passed b, g.edges[e]? = some d ∧ d.upper = n ∧ g.rowOf n < g.rowOf d.lower ∧
        g.Course .down (g.stepHidden f) d.lower passed b ∧
        (∀ k ∈ passed, f.isNodeVisible g k = false) ∧ passed.length ≤ f.hiddenCount ∧
        ((f.isNodeVisible g b ∧ ∃ w, g.wire f e d = .ok w ∧ w.lower = b) ∨
          (f.isNodeVisible g b = false ∧ ∃ k, g.nodes[b]? = some k ∧ k.down.length ≠ 1 ∧
            g.wire f e d = .error (.hiddenJunction k.commit))) := by
  have hg := (depicts_of_build hb).toSound
  constructor
  · intro n hn
    obtain ⟨us, u, hup, hu⟩ := hg.exists_course_up hn
    obtain ⟨ds, l, hdown, hl⟩ := hg.exists_course_down hn
    exact ⟨us, u, ds, l, hup, hu, hdown, hl, hg.chainThrough_eq_of_walks hup.walk hdown.walk⟩
  · intro f n m e hm he
    obtain ⟨d, hd, rfl⟩ := (hg.mem_down hm).mp he
    obtain ⟨passed, b, hcourse⟩ := hg.exists_course_hidden f (hg.lower_lt hd)
    have hwire := hg.wire_of_walk (e := e) hcourse.walk
    refine ⟨d, passed, b, hd, rfl, hg.row_lt_row hd, hcourse, hidden_of_walk hcourse.walk,
      hcourse.length_le_hiddenCount, ?_⟩
    -- The walk ends at a visible node, or where there is no only way down.
    cases hv : f.isNodeVisible g b with
    | true =>
      rw [hv, if_pos rfl] at hwire
      exact .inl ⟨rfl, _, hwire, rfl⟩
    | false =>
      have hk := Array.getElem?_eq_getElem hcourse.last_lt
      rw [hv, if_neg Bool.false_ne_true, hk] at hwire
      exact .inr ⟨rfl, _, hk, hg.length_down_ne_one hcourse.walk.next_eq_none hv hk, hwire⟩

/-- Two ways from a merge. The one over three simple nodes is a chain, found from its middle node,
and folded away it is passed in three steps. -/
theorem walks_of_build_folded :
    ∃ g f, build [⟨0, [1, 5], 0⟩, ⟨1, [2], 0⟩, ⟨2, [3], 0⟩, ⟨3, [4], 0⟩, ⟨5, [4], 0⟩, ⟨4, [], 0⟩] [] =
        .ok g ∧ f = (⟨#[false, true, true, true, false, false]⟩ : Folding) ∧
      (∃ us ds, g.Course .up g.stepUp 3 (3 :: us) 0 ∧ g.Course .down g.stepDown 3 (3 :: ds) 5 ∧
        us.reverse ++ 3 :: ds = [1, 3, 4]) ∧
      ∃ passed w, g.Course .down (g.stepHidden f) 1 passed 5 ∧ passed.length ≤ 3 ∧
        g.wire f 0 ⟨0, 1, 1⟩ = .ok w ∧ w.lower = 5 := by
  have hgraph : ∃ g m w, build [⟨0, [1, 5], 0⟩, ⟨1, [2], 0⟩, ⟨2, [3], 0⟩, ⟨3, [4], 0⟩, ⟨5, [4], 0⟩,
      ⟨4, [], 0⟩] [] = .ok g ∧ g.isSimple 3 ∧ g.chainThrough 3 = ⟨0, 5, [1, 3, 4]⟩ ∧
      g.nodes[0]? = some m ∧ 0 ∈ m.down ∧ g.edges[0]? = some ⟨0, 1, 1⟩ ∧
      g.wire ⟨#[false, true, true, true, false, false]⟩ 0 ⟨0, 1, 1⟩ = .ok w ∧ w.lower = 5 :=
    ⟨_, _, _, rfl, rfl, rfl, rfl, by decide, rfl, rfl, rfl⟩
  obtain ⟨g, m, w, hb, hsimple, hchain, hm, he, hd, hw, hlower⟩ := hgraph
  obtain ⟨hchains, hedges⟩ := walks_of_build hb
  refine ⟨g, _, hb, rfl, ?_, ?_⟩
  · obtain ⟨us, u, ds, l, hup, -, hdown, -, hthrough⟩ := hchains 3 hsimple
    obtain ⟨rfl, rfl, hinner⟩ := Chain.mk.inj (hchain.symm.trans hthrough)
    exact ⟨us, ds, hup, hdown, hinner.symm⟩
  · obtain ⟨d, passed, b, hd', -, -, hcourse, -, hle, hend⟩ :=
      hedges ⟨#[false, true, true, true, false, false]⟩ 0 m 0 hm he
    cases hd.symm.trans hd'
    rcases hend with ⟨-, w', hw', rfl⟩ | ⟨-, k, -, -, herror⟩
    · cases hw.symm.trans hw'
      rw [hlower] at hcourse
      exact ⟨passed, w, hcourse, hle, hw, hlower⟩
    · rw [hw] at herror
      cases herror

end Graph

end CommitGraph
