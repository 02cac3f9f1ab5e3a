import CommitGraph.Graph.Build
import CommitGraph.Proofs.Drawing.Layout
import Mathlib.Data.Nat.Find

namespace CommitGraph.Graph

/-- Over hidden nodes with one edge down each, the way down from a node gets to a hidden node with
none or with several. -/
inductive DeadEnd (g : Graph) (f : Folding) : NodeId → Node → Prop
  | stop {n : NodeId} {m : Node} : f.isNodeVisible g n = false → g.nodes[n]? = some m →
    m.down.length ≠ 1 → DeadEnd g f n m
  | pass {n : NodeId} {m m' : Node} {e : EdgeId} {d : Edge} : f.isNodeVisible g n = false →
    g.nodes[n]? = some m → m.down = [e] → g.edges[e]? = some d → DeadEnd g f d.lower m' →
    DeadEnd g f n m'

/-- The edge in a place among those down from a visible node leads to a dead end. -/
def DeadEndAt (g : Graph) (f : Folding) (n : NodeId) (i : Nat) (m : Node) : Prop :=
  f.isNodeVisible g n ∧ ∃ k e d, g.nodes[n]? = some k ∧ k.down[i]? = some e ∧
    g.edges[e]? = some d ∧ g.DeadEnd f d.lower m

/-- The first dead end in the order of the nodes, and of the edges down from each. -/
def FirstDeadEnd (g : Graph) (f : Folding) (m : Node) : Prop :=
  ∃ n i, g.DeadEndAt f n i m ∧ ∀ n' i' m', g.DeadEndAt f n' i' m' → n < n' ∨ n = n' ∧ i ≤ i'

variable {g : Graph} {f : Folding} {a b n : NodeId} {k m : Node} {e : EdgeId} {d : Edge}
  {x : DrawError} {i : Nat}

theorem Sound.downNodes_eq_singleton (hg : g.Sound) (hm : g.nodes[n]? = some m) :
    g.downNodes m = [b] ↔ ∃ e d, m.down = [e] ∧ g.edges[e]? = some d ∧ d.lower = b := by
  have hall : List.Forall₂ (fun e b => ∃ d, g.edges[e]? = some d ∧ d.lower = b) m.down
      (g.downNodes m) := by
    refine forall₂_filterMap fun e he => ?_
    obtain ⟨d, hd, -⟩ := (hg.mem_down hm).mp he
    exact ⟨d.lower, by rw [hd, Option.map_some], d, hd, rfl⟩
  constructor
  · intro hdown
    rw [hdown, List.forall₂_cons_right_iff] at hall
    obtain ⟨e, es, ⟨d, hd, hl⟩, hes, he⟩ := hall
    rw [List.forall₂_nil_right_iff.mp hes] at he
    exact ⟨e, d, he, hd, hl⟩
  · rintro ⟨e, d, he, hd, rfl⟩
    simp [downNodes, he, hd]

/-- Where a walk over hidden nodes gets no further at a hidden one, it has no edge down, or
several. -/
theorem Sound.length_down_ne_one (hg : g.Sound) (hs : g.stepHidden f n = none)
    (hv : f.isNodeVisible g n = false) (hm : g.nodes[n]? = some m) : m.down.length ≠ 1 := by
  intro hlen
  obtain ⟨e, he⟩ := List.length_eq_one_iff.mp hlen
  obtain ⟨d, hd, -⟩ := (hg.mem_down hm).mp (he ▸ List.mem_singleton_self e)
  have hnext := (hg.downNodes_eq_singleton hm).mpr ⟨e, d, he, hd, rfl⟩
  rw [stepHidden_eq_some.mpr ⟨m, hm, hv, hnext⟩] at hs
  cases hs

theorem Sound.deadEnd_of_walk (hg : g.Sound) {passed : List NodeId}
    (hw : Walk (g.stepHidden f) a passed b) (ha : a < g.nodes.size)
    (hb : f.isNodeVisible g b = false) : ∃ m, g.nodes[b]? = some m ∧ g.DeadEnd f a m := by
  induction hw with
  | @stop a hs =>
    have hm := Array.getElem?_eq_getElem ha
    exact ⟨_, hm, .stop hb hm (hg.length_down_ne_one hs hb hm)⟩
  | step hs _ ih =>
    obtain ⟨m', hm', hv, hnext⟩ := stepHidden_eq_some.mp hs
    obtain ⟨e, d, he, hd, rfl⟩ := (hg.downNodes_eq_singleton hm').mp hnext
    obtain ⟨m, hm, hdead⟩ := ih (hg.lower_lt hd) hb
    exact ⟨m, hm, .pass hv hm' he hd hdead⟩

theorem Sound.exists_walk_of_deadEnd (hg : g.Sound) (h : g.DeadEnd f a m) :
    ∃ passed b, Walk (g.stepHidden f) a passed b ∧ g.nodes[b]? = some m ∧
      f.isNodeVisible g b = false := by
  induction h with
  | @stop n m hv hm hlen =>
    refine ⟨[], n, .stop (Option.eq_none_iff_forall_ne_some.mpr fun k hk => ?_), hm, hv⟩
    obtain ⟨m', hm', -, hnext⟩ := stepHidden_eq_some.mp hk
    cases hm.symm.trans hm'
    obtain ⟨e, -, he, -⟩ := (hg.downNodes_eq_singleton hm).mp hnext
    exact hlen (by rw [he, List.length_singleton])
  | pass hv hm he hd _ ih =>
    obtain ⟨passed, b, hw, hb⟩ := ih
    have hnext := (hg.downNodes_eq_singleton hm).mpr ⟨_, _, he, hd, rfl⟩
    exact ⟨_, b, .step (stepHidden_eq_some.mpr ⟨_, hm, hv, hnext⟩) hw, hb⟩

/-- An edge has no wire exactly if it leads to a dead end, which is then named. -/
theorem Sound.wire_eq_error (hg : g.Sound) (hd : g.edges[e]? = some d) :
    g.wire f e d = .error x ↔ ∃ m, g.DeadEnd f d.lower m ∧ x = .hiddenJunction m.commit := by
  constructor
  · intro h
    have hwalk := hg.walk_hidden f d.lower
    rw [hg.wire_of_walk hwalk] at h
    split at h
    · cases h
    · next hv =>
      obtain ⟨m, hm, hdead⟩ := hg.deadEnd_of_walk hwalk (hg.lower_lt hd) (by simpa using hv)
      rw [hm] at h
      cases h
      exact ⟨m, hdead, rfl⟩
  · rintro ⟨m, hdead, rfl⟩
    obtain ⟨passed, b, hwalk, hm, hv⟩ := hg.exists_walk_of_deadEnd hdead
    rw [hg.wire_of_walk hwalk, hm, hv, if_neg Bool.false_ne_true]
    rfl

theorem Sound.exists_wire_iff (hg : g.Sound) (hd : g.edges[e]? = some d) :
    (∃ w, g.wire f e d = .ok w) ↔ ∀ m, ¬ g.DeadEnd f d.lower m := by
  constructor
  · rintro ⟨w, hw⟩ m hdead
    rw [(hg.wire_eq_error hd).mpr ⟨m, hdead, rfl⟩] at hw
    cases hw
  · intro hnone
    cases hw : g.wire f e d with
    | ok w => exact ⟨w, rfl⟩
    | error x =>
      obtain ⟨m, hdead, -⟩ := (hg.wire_eq_error hd).mp hw
      exact absurd hdead (hnone m)

theorem Sound.getElem?_found (hg : g.Sound) (hk : g.nodes[n]? = some k) :
    (k.down.filterMap fun e => (g.edges[e]?).map (e, ·))[i]? = some (e, d) ↔
      k.down[i]? = some e ∧ g.edges[e]? = some d := by
  have hall : List.Forall₂ (fun e x => x.1 = e ∧ g.edges[e]? = some x.2) k.down
      (k.down.filterMap fun e => (g.edges[e]?).map (e, ·)) := by
    refine forall₂_filterMap fun e he => ?_
    obtain ⟨d, hd, -⟩ := (hg.mem_down hk).mp he
    exact ⟨(e, d), by rw [hd, Option.map_some], rfl, hd⟩
  constructor
  · intro hi
    obtain ⟨e', he, rfl, hd⟩ := exists_getElem?_left hall hi
    exact ⟨he, hd⟩
  · rintro ⟨he, hd⟩
    obtain ⟨⟨e', d'⟩, hi, rfl, hd'⟩ := exists_getElem?_right hall he
    cases hd.symm.trans hd'
    exact hi

theorem deadEndAt_iff (hk : g.nodes[n]? = some k) :
    g.DeadEndAt f n i m ↔ f.isVisible k.row ∧ ∃ e d, k.down[i]? = some e ∧
      g.edges[e]? = some d ∧ g.DeadEnd f d.lower m := by
  simp [DeadEndAt, Folding.isNodeVisible, rowOf_eq hk, hk]

theorem Sound.exists_wiresOf_iff (hg : g.Sound) (hk : g.nodes[n]? = some k) :
    (∃ ws, g.wiresOf f k = .ok ws) ↔ ∀ i m, ¬ g.DeadEndAt f n i m := by
  simp only [wiresOf, deadEndAt_iff hk]
  split
  · next hv =>
    simp only [exists_mapM_eq_ok, List.mem_iff_getElem?, Prod.forall, hg.getElem?_found hk]
    constructor
    · rintro hall i m ⟨-, e, d, he, hd, hdead⟩
      exact (hg.exists_wire_iff hd).mp (hall e d ⟨i, he, hd⟩) m hdead
    · rintro hnone e d ⟨i, he, hd⟩
      exact (hg.exists_wire_iff hd).mpr fun m hdead => hnone i m ⟨hv, e, d, he, hd, hdead⟩
  · next hv => simp [hv]

theorem Sound.wiresOf_eq_error (hg : g.Sound) (hk : g.nodes[n]? = some k) :
    g.wiresOf f k = .error x ↔ ∃ i m, g.DeadEndAt f n i m ∧ x = .hiddenJunction m.commit ∧
      ∀ j < i, ∀ m', ¬ g.DeadEndAt f n j m' := by
  simp only [wiresOf, deadEndAt_iff hk]
  split
  · next hv =>
    simp only [mapM_eq_error, Prod.exists, Prod.forall, hg.getElem?_found hk]
    constructor
    · rintro ⟨i, e, d, ⟨he, hd⟩, hx, hbefore⟩
      obtain ⟨m, hdead, rfl⟩ := (hg.wire_eq_error hd).mp hx
      refine ⟨i, m, ⟨hv, e, d, he, hd, hdead⟩, rfl, ?_⟩
      rintro j hj m' ⟨-, e', d', he', hd', hdead'⟩
      exact (hg.exists_wire_iff hd').mp (hbefore j hj e' d' ⟨he', hd'⟩) m' hdead'
    · rintro ⟨i, m, ⟨-, e, d, he, hd, hdead⟩, rfl, hbefore⟩
      refine ⟨i, e, d, ⟨he, hd⟩, (hg.wire_eq_error hd).mpr ⟨m, hdead, rfl⟩, ?_⟩
      rintro j hj e' d' ⟨he', hd'⟩
      exact (hg.exists_wire_iff hd').mpr fun m' hdead' =>
        hbefore j hj m' ⟨hv, e', d', he', hd', hdead'⟩
  · next hv => simp [hv]

theorem exists_firstDeadEnd (h : g.DeadEndAt f n i m) : ∃ m', g.FirstDeadEnd f m' := by
  classical
  have hn : ∃ n i m, g.DeadEndAt f n i m := ⟨n, i, m, h⟩
  have hi := Nat.find_spec hn
  obtain ⟨m', hm'⟩ := Nat.find_spec hi
  refine ⟨m', Nat.find hn, Nat.find hi, hm', fun n' i' m'' h' => ?_⟩
  rcases Nat.lt_or_eq_of_le (Nat.find_min' hn ⟨i', m'', h'⟩) with hlt | heq
  · exact .inl hlt
  · exact .inr ⟨heq, Nat.find_min' hi ⟨m'', heq ▸ h'⟩⟩

theorem firstDeadEnd_iff : g.FirstDeadEnd f m ↔ ∃ n i, g.DeadEndAt f n i m ∧
    (∀ j < i, ∀ m', ¬ g.DeadEndAt f n j m') ∧ ∀ k < n, ∀ j m', ¬ g.DeadEndAt f k j m' := by
  constructor
  · rintro ⟨n, i, h, hfirst⟩
    refine ⟨n, i, h, fun j hj m' h' => ?_, fun k hk j m' h' => ?_⟩
    · rcases hfirst n j m' h' with hlt | ⟨-, hle⟩
      · exact Nat.lt_irrefl n hlt
      · exact Nat.not_lt_of_le hle hj
    · rcases hfirst k j m' h' with hlt | ⟨rfl, -⟩
      · exact Nat.lt_asymm hlt hk
      · exact Nat.lt_irrefl n hk
  · rintro ⟨n, i, h, hedges, hnodes⟩
    refine ⟨n, i, h, fun n' i' m' h' => ?_⟩
    rcases Nat.lt_trichotomy n n' with hlt | rfl | hgt
    · exact .inl hlt
    · exact .inr ⟨rfl, Nat.le_of_not_lt fun hlt => hedges i' hlt m' h'⟩
    · exact absurd h' (hnodes n' hgt i' m')

theorem Sound.wires_eq_error (hg : g.Sound) :
    g.wires f = .error x ↔ ∃ m, g.FirstDeadEnd f m ∧ x = .hiddenJunction m.commit := by
  have hmap : g.wires f = .error x ↔ g.nodes.toList.mapM (g.wiresOf f) = .error x := by
    rw [wires]
    cases g.nodes.toList.mapM (g.wiresOf f) <;> simp [Except.map]
  rw [hmap, mapM_eq_error]
  simp only [Array.getElem?_toList, firstDeadEnd_iff]
  constructor
  · rintro ⟨n, k, hk, hx, hbefore⟩
    obtain ⟨i, m, h, rfl, hedges⟩ := (hg.wiresOf_eq_error hk).mp hx
    refine ⟨m, ⟨n, i, h, hedges, fun n' hn' j m' h' => ?_⟩, rfl⟩
    obtain ⟨-, k', -, -, hk', -⟩ := id h'
    exact (hg.exists_wiresOf_iff hk').mp (hbefore n' hn' k' hk') j m' h'
  · rintro ⟨m, ⟨n, i, h, hedges, hnodes⟩, rfl⟩
    obtain ⟨-, k, -, -, hk, -⟩ := id h
    exact ⟨n, k, hk, (hg.wiresOf_eq_error hk).mpr ⟨i, m, h, rfl, hedges⟩, fun n' hn' k' hk' =>
      (hg.exists_wiresOf_iff hk').mpr (hnodes n' hn')⟩

/-- Once the wires are found, nothing keeps a graph from being drawn. -/
theorem Sound.exists_draw_of_wires (hg : g.Sound) {ws : Array (List Wire)}
    (hws : g.wires f = .ok ws) (o : DrawOptions) (s : Selection) :
    ∃ d, g.draw f o s = .ok d ∧ (⟨g, ws, o, s⟩ : Plan).draw (g.visibleRows f) = .ok d := by
  have hdraw := ((hg.follows hws o s).levelled hg).draw_eq hg
  exact ⟨_, bind_eq_ok.mpr ⟨ws, hws, hdraw⟩, hdraw⟩

theorem Sound.draw_eq_error (hg : g.Sound) {o : DrawOptions} {s : Selection} :
    g.draw f o s = .error x ↔ g.wires f = .error x := by
  cases hws : g.wires f with
  | error y => simp [draw, hws, bind, Except.bind]
  | ok ws =>
    obtain ⟨d, hd, -⟩ := hg.exists_draw_of_wires hws o s
    simp [hd]

/-- A graph is drawn, whatever is hidden and selected and however long edges are drawn, unless an
edge of a visible node leads to a dead end. Then drawing fails, and the error names the first dead
end. -/
theorem draw_verdict {cs : List Commit} {references : List Reference}
    (hb : build cs references = .ok g) (f : Folding) (o : DrawOptions) (s : Selection) :
    ((∃ x, g.draw f o s = .error x) ↔ ∃ n i m, g.DeadEndAt f n i m) ∧
      (∀ x, g.draw f o s = .error x ↔
        ∃ m, g.FirstDeadEnd f m ∧ x = .hiddenJunction m.commit) ∧
      ((¬ ∃ n i m, g.DeadEndAt f n i m) → ∃ d, g.draw f o s = .ok d) := by
  have hg := (depicts_of_build hb).toSound
  -- A plan can always be drawn, so only the wires can fail.
  have herror : ∀ x, g.draw f o s = .error x ↔
      ∃ m, g.FirstDeadEnd f m ∧ x = .hiddenJunction m.commit :=
    fun x => hg.draw_eq_error.trans hg.wires_eq_error
  have hfails : (∃ x, g.draw f o s = .error x) ↔ ∃ n i m, g.DeadEndAt f n i m := by
    constructor
    · rintro ⟨x, hx⟩
      obtain ⟨m, ⟨n, i, h, -⟩, -⟩ := (herror x).mp hx
      exact ⟨n, i, m, h⟩
    · rintro ⟨n, i, m, h⟩
      obtain ⟨m', hm'⟩ := exists_firstDeadEnd h
      exact ⟨_, (herror _).mpr ⟨m', hm', rfl⟩⟩
  refine ⟨hfails, herror, fun hnone => ?_⟩
  cases hd : g.draw f o s with
  | ok d => exact ⟨d, rfl⟩
  | error x => exact absurd (hfails.mp ⟨x, hd⟩) hnone

/-- A merge whose first parent is hidden with the root below it, and its second parent too: the way
of the first edge is followed to the root, and the root is named. -/
theorem draw_verdict_hidden_root :
    ∃ (g : Graph) (m : Node),
      build [⟨1, [2, 4], 0⟩, ⟨2, [3], 0⟩, ⟨3, [], 0⟩, ⟨4, [], 0⟩] [] = .ok g ∧
      g.FirstDeadEnd ⟨#[false, true, true, true, true]⟩ m ∧ m.commit = 3 ∧
      g.draw ⟨#[false, true, true, true, true]⟩ .standard .none = .error (.hiddenJunction 3) := by
  have hdraw : ∃ g, build [⟨1, [2, 4], 0⟩, ⟨2, [3], 0⟩, ⟨3, [], 0⟩, ⟨4, [], 0⟩] [] = .ok g ∧
      g.draw ⟨#[false, true, true, true, true]⟩ .standard .none = .error (.hiddenJunction 3) :=
    ⟨_, rfl, rfl⟩
  obtain ⟨g, hb, hd⟩ := hdraw
  obtain ⟨m, hm, hc⟩ := ((draw_verdict hb _ .standard .none).2.1 _).mp hd
  exact ⟨g, m, hb, hm, (DrawError.hiddenJunction.inj hc).symm, hd⟩

end CommitGraph.Graph
