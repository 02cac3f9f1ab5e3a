import CommitGraph.Drawing.Layout
import CommitGraph.Proofs.Except
import CommitGraph.Proofs.Graph.Descent
import CommitGraph.Proofs.Lists

namespace CommitGraph

namespace Graph

/-- The first visible node on the way down over hidden nodes with one parent each. -/
inductive Reaches (g : Graph) (f : Folding) : NodeId → NodeId → Prop
  | stop {n : NodeId} : f.isNodeVisible g n → Reaches g f n n
  | pass {n k b : NodeId} {m : Node} : f.isNodeVisible g n = false → g.nodes[n]? = some m →
    g.downNodes m = [k] → Reaches g f k b → Reaches g f n b

structure IsWire (g : Graph) (f : Folding) (d : Edge) (w : Wire) : Prop where
  found : g.edges[w.edge]? = some d
  branch_eq : w.branch = d.branch
  upper_eq : w.upper = d.upper
  reaches : g.Reaches f d.lower w.lower
  top_eq : w.top = f.visibleAbove (g.rowOf d.upper)
  bottom_eq : w.bottom = f.visibleAbove (g.rowOf w.lower)
  folded_eq : w.folded = !f.isNodeVisible g d.lower

variable {g : Graph} {f : Folding} {a b c n k : NodeId} {m : Node} {d d' : Edge} {w w' : Wire}

theorem Reaches.isNodeVisible (h : g.Reaches f a b) : f.isNodeVisible g b := by
  induction h with
  | stop hv => exact hv
  | pass _ _ _ _ ih => exact ih

theorem Reaches.unique (h : g.Reaches f a b) (h' : g.Reaches f a c) : b = c := by
  induction h with
  | stop hv =>
    cases h' with
    | stop => rfl
    | pass hv' => simp [hv] at hv'
  | pass hv hm hd _ ih =>
    cases h' with
    | stop hv' => simp [hv'] at hv
    | pass _ hm' hd' h' =>
      cases hm.symm.trans hm'
      rw [hd, List.singleton_inj] at hd'
      exact ih (hd' ▸ h')

theorem Sound.joined_of_downNodes (hg : g.Sound) (hm : g.nodes[n]? = some m)
    (hk : k ∈ g.downNodes m) : g.Joined n k := by
  obtain ⟨e, he, hlower⟩ := List.mem_filterMap.mp hk
  obtain ⟨d, hd, rfl⟩ := Option.map_eq_some_iff.mp hlower
  rw [hg.down_eq hm] at he
  obtain ⟨d', hd', hu⟩ := mem_edgesFrom.mp he
  cases hd.symm.trans hd'
  exact ⟨e, d, hd, hu, rfl⟩

theorem Reaches.rowOf_le (hg : g.Sound) (h : g.Reaches f a b) : g.rowOf a ≤ g.rowOf b := by
  induction h with
  | stop => exact Nat.le_refl _
  | pass _ hm hd _ ih =>
    have hlt := hg.rowOf_lt_rowOf (hg.joined_of_downNodes hm (hd ▸ List.mem_singleton_self _))
    exact Nat.le_trans (Nat.le_of_lt hlt) ih

theorem Reaches.lt_size (hg : g.Sound) (h : g.Reaches f a b) (ha : a < g.nodes.size) :
    b < g.nodes.size := by
  induction h with
  | stop => exact ha
  | pass _ hm hd _ ih =>
    obtain ⟨e, d, he, -, rfl⟩ := hg.joined_of_downNodes hm (hd ▸ List.mem_singleton_self _)
    exact ih (hg.lower_lt he)

theorem stepHidden_eq_some : g.stepHidden f n = some k ↔
    ∃ m, g.nodes[n]? = some m ∧ f.isNodeVisible g n = false ∧ g.downNodes m = [k] := by
  cases hm : g.nodes[n]? with
  | none => simp [stepHidden, hm]
  | some m =>
    rw [stepHidden, hm, Folding.isNodeVisible, rowOf_eq hm]
    simp only [Option.bind_eq_bind, Option.bind_some, Option.some.injEq, exists_eq_left']
    cases hv : f.isVisible m.row with
    | true => simp
    | false =>
      simp only [Bool.false_eq_true, if_false, true_and]
      split
      · next l hl => simp [hl]
      · next hl =>
        have hk : g.downNodes m ≠ [k] := hl k
        simp [hk]

theorem reaches_of_walk {passed : List NodeId} (hw : Walk (g.stepHidden f) a passed b)
    (hb : f.isNodeVisible g b) :
    g.Reaches f a b ∧ passed.isEmpty = f.isNodeVisible g a := by
  induction hw with
  | stop => exact ⟨.stop hb, by simp [hb]⟩
  | step hs _ ih =>
    obtain ⟨m, hm, hv, hd⟩ := stepHidden_eq_some.mp hs
    exact ⟨.pass hv hm hd (ih hb).1, by simp [hv]⟩

theorem Reaches.exists_walk (h : g.Reaches f a b) :
    ∃ passed, Walk (g.stepHidden f) a passed b := by
  induction h with
  | stop hv =>
    refine ⟨[], .stop (Option.eq_none_iff_forall_ne_some.mpr fun k hk => ?_)⟩
    obtain ⟨-, -, hv', -⟩ := stepHidden_eq_some.mp hk
    simp [hv] at hv'
  | pass hv hm hd _ ih =>
    obtain ⟨passed, hw⟩ := ih
    exact ⟨_, .step (stepHidden_eq_some.mpr ⟨_, hm, hv, hd⟩) hw⟩

theorem Sound.walk_hidden (hg : g.Sound) (f : Folding) (n : NodeId) :
    Walk (g.stepHidden f) n (follow (g.stepHidden f) g.nodes.size n).1
      (follow (g.stepHidden f) g.nodes.size n).2 := by
  refine walk_follow (m := fun n => g.below (g.rowOf n)) (fun a b hs => ?_) (g.below_le _)
  obtain ⟨m, hm, -, hd⟩ := stepHidden_eq_some.mp hs
  exact hg.below_lt_below (hg.joined_of_downNodes hm (hd ▸ List.mem_singleton_self b))

/-- The wire of an edge is led to the end of the walk over hidden nodes, if that is visible. -/
theorem Sound.wire_of_walk (hg : g.Sound) {e : EdgeId} {passed : List NodeId}
    (hw : Walk (g.stepHidden f) d.lower passed b) :
    g.wire f e d =
      if f.isNodeVisible g b then
        .ok ⟨e, d.branch, d.upper, b, f.visibleAbove (g.rowOf d.upper),
          f.visibleAbove (g.rowOf b), !passed.isEmpty⟩
      else .error (.hiddenJunction ((g.nodes[b]?.map (·.commit)).getD 0)) := by
  obtain ⟨hpassed, hlast⟩ := (hg.walk_hidden f d.lower).unique hw
  rw [wire]
  dsimp only
  rw [hpassed, hlast]

theorem Sound.wire_eq_ok (hg : g.Sound) (hd : g.edges[a]? = some d) :
    g.wire f a d = .ok w ↔ w.edge = a ∧ g.IsWire f d w := by
  constructor
  · intro h
    have hwalk := hg.walk_hidden f d.lower
    rw [hg.wire_of_walk hwalk] at h
    split at h
    · next hv =>
      obtain ⟨hreach, hempty⟩ := reaches_of_walk hwalk hv
      cases h
      exact ⟨rfl, hd, rfl, rfl, hreach, rfl, rfl, by rw [hempty]⟩
    · cases h
  · rintro ⟨rfl, hw⟩
    obtain ⟨passed, hwalk⟩ := hw.reaches.exists_walk
    have hempty := (reaches_of_walk hwalk hw.reaches.isNodeVisible).2
    rw [hg.wire_of_walk hwalk, if_pos hw.reaches.isNodeVisible, hempty, ← hw.branch_eq,
      ← hw.upper_eq, ← hw.folded_eq, ← hw.bottom_eq, hw.upper_eq, ← hw.top_eq, ← hw.upper_eq]

theorem IsWire.unique (hw : g.IsWire f d w) (hw' : g.IsWire f d' w') (he : w.edge = w'.edge) :
    w = w' := by
  have hd := hw.found
  rw [he, hw'.found] at hd
  cases hd
  have hlower := hw.reaches.unique hw'.reaches
  have hbranch := hw.branch_eq.trans hw'.branch_eq.symm
  have hupper := hw.upper_eq.trans hw'.upper_eq.symm
  have htop := hw.top_eq.trans hw'.top_eq.symm
  have hbottom := hw.bottom_eq.trans (hlower ▸ hw'.bottom_eq.symm)
  have hfolded := hw.folded_eq.trans hw'.folded_eq.symm
  cases w
  cases w'
  simp_all

theorem Sound.wiresOf_eq_ok (hg : g.Sound) (hm : g.nodes[n]? = some m) {ws : List Wire} :
    g.wiresOf f m = .ok ws ↔
      if f.isNodeVisible g n then
        List.Forall₂ (fun e w => w.edge = e ∧ ∃ d, g.IsWire f d w) m.down ws
      else ws = [] := by
  rw [wiresOf, Folding.isNodeVisible, rowOf_eq hm]
  split
  · have hall : ∀ e ∈ m.down, ∃ d, g.edges[e]? = some d := by
      intro e he
      obtain ⟨d, hd, -⟩ := (hg.mem_down hm).mp he
      exact ⟨d, hd⟩
    generalize m.down = es at hall ⊢
    rw [mapM_eq_ok]
    induction es generalizing ws with
    | nil => simp
    | cons e es ih =>
      obtain ⟨d, hd⟩ := hall e List.mem_cons_self
      have hwire : ∀ w, g.wire f e d = .ok w ↔ w.edge = e ∧ ∃ d, g.IsWire f d w := by
        intro w
        rw [hg.wire_eq_ok hd]
        constructor
        · rintro ⟨he, hw⟩
          exact ⟨he, d, hw⟩
        · rintro ⟨rfl, d', hw⟩
          cases hd.symm.trans hw.found
          exact ⟨rfl, hw⟩
      simp only [List.filterMap_cons, hd, Option.map_some, List.forall₂_cons_left_iff, hwire,
        ih fun e he => hall e (List.mem_cons_of_mem _ he)]
  · simp [eq_comm]

end Graph

/-- The wires of a plan are those of the visible nodes of its graph. -/
structure Plan.Follows (p : Plan) (f : Folding) : Prop where
  forall₂_wiresFrom : ∀ {n : NodeId} {m : Node}, p.graph.nodes[n]? = some m →
    f.isNodeVisible p.graph n →
    List.Forall₂ (fun e w => w.edge = e ∧ ∃ d, p.graph.IsWire f d w) m.down (p.wiresFrom n)
  of_mem_wiresFrom : ∀ {n : NodeId} {w : Wire}, w ∈ p.wiresFrom n →
    f.isNodeVisible p.graph n ∧ ∃ m, p.graph.nodes[n]? = some m

theorem Graph.Sound.follows {g : Graph} {f : Folding} (hg : g.Sound) {ws : Array (List Wire)}
    (hws : g.wires f = .ok ws) (o : DrawOptions) (s : Selection) :
    (⟨g, ws, o, s⟩ : Plan).Follows f := by
  cases hl : g.nodes.toList.mapM (g.wiresOf f) with
  | error e => simp [Graph.wires, hl, Except.map] at hws
  | ok wss =>
    simp only [Graph.wires, hl, Except.map, Except.ok.injEq] at hws
    subst hws
    have hall := mapM_eq_ok.mp hl
    refine ⟨fun {n m} hm hv => ?_, fun {n w} hw => ?_⟩
    · obtain ⟨ws, hws, hwires⟩ := exists_getElem?_right hall (Array.getElem?_toList.trans hm)
      rw [hg.wiresOf_eq_ok hm, if_pos hv] at hwires
      simpa [Plan.wiresFrom, hws] using hwires
    · simp only [Plan.wiresFrom, List.getElem?_toArray] at hw
      cases hws : wss[n]? with
      | none => simp [hws] at hw
      | some ws =>
        obtain ⟨m, hm, hwires⟩ := exists_getElem?_left hall hws
        rw [Array.getElem?_toList] at hm
        rw [hg.wiresOf_eq_ok hm] at hwires
        refine ⟨?_, m, hm⟩
        by_contra hv
        rw [if_neg hv] at hwires
        simp [hws, hwires] at hw

end CommitGraph
