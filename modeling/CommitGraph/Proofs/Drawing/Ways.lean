import CommitGraph.Proofs.Drawing.Layout
import CommitGraph.Proofs.Folding.Marks

namespace CommitGraph

@[simp] theorem Folding.visibleAbove_unfolded (k r : Nat) : (unfolded k).visibleAbove r = r := by
  have hall : (List.range r).countP (unfolded k).isVisible = (List.range r).length :=
    List.countP_eq_length.mpr fun i _ => isVisible_unfolded k i
  rw [visibleAbove, hall, List.length_range]

namespace Graph

@[simp] theorem visibleRows_unfolded (g : Graph) (k : Nat) :
    g.visibleRows (.unfolded k) = List.range g.rows.size :=
  List.filter_eq_self.mpr fun r _ => Folding.isVisible_unfolded k r

@[simp] theorem isNodeVisible_unfolded (g : Graph) (k : Nat) (n : NodeId) :
    (Folding.unfolded k).isNodeVisible g n :=
  Folding.isVisible_unfolded k _

variable {g : Graph} {d : Edge} {w : Wire} {k : Nat}

theorem IsWire.lower_eq_unfolded (h : g.IsWire (.unfolded k) d w) : w.lower = d.lower :=
  h.reaches.unique (.stop (g.isNodeVisible_unfolded k _))

theorem IsWire.bottom_eq_unfolded (h : g.IsWire (.unfolded k) d w) :
    w.bottom = g.rowOf d.lower := by
  rw [h.bottom_eq, Folding.visibleAbove_unfolded, h.lower_eq_unfolded]

/-- An edge lies on the way that starts with a given edge and leads down over hidden nodes with one
parent each. -/
inductive Along (g : Graph) (f : Folding) (e : EdgeId) : EdgeId → Prop
  | here : Along g f e e
  | down {e₁ e₂ : EdgeId} {d : Edge} {m : Node} : Along g f e e₁ → g.edges[e₁]? = some d →
    f.isNodeVisible g d.lower = false → g.nodes[d.lower]? = some m → m.down = [e₂] →
    Along g f e e₂

variable {f : Folding} {e e' : EdgeId} {d' : Edge} {b : NodeId}

theorem Along.reaches (h : g.Along f e e') (hd : g.edges[e]? = some d)
    (hd' : g.edges[e']? = some d') (hb : g.Reaches f d.lower b) : g.Reaches f d'.lower b := by
  induction h generalizing d' with
  | here =>
    cases hd.symm.trans hd'
    exact hb
  | @down _ _ _ m _ hd₁ hv hm hdown ih =>
    have hstep : g.downNodes m = [d'.lower] := by simp [downNodes, hdown, hd']
    cases ih hd₁ with
    | stop hv' => simp [hv] at hv'
    | pass _ hm' hdown' hb =>
      cases hm.symm.trans hm'
      rw [hstep, List.singleton_inj] at hdown'
      exact hdown' ▸ hb

theorem Along.eq_of_visible (h : g.Along f e e') (hd : g.edges[e]? = some d)
    (hv : f.isNodeVisible g d.lower) : e = e' := by
  induction h with
  | here => rfl
  | down _ hd₁ hv₁ _ _ ih =>
    subst ih
    cases hd.symm.trans hd₁
    simp [hv] at hv₁

theorem Sound.branch_of_simple (hg : g.Sound) {m : Node} (hm : g.nodes[d.lower]? = some m)
    (hs : g.isSimple d.lower) (hd : g.edges[e]? = some d) (hdown : m.down = [e']) :
    g.edges[e]?.map (·.branch) = g.edges[e']?.map (·.branch) := by
  obtain ⟨m', e₁, d₁, hm', hup, hd₁, hl⟩ := hg.up_of_simple hs
  cases hm.symm.trans hm'
  have hmem := (hg.mem_up hm).mpr ⟨d, hd, rfl⟩
  rw [hup, List.mem_singleton] at hmem
  rw [hmem, hg.branch_eq hm (by rw [hup, List.head?_cons])]
  exact (hg.passesBranch _ _ _ hm hdown).symm

end Graph

namespace Folding

variable {g : Graph} {f : Folding} {marked : Chain → Bool} {e e' : EdgeId} {d d' : Edge}
  {n : NodeId}

theorem Hides.branch_eq_of_along (hg : g.Sound) (hf : f.Hides g marked) (h : g.Along f e e') :
    g.edges[e]?.map (·.branch) = g.edges[e']?.map (·.branch) := by
  induction h with
  | here => rfl
  | down _ hd₁ hv hm hdown ih =>
    exact ih.trans (hg.branch_of_simple hm (hf.isSimple hg hm hv) hd₁ hdown)

/-- Two edges of one way are edges of one chain. -/
theorem Hides.eq_or_exists_chain_of_along (hg : g.Sound) (hf : f.Hides g marked)
    (h : g.Along f e e') (hd : g.edges[e]? = some d) (hd' : g.edges[e']? = some d') :
    e = e' ∨ ∃ c, g.IsChain c ∧ d.lower ∈ c.inner ∧ d'.upper ∈ c.inner := by
  induction h generalizing d' with
  | here => exact .inl rfl
  | @down e₁ e₂ d₁ m _ hd₁ hv hm hdown ih =>
    obtain ⟨d₂, hd₂, hupper⟩ := (hg.mem_down hm).mp (hdown ▸ List.mem_singleton_self e₂)
    cases hd'.symm.trans hd₂
    rw [hupper]
    obtain ⟨c', hc', -, hn⟩ := hf.exists_chain hg hm hv
    right
    -- The node passed last is inside the chain of those before it, since they are joined.
    rcases ih hd₁ with rfl | ⟨c, hc, hl, hu⟩
    · cases hd.symm.trans hd₁
      exact ⟨c', hc', hn, hn⟩
    · exact ⟨c, hc, hl, hc.mem_of_joined hg hu ⟨e₁, d₁, hd₁, rfl, rfl⟩ (hc'.simple _ hn)⟩

theorem Hides.exists_reaches (hg : g.Sound) (hf : f.Hides g marked) {m : Node}
    (hm : g.nodes[n]? = some m) : ∃ b, g.Reaches f n b := by
  -- Each step down over a hidden node leaves fewer nodes below.
  induction hk : g.below (g.rowOf n) using Nat.strong_induction_on generalizing n m with
  | _ k ih =>
    cases hv : f.isNodeVisible g n with
    | true => exact ⟨n, .stop hv⟩
    | false =>
      obtain ⟨m', e, d, hm', hdown, hd, rfl⟩ := hg.down_of_simple (hf.isSimple hg hm hv)
      have hlower := Array.getElem?_eq_getElem (hg.lower_lt hd)
      have hlt := hg.below_lt_below ⟨e, d, hd, rfl, rfl⟩
      obtain ⟨b, hb⟩ := ih _ (hk ▸ hlt) hlower rfl
      exact ⟨b, .pass hv hm' (by rw [Graph.downNodes, hdown]; simp [hd]) hb⟩

theorem Hides.exists_isWire (hg : g.Sound) (hf : f.Hides g marked) (hd : g.edges[e]? = some d) :
    ∃ w, w.edge = e ∧ g.IsWire f d w := by
  obtain ⟨b, hb⟩ := hf.exists_reaches hg (Array.getElem?_eq_getElem (hg.lower_lt hd))
  exact ⟨⟨e, d.branch, d.upper, b, f.visibleAbove (g.rowOf d.upper), f.visibleAbove (g.rowOf b),
    !f.isNodeVisible g d.lower⟩, rfl, ⟨hd, rfl, rfl, hb, rfl, rfl, rfl⟩⟩

theorem Hides.exists_wires (hg : g.Sound) (hf : f.Hides g marked) :
    ∃ ws, g.wires f = .ok ws := by
  have hall : ∀ m ∈ g.nodes.toList, ∃ ws, g.wiresOf f m = .ok ws := by
    intro m hm
    obtain ⟨n, hn⟩ := List.mem_iff_getElem?.mp hm
    rw [Array.getElem?_toList] at hn
    simp only [hg.wiresOf_eq_ok hn]
    split
    · apply exists_forall₂
      intro e he
      obtain ⟨d, hd, -⟩ := (hg.mem_down hn).mp he
      obtain ⟨w, hw, hwire⟩ := hf.exists_isWire hg hd
      exact ⟨w, hw, d, hwire⟩
    · exact ⟨[], rfl⟩
  obtain ⟨wss, hwss⟩ := exists_forall₂ hall
  exact ⟨wss.toArray, by rw [Graph.wires, mapM_eq_ok.mpr hwss]; rfl⟩

/-- A graph with whole chains folded away can be drawn. -/
theorem Hides.exists_plan (hg : g.Sound) (hf : f.Hides g marked) (o : DrawOptions)
    (s : Selection) :
    ∃ p : Plan, p.graph = g ∧ p.options = o ∧ p.selection = s ∧ p.Follows f ∧
      ∃ d, g.draw f o s = .ok d ∧ p.draw (g.visibleRows f) = .ok d := by
  obtain ⟨ws, hws⟩ := hf.exists_wires hg
  have hp := hg.follows hws o s
  have hdraw := (hp.levelled hg).draw_eq hg
  refine ⟨⟨g, ws, o, s⟩, rfl, rfl, rfl, hp, _, ?_, hdraw⟩
  exact bind_eq_ok.mpr ⟨ws, hws, hdraw⟩

end Folding

end CommitGraph
