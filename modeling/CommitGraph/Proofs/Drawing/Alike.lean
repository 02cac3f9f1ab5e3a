import CommitGraph.Proofs.Drawing.Cells
import Mathlib.Data.List.Forall2

namespace CommitGraph

namespace Slot

inductive Alike (R : NodeId → NodeId → Prop) (W : Wire → Wire → Prop) : Slot → Slot → Prop
  | node {n k : NodeId} : R n k → Alike R W (.node n) (.node k)
  | wire {v w : Wire} : W v w → Alike R W (.wire v) (.wire w)

variable {R : NodeId → NodeId → Prop} {W : Wire → Wire → Prop} {placed ns : List NodeId}
  {ss : List Slot}

theorem Alike.biUnique (hR : Relator.BiUnique R) (hW : Relator.BiUnique W) :
    Relator.BiUnique (Alike R W) := by
  constructor
  · rintro _ _ _ (hn | hw) hk
    · cases hk with
      | node hk => rw [hR.1 hn hk]
    · cases hk with
      | wire hk => rw [hW.1 hw hk]
  · rintro _ _ _ (hn | hw) hk
    · cases hk with
      | node hk => rw [hR.2 hn hk]
    · cases hk with
      | wire hk => rw [hW.2 hw hk]

theorem forall₂_firsts (hR : Relator.BiUnique R) {placed' : List NodeId} {ss' : List Slot}
    (hp : List.Forall₂ R placed placed') (h : List.Forall₂ (Alike R W) ss ss') :
    List.Forall₂ (Alike R W) (firsts placed ss) (firsts placed' ss') := by
  induction h generalizing placed placed' with
  | nil => exact .nil
  | cons hs _ ih =>
    cases hs with
    | wire hw => exact .cons (.wire hw) (ih hp)
    | node hn =>
      have hmem := List.rel_mem hR hn hp
      rw [firsts, firsts]
      split
      · next hplaced =>
        rw [if_pos (hmem.mp hplaced)]
        exact ih hp
      · next hplaced =>
        rw [if_neg (mt hmem.mpr hplaced)]
        exact .cons (.node hn) (ih (.cons hn hp))

theorem firsts_append_nodes (h : ∀ n ∈ ns, n ∈ placed ∨ .node n ∈ ss) :
    firsts placed (ss ++ ns.map .node) = firsts placed ss := by
  -- A node that is met on the way counts as placed from there on.
  induction ss generalizing placed with
  | nil =>
    induction ns with
    | nil => rfl
    | cons n ns ih =>
      have hn : n ∈ placed := by simpa using h n List.mem_cons_self
      have hskip : firsts placed (.node n :: ns.map .node) = firsts placed (ns.map .node) := by
        rw [firsts, if_pos hn]
      exact hskip.trans (ih fun k hk => h k (List.mem_cons_of_mem n hk))
  | cons s ss ih =>
    cases s with
    | wire w =>
      rw [List.cons_append, firsts, firsts, ih fun n hn => by simpa using h n hn]
    | node k =>
      rw [List.cons_append, firsts, firsts]
      split
      · next hk =>
        apply ih
        intro n hn
        rcases h n hn with hplaced | hmem
        · exact .inl hplaced
        · rcases List.mem_cons.mp hmem with heq | hmem
          · cases heq
            exact .inl hk
          · exact .inr hmem
      · rw [ih fun n hn => ?_]
        rcases h n hn with hplaced | hmem
        · exact .inl (List.mem_cons_of_mem k hplaced)
        · rcases List.mem_cons.mp hmem with heq | hmem
          · cases heq
            exact .inl List.mem_cons_self
          · exact .inr hmem

theorem firsts_eq_self (h : ss.Nodup) (hp : ∀ n ∈ placed, .node n ∉ ss) :
    firsts placed ss = ss := by
  induction ss generalizing placed with
  | nil => rfl
  | cons s ss ih =>
    obtain ⟨hs, hss⟩ := List.nodup_cons.mp h
    have hrest : ∀ n ∈ placed, .node n ∉ ss :=
      fun n hn hmem => hp n hn (List.mem_cons_of_mem s hmem)
    cases s with
    | wire w => rw [firsts, ih hss hrest]
    | node k =>
      rw [firsts, if_neg fun hk => hp k hk List.mem_cons_self, ih hss]
      intro n hn
      rcases List.mem_cons.mp hn with rfl | hn
      · exact hs
      · exact hrest n hn

end Slot

namespace Plan

variable {p q : Plan} {R : NodeId → NodeId → Prop} {W : Wire → Wire → Prop}
  {above above' : List Slot} {i j : Nat}

theorem forall₂_nextSlots (hR : Relator.BiUnique R) {nodes nodes' : List NodeId}
    (hw : List.Forall₂ (fun v w => Slot.Alike R W (arrival i v) (arrival j w))
      (above.flatMap p.leaving) (above'.flatMap q.leaving))
    (hn : List.Forall₂ R nodes nodes') :
    List.Forall₂ (Slot.Alike R W) (p.nextSlots above i nodes) (q.nextSlots above' j nodes') := by
  apply Slot.forall₂_firsts hR .nil
  apply List.rel_append
  · rw [List.forall₂_map_left_iff, List.forall₂_map_right_iff]
    exact hw
  · rw [List.forall₂_map_left_iff, List.forall₂_map_right_iff]
    exact hn.imp fun _ _ h => .node h

theorem forall₂_leaving {s t : Slot} (h : Slot.Alike R W s t)
    (hn : ∀ n k, R n k → s = .node n → List.Forall₂ W (p.wiresFrom n) (q.wiresFrom k)) :
    List.Forall₂ W (p.leaving s) (q.leaving t) := by
  cases h with
  | node hnode => exact hn _ _ hnode rfl
  | wire hwire => exact .cons hwire .nil

theorem forall₂_flatMap_leaving (h : List.Forall₂ (Slot.Alike R W) above above')
    (hn : ∀ n k, R n k → .node n ∈ above → List.Forall₂ W (p.wiresFrom n) (q.wiresFrom k)) :
    List.Forall₂ W (above.flatMap p.leaving) (above'.flatMap q.leaving) := by
  apply List.rel_flatMap (forall₂_mem h)
  rintro s t ⟨hs, hmem, -⟩
  exact forall₂_leaving hs fun n k hnk heq => hn n k hnk (heq ▸ hmem)

/-- Nodes at which wires arrive need no place of their own. -/
theorem nextSlots_of_arrived {nodes : List NodeId}
    (h : ∀ n ∈ nodes, ∃ w ∈ above.flatMap p.leaving, w.bottom = i ∧ w.lower = n) :
    p.nextSlots above i nodes = p.nextSlots above i [] := by
  rw [nextSlots, Slot.firsts_append_nodes, nextSlots, List.map_nil, List.append_nil]
  intro n hn
  obtain ⟨w, hw, harrive⟩ := h n hn
  exact .inr (List.mem_map.mpr ⟨w, hw, arrival_eq_node.mpr harrive⟩)

theorem column?_eq_of_alike {S : Slot → Slot → Prop} (hS : Relator.BiUnique S)
    {shown shown' : List Slot} (h : List.Forall₂ S shown shown') {s s' : Slot} (hs : S s s') :
    column? shown s = column? shown' s' := by
  have hplace : ∀ k : Nat, shown[k]? = some s ↔ shown'[k]? = some s' := by
    intro k
    constructor
    · intro hk
      obtain ⟨t, ht, hst⟩ := exists_getElem?_right h hk
      rwa [hS.2 hs hst]
    · intro hk
      obtain ⟨t, ht, hts⟩ := exists_getElem?_left h hk
      rwa [hS.1 hs hts]
  apply Option.ext
  intro k
  simp only [column?_eq_some, hplace, ne_eq]

end Plan

end CommitGraph
