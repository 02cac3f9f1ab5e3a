import CommitGraph.Graph.Walk
import CommitGraph.Proofs.Graph.Depiction
import CommitGraph.Proofs.Lists
import Mathlib.Data.List.Chain

namespace CommitGraph

/-- From a place over those listed to the place where the step is undefined. -/
inductive Walk {α : Type} (next : α → Option α) : α → List α → α → Prop
  | stop {a : α} : next a = none → Walk next a [] a
  | step {a b c : α} {passed : List α} :
    next a = some b → Walk next b passed c → Walk next a (a :: passed) c

section

variable {α : Type} {next : α → Option α} {a b c : α} {passed : List α}

theorem Walk.next_eq_none (h : Walk next a passed b) : next b = none := by
  induction h with
  | stop hn => exact hn
  | step _ _ ih => exact ih

theorem Walk.unique {passed' : List α} (h : Walk next a passed b) (h' : Walk next a passed' c) :
    passed = passed' ∧ b = c := by
  induction h generalizing passed' with
  | stop hn =>
    cases h' with
    | stop => exact ⟨rfl, rfl⟩
    | step hs => simp [hn] at hs
  | step hs _ ih =>
    cases h' with
    | stop hn => simp [hn] at hs
    | step hs' hw =>
      cases hs.symm.trans hs'
      obtain ⟨rfl, rfl⟩ := ih hw
      exact ⟨rfl, rfl⟩

theorem walk_follow {m : α → Nat} (hdown : ∀ a b, next a = some b → m b < m a)
    {fuel : Nat} (hf : m a ≤ fuel) :
    Walk next a (follow next fuel a).1 (follow next fuel a).2 := by
  induction fuel generalizing a with
  | zero =>
    cases hn : next a with
    | none => exact .stop hn
    | some b =>
      have := hdown a b hn
      omega
  | succ fuel ih =>
    cases hn : next a with
    | none =>
      rw [follow_of_none _ hn]
      exact .stop hn
    | some b =>
      rw [follow_succ_of_some fuel hn]
      have := hdown a b hn
      exact .step hn (ih (by omega))

theorem Walk.isSome_of_mem (h : Walk next a passed b) (hc : c ∈ passed) : (next c).isSome := by
  induction h with
  | stop => cases hc
  | step hs _ ih =>
    rcases List.mem_cons.mp hc with rfl | hc
    · simp [hs]
    · exact ih hc

theorem Walk.induct_last {P : α → Prop} (hP : ∀ a b, next a = some b → P b)
    (h : Walk next a passed b) (ha : P a) : P b := by
  induction h with
  | stop => exact ha
  | step hs _ ih => exact ih (hP _ _ hs)

theorem Walk.isChain {R : α → α → Prop} (hR : ∀ a b, next a = some b → R a b)
    (h : Walk next a passed b) : (passed ++ [b]).IsChain R := by
  induction h with
  | stop => exact .singleton _
  | step hs hw ih =>
    cases hw with
    | stop => exact .cons_cons (hR _ _ hs) ih
    | step => exact .cons_cons (hR _ _ hs) ih

/-- A list joined by a relation is a walk if the step follows the relation where it is defined. -/
theorem Walk.of_isChain {R : α → α → Prop} {s : α → Prop}
    (hR : ∀ x y, s x → R x y → next x = some y) (hb : next b = none) {l : List α}
    (hs : ∀ x ∈ a :: l, s x) (h : (a :: l ++ [b]).IsChain R) : Walk next a (a :: l) b := by
  induction l generalizing a with
  | nil => exact .step (hR _ _ (hs a List.mem_cons_self) (List.isChain_cons_cons.mp h).1) (.stop hb)
  | cons x l ih =>
    obtain ⟨hj, h⟩ := List.isChain_cons_cons.mp h
    exact .step (hR _ _ (hs a List.mem_cons_self) hj)
      (ih (fun y hy => hs y (List.mem_cons_of_mem a hy)) h)

end

namespace Graph

def Joined (g : Graph) (a b : NodeId) : Prop :=
  ∃ (e : EdgeId) (d : Edge), g.edges[e]? = some d ∧ d.upper = a ∧ d.lower = b

def below (g : Graph) (r : Nat) : Nat :=
  ((List.range g.nodes.size).filter fun n => r < g.rowOf n).length

def above (g : Graph) (r : Nat) : Nat :=
  ((List.range g.nodes.size).filter fun n => g.rowOf n < r).length

variable {g : Graph} {a b : NodeId}

theorem below_le (g : Graph) (r : Nat) : g.below r ≤ g.nodes.size :=
  (List.length_filter_le _ _).trans_eq List.length_range

theorem above_le (g : Graph) (r : Nat) : g.above r ≤ g.nodes.size :=
  (List.length_filter_le _ _).trans_eq List.length_range

theorem Sound.mem_nodesInRow_rowOf (hg : g.Sound) {m : Node} (hm : g.nodes[a]? = some m) :
    a ∈ g.nodesInRow (g.rowOf a) :=
  hg.mem_nodesInRow.mpr ⟨m, hm, (rowOf_eq hm).symm⟩

theorem Sound.rowOf_of_mem (hg : g.Sound) {r : Nat} (ha : a ∈ g.nodesInRow r) : g.rowOf a = r := by
  obtain ⟨m, hm, rfl⟩ := hg.mem_nodesInRow.mp ha
  exact rowOf_eq hm

theorem Sound.rowOf_lt_size (hg : g.Sound) {m : Node} (hm : g.nodes[a]? = some m) :
    g.rowOf a < g.rows.size := by
  have hmem := hg.mem_nodesInRow_rowOf hm
  by_contra hlt
  rw [nodesInRow, Array.getElem?_eq_none (by omega)] at hmem
  cases hmem

theorem Sound.upper_lt (hg : g.Sound) {e : EdgeId} {d : Edge} (hd : g.edges[e]? = some d) :
    d.upper < g.nodes.size :=
  lt_size_of_isPlaced (hg.upper_placed hd)

theorem Sound.rowOf_lt_rowOf (hg : g.Sound) (hj : g.Joined a b) : g.rowOf a < g.rowOf b := by
  obtain ⟨e, d, hd, rfl, rfl⟩ := hj
  exact hg.row_lt_row hd

theorem Sound.below_lt_below (hg : g.Sound) (hj : g.Joined a b) :
    g.below (g.rowOf b) < g.below (g.rowOf a) := by
  have hrow := hg.rowOf_lt_rowOf hj
  obtain ⟨e, d, hd, rfl, rfl⟩ := hj
  refine length_filter_lt (fun n _ hn => ?_) (List.mem_range.mpr (hg.lower_lt hd)) ?_ ?_
  · simp only [decide_eq_true_eq] at hn ⊢
    omega
  · simpa using hrow
  · simp

theorem Sound.above_lt_above (hg : g.Sound) (hj : g.Joined a b) :
    g.above (g.rowOf a) < g.above (g.rowOf b) := by
  have hrow := hg.rowOf_lt_rowOf hj
  obtain ⟨e, d, hd, rfl, rfl⟩ := hj
  refine length_filter_lt (fun n _ hn => ?_) (List.mem_range.mpr (hg.upper_lt hd)) ?_ ?_
  · simp only [decide_eq_true_eq] at hn ⊢
    omega
  · simpa using hrow
  · simp

end Graph

end CommitGraph
