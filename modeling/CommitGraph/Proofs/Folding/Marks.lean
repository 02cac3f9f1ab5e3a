import CommitGraph.Folding.Chain
import CommitGraph.Proofs.Graph.Chains
import Mathlib.Data.List.Perm.Subperm
import Mathlib.Logic.Function.Basic

namespace CommitGraph

namespace Folding

variable {f f' : Folding} {g : Graph}

@[simp] theorem isVisible_unfolded (n row : Nat) : (unfolded n).isVisible row = true := by
  rw [isVisible, unfolded, Array.getElem?_replicate]
  split <;> rfl

theorem isVisible_setHidden (f : Folding) (hide : Bool) (r row : Nat) :
    (f.setHidden hide r).isVisible row =
      if row = r ∧ row < f.size then !hide else f.isVisible row := by
  rw [isVisible, setHidden, Array.getElem?_setIfInBounds, isVisible, size]
  by_cases hr : row = r
  · subst hr
    by_cases hlt : row < f.hidden.size <;> simp [hlt]
  · simp [hr, Ne.symm hr]

@[simp] theorem size_setHidden (f : Folding) (hide : Bool) (r : Nat) :
    (f.setHidden hide r).size = f.size := by
  simp [size, setHidden]

@[simp] theorem size_setNodes (f : Folding) (g : Graph) (hide : Bool) (ns : List NodeId) :
    (f.setNodes g hide ns).size = f.size := by
  induction ns generalizing f with
  | nil => rfl
  | cons n ns ih => exact (ih _).trans (size_setHidden f hide _)

theorem isVisible_setNodes (f : Folding) (g : Graph) (hide : Bool) (ns : List NodeId) (row : Nat) :
    (f.setNodes g hide ns).isVisible row =
      if row ∈ ns.map g.rowOf ∧ row < f.size then !hide else f.isVisible row := by
  induction ns generalizing f with
  | nil => simp [setNodes]
  | cons n ns ih =>
    have hcons : f.setNodes g hide (n :: ns) = (f.setHidden hide (g.rowOf n)).setNodes g hide ns :=
      rfl
    rw [hcons, ih, isVisible_setHidden, size_setHidden, List.map_cons]
    by_cases hn : row = g.rowOf n <;> by_cases hs : row < f.size <;> simp [hn, hs] <;> grind

theorem eq_of_isVisible (hs : f.size = f'.size) (hv : ∀ row, f.isVisible row = f'.isVisible row) :
    f = f' := by
  obtain ⟨hidden⟩ := f
  obtain ⟨hidden'⟩ := f'
  congr 1
  refine Array.ext hs fun i hi hi' => ?_
  have := hv i
  simpa [isVisible, Array.getElem?_eq_getElem, hi, hi'] using this

theorem toList_hidden (f : Folding) :
    f.hidden.toList = (List.range f.size).map fun row => !f.isVisible row := by
  apply List.ext_getElem?
  intro row
  rw [List.getElem?_map, Array.getElem?_toList]
  by_cases hrow : row < f.size
  · rw [List.getElem?_range hrow, Option.map_some, isVisible, Bool.not_not,
      Array.getElem?_eq_getElem hrow, Option.getD_some]
  · have hrow : f.size ≤ row := Nat.le_of_not_lt hrow
    rw [Array.getElem?_eq_none hrow, List.getElem?_eq_none (by simpa using hrow), Option.map_none]

theorem hiddenCount_eq (f : Folding) :
    f.hiddenCount = (List.range f.size).countP fun row => ¬ f.isVisible row := by
  rw [hiddenCount, toList_hidden, List.countP_map]
  apply List.countP_congr
  simp

theorem lt_size_of_hidden {row : Nat} (hv : f.isVisible row = false) : row < f.size := by
  by_contra hlt
  simp [isVisible, Array.getElem?_eq_none (Nat.le_of_not_lt hlt)] at hv

theorem length_le_hiddenCount {rows : List Nat} (hn : rows.Nodup)
    (hv : ∀ row ∈ rows, f.isVisible row = false) : rows.length ≤ f.hiddenCount := by
  rw [hiddenCount_eq, List.countP_eq_length_filter]
  refine (hn.subperm fun row hrow => ?_).length_le
  simp [lt_size_of_hidden (hv row hrow), hv row hrow]

/-- The hidden rows are those inside the chains that are marked. -/
structure Hides (f : Folding) (g : Graph) (marked : Chain → Bool) : Prop where
  size_eq : f.size = g.rows.size
  hidden_iff : ∀ row, f.isVisible row = false ↔
    ∃ c, g.IsChain c ∧ marked c ∧ row ∈ c.inner.map g.rowOf

end Folding

namespace Graph

variable {g : Graph} {c : Chain} {n k : NodeId}

theorem Sound.nodesInRow_of_simple (hg : g.Sound) (hn : g.isSimple n) :
    g.nodesInRow (g.rowOf n) = [n] := by
  obtain ⟨m, e, d, hm, -, hd, hu⟩ := hg.down_of_simple hn
  obtain ⟨m', hm', hk⟩ := hg.exists_upper hd
  rw [hu, hm] at hm'
  cases hm'
  rw [rowOf_eq hm, hg.nodesInRow_eq hm hk]

theorem Sound.eq_of_rowOf_eq (hg : g.Sound) (hn : g.isSimple n) {m : Node}
    (hk : g.nodes[k]? = some m) (hr : g.rowOf k = g.rowOf n) : k = n := by
  have hmem := hg.mem_nodesInRow_rowOf hk
  rwa [hr, hg.nodesInRow_of_simple hn, List.mem_singleton] at hmem

end Graph

namespace Folding

variable {f f' : Folding} {g : Graph} {marked marked' : Chain → Bool} {c : Chain}

theorem Hides.congr (hf : f.Hides g marked) (hm : ∀ c, g.IsChain c → marked c = marked' c) :
    f.Hides g marked' where
  size_eq := hf.size_eq
  hidden_iff row := by
    rw [hf.hidden_iff]
    constructor
    · rintro ⟨c, hc, hmc, hrow⟩
      exact ⟨c, hc, hm c hc ▸ hmc, hrow⟩
    · rintro ⟨c, hc, hmc, hrow⟩
      exact ⟨c, hc, hm c hc ▸ hmc, hrow⟩

theorem hides_unfolded (g : Graph) : (unfolded g.rows.size).Hides g fun _ => false where
  size_eq := by simp [size, unfolded]
  hidden_iff row := by simp

theorem Hides.isNodeVisible (hg : g.Sound) (hf : f.Hides g marked) (hc : g.IsChain c) {n : NodeId}
    (hn : n ∈ c.inner) : f.isNodeVisible g n = !marked c := by
  have hrow := hf.hidden_iff (g.rowOf n)
  rw [Folding.isNodeVisible]
  cases hm : marked c with
  | true => exact hrow.mpr ⟨c, hc, hm, List.mem_map_of_mem hn⟩
  | false =>
    rw [Bool.not_false]
    by_contra hv
    obtain ⟨c', hc', hm', hmem⟩ := hrow.mp (by simpa using hv)
    obtain ⟨k, hk, hkn⟩ := List.mem_map.mp hmem
    obtain ⟨m, hmk, -⟩ := Graph.isSimple_iff.mp (hc'.simple k hk)
    cases hg.eq_of_rowOf_eq (hc.simple n hn) hmk hkn
    cases hc.eq_of_mem hg hc' hn hk
    simp [hm] at hm'

/-- A hidden node lies inside a chain that is marked. -/
theorem Hides.exists_chain (hg : g.Sound) (hf : f.Hides g marked) {n : NodeId} {m : Node}
    (hm : g.nodes[n]? = some m) (hv : f.isNodeVisible g n = false) :
    ∃ c, g.IsChain c ∧ marked c ∧ n ∈ c.inner := by
  obtain ⟨c, hc, hmarked, hrow⟩ := (hf.hidden_iff _).mp hv
  obtain ⟨k, hk, hkn⟩ := List.mem_map.mp hrow
  cases hg.eq_of_rowOf_eq (hc.simple k hk) hm hkn.symm
  exact ⟨c, hc, hmarked, hk⟩

theorem Hides.isSimple (hg : g.Sound) (hf : f.Hides g marked) {n : NodeId} {m : Node}
    (hm : g.nodes[n]? = some m) (hv : f.isNodeVisible g n = false) : g.isSimple n := by
  obtain ⟨c, hc, -, hn⟩ := hf.exists_chain hg hm hv
  exact hc.simple n hn

theorem Hides.setNodes (hg : g.Sound) (hf : f.Hides g marked) (hc : g.IsChain c) (hide : Bool) :
    (f.setNodes g hide c.inner).Hides g (Function.update marked c hide) where
  size_eq := (size_setNodes f g hide c.inner).trans hf.size_eq
  hidden_iff row := by
    rw [isVisible_setNodes]
    by_cases hrow : row ∈ c.inner.map g.rowOf
    · obtain ⟨n, hn, rfl⟩ := List.mem_map.mp hrow
      obtain ⟨m, hm, -⟩ := Graph.isSimple_iff.mp (hc.simple n hn)
      have hlt := hg.rowOf_lt_size hm
      rw [if_pos ⟨hrow, hf.size_eq ▸ hlt⟩, Bool.not_eq_false']
      constructor
      · intro hh
        exact ⟨c, hc, by simp [hh], hrow⟩
      · rintro ⟨c', hc', hm', hmem⟩
        obtain ⟨k, hk, hkn⟩ := List.mem_map.mp hmem
        obtain ⟨mk, hmk, -⟩ := Graph.isSimple_iff.mp (hc'.simple k hk)
        cases hg.eq_of_rowOf_eq (hc.simple n hn) hmk hkn
        cases hc.eq_of_mem hg hc' hn hk
        simpa using hm'
    · -- Other chains have other rows.
      rw [if_neg (by simp [hrow]), hf.hidden_iff]
      have hother : ∀ c', row ∈ c'.inner.map g.rowOf →
          Function.update marked c hide c' = marked c' := by
        intro c' hmem
        rw [Function.update_of_ne]
        rintro rfl
        exact hrow hmem
      constructor
      · rintro ⟨c', hc', hm', hmem⟩
        exact ⟨c', hc', by rw [hother c' hmem, hm'], hmem⟩
      · rintro ⟨c', hc', hm', hmem⟩
        exact ⟨c', hc', by rw [← hother c' hmem, hm'], hmem⟩

theorem Hides.isFolded (hg : g.Sound) (hf : f.Hides g marked) (hc : g.IsChain c) :
    f.isFolded g c = marked c := by
  obtain ⟨n, ns, hi⟩ := List.exists_cons_of_ne_nil hc.inner_ne_nil
  have hv := hf.isNodeVisible hg hc (n := n) (by simp [hi])
  simp [Folding.isFolded, hi, hv]

theorem Hides.flip (hg : g.Sound) (hf : f.Hides g marked) (hc : g.IsChain c) :
    (f.flip g c).Hides g (Function.update marked c !marked c) := by
  rw [Folding.flip, hf.isFolded hg hc]
  exact hf.setNodes hg hc _

/-- The chain through a simple node is marked, though a hidden node is passed over. -/
theorem Hides.foldThrough (hg : g.Sound) (hf : f.Hides g marked) {n : NodeId} (hn : g.isSimple n) :
    (f.foldThrough g n).Hides g (Function.update marked (g.chainThrough n) true) := by
  obtain ⟨hc, hmem⟩ := hg.isChain_chainThrough hn
  unfold Folding.foldThrough
  rw [hn, Bool.true_and]
  split
  · exact hf.setNodes hg hc true
  · -- A hidden node is inside a chain that is marked already.
    next hv =>
    rw [hf.isNodeVisible hg hc hmem] at hv
    have hm : marked (g.chainThrough n) = true := by simpa using hv
    rwa [← hm, Function.update_eq_self]

theorem Hides.exists_foldThrough (hg : g.Sound) (hf : f.Hides g marked) (n : NodeId) :
    ∃ marked', (f.foldThrough g n).Hides g marked' ∧
      ∀ c, marked c ∨ g.isSimple n ∧ g.chainThrough n = c → marked' c := by
  by_cases hn : g.isSimple n
  · refine ⟨_, hf.foldThrough hg hn, fun c hc => ?_⟩
    by_cases hcn : c = g.chainThrough n
    · simp [hcn]
    · rw [Function.update_of_ne hcn]
      exact hc.resolve_right fun h => hcn h.2.symm
  · have hskip : f.foldThrough g n = f := by simp [Folding.foldThrough, hn]
    rw [hskip]
    exact ⟨marked, hf, fun c hc => hc.resolve_right fun h => hn h.1⟩

theorem Hides.foldl_foldThrough (hg : g.Sound) (hf : f.Hides g marked) (ns : List NodeId) :
    ∃ marked', (ns.foldl (fun f n => f.foldThrough g n) f).Hides g marked' ∧
      ∀ c, (marked c ∨ ∃ n ∈ ns, g.isSimple n ∧ g.chainThrough n = c) → marked' c := by
  induction ns generalizing f marked with
  | nil => exact ⟨marked, hf, by simp⟩
  | cons n ns ih =>
    obtain ⟨marked₁, hf₁, hone⟩ := hf.exists_foldThrough hg n
    obtain ⟨marked₂, hf₂, hrest⟩ := ih hf₁
    refine ⟨marked₂, hf₂, fun c hc => hrest c ?_⟩
    rcases hc with hc | ⟨k, hk, hs, rfl⟩
    · exact .inl (hone c (.inl hc))
    · rcases List.mem_cons.mp hk with rfl | hk
      · exact .inl (hone _ (.inr ⟨hs, rfl⟩))
      · exact .inr ⟨k, hk, hs, rfl⟩

theorem Hides.foldAll (hg : g.Sound) (hf : f.Hides g marked) :
    (f.foldAll g).Hides g fun _ => true := by
  obtain ⟨marked', hh, hall⟩ := hf.foldl_foldThrough hg (List.range g.nodes.size)
  apply hh.congr
  intro c hc
  obtain ⟨n, ns, hi⟩ := List.exists_cons_of_ne_nil hc.inner_ne_nil
  have hn : n ∈ c.inner := by simp [hi]
  exact hall c (.inr ⟨n, List.mem_range.mpr (Graph.lt_size_of_isSimple (hc.simple n hn)),
    hc.simple n hn, hc.chainThrough_eq hg hn⟩)

theorem Hides.unfolded (hf : f.Hides g marked) : (Folding.unfolded f.size).Hides g fun _ => false :=
  hf.size_eq ▸ hides_unfolded g

/-- The marks determine the folding. -/
theorem Hides.eq (hf : f.Hides g marked) (hf' : f'.Hides g marked) : f = f' := by
  apply eq_of_isVisible (hf.size_eq.trans hf'.size_eq.symm)
  intro row
  have hrow := (hf.hidden_iff row).trans (hf'.hidden_iff row).symm
  cases hv : f'.isVisible row
  · exact hrow.mpr hv
  · by_contra hne
    simp [hrow.mp (by simpa using hne)] at hv

end Folding

namespace Graph

/-- The foldings that flipping, folding and unfolding lead to, with all rows visible at first. -/
inductive Reachable (g : Graph) : Folding → Prop
  | unfolded : Reachable g (.unfolded g.rows.size)
  | flip {f : Folding} {el : Element} {c : Chain} :
    Reachable g f → g.chainAt? el = some c → Reachable g (f.flip g c)
  | unfoldAll {f : Folding} : Reachable g f → Reachable g (.unfolded f.size)
  | foldAll {f : Folding} : Reachable g f → Reachable g (f.foldAll g)

theorem Reachable.exists_hides {g : Graph} {f : Folding} (hg : g.Sound) (hf : g.Reachable f) :
    ∃ marked, f.Hides g marked := by
  induction hf with
  | unfolded => exact ⟨_, Folding.hides_unfolded g⟩
  | flip _ hc ih =>
    obtain ⟨marked, hm⟩ := ih
    exact ⟨_, hm.flip hg (hg.isChain_of_chainAt? hc)⟩
  | unfoldAll _ ih =>
    obtain ⟨marked, hm⟩ := ih
    exact ⟨_, hm.unfolded⟩
  | foldAll _ ih =>
    obtain ⟨marked, hm⟩ := ih
    exact ⟨_, hm.foldAll hg⟩

end Graph

end CommitGraph
