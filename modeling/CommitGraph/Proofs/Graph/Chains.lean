import CommitGraph.Graph.Chain
import CommitGraph.Proofs.Graph.Descent

namespace CommitGraph.Graph

/-- A longest run of simple nodes, with the nodes that bound it. -/
structure IsChain (g : Graph) (c : Chain) : Prop where
  inner_ne_nil : c.inner ≠ []
  simple : ∀ n ∈ c.inner, g.isSimple n
  upper_not_simple : g.isSimple c.upper = false
  lower_not_simple : g.isSimple c.lower = false
  joined : (c.upper :: c.inner ++ [c.lower]).IsChain g.Joined

variable {g : Graph} {a b n : NodeId} {c : Chain}

theorem isSimple_iff :
    g.isSimple n = true ↔ ∃ m, g.nodes[n]? = some m ∧ m.up.length = 1 ∧ m.down.length = 1 := by
  simp [isSimple, Node.isSimple, Option.any_eq_true]

theorem lt_size_of_isSimple (hn : g.isSimple n) : n < g.nodes.size := by
  obtain ⟨m, hm, -⟩ := isSimple_iff.mp hn
  exact (Array.getElem?_eq_some_iff.mp hm).1

theorem Sound.down_of_simple (hg : g.Sound) (hn : g.isSimple n) :
    ∃ m e d, g.nodes[n]? = some m ∧ m.down = [e] ∧ g.edges[e]? = some d ∧ d.upper = n := by
  obtain ⟨m, hm, -, hd⟩ := isSimple_iff.mp hn
  obtain ⟨e, he⟩ := List.length_eq_one_iff.mp hd
  obtain ⟨d, hd, hu⟩ := (hg.mem_down hm).mp (he ▸ List.mem_singleton_self e)
  exact ⟨m, e, d, hm, he, hd, hu⟩

theorem Sound.up_of_simple (hg : g.Sound) (hn : g.isSimple n) :
    ∃ m e d, g.nodes[n]? = some m ∧ m.up = [e] ∧ g.edges[e]? = some d ∧ d.lower = n := by
  obtain ⟨m, hm, hu, -⟩ := isSimple_iff.mp hn
  obtain ⟨e, he⟩ := List.length_eq_one_iff.mp hu
  obtain ⟨d, hd, hl⟩ := (hg.mem_up hm).mp (he ▸ List.mem_singleton_self e)
  exact ⟨m, e, d, hm, he, hd, hl⟩

theorem Sound.stepDown_eq_some (hg : g.Sound) :
    g.stepDown a = some b ↔ g.isSimple a ∧ g.Joined a b := by
  by_cases ha : g.isSimple a
  · obtain ⟨m, e, d, hm, he, hd, rfl⟩ := hg.down_of_simple ha
    have hs : m.isSimple := by simpa [isSimple, hm] using ha
    have hstep : g.stepDown d.upper = some d.lower := by
      simp [stepDown, hm, hs, downNodes, he, hd]
    rw [hstep, Option.some_inj]
    constructor
    · rintro rfl
      exact ⟨ha, e, d, hd, rfl, rfl⟩
    · rintro ⟨-, e', d', hd', hu, rfl⟩
      have hmem := (hg.mem_down hm).mpr ⟨d', hd', hu⟩
      rw [he, List.mem_singleton] at hmem
      rw [hmem, hd] at hd'
      cases hd'
      rfl
  · have hstep : g.stepDown a = none := by
      cases hm : g.nodes[a]? with
      | none => simp [stepDown, hm]
      | some m =>
      have hs : m.isSimple = false := by simpa [isSimple, hm] using ha
      simp [stepDown, hm, hs]
    simp [hstep, ha]

theorem Sound.stepUp_eq_some (hg : g.Sound) :
    g.stepUp b = some a ↔ g.isSimple b ∧ g.Joined a b := by
  by_cases hb : g.isSimple b
  · obtain ⟨m, e, d, hm, he, hd, rfl⟩ := hg.up_of_simple hb
    have hs : m.isSimple := by simpa [isSimple, hm] using hb
    have hstep : g.stepUp d.lower = some d.upper := by
      simp [stepUp, hm, hs, upNodes, he, hd]
    rw [hstep, Option.some_inj]
    constructor
    · rintro rfl
      exact ⟨hb, e, d, hd, rfl, rfl⟩
    · rintro ⟨-, e', d', hd', rfl, hl⟩
      have hmem := (hg.mem_up hm).mpr ⟨d', hd', hl⟩
      rw [he, List.mem_singleton] at hmem
      rw [hmem, hd] at hd'
      cases hd'
      rfl
  · have hstep : g.stepUp b = none := by
      cases hm : g.nodes[b]? with
      | none => simp [stepUp, hm]
      | some m =>
      have hs : m.isSimple = false := by simpa [isSimple, hm] using hb
      simp [stepUp, hm, hs]
    simp [hstep, hb]

theorem Sound.stepDown_eq_none (hg : g.Sound) : g.stepDown n = none ↔ g.isSimple n = false := by
  constructor
  · intro hn
    by_contra hs
    obtain ⟨m, e, d, -, -, hd, hu⟩ := hg.down_of_simple (by simpa using hs)
    have := hg.stepDown_eq_some.mpr ⟨by simpa using hs, e, d, hd, hu, rfl⟩
    simp [hn] at this
  · intro hs
    cases hn : g.stepDown n with
    | none => rfl
    | some b => exact absurd (hg.stepDown_eq_some.mp hn).1 (by simp [hs])

theorem Sound.stepUp_eq_none (hg : g.Sound) : g.stepUp n = none ↔ g.isSimple n = false := by
  constructor
  · intro hn
    by_contra hs
    obtain ⟨m, e, d, -, -, hd, hl⟩ := hg.up_of_simple (by simpa using hs)
    have := hg.stepUp_eq_some.mpr ⟨by simpa using hs, e, d, hd, rfl, hl⟩
    simp [hn] at this
  · intro hs
    cases hn : g.stepUp n with
    | none => rfl
    | some b => exact absurd (hg.stepUp_eq_some.mp hn).1 (by simp [hs])

theorem Sound.walk_down (hg : g.Sound) (n : NodeId) :
    Walk g.stepDown n (follow g.stepDown g.nodes.size n).1 (follow g.stepDown g.nodes.size n).2 :=
  walk_follow (m := fun n => g.below (g.rowOf n))
    (fun _ _ hs => hg.below_lt_below (hg.stepDown_eq_some.mp hs).2) (g.below_le _)

theorem Sound.walk_up (hg : g.Sound) (n : NodeId) :
    Walk g.stepUp n (follow g.stepUp g.nodes.size n).1 (follow g.stepUp g.nodes.size n).2 :=
  walk_follow (m := fun n => g.above (g.rowOf n))
    (fun _ _ hs => hg.above_lt_above (hg.stepUp_eq_some.mp hs).2) (g.above_le _)

theorem Sound.chainThrough_eq_of_walks (hg : g.Sound) {us ds : List NodeId} {u l : NodeId}
    (hu : Walk g.stepUp n (n :: us) u) (hd : Walk g.stepDown n (n :: ds) l) :
    g.chainThrough n = ⟨u, l, us.reverse ++ n :: ds⟩ := by
  obtain ⟨hu₁, hu₂⟩ := (hg.walk_up n).unique hu
  obtain ⟨hd₁, hd₂⟩ := (hg.walk_down n).unique hd
  simp [chainThrough, hu₁, hu₂, hd₁, hd₂]

theorem IsChain.walks (hg : g.Sound) (hc : g.IsChain c) {us ds : List NodeId}
    (hi : c.inner = us ++ n :: ds) :
    Walk g.stepUp n (n :: us.reverse) c.upper ∧ Walk g.stepDown n (n :: ds) c.lower := by
  -- Cut the chain at the node: the part above it is walked up, the part below it down.
  have hjoined := hc.joined
  have hsimple := hc.simple
  rw [hi] at hjoined hsimple
  rw [show c.upper :: (us ++ n :: ds) ++ [c.lower] = (c.upper :: us) ++ n :: (ds ++ [c.lower]) by
    simp, List.isChain_split] at hjoined
  constructor
  · refine .of_isChain (R := fun x y => g.Joined y x) (s := fun x => g.isSimple x)
      (fun x y hx hj => hg.stepUp_eq_some.mpr ⟨hx, hj⟩)
      (hg.stepUp_eq_none.mpr hc.upper_not_simple) (fun x hx => hsimple x ?_) ?_
    · simp only [List.mem_cons, List.mem_reverse, List.mem_append] at hx ⊢
      tauto
    · rw [show n :: us.reverse ++ [c.upper] = (c.upper :: us ++ [n]).reverse by simp,
        List.isChain_reverse]
      exact hjoined.1
  · refine .of_isChain (R := g.Joined) (s := fun x => g.isSimple x)
      (fun x y hx hj => hg.stepDown_eq_some.mpr ⟨hx, hj⟩)
      (hg.stepDown_eq_none.mpr hc.lower_not_simple) (fun x hx => hsimple x ?_) hjoined.2
    exact List.mem_append_right us hx

theorem IsChain.chainThrough_eq (hg : g.Sound) (hc : g.IsChain c) (hn : n ∈ c.inner) :
    g.chainThrough n = c := by
  obtain ⟨us, ds, hi⟩ := List.mem_iff_append.mp hn
  obtain ⟨hu, hd⟩ := hc.walks hg hi
  rw [hg.chainThrough_eq_of_walks hu hd, List.reverse_reverse, ← hi]

theorem IsChain.eq_of_mem {c' : Chain} (hg : g.Sound) (hc : g.IsChain c) (hc' : g.IsChain c')
    (hn : n ∈ c.inner) (hn' : n ∈ c'.inner) : c = c' := by
  rw [← hc.chainThrough_eq hg hn, hc'.chainThrough_eq hg hn']

theorem Sound.exists_walk_up (hg : g.Sound) (hn : g.isSimple n) :
    ∃ us u, Walk g.stepUp n (n :: us) u := by
  obtain ⟨us, u, hw⟩ : ∃ us u, Walk g.stepUp n us u := ⟨_, _, hg.walk_up n⟩
  cases hw with
  | stop hs => simp [hg.stepUp_eq_none.mp hs] at hn
  | step hs hw => exact ⟨_, _, .step hs hw⟩

theorem Sound.exists_walk_down (hg : g.Sound) (hn : g.isSimple n) :
    ∃ ds l, Walk g.stepDown n (n :: ds) l := by
  obtain ⟨ds, l, hw⟩ : ∃ ds l, Walk g.stepDown n ds l := ⟨_, _, hg.walk_down n⟩
  cases hw with
  | stop hs => simp [hg.stepDown_eq_none.mp hs] at hn
  | step hs hw => exact ⟨_, _, .step hs hw⟩

/-- The chain through a simple node is a chain with the node inside. -/
theorem Sound.isChain_chainThrough (hg : g.Sound) (hn : g.isSimple n) :
    g.IsChain (g.chainThrough n) ∧ n ∈ (g.chainThrough n).inner := by
  obtain ⟨us, u, hu⟩ := hg.exists_walk_up hn
  obtain ⟨ds, l, hd⟩ := hg.exists_walk_down hn
  rw [hg.chainThrough_eq_of_walks hu hd]
  refine ⟨⟨by simp, ?_, hg.stepUp_eq_none.mp hu.next_eq_none,
    hg.stepDown_eq_none.mp hd.next_eq_none, ?_⟩, by simp⟩
  · intro k hk
    rcases List.mem_append.mp hk with hk | hk
    · have hsome := hu.isSome_of_mem (List.mem_cons_of_mem n (List.mem_reverse.mp hk))
      exact (hg.stepUp_eq_some.mp (Option.some_get hsome).symm).1
    · have hsome := hd.isSome_of_mem hk
      exact (hg.stepDown_eq_some.mp (Option.some_get hsome).symm).1
  · rw [show u :: (us.reverse ++ n :: ds) ++ [l] = (u :: us.reverse) ++ n :: (ds ++ [l]) by simp,
      List.isChain_split]
    constructor
    · rw [show u :: us.reverse ++ [n] = (n :: us ++ [u]).reverse by simp, List.isChain_reverse]
      exact hu.isChain fun _ _ hs => (hg.stepUp_eq_some.mp hs).2
    · exact hd.isChain fun _ _ hs => (hg.stepDown_eq_some.mp hs).2

theorem IsChain.mem_of_joined (hg : g.Sound) (hc : g.IsChain c) (ha : a ∈ c.inner)
    (hj : g.Joined a b) (hb : g.isSimple b) : b ∈ c.inner := by
  obtain ⟨us, ds, hi⟩ := List.mem_iff_append.mp ha
  have hd := (hc.walks hg hi).2
  have hs := hg.stepDown_eq_some.mpr ⟨hc.simple a ha, hj⟩
  cases hd with
  | step hs' hw =>
    cases hs'.symm.trans hs
    cases hw with
    | stop => simp [hc.lower_not_simple] at hb
    | step => simp [hi]

/-- Edges join the ends of a chain to its inner nodes, so they are nodes of the graph. -/
theorem IsChain.ends_lt (hg : g.Sound) (hc : g.IsChain c) :
    c.upper < g.nodes.size ∧ c.lower < g.nodes.size := by
  have hjoined := hc.joined
  constructor
  · obtain ⟨a, as, hi⟩ := List.exists_cons_of_ne_nil hc.inner_ne_nil
    rw [hi] at hjoined
    obtain ⟨e, d, hd, hu, -⟩ := (List.isChain_cons_cons.mp hjoined).1
    exact hu ▸ hg.upper_lt hd
  · obtain ⟨e, d, hd, -, hl⟩ := (List.isChain_append.mp hjoined).2.2 _
      (List.getLast_mem_getLast? (List.cons_ne_nil _ _)) c.lower rfl
    exact hl ▸ hg.lower_lt hd

theorem Sound.isChain_of_chainThroughOnly (hg : g.Sound) {ns : List NodeId}
    (hc : g.chainThroughOnly ns = some c) : g.IsChain c := by
  unfold chainThroughOnly at hc
  split at hc
  · split at hc
    · next hs =>
      cases hc
      exact (hg.isChain_chainThrough hs).1
    · cases hc
  · cases hc

theorem Sound.isChain_of_chainAt? (hg : g.Sound) {el : Element} (hc : g.chainAt? el = some c) :
    g.IsChain c := by
  cases el with
  | node n =>
    simp only [chainAt?] at hc
    split at hc
    · next hs =>
      cases hc
      exact (hg.isChain_chainThrough hs).1
    · obtain ⟨m, -, hm⟩ := Option.bind_eq_some_iff.mp hc
      rw [Option.orElse_eq_orElse, Option.orElse_eq_or, Option.or_eq_some_iff] at hm
      rcases hm with hm | ⟨-, hm⟩
      · exact hg.isChain_of_chainThroughOnly hm
      · exact hg.isChain_of_chainThroughOnly hm
  | edge e =>
    obtain ⟨d, -, hd⟩ := Option.bind_eq_some_iff.mp hc
    split at hd
    · next hs =>
      cases hd
      exact (hg.isChain_chainThrough hs).1
    · split at hd
      · next hs =>
        cases hd
        exact (hg.isChain_chainThrough hs).1
      · cases hd

end CommitGraph.Graph
