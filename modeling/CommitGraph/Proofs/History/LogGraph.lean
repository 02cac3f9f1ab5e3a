import CommitGraph.Proofs.Graph.Counts
import CommitGraph.Proofs.Graph.Record
import CommitGraph.Proofs.History.Numbering

namespace CommitGraph

namespace History

variable {n : Numbering} {ls : List LogLine} {l : LogLine} {text : String}

/-- No hash stands on two lines, and no line lists as a parent its own hash or that of an earlier
line. -/
def InOrder (ls : List LogLine) : Prop :=
  ls.Pairwise (fun k l => k.hash ≠ l.hash ∧ k.hash ∉ l.parents) ∧ ∀ l ∈ ls, l.hash ∉ l.parents

/-- The parents that have no line, in order of first mention. -/
def unlisted (ls : List LogLine) : List String :=
  ((ls.flatMap (·.parents)).filter (· ∉ ls.map (·.hash))).eraseDups

/-- The history holds the lines, with a number of its own for each hash. -/
structure Holds (h : History) (ls : List LogLine) : Prop where
  commits_eq : h.commits = ls.map (numbered h.hashes)
  agrees : h.hashes.Agrees
  mem_hashes : ∀ {k : String}, k ∈ h.hashes.hashes ↔ k ∈ mentioned ls
  hasRoom : h.hashes.HasRoom

variable {h : History}

theorem InOrder.sublist {ks : List LogLine} (hls : InOrder ls) (hsub : ks.Sublist ls) :
    InOrder ks :=
  ⟨hls.1.sublist hsub, fun l hl => hls.2 l (hsub.subset hl)⟩

theorem unlisted_eq_nil_iff :
    unlisted ls = [] ↔ ∀ l ∈ ls, ∀ p ∈ l.parents, p ∈ ls.map (·.hash) := by
  simp only [unlisted, List.eq_nil_iff_forall_not_mem, List.mem_eraseDups, List.mem_filter,
    List.mem_flatMap, decide_eq_true_eq]
  constructor
  · intro hnone l hl p hp
    by_contra hmissing
    exact hnone p ⟨⟨l, hl, hp⟩, hmissing⟩
  · rintro hlisted p ⟨⟨l, hl, hp⟩, hmissing⟩
    exact hmissing (hlisted l hl p hp)

theorem Holds.hash_mem (hh : h.Holds ls) (hl : l ∈ ls) : l.hash ∈ h.hashes.hashes :=
  hh.mem_hashes.mpr (hash_mem_mentioned hl)

theorem Holds.parent_mem (hh : h.Holds ls) {p : String} (hl : l ∈ ls) (hp : p ∈ l.parents) :
    p ∈ h.hashes.hashes :=
  hh.mem_hashes.mpr (parent_mem_mentioned hl hp)

theorem Holds.of_numberLines (hcommits : h.commits = (numberLines .empty ls).1)
    (hhashes : h.hashes = (numberLines .empty ls).2)
    (hfew : (mentioned ls).eraseDups.length ≤ UInt32.size) : h.Holds ls where
  commits_eq := by rw [hcommits, hhashes, fst_numberLines Numbering.agrees_empty]
  agrees := hhashes ▸ agrees_numberLines Numbering.agrees_empty ls
  mem_hashes := by
    intro k
    rw [hhashes, hashes_numberLines_empty, List.mem_eraseDups]
  hasRoom := by rwa [Numbering.HasRoom, Numbering.size, hhashes, hashes_numberLines_empty]

theorem Holds.commits_take {part full : History} {k : Nat} (hfull : full.Holds ls)
    (hpart : part.Holds (ls.take k)) (hhashes : part.hashes.hashes <+: full.hashes.hashes) :
    part.commits = full.commits.take k := by
  rw [hpart.commits_eq, hfull.commits_eq, ← List.map_take]
  apply List.map_congr_left
  intro l hl
  symm
  apply numbered_of_extends hhashes
  exact List.forall_mem_cons.mpr ⟨hpart.hash_mem hl, fun p hp => hpart.parent_mem hl hp⟩

theorem Holds.childrenFirst_iff (hh : h.Holds ls) : ChildrenFirst h.commits ↔ InOrder ls := by
  have hparents : ∀ {k l : LogLine}, k ∈ ls → l ∈ ls →
      ((numbered h.hashes k).id ∈ (numbered h.hashes l).parents ↔ k.hash ∈ l.parents) :=
    fun hk hl => Numbering.mem_map_numberOf hh.hasRoom (hh.hash_mem hk)
      fun p hp => hh.parent_mem hl hp
  rw [ChildrenFirst, InOrder, hh.commits_eq, List.pairwise_map]
  apply and_congr
  · apply List.Pairwise.iff_of_mem
    intro k l hk hl
    have hid : (numbered h.hashes k).id = (numbered h.hashes l).id ↔ k.hash = l.hash :=
      Numbering.numberOf_inj hh.hasRoom (hh.hash_mem hk) (hh.hash_mem hl)
    rw [ne_eq, hid, hparents hk hl]
  · rw [List.forall_mem_map]
    exact forall₂_congr fun l hl => not_congr (hparents hl hl)

theorem Holds.outside_eq (hh : h.Holds ls) :
    outside h.commits = (unlisted ls).map h.hashes.numberOf := by
  have hmem : ∀ p ∈ ls.flatMap (·.parents), p ∈ h.hashes.hashes := by
    intro p hp
    obtain ⟨l, hl, hpl⟩ := List.mem_flatMap.mp hp
    exact hh.parent_mem hl hpl
  have hhashes : ∀ k ∈ ls.map (·.hash), k ∈ h.hashes.hashes := by
    intro k hk
    obtain ⟨l, hl, rfl⟩ := List.mem_map.mp hk
    exact hh.hash_mem hl
  have hparents : h.commits.flatMap (·.parents) =
      (ls.flatMap (·.parents)).map h.hashes.numberOf := by
    rw [hh.commits_eq, List.flatMap_map, List.map_flatMap]
    rfl
  have hids : h.commits.map (·.id) = (ls.map (·.hash)).map h.hashes.numberOf := by
    rw [hh.commits_eq, List.map_map, List.map_map]
    rfl
  -- Different hashes have different numbers, so numbering joins no parents.
  rw [outside, unlisted, hparents, hids, List.filter_map, ← eraseDups_map]
  · congr 2
    apply List.filter_congr
    intro p hp
    rw [Function.comp_apply, decide_eq_decide,
      Numbering.mem_map_numberOf hh.hasRoom (hmem p hp) hhashes]
  · intro p hp q hq
    exact (Numbering.numberOf_inj hh.hasRoom (hmem p (List.mem_of_mem_filter hp))
      (hmem q (List.mem_of_mem_filter hq))).mp

theorem Holds.mentions_iff (hh : h.Holds ls) {c : CommitId} :
    (∃ d ∈ h.commits, c = d.id ∨ c ∈ d.parents) ↔
      ∃ s ∈ mentioned ls, h.hashes.numberOf s = c := by
  rw [hh.commits_eq]
  constructor
  · rintro ⟨d, hd, hc⟩
    obtain ⟨l, hl, rfl⟩ := List.mem_map.mp hd
    rcases hc with rfl | hc
    · exact ⟨l.hash, hash_mem_mentioned hl, rfl⟩
    · obtain ⟨p, hp, rfl⟩ := List.mem_map.mp hc
      exact ⟨p, parent_mem_mentioned hl hp, rfl⟩
  · rintro ⟨s, hs, rfl⟩
    obtain ⟨l, hl, hs⟩ := List.mem_flatMap.mp hs
    refine ⟨numbered h.hashes l, List.mem_map_of_mem hl, ?_⟩
    rcases List.mem_cons.mp hs with rfl | hs
    · exact .inl rfl
    · exact .inr (List.mem_map_of_mem hs)

end History

namespace Graph

variable {g : Graph} {h : History} {ls : List LogLine} {k : NodeId} {c p : CommitId}
  {references : List Reference}

def hashAt (g : Graph) (n : Numbering) (k : NodeId) : Option String :=
  g.nodes[k]?.bind fun m => n.hash? m.commit

/-- The graph has a row for each line, with the line's parents below it, and one more row for the
parents without a line. -/
structure Shows (g : Graph) (h : History) (ls : List LogLine) : Prop where
  row_of_line : ∀ {i : Nat} {l : LogLine}, ls[i]? = some l →
    ∃ k m c, g.rows[i]? = some [k] ∧ g.nodes[k]? = some m ∧ m.kind = .loaded ∧
      g.hashAt h.hashes k = some l.hash ∧
      (g.downNodes m).map (g.hashAt h.hashes) = l.parents.map some ∧
      h.commits[i]? = some c ∧ c.id = m.commit ∧ c.time = l.time
  size_rows : g.rows.size = ls.length + if History.unlisted ls = [] then 0 else 1
  last_row : History.unlisted ls ≠ [] → ∃ ks, g.rows[ls.length]? = some ks ∧
    (∀ k ∈ ks, ∃ m, g.nodes[k]? = some m ∧ m.kind = .unloaded) ∧
    ks.map (g.hashAt h.hashes) = (History.unlisted ls).map some
  /-- Each hash that is mentioned has one node, and there are no other nodes. -/
  exists_node_iff : ∀ {s : String}, (∃ k, g.hashAt h.hashes k = some s) ↔ s ∈ History.mentioned ls
  exists_hash : ∀ {k : NodeId}, k < g.nodes.size → ∃ s, g.hashAt h.hashes k = some s
  node_unique : ∀ {k k' : NodeId} {s : String}, g.hashAt h.hashes k = some s →
    g.hashAt h.hashes k' = some s → k = k'
  size_edges : g.edges.size = (ls.map (·.parents.length)).sum

theorem hashAt_of_nodeOf? {n : Numbering} (hk : g.nodeOf? c = some k) :
    g.hashAt n k = n.hash? c := by
  obtain ⟨m, hm, rfl⟩ := commit_of_nodeOf? hk
  rw [hashAt, hm, Option.bind_some]

theorem forall₂_lower {es : List EdgeId} {ps : List CommitId}
    (hdown : List.Forall₂ (fun e p => ∃ d, g.edges[e]? = some d ∧ d.upper = k ∧
      g.nodeOf? p = some d.lower) es ps) :
    List.Forall₂ (fun j p => g.nodeOf? p = some j)
      (es.filterMap fun e => g.edges[e]?.map (·.lower)) ps := by
  induction hdown with
  | nil => exact .nil
  | cons hd _ ih =>
    obtain ⟨d, hd, -, hl⟩ := hd
    rw [List.filterMap_cons_some (by rw [hd]; rfl)]
    exact .cons hl ih

theorem map_hashAt {n : Numbering} {hs : List String} {ks : List NodeId} (hn : n.HasRoom)
    (hhs : ∀ s ∈ hs, s ∈ n.hashes)
    (hks : List.Forall₂ (fun k c => g.nodeOf? c = some k) ks (hs.map n.numberOf)) :
    ks.map (g.hashAt n) = hs.map some := by
  rw [map_eq_map_of_forall₂ hks fun k c hk => hashAt_of_nodeOf? hk, List.map_map]
  exact List.map_congr_left fun s hs => Numbering.hash?_numberOf hn (hhs s hs)

theorem hashAt_eq_some_iff (hh : h.Holds ls) (hb : build h.commits references = .ok g)
    {s : String} : g.hashAt h.hashes k = some s ↔
      s ∈ History.mentioned ls ∧ g.nodeOf? (h.hashes.numberOf s) = some k := by
  constructor
  · intro hs
    obtain ⟨m, hm, hs⟩ := Option.bind_eq_some_iff.mp hs
    have hk := (depicts_of_build hb).nodeOf?_commit hm
    obtain ⟨s', hs', hnumber⟩ := hh.mentions_iff.mp ((exists_nodeOf?_iff hb).mp ⟨k, hk⟩)
    have hhash := Numbering.hash?_numberOf hh.hasRoom (hh.mem_hashes.mpr hs')
    rw [hnumber, hs, Option.some_inj] at hhash
    subst hhash
    exact ⟨hs', hnumber ▸ hk⟩
  · rintro ⟨hs, hk⟩
    rw [hashAt_of_nodeOf? hk, Numbering.hash?_numberOf hh.hasRoom (hh.mem_hashes.mpr hs)]

/-- The graph of numbered lines shows the lines. -/
theorem shows_of_build (hh : h.Holds ls) (hb : build h.commits references = .ok g) :
    g.Shows h ls := by
  have hg := depicts_of_build hb
  have houtside := hh.outside_eq
  have hnone : outside h.commits = [] ↔ History.unlisted ls = [] := by
    rw [houtside, List.map_eq_nil_iff]
  have hlength : h.commits.length = ls.length := by rw [hh.commits_eq, List.length_map]
  -- The graph depicts the numbered lines. What is left is to read numbers as hashes again.
  constructor
  case row_of_line =>
    intro i l hl
    have hmem := List.mem_of_getElem? hl
    have hc : h.commits[i]? = some (History.numbered h.hashes l) := by
      rw [hh.commits_eq, List.getElem?_map, hl]
      rfl
    obtain ⟨k, m, hrow, hm, hkind, hid, hdown⟩ := hg.row_of_commit hc
    have hk := hg.nodeOf?_eq_some_iff.mpr ⟨m, hm, hid⟩
    refine ⟨k, m, _, hrow, hm, hkind, ?_, ?_, hc, hid.symm, rfl⟩
    · exact (hashAt_eq_some_iff hh hb).mpr ⟨History.hash_mem_mentioned hmem, hk⟩
    · exact map_hashAt hh.hasRoom (fun p hp => hh.parent_mem hmem hp) (forall₂_lower hdown)
  case size_rows => simp only [size_rows_build hb, hlength, hnone]
  case last_row =>
    intro hne
    obtain ⟨ks, hrow, hks⟩ := last_row_build hb (mt hnone.mp hne)
    rw [hlength] at hrow
    refine ⟨ks, hrow, ?_, ?_⟩
    · intro k hk
      obtain ⟨p, -, m, hm, hkind, -⟩ := exists_mem_right hks hk
      exact ⟨m, hm, hkind⟩
    · rw [houtside] at hks
      apply map_hashAt hh.hasRoom
      · intro s hs
        rw [History.unlisted, List.mem_eraseDups, List.mem_filter, List.mem_flatMap] at hs
        obtain ⟨⟨l, hl, hp⟩, -⟩ := hs
        exact hh.parent_mem hl hp
      · refine hks.imp ?_
        rintro k c ⟨m, hm, -, rfl, -⟩
        exact hg.nodeOf?_commit hm
  case exists_node_iff =>
    intro s
    simp only [hashAt_eq_some_iff hh hb]
    constructor
    · rintro ⟨k, hs, -⟩
      exact hs
    · intro hs
      obtain ⟨k, hk⟩ := (exists_nodeOf?_iff hb).mpr (hh.mentions_iff.mpr ⟨s, hs, rfl⟩)
      exact ⟨k, hs, hk⟩
  case exists_hash =>
    intro k hk
    have hm := Array.getElem?_eq_getElem hk
    have hn := hg.nodeOf?_commit hm
    obtain ⟨s, hs, hnumber⟩ := hh.mentions_iff.mp ((exists_nodeOf?_iff hb).mp ⟨k, hn⟩)
    exact ⟨s, (hashAt_eq_some_iff hh hb).mpr ⟨hs, hnumber ▸ hn⟩⟩
  case node_unique =>
    intro k k' s hk hk'
    rw [hashAt_eq_some_iff hh hb] at hk hk'
    exact Option.some_inj.mp (hk.2.symm.trans hk'.2)
  case size_edges =>
    rw [size_edges_build hb, hh.commits_eq, List.map_map]
    congr 1
    apply List.map_congr_left
    intro l _
    exact List.length_map _

end Graph

namespace History

variable {ls : List LogLine} {text : String}

/-- A text log is loaded, and its graph exists exactly if its lines are in order. The graph has the
hashes of the lines in its rows, their parents below them, and the parents without a line at the
end. -/
theorem graph_of_log (htext : LogLine.parseLog text = .ok ls)
    (hfew : (mentioned ls).eraseDups.length < UInt32.size) :
    ∃ h, ofLog text [] = .ok h ∧
      ((∃ g, Graph.build h.commits h.references = .ok g) ↔ InOrder ls) ∧
      ∀ g, Graph.build h.commits h.references = .ok g → g.Shows h ls := by
  refine ⟨⟨(numberLines .empty ls).1, headReferences (numberLines .empty ls).1
    (numberLines .empty ls).2, (numberLines .empty ls).2, []⟩, ?_, ?_, ?_⟩
  · rw [ofLog, htext]
    rfl
  · rw [Graph.exists_build_iff]
    exact (Holds.of_numberLines rfl rfl (Nat.le_of_lt hfew)).childrenFirst_iff
  · intro g hb
    exact Graph.shows_of_build (Holds.of_numberLines rfl rfl (Nat.le_of_lt hfew)) hb

/-- Two heads with a common parent, which one of them lists twice, and two parents without a
line. -/
theorem graph_of_log_shared :
    ∃ h g, ofLog "9|-d|-b x\n7|-c|-a b b\n5|-b|-a\n" [] = .ok h ∧
      Graph.build h.commits h.references = .ok g ∧
      g.Shows h [⟨9, "d", ["b", "x"]⟩, ⟨7, "c", ["a", "b", "b"]⟩, ⟨5, "b", ["a"]⟩] ∧
      unlisted [⟨9, "d", ["b", "x"]⟩, ⟨7, "c", ["a", "b", "b"]⟩, ⟨5, "b", ["a"]⟩] = ["x", "a"] := by
  have htext : LogLine.parseLog "9|-d|-b x\n7|-c|-a b b\n5|-b|-a\n" =
      .ok [⟨9, "d", ["b", "x"]⟩, ⟨7, "c", ["a", "b", "b"]⟩, ⟨5, "b", ["a"]⟩] := by decide
  have horder : InOrder [⟨9, "d", ["b", "x"]⟩, ⟨7, "c", ["a", "b", "b"]⟩, ⟨5, "b", ["a"]⟩] := by
    unfold InOrder
    decide
  obtain ⟨h, hload, hbuild, hshows⟩ := graph_of_log htext (by decide)
  obtain ⟨g, hg⟩ := hbuild.mpr horder
  exact ⟨h, g, hload, hg, hshows g hg, by decide⟩

end History

end CommitGraph
