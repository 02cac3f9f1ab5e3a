import CommitGraph.Proofs.Except
import CommitGraph.Proofs.History.Numbering

namespace CommitGraph

namespace Numbering

variable {n : Numbering} {h : String} {hs : List String} {i : CommitId}

/-- The number is that of the hash, and asking for it again changes nothing. -/
def Knows (n : Numbering) (h : String) (i : CommitId) : Prop :=
  n.number? h = some i ∧ n.assign h = (i, n)

/-- The numbering was asked for the hashes one after the other, and gave the numbers. -/
structure Numbers (n : Numbering) (hs : List String) (ids : List CommitId) : Prop where
  /-- The hashes are held once each, in order of first mention. -/
  hashes_eq : n.hashes = hs.eraseDups
  /-- Each number is the place of its hash among them. -/
  places : ids.map (·.toNat) = hs.map n.hashes.idxOf
  number?_eq_some_iff : ∀ {h : String} {i : CommitId}, n.number? h = some i ↔ n.hash? i = some h
  /-- Whatever hashes are asked for later, the numbers stay. -/
  kept : ∀ ks : List String, List.Forall₂ (n.assignAll ks).2.Knows hs ids

theorem mem_of_number? (hn : n.Agrees) (hi : n.number? h = some i) :
    h ∈ n.hashes ∧ i = n.numberOf h := by
  by_cases hh : h ∈ n.hashes
  · rw [number?_of_mem hn hh, Option.some_inj] at hi
    exact ⟨hh, hi.symm⟩
  · rw [number?_of_not_mem hn hh] at hi
    cases hi

theorem number?_eq_some_iff (hn : n.Agrees) (hroom : n.HasRoom) (hnodup : n.hashes.Nodup) :
    n.number? h = some i ↔ n.hash? i = some h := by
  constructor
  · intro hi
    obtain ⟨hh, rfl⟩ := mem_of_number? hn hi
    exact hash?_numberOf hroom hh
  · intro hh
    -- In a list without repetitions the place of a hash is the only one where it stands.
    obtain ⟨hlt, rfl⟩ := List.getElem?_eq_some_iff.mp hh
    rw [number?_of_mem hn (List.getElem_mem hlt), numberOf, hnodup.idxOf_getElem _ hlt,
      UInt32.ofNat_toNat]

theorem knows_numberOf (hn : n.Agrees) (hh : h ∈ n.hashes) : n.Knows h (n.numberOf h) := by
  rw [Knows, assign, number?_of_mem hn hh]
  exact ⟨rfl, rfl⟩

theorem hashes_assignAll_empty (hs : List String) :
    (empty.assignAll hs).2.hashes = hs.eraseDups := by
  have hnone : empty.hashes = ([] : List String).eraseDups := rfl
  rw [hashes_assignAll_eraseDups agrees_empty hnone, List.nil_append]

theorem numbers_assignAll (hfew : hs.eraseDups.length ≤ UInt32.size) :
    Numbers (empty.assignAll hs).2 hs (empty.assignAll hs).1 := by
  have hhashes := hashes_assignAll_empty hs
  have hroom : (empty.assignAll hs).2.HasRoom := by rwa [HasRoom, size, hhashes]
  have hagrees := agrees_empty.assignAll hs
  obtain ⟨hids, hmem⟩ := fst_assignAll agrees_empty hs
  refine ⟨hhashes, ?_, number?_eq_some_iff hagrees hroom (hhashes ▸ nodup_eraseDups hs),
    fun ks => ?_⟩
  · rw [hids, List.map_map]
    exact List.map_congr_left fun h hh => toNat_numberOf hroom (hmem h hh)
  · have hgrows := (empty.assignAll hs).2.assignAll_extends ks
    rw [hids, List.forall₂_map_right_iff, List.forall₂_same]
    intro h hh
    rw [← numberOf_of_extends hgrows (hmem h hh)]
    exact knows_numberOf (hagrees.assignAll ks) (hgrows.subset (hmem h hh))

end Numbering

namespace History

variable {n : Numbering} {hs : List String} {ls : List LogLine} {l : LogLine}

/-- The line of a commit, with the hashes of the numbers. -/
def lineOf? (n : Numbering) (c : Commit) : Option LogLine := do
  let hash ← n.hash? c.id
  let parents ← c.parents.mapM n.hash?
  return ⟨c.time, hash, parents⟩

theorem lineOf?_numbered (hn : n.HasRoom) (hhash : l.hash ∈ n.hashes)
    (hparents : ∀ p ∈ l.parents, p ∈ n.hashes) : lineOf? n (numbered n l) = some l := by
  have hread : (l.parents.map n.numberOf).mapM n.hash? = some l.parents := by
    rw [mapM_eq_some, List.forall₂_map_left_iff, List.forall₂_same]
    exact fun p hp => Numbering.hash?_numberOf hn (hparents p hp)
  rw [lineOf?, numbered, Numbering.hash?_numberOf hn hhash, hread]
  rfl

theorem map_lineOf?_numberLines (hn : n.Agrees) (hhs : n.hashes = hs.eraseDups)
    (hfew : (hs ++ mentioned ls).eraseDups.length ≤ UInt32.size) :
    (numberLines n ls).1.map (lineOf? (numberLines n ls).2) = ls.map some := by
  have hhashes := hashes_numberLines hn hhs ls
  have hroom : (numberLines n ls).2.HasRoom := by
    rwa [Numbering.HasRoom, Numbering.size, hhashes]
  have hmem : ∀ k ∈ mentioned ls, k ∈ (numberLines n ls).2.hashes := fun k hk => by
    rw [hhashes, List.mem_eraseDups]
    exact List.mem_append_right _ hk
  rw [fst_numberLines hn, List.map_map]
  apply List.map_congr_left
  intro l hl
  exact lineOf?_numbered hroom (hmem _ (hash_mem_mentioned hl))
    fun p hp => hmem p (parent_mem_mentioned hl hp)

/-- A numbering matches the hashes that it was asked for with their places, for good; and lines
that are numbered with it come back, one for each commit. -/
theorem numbers_of_run (hs : List String) (hfew : hs.eraseDups.length ≤ UInt32.size) :
    Numbering.Numbers (Numbering.empty.assignAll hs).2 hs (Numbering.empty.assignAll hs).1 ∧
      ∀ ls : List LogLine, (hs ++ mentioned ls).eraseDups.length ≤ UInt32.size →
        (numberLines (Numbering.empty.assignAll hs).2 ls).1.map
          (lineOf? (numberLines (Numbering.empty.assignAll hs).2 ls).2) = ls.map some :=
  ⟨Numbering.numbers_assignAll hfew,
    fun _ => map_lineOf?_numberLines (Numbering.agrees_empty.assignAll hs)
      (Numbering.hashes_assignAll_empty hs)⟩

/-- A hash that is asked for twice, and lines that mention old and new hashes. -/
theorem numbers_of_run_repeated :
    ["b", "a", "b"].eraseDups.length ≤ UInt32.size ∧
      (Numbering.empty.assignAll ["b", "a", "b"]).1 = [0, 1, 0] ∧
      ∃ n : Numbering, n = ⟨[("a", 1), ("b", 0)], ["b", "a"]⟩ ∧
        n.Numbers ["b", "a", "b"] [0, 1, 0] ∧
        ∃ ls : List LogLine, ls = [⟨7, "a", ["c", "b"]⟩, ⟨5, "c", ["d", "d"]⟩] ∧
          (["b", "a", "b"] ++ mentioned ls).eraseDups.length ≤ UInt32.size ∧
          (numberLines n ls).1 = [⟨1, [2, 0], 7⟩, ⟨2, [3, 3], 5⟩] ∧
          (numberLines n ls).1.map (lineOf? (numberLines n ls).2) = ls.map some := by
  have hfew : ["b", "a", "b"].eraseDups.length ≤ UInt32.size := by decide
  obtain ⟨hnumbers, hlines⟩ := numbers_of_run ["b", "a", "b"] hfew
  exact ⟨hfew, by decide, _, rfl, hnumbers, _, rfl, by decide, by decide, hlines _ (by decide)⟩

end History

end CommitGraph
