import CommitGraph.Label
import CommitGraph.Proofs.History.LogHeads
import CommitGraph.Proofs.History.ReadBack
import CommitGraph.Proofs.Repository.Heads

namespace CommitGraph

open Text

/-- Only parents outside the history stand in the row. -/
def Graph.IsEndRow (g : Graph) (row : Nat) : Prop :=
  ∀ n ∈ g.nodesInRow row, ∃ m, g.nodes[n]? = some m ∧ m.kind = .unloaded

namespace History

variable {h : History} {c : CommitId} {cs : List CommitId} {text : String}
  {named : List (String × String)}

def hashLine (h : History) (cs : List CommitId) : String := " ".intercalate (cs.map h.shortHash)

/-- Nothing but its hash is known of the commit. -/
def IsBare (h : History) (c : CommitId) : Prop := h.namesOf c = [] ∧ h.subject? c = none

theorem hashLine_singleton (h : History) (c : CommitId) : h.hashLine [c] = h.shortHash c := by
  simp [hashLine]

theorem describe_eq_iff : h.describe c = h.hashLine [c] ↔ h.IsBare c := by
  rw [hashLine_singleton, describe, IsBare]
  constructor
  · intro heq
    have hlength := congrArg String.length heq
    have hopen : " (".length = 2 := rfl
    cases hn : h.namesOf c with
    | nil =>
      cases hs : h.subject? c with
      | none => exact ⟨rfl, rfl⟩
      | some s => simp [hn, hs] at hlength
    | cons n ns =>
      simp only [hn, String.length_append] at hlength
      omega
  · rintro ⟨hn, hs⟩
    simp [hn, hs]

theorem describeAll_eq_hashLine (hcs : ∀ c, cs = [c] → h.IsBare c) :
    h.describeAll cs = h.hashLine cs := by
  unfold describeAll
  split
  · next c => exact describe_eq_iff.mpr (hcs c rfl)
  · rfl

theorem isBare_iff (hs : h.subject? c = none) :
    h.IsBare c ↔ ¬ ∃ q ∈ h.references, q.target = c := by
  simp [IsBare, namesOf, hs, List.filter_eq_nil_iff]

theorem number?_of_resolve {n : Numbering} {a : String × String} {q : Reference}
    (hq : resolve n a = .ok q) : n.number? a.2 = some q.target := by
  unfold resolve at hq
  split at hq
  · next hid =>
    cases hq
    exact hid
  · cases hq

theorem subject?_of_log (hload : ofLog text named = .ok h) (c : CommitId) :
    h.subject? c = none := by
  obtain ⟨ls, -, hh⟩ := bind_eq_ok.mp hload
  cases named with
  | nil =>
    cases hh
    rfl
  | cons a named =>
    obtain ⟨references, -, hh⟩ := bind_eq_ok.mp hh
    cases hh
    rfl

theorem exists_reference_of_log (hload : ofLog text named = .ok h) (hne : named ≠ []) :
    (∃ q ∈ h.references, q.target = c) ↔ ∃ a ∈ named, h.hashes.number? a.2 = some c := by
  obtain ⟨ls, -, hh⟩ := bind_eq_ok.mp hload
  cases named with
  | nil => exact absurd rfl hne
  | cons a named =>
    obtain ⟨references, hreferences, hh⟩ := bind_eq_ok.mp hh
    cases hh
    have hresolve := mapM_eq_ok.mp hreferences
    constructor
    · rintro ⟨q, hq, rfl⟩
      obtain ⟨a, ha, hq⟩ := exists_mem_left hresolve hq
      exact ⟨a, ha, number?_of_resolve hq⟩
    · rintro ⟨a, ha, hc⟩
      obtain ⟨q, hq, hresolved⟩ := exists_mem_right hresolve ha
      exact ⟨q, hq, Option.some_inj.mp ((number?_of_resolve hresolved).symm.trans hc)⟩

theorem isBare_iff_of_log (hload : ofLog text named = .ok h) (hc : c ∉ h.commits.map (·.id)) :
    h.IsBare c ↔ ∀ a ∈ named, h.hashes.number? a.2 ≠ some c := by
  rw [isBare_iff (subject?_of_log hload c)]
  cases named with
  | nil =>
    obtain ⟨ls, -, rfl⟩ := exists_lines_of_ofLog hload
    refine iff_of_true ?_ (by simp)
    rintro ⟨q, hq, rfl⟩
    obtain ⟨d, hd, rfl⟩ := List.mem_map.mp hq
    exact hc (List.mem_map_of_mem (List.mem_of_mem_filter hd))
  | cons a named =>
    rw [exists_reference_of_log hload (List.cons_ne_nil a named)]
    push Not
    rfl

end History

namespace Repository

variable {r : Repository} {lib : Library} {limit : Option Nat} {root : RootId}
  {head : Option String} {h : History} {c : CommitId} {hash : String}

theorem subject?_of_load (hhead : r.headCommit lib = .ok head)
    (hload : r.loadBy lib limit root = .ok h) (hc : c ∉ h.commits.map (·.id)) :
    h.subject? c = none := by
  rw [loadBy_eq hhead] at hload
  cases hload
  rw [map_id_historyAlong] at hc
  rw [History.subject?, subjects_historyAlong, List.lookup_eq_none_iff]
  intro s hs
  obtain ⟨a, ha, hsubject⟩ := List.mem_filterMap.mp hs
  obtain ⟨_, -, rfl⟩ := Option.map_eq_some_iff.mp hsubject
  rw [bne_iff_ne]
  rintro rfl
  exact hc (List.mem_map_of_mem ha)

/-- Of a commit outside the history its hash is known, and a reference if one leads there. -/
theorem isBare_iff_of_load (hhead : r.headCommit lib = .ok head)
    (hload : r.loadBy lib limit root = .ok h) (hroom : h.hashes.HasRoom)
    (hc : c ∉ h.commits.map (·.id)) (hhash : h.hashes.number? hash = some c) :
    h.IsBare c ↔ ¬ r.Marks lib head hash := by
  have hnone := subject?_of_load hhead hload hc
  rw [loadBy_eq hhead] at hload
  cases hload
  obtain ⟨hmem, rfl⟩ := Numbering.mem_of_number? agrees_historyAlong hhash
  rw [History.isBare_iff hnone]
  exact not_congr (exists_reference_iff agrees_historyAlong hroom hmem root)

end Repository

namespace Graph

variable {g : Graph} {cs : List Commit} {references : List Reference} {row : Nat}

theorem isEndRow_iff (hb : build cs references = .ok g) : g.IsEndRow row ↔ cs.length ≤ row := by
  have hg := depicts_of_build hb
  constructor
  · intro hrow
    by_contra hlt
    obtain ⟨n, m, hns, hm, hk, -⟩ :=
      hg.row_of_commit (List.getElem?_eq_getElem (Nat.lt_of_not_le hlt))
    obtain ⟨m', hm', hk'⟩ := hrow n (by simp [nodesInRow, hns])
    cases hm.symm.trans hm'
    cases hk.symm.trans hk'
  · intro hle n hn
    obtain ⟨m, hm, rfl⟩ := hg.mem_nodesInRow.mp hn
    refine ⟨m, hm, ?_⟩
    by_contra hk
    obtain ⟨c, hc, -⟩ := hg.commit_of_placed hm (kind_eq_loaded hk)
    exact Nat.not_lt_of_le hle (List.getElem?_eq_some_iff.mp hc).1

/-- The first of these rows has all parents outside the history, and there is no other. -/
theorem commitsInRow_of_isEndRow (hb : build cs references = .ok g) (hrow : g.IsEndRow row) :
    g.commitsInRow row = if row = cs.length then outside cs else [] := by
  have hsize := size_rows_build hb
  rcases Nat.eq_or_lt_of_le ((isEndRow_iff hb).mp hrow) with rfl | hgt
  · rw [if_pos rfl]
    by_cases hnone : outside cs = []
    · rw [if_pos hnone] at hsize
      simp [commitsInRow, nodesInRow, hsize, hnone]
    · obtain ⟨ns, hns, hall⟩ := last_row_build hb hnone
      have hcommits := filterMap_eq_filterMap_of_forall₂ (g := some) hall fun n p hn => by
        obtain ⟨m, hm, -, hp, -⟩ := hn
        exact (congrArg (Option.map (·.commit)) hm).trans (congrArg some hp)
      rw [commitsInRow, nodesInRow, hns, Option.getD_some, hcommits, List.filterMap_some]
  · rw [if_neg (Nat.ne_of_gt hgt)]
    have hbeyond : g.rows.size ≤ row := by
      rw [hsize]
      split <;> omega
    simp [commitsInRow, nodesInRow, Array.getElem?_eq_none hbeyond]

theorem not_mem_of_mem_outside {c : CommitId} (hc : c ∈ outside cs) : c ∉ cs.map (·.id) := by
  rw [outside, List.mem_eraseDups, List.mem_filter, decide_eq_true_eq] at hc
  exact hc.2

/-- Beside the parents outside the history their hashes are written, unless it is a single parent of
which more is known: then a description of it. From a log more is known of it if a reference was
asked for there, and from a repository if the head or a reference that is shown leads there. -/
theorem label_of_end_row {h : History} (hb : build h.commits h.references = .ok g)
    (hrow : g.IsEndRow row) (ruler : Ruler) (width : Nat) :
    g.commitsInRow row = (if row = h.commits.length then outside h.commits else []) ∧
      ((∀ c, g.commitsInRow row = [c] → h.IsBare c) →
        g.label h ruler width row = ruler.fit width (h.hashLine (g.commitsInRow row))) ∧
      (∀ c, g.commitsInRow row = [c] → ¬ h.IsBare c →
        g.label h ruler width row = ruler.fit width (h.describe c) ∧
          h.describe c ≠ h.hashLine [c]) ∧
      ∀ c ∈ g.commitsInRow row,
        (∀ text named, History.ofLog text named = .ok h →
          (h.IsBare c ↔ ∀ a ∈ named, h.hashes.number? a.2 ≠ some c)) ∧
        ∀ (r : Repository) lib limit root head hash, r.headCommit lib = .ok head →
          r.loadBy lib limit root = .ok h → h.hashes.HasRoom →
          h.hashes.number? hash = some c → (h.IsBare c ↔ ¬ r.Marks lib head hash) := by
  have hcommits := commitsInRow_of_isEndRow hb hrow
  refine ⟨hcommits, fun hbare => ?_, fun c hc hmore => ?_, fun c hc => ?_⟩
  · rw [label, History.describeAll_eq_hashLine hbare]
  · rw [label, hc]
    exact ⟨rfl, mt History.describe_eq_iff.mp hmore⟩
  · have hout : c ∉ h.commits.map (·.id) := by
      rw [hcommits] at hc
      split at hc
      · exact not_mem_of_mem_outside hc
      · cases hc
    exact ⟨fun _ _ hload => History.isBare_iff_of_log hload hout,
      fun _ _ _ _ _ _ hhead hload hroom hhash =>
        Repository.isBare_iff_of_load hhead hload hroom hout hhash⟩

/-- Two parents outside a log, one of them with a reference. -/
theorem label_of_end_row_merge :
    ∃ h g, History.ofLog "1|-cafe|-beef dead\n" [("main", "beef")] = .ok h ∧
      build h.commits h.references = .ok g ∧ g.IsEndRow 1 ∧
      g.commitsInRow 1 = [1, 2] ∧ g.label h .terminal 60 1 = "beef dead" := by
  have htext : LogLine.parseLog "1|-cafe|-beef dead\n" = .ok [⟨1, "cafe", ["beef", "dead"]⟩] := by
    decide
  have hload : History.ofLog "1|-cafe|-beef dead\n" [("main", "beef")] = .ok
      ⟨[⟨0, [1, 2], 1⟩], [⟨"main", 1, .branch, 0⟩], (Numbering.empty.assignAll ["cafe", "beef", "dead"]).2, []⟩ := by
    rw [History.ofLog, htext]
    decide
  obtain ⟨g, hb⟩ : ∃ g, build [⟨0, [1, 2], 1⟩] [⟨"main", 1, .branch, 0⟩] = .ok g := ⟨_, rfl⟩
  have hrow : g.IsEndRow 1 := (isEndRow_iff hb).mpr (Nat.le_refl 1)
  obtain ⟨hcommits, hlabel, -⟩ :=
    label_of_end_row (h := ⟨_, _, (Numbering.empty.assignAll ["cafe", "beef", "dead"]).2, []⟩) hb hrow .terminal 60
  have hpair : g.commitsInRow 1 = [1, 2] := hcommits.trans (by decide)
  rw [hpair] at hlabel
  refine ⟨_, g, hload, hb, hrow, hpair, (hlabel (by simp)).trans ?_⟩
  decide +kernel

/-- A reference on the only parent outside a log is written beside it. -/
theorem label_of_marked_parent :
    ∃ h g, History.ofLog "1|-cafe|-beef\n" [("main", "beef")] = .ok h ∧
      build h.commits h.references = .ok g ∧ g.IsEndRow 1 ∧
      g.label h .terminal 60 1 = "beef (main)" ∧
      Ruler.terminal.fit 60 (h.hashLine (g.commitsInRow 1)) = "beef" := by
  have htext : LogLine.parseLog "1|-cafe|-beef\n" = .ok [⟨1, "cafe", ["beef"]⟩] := by decide
  have hload : History.ofLog "1|-cafe|-beef\n" [("main", "beef")] = .ok
      ⟨[⟨0, [1], 1⟩], [⟨"main", 1, .branch, 0⟩], (Numbering.empty.assignAll ["cafe", "beef"]).2, []⟩ := by
    rw [History.ofLog, htext]
    decide
  obtain ⟨g, hb⟩ : ∃ g, build [⟨0, [1], 1⟩] [⟨"main", 1, .branch, 0⟩] = .ok g := ⟨_, rfl⟩
  have hrow : g.IsEndRow 1 := (isEndRow_iff hb).mpr (Nat.le_refl 1)
  have hcommits : g.commitsInRow 1 = [1] := (commitsInRow_of_isEndRow hb hrow).trans (by decide)
  refine ⟨_, g, hload, hb, hrow, ?_, ?_⟩
  · rw [label, hcommits]
    decide +kernel
  · rw [hcommits]
    decide +kernel

end Graph

end CommitGraph
