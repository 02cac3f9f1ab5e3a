import CommitGraph.Proofs.Graph.Depiction
import CommitGraph.Proofs.Lists

namespace CommitGraph

/-- What is wrong with a commit that follows others: it is one of them, or else one of its parents,
the first in its own order to count, is one of them or the commit itself. -/
inductive Offends (before : List Commit) (c : Commit) : BuildError → Prop
  | duplicate : c.id ∈ before.map (·.id) → Offends before c (.duplicate c.id)
  | parentAbove {qs rs : List CommitId} {p : CommitId} : c.id ∉ before.map (·.id) →
    c.parents = qs ++ p :: rs → (∀ q ∈ qs, q ∉ (before ++ [c]).map (·.id)) →
    p ∈ (before ++ [c]).map (·.id) → Offends before c (.parentAbove c.id p)

namespace Graph

variable {g : Graph} {cs ds : List Commit} {references : List Reference} {e : BuildError}

theorem Grown.connect_eq_error_iff (hg : g.Grown cs) {c p : CommitId} {u : NodeId}
    {b : BranchId} : g.connect c u b p = .error e ↔ p ∈ cs.map (·.id) ∧ e = .parentAbove c p := by
  by_cases hp : p ∈ cs.map (·.id)
  · rw [hg.connect_eq_error c u b hp, Except.error.injEq]
    constructor
    · intro h
      exact ⟨hp, h.symm⟩
    · intro h
      exact h.2.symm
  · obtain ⟨h, hh⟩ := hg.connect_isOk c u b hp
    simp [hh, hp]

/-- The parents of a merge are looked at one by one, up to the first that stands above. -/
theorem Grown.connectMerge_eq_error_iff {c : CommitId} {u : NodeId} {head : Option CommitId}
    {t : Int} {ps qs : List CommitId} (hg : g.Grown (cs ++ [⟨c, qs, t⟩])) (hu : g.isPlaced u)
    (hr : g.rowOf u = cs.length) :
    Graph.connectMerge references c u head g ps = .error e ↔
      ∃ ks p rs, ps = ks ++ p :: rs ∧ (∀ k ∈ ks, k ∉ cs.map (·.id) ++ [c]) ∧
        p ∈ cs.map (·.id) ++ [c] ∧ e = .parentAbove c p := by
  induction ps generalizing g qs with
  | nil => simp [Graph.connectMerge]
  | cons p ps ih =>
    have hids : (cs ++ [(⟨c, qs, t⟩ : Commit)]).map (·.id) = cs.map (·.id) ++ [c] := by simp
    have hg' := hg.addBranch (.ofMerge c p (referencesOn references c) head)
    rw [Graph.connectMerge, exists_cons_split]
    -- The first parent stands above, or it is connected and the others decide.
    by_cases hp : p ∈ cs.map (·.id) ++ [c]
    · rw [hg'.connect_eq_error c u g.branches.size (hids ▸ hp)]
      constructor
      · intro h
        cases h
        exact .inl ⟨by simp, hp, rfl⟩
      · rintro (⟨-, -, rfl⟩ | ⟨ks, k, rs, -, hks, -⟩)
        · rfl
        · exact absurd hp (hks p List.mem_cons_self)
    · obtain ⟨k, hk⟩ := hg'.connect_isOk c u g.branches.size (hids ▸ hp)
      have hnext := ih (hg'.connect hu hr hk) (by rw [isPlaced_connect hk]; exact hu)
        (by rw [rowOf_connect hk]; exact hr)
      simp only [hk, bind, Except.bind, hnext, List.forall_mem_cons, hp, not_false_eq_true,
        true_and, false_and, and_false, false_or]

theorem offends_iff_of_not_mem {c : Commit} (hc : c.id ∉ cs.map (·.id)) :
    Offends cs c e ↔ ∃ ks p rs, c.parents = ks ++ p :: rs ∧
      (∀ k ∈ ks, k ∉ cs.map (·.id) ++ [c.id]) ∧ p ∈ cs.map (·.id) ++ [c.id] ∧
      e = .parentAbove c.id p := by
  have hids : (cs ++ [c]).map (·.id) = cs.map (·.id) ++ [c.id] := by simp
  constructor
  · rintro (hold | ⟨-, hps, hks, hp⟩)
    · exact absurd hold hc
    · exact ⟨_, _, _, hps, hids ▸ hks, hids ▸ hp, rfl⟩
  · rintro ⟨ks, p, rs, hps, hks, hp, rfl⟩
    exact .parentAbove hc hps (hids ▸ hks) (hids ▸ hp)

theorem Grown.append_eq_error_iff (hg : g.Grown cs) {c : Commit} :
    g.append references c = .error e ↔ Offends cs c e := by
  by_cases hc : c.id ∈ cs.map (·.id)
  · simp only [Graph.append, hg.claim_eq_error references hc, bind, Except.bind,
      Except.error.injEq]
    constructor
    · rintro rfl
      exact .duplicate hc
    · rintro (- | ⟨hnew, -⟩)
      · rfl
      · exact absurd hc hnew
  · obtain ⟨u, k, hk⟩ := hg.claim_isOk references hc
    obtain ⟨hplace, hu, hr⟩ := hg.place_claim hk c.time
    have hlast : (cs ++ [(⟨c.id, [], c.time⟩ : Commit)]).map (·.id) = cs.map (·.id) ++ [c.id] := by
      simp
    -- Whether there is one parent or not, the first one that stands above is what offends.
    rw [offends_iff_of_not_mem hc]
    simp only [Graph.append, hk, bind, Except.bind]
    split
    · next p hp =>
      rw [hplace.connect_eq_error_iff, hlast, hp, exists_cons_split]
      simp
    · exact hplace.connectMerge_eq_error_iff hu hr

theorem Grown.foldlM_eq_error_iff (hg : g.Grown cs) (hs : ∀ n, g.PassesBranch n)
    (ho : ChildrenFirst cs) :
    ds.foldlM (Graph.append references) g = .error e ↔
      ∃ before c after, ds = before ++ c :: after ∧ ChildrenFirst (cs ++ before) ∧
        Offends (cs ++ before) c e := by
  induction ds generalizing g cs with
  | nil => simp [pure, Except.pure]
  | cons d ds ih =>
    rw [List.foldlM_cons, exists_cons_split, List.append_nil]
    cases hd : g.append references d with
    | error e' =>
      -- The first commit is refused; a commit behind it would need it to be in order.
      constructor
      · intro h
        cases h
        exact .inl ⟨ho, hg.append_eq_error_iff.mp hd⟩
      · rintro (⟨-, hoff⟩ | ⟨before, c, after, -, hfirst, -⟩)
        · exact hd.symm.trans (hg.append_eq_error_iff.mpr hoff)
        · have hprefix : (cs ++ [d]).Sublist (cs ++ d :: before) := by simp
          have hok := childrenFirst_concat.mp (hfirst.sublist hprefix)
          obtain ⟨k, hk⟩ := (hg.append_isOk_iff references d).mpr hok.2
          simp [hd] at hk
    | ok k =>
      obtain ⟨hgrown, hpass⟩ := hg.append hs hd
      have hcons := childrenFirst_concat.mpr
        ⟨ho, (hg.append_isOk_iff references d).mp ⟨k, hd⟩⟩
      have hnext := ih hgrown hpass hcons
      have hnone : ¬ Offends cs d e := fun hoff =>
        nomatch hd.symm.trans (hg.append_eq_error_iff.mpr hoff)
      simp only [bind, Except.bind, hnext, List.append_assoc, List.singleton_append, hnone,
        and_false, false_or]

/-- A history has no graph exactly if one of its commits offends after others that are in order, and
what is wrong with this commit is the error. -/
theorem build_eq_error_iff :
    build cs references = .error e ↔
      ∃ before c after, cs = before ++ c :: after ∧ ChildrenFirst before ∧ Offends before c e := by
  have hfold : cs.foldlM (append references) empty = .error e ↔
      ∃ before c after, cs = before ++ c :: after ∧ ChildrenFirst ([] ++ before) ∧
        Offends ([] ++ before) c e :=
    Grown.empty.foldlM_eq_error_iff (by simp [PassesBranch, empty]) ⟨.nil, by simp⟩
  simp only [List.nil_append] at hfold
  rw [← hfold, build]
  cases cs.foldlM (append references) empty <;> simp [Except.map]

/-- A graph is made of exactly the histories that list children before their parents. Any other
history is refused at its first commit that is out of order, for what is wrong with that commit,
whatever the references and the commits behind it. -/
theorem build_verdict (cs : List Commit) (references : List Reference) :
    ((∃ g, build cs references = .ok g) ↔ ChildrenFirst cs) ∧
      (¬ ChildrenFirst cs → ∃ before c after e, cs = before ++ c :: after ∧
        ChildrenFirst before ∧ Offends before c e) ∧
      ∀ before c after e, cs = before ++ c :: after → ChildrenFirst before → Offends before c e →
        build cs references = .error e ∧
          ∀ after' references', build (before ++ c :: after') references' = .error e := by
  have hok := exists_build_iff cs references
  refine ⟨hok, fun hno => ?_, fun before c after e hcs hfirst hoff => ?_⟩
  · cases hb : build cs references with
    | ok g => exact absurd (hok.mp ⟨g, hb⟩) hno
    | error e =>
      obtain ⟨before, c, after, hcs, hfirst, hoff⟩ := build_eq_error_iff.mp hb
      exact ⟨before, c, after, e, hcs, hfirst, hoff⟩
  · refine ⟨build_eq_error_iff.mpr ⟨before, c, after, hcs, hfirst, hoff⟩, ?_⟩
    intro after' references'
    exact build_eq_error_iff.mpr ⟨before, c, after', rfl, hfirst, hoff⟩

/-- A second occurrence is told before what is wrong with its parents. -/
example : build [⟨1, [], 0⟩, ⟨2, [3], 0⟩, ⟨1, [1, 2], 0⟩, ⟨4, [2], 0⟩] [] =
    .error (.duplicate 1) := by
  decide

end Graph

end CommitGraph
