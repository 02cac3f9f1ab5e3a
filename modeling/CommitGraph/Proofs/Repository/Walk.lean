import CommitGraph.Proofs.Lists
import CommitGraph.Repository.Walk
import Mathlib.Algebra.GroupWithZero.Nat
import Mathlib.Algebra.Order.BigOperators.Group.List
import Mathlib.Algebra.Order.Group.Nat
import Mathlib.Data.Fintype.Order
import Mathlib.Logic.Relation

namespace CommitGraph.Repository

variable {r : Repository} {tips todo : List String} {found left : List (String × StoredCommit)}
  {h p : String} {c : StoredCommit} {fuel : Nat}

def HasParent (r : Repository) (h p : String) : Prop := ∃ c, r.commit? h = some c ∧ p ∈ c.parents

/-- What tips lead to by parent links. -/
def Reached (r : Repository) (tips : List String) (h : String) : Prop :=
  ∃ t ∈ tips, Relation.ReflTransGen r.HasParent t h

/-- A walk lists the commits that tips lead to, each of them once and after all its children. -/
structure IsWalk (r : Repository) (tips : List String) (walk : List (String × StoredCommit)) :
    Prop where
  mem_iff : ∀ {h : String}, h ∈ walk.map (·.1) ↔ r.Reached tips h
  commit_eq : ∀ {h : String} {c : StoredCommit}, (h, c) ∈ walk → r.commit? h = some c
  nodup : (walk.map (·.1)).Nodup
  child_before : ∀ {i j : Nat} {a b : String × StoredCommit}, walk[i]? = some a →
    walk[j]? = some b → b.1 ∈ a.2.parents → i < j

/-- All that tips lead to is in the repository, and no commit of it is its own ancestor. -/
structure Complete (r : Repository) (tips : List String) : Prop where
  exists_commit : ∀ {h : String}, r.Reached tips h → ∃ c, r.commit? h = some c
  acyclic : ∀ {h : String}, r.Reached tips h → ¬ Relation.TransGen r.HasParent h h

theorem Reached.parent (hh : r.Reached tips h) (hc : r.commit? h = some c) (hp : p ∈ c.parents) :
    r.Reached tips p := by
  obtain ⟨t, ht, hpath⟩ := hh
  exact ⟨t, ht, hpath.tail ⟨c, hc, hp⟩⟩

theorem rank_lt {rank : String → Nat}
    (hrank : ∀ {h p : String}, r.HasParent h p → rank p < rank h)
    (hh : Relation.TransGen r.HasParent h p) : rank p < rank h := by
  induction hh with
  | single hp => exact hrank hp
  | tail _ hp ih => exact (hrank hp).trans ih

def parentsOf : StoredObject → List String
  | .commit c => c.parents
  | _ => []

theorem mem_objects_of_commit? (hc : r.commit? h = some c) : (h, .commit c) ∈ r.objects := by
  rw [commit?, object?] at hc
  split at hc
  · next hlookup =>
    cases hc
    obtain ⟨front, back, hsplit, -⟩ := List.lookup_eq_some_iff.mp hlookup
    rw [hsplit]
    exact List.mem_append_right _ List.mem_cons_self
  · cases hc

/-- Nothing is missing where the tips and all parents are there and the parents rank lower. -/
theorem Complete.of_rank (rank : String → Nat) (htips : ∀ t ∈ tips, (r.commit? t).isSome)
    (hparents : ∀ o ∈ r.objects, ∀ p ∈ parentsOf o.2,
      rank p < rank o.1 ∧ (r.commit? p).isSome) : r.Complete tips := by
  have hparent : ∀ {h p : String}, r.HasParent h p → rank p < rank h ∧ (r.commit? p).isSome := by
    rintro h p ⟨c, hc, hp⟩
    exact hparents _ (mem_objects_of_commit? hc) p hp
  constructor
  · rintro h ⟨t, ht, hpath⟩
    rw [← Option.isSome_iff_exists]
    rcases hpath.cases_tail with rfl | ⟨_, -, hp⟩
    · exact htips _ ht
    · exact (hparent hp).2
  · intro h _ hcycle
    exact Nat.lt_irrefl _ (rank_lt (fun hp => (hparent hp).1) hcycle)

/-- A search has come upon a hash: it is found or to be looked at. -/
def Met (todo : List String) (found : List (String × StoredCommit)) (h : String) : Prop :=
  h ∈ found.map (·.1) ∨ h ∈ todo

theorem Met.skip (hm : Met (h :: todo) found p) (hh : h ∈ found.map (·.1)) : Met todo found p := by
  rcases hm with hm | hm
  · exact .inl hm
  · rcases List.mem_cons.mp hm with rfl | hm
    · exact .inl hh
    · exact .inr hm

theorem Met.find (hm : Met (h :: todo) found p) (c : StoredCommit) :
    Met (c.parents ++ todo) ((h, c) :: found) p := by
  rw [Met, List.map_cons, List.mem_cons, List.mem_append]
  rcases hm with hm | hm
  · exact .inl (.inr hm)
  · rcases List.mem_cons.mp hm with rfl | hm
    · exact .inl (.inl rfl)
    · exact .inr (.inr hm)

/-- The search has found some commits, and it has come upon the tips and all parents of these
commits, but upon nothing that the tips do not lead to. -/
structure Search (r : Repository) (tips todo : List String) (found : List (String × StoredCommit)) :
    Prop where
  commit_eq : ∀ {h : String} {c : StoredCommit}, (h, c) ∈ found → r.commit? h = some c
  nodup : (found.map (·.1)).Nodup
  reached : ∀ {h : String}, Met todo found h → r.Reached tips h
  tip : ∀ {t : String}, t ∈ tips → Met todo found t
  parent : ∀ {h p : String} {c : StoredCommit}, (h, c) ∈ found → p ∈ c.parents → Met todo found p

theorem Search.start (r : Repository) (tips : List String) : r.Search tips tips [] where
  commit_eq := by simp
  nodup := by simp
  reached := by
    intro h hh
    have htip : h ∈ tips := by simpa [Met] using hh
    exact ⟨h, htip, .refl⟩
  tip := .inr
  parent := by simp

theorem Search.skip (hs : r.Search tips (h :: todo) found) (hh : h ∈ found.map (·.1)) :
    r.Search tips todo found where
  commit_eq := hs.commit_eq
  nodup := hs.nodup
  reached := fun hm => hs.reached (hm.imp_right (List.mem_cons_of_mem _))
  tip := fun ht => (hs.tip ht).skip hh
  parent := fun hk hp => (hs.parent hk hp).skip hh

theorem Search.find (hs : r.Search tips (h :: todo) found) (hh : h ∉ found.map (·.1))
    (hc : r.commit? h = some c) : r.Search tips (c.parents ++ todo) ((h, c) :: found) where
  commit_eq := by
    intro k d hk
    rcases List.mem_cons.mp hk with hk | hk
    · cases hk
      exact hc
    · exact hs.commit_eq hk
  nodup := List.nodup_cons.mpr ⟨hh, hs.nodup⟩
  reached := by
    have hhead := hs.reached (.inr List.mem_cons_self)
    intro k hk
    rw [Met, List.map_cons, List.mem_cons, List.mem_append] at hk
    rcases hk with (rfl | hk) | hk | hk
    · exact hhead
    · exact hs.reached (.inl hk)
    · exact hhead.parent hc hk
    · exact hs.reached (.inr (List.mem_cons_of_mem _ hk))
  tip := fun ht => (hs.tip ht).find c
  parent := by
    intro k p d hk hp
    rcases List.mem_cons.mp hk with hk | hk
    · cases hk
      exact .inr (List.mem_append_left _ hp)
    · exact (hs.parent hk hp).find c

/-- When nothing is left to be looked at, all is found. -/
theorem Search.mem_iff (hs : r.Search tips [] found) : h ∈ found.map (·.1) ↔ r.Reached tips h := by
  constructor
  · intro hh
    exact hs.reached (.inl hh)
  · rintro ⟨t, ht, hpath⟩
    induction hpath with
    | refl => exact (hs.tip ht).resolve_right List.not_mem_nil
    | tail _ hparent ih =>
      obtain ⟨c, hc, hp⟩ := hparent
      obtain ⟨⟨k, d⟩, hk, rfl⟩ := List.mem_map.mp ih
      cases hc.symm.trans (hs.commit_eq hk)
      exact (hs.parent hk hp).resolve_right List.not_mem_nil

/-- The number of parent links of the objects that are not found. -/
def linksLeft (r : Repository) (found : List (String × StoredCommit)) : Nat :=
  ((r.objects.filter (·.1 ∉ found.map (·.1))).map fun o => (parentsOf o.2).length).sum

theorem reachFuel_eq (r : Repository) (tips : List String) :
    r.reachFuel tips = tips.length + r.linksLeft [] := by
  have hfold : r.reachFuel tips =
      r.objects.foldl (fun n o => n + (parentsOf o.2).length) tips.length := by
    rw [reachFuel]
    apply List.foldl_ext
    rintro n ⟨_, _ | _ | _⟩ _ <;> rfl
  have hall : r.objects.filter (·.1 ∉ ([] : List (String × StoredCommit)).map (·.1)) = r.objects :=
    List.filter_eq_self.mpr (by simp)
  rw [hfold, ← List.foldl_map, linksLeft, hall, List.sum_eq_foldl]
  exact @List.foldl_assoc Nat (· + ·) inferInstance _ tips.length 0

/-- Finding a commit pays for its parents. -/
theorem linksLeft_find (hh : h ∉ found.map (·.1)) (hc : r.commit? h = some c) :
    c.parents.length + r.linksLeft ((h, c) :: found) ≤ r.linksLeft found := by
  have hmem : (h, StoredObject.commit c) ∈
      (r.objects.filter (·.1 ∉ found.map (·.1))).filter (·.1 = h) := by
    simp only [List.mem_filter, decide_eq_true_eq]
    exact ⟨⟨mem_objects_of_commit? hc, hh⟩, trivial⟩
  -- The objects without the commit are those before, less the ones with its hash.
  have hrest : r.objects.filter (·.1 ∉ ((h, c) :: found).map (·.1)) =
      (r.objects.filter (·.1 ∉ found.map (·.1))).filter fun o => !decide (o.1 = h) := by
    rw [List.filter_filter]
    apply List.filter_congr
    intro o _
    rw [List.map_cons, ← decide_not, ← Bool.decide_and, decide_eq_decide, List.mem_cons, not_or]
  have hsum := ((List.filter_append_perm (·.1 = h)
    (r.objects.filter (·.1 ∉ found.map (·.1)))).map fun o => (parentsOf o.2).length).sum_eq
  have hle := List.le_sum_of_mem
    (List.mem_map_of_mem (f := fun o => (parentsOf o.2).length) hmem)
  rw [List.map_append, List.sum_append] at hsum
  rw [linksLeft, hrest, linksLeft, ← hsum]
  exact Nat.add_le_add_right hle _

/-- With a step for each tip and each parent link the search ends, where everything that it is led
to is there. -/
theorem Search.reach (hr : r.Complete tips) (hs : r.Search tips todo found)
    (hfuel : todo.length + r.linksLeft found ≤ fuel) :
    r.Search tips [] (r.reach fuel todo found) := by
  -- A step takes a hash off the list; what a commit puts on it, its links have paid for.
  induction fuel generalizing todo found with
  | zero =>
    obtain rfl : todo = [] := List.length_eq_zero_iff.mp (by omega)
    exact hs
  | succ fuel ih =>
    cases todo with
    | nil => exact hs
    | cons h todo =>
      rw [List.length_cons] at hfuel
      rw [Repository.reach]
      by_cases hh : h ∈ found.map (·.1)
      · rw [if_pos (by simpa using hh)]
        exact ih (hs.skip hh) (by omega)
      · rw [if_neg (by simpa using hh)]
        obtain ⟨c, hc⟩ := hr.exists_commit (hs.reached (.inr List.mem_cons_self))
        have hlinks := linksLeft_find hh hc
        rw [hc]
        apply ih (hs.find hh hc)
        rw [List.length_append]
        omega

/-- Commits of a repository, each once and none its own ancestor. -/
structure Waiting (r : Repository) (left : List (String × StoredCommit)) : Prop where
  commit_eq : ∀ {h : String} {c : StoredCommit}, (h, c) ∈ left → r.commit? h = some c
  nodup : (left.map (·.1)).Nodup
  acyclic : ∀ {h : String}, h ∈ left.map (·.1) → ¬ Relation.TransGen r.HasParent h h

theorem Waiting.hasParent (hw : r.Waiting left) {a : String × StoredCommit} (ha : a ∈ left)
    (hp : p ∈ a.2.parents) : r.HasParent a.1 p :=
  ⟨a.2, hw.commit_eq ha, hp⟩

theorem nextTurn_eq_some {a : String × StoredCommit} (ha : nextTurn left = some a) :
    a ∈ left ∧ ∀ b ∈ left, a.1 ∉ b.2.parents := by
  have hfree := List.find?_some ha
  refine ⟨List.mem_of_find?_eq_some ha, ?_⟩
  simpa using hfree

def Above (r : Repository) (left : List (String × StoredCommit)) (a b : {a // a ∈ left}) : Prop :=
  Relation.TransGen r.HasParent a.1.1 b.1.1

theorem Waiting.wellFounded (hw : r.Waiting left) : WellFounded (Above r left) := by
  have : IsTrans {a // a ∈ left} (Above r left) := ⟨fun _ _ _ hab hbc => hab.trans hbc⟩
  have : Std.Irrefl (Above r left) := ⟨fun a => hw.acyclic (List.mem_map_of_mem a.2)⟩
  exact Finite.wellFounded_of_trans_of_irrefl _

/-- Some commit is no parent of another one, as none is its own ancestor. -/
theorem Waiting.exists_nextTurn (hw : r.Waiting left) (hleft : left ≠ []) :
    ∃ a, nextTurn left = some a := by
  obtain ⟨b, hb⟩ := List.exists_mem_of_ne_nil _ hleft
  obtain ⟨⟨m, hm⟩, -, hmin⟩ := hw.wellFounded.has_min Set.univ ⟨⟨b, hb⟩, trivial⟩
  have hfree : ∀ b ∈ left, m.1 ∉ b.2.parents := by
    intro b hb hp
    exact hmin ⟨b, hb⟩ trivial (.single (hw.hasParent hb hp))
  rw [← Option.isSome_iff_exists, nextTurn, List.find?_isSome]
  exact ⟨m, hm, by simpa using hfree⟩

theorem Waiting.filter (hw : r.Waiting left) (q : String × StoredCommit → Bool) :
    r.Waiting (left.filter q) where
  commit_eq := fun hk => hw.commit_eq (List.mem_of_mem_filter hk)
  nodup := hw.nodup.sublist (List.filter_sublist.map _)
  acyclic := fun hk => hw.acyclic ((List.filter_sublist.map _).subset hk)

theorem Waiting.turns (hw : r.Waiting left) (hfuel : left.length ≤ fuel) :
    (turns fuel left).Perm left ∧ (turns fuel left).Pairwise fun a b => a.1 ∉ b.2.parents := by
  induction fuel generalizing left with
  | zero =>
    obtain rfl : left = [] := List.length_eq_zero_iff.mp (by omega)
    exact ⟨.refl _, .nil⟩
  | succ fuel ih =>
    rcases eq_or_ne left [] with rfl | hleft
    · exact ⟨.refl _, .nil⟩
    · obtain ⟨a, hturn⟩ := hw.exists_nextTurn hleft
      obtain ⟨ha, hfree⟩ := nextTurn_eq_some hturn
      -- The commit whose turn it is stands in the list once, and the others are what is left.
      have hsplit : (a :: left.filter (·.1 ≠ a.1)).Perm left := by
        have hperm := List.filter_append_perm (·.1 = a.1) left
        rw [filter_eq_singleton hw.nodup ha] at hperm
        simpa only [decide_not, List.singleton_append] using hperm
      have hlength := hsplit.length_eq
      rw [List.length_cons] at hlength
      obtain ⟨hperm, hpairwise⟩ := ih (hw.filter (·.1 ≠ a.1)) (by omega)
      rw [Repository.turns, hturn]
      refine ⟨(hperm.cons a).trans hsplit, .cons ?_ hpairwise⟩
      intro b hb
      exact hfree b (List.mem_of_mem_filter (hperm.mem_iff.mp hb))

theorem Waiting.of_perm {found' : List (String × StoredCommit)} (hr : r.Complete tips)
    (hs : r.Search tips [] found) (hperm : found'.Perm found) : r.Waiting found' where
  commit_eq := fun hk => hs.commit_eq (hperm.mem_iff.mp hk)
  nodup := (hperm.map (·.1)).nodup_iff.mpr hs.nodup
  acyclic := fun hh => hr.acyclic (hs.mem_iff.mp ((hperm.map (·.1)).mem_iff.mp hh))

/-- The walk lists what the tips lead to, where all of it is in the repository and no commit is its
own ancestor. -/
theorem isWalk_walk (hr : r.Complete tips) : r.IsWalk tips (r.walk tips) := by
  have hfound := (Search.start r tips).reach hr (r.reachFuel_eq tips).ge
  have hsort := List.mergeSort_perm (r.reach (r.reachFuel tips) tips [])
    fun a b => decide (b.2.time ≤ a.2.time)
  obtain ⟨hturns, hpairwise⟩ := (Waiting.of_perm hr hfound hsort).turns (Nat.le_refl _)
  have hperm : (r.walk tips).Perm (r.reach (r.reachFuel tips) tips []) := hturns.trans hsort
  have hwalk := Waiting.of_perm hr hfound hperm
  refine ⟨(hperm.map (·.1)).mem_iff.trans hfound.mem_iff, hwalk.commit_eq, hwalk.nodup, ?_⟩
  intro i j a b ha hb hp
  rcases Nat.lt_trichotomy i j with hij | rfl | hij
  · exact hij
  · cases ha.symm.trans hb
    have hmem := List.mem_of_getElem? ha
    exact absurd (.single (hwalk.hasParent hmem hp)) (hwalk.acyclic (List.mem_map_of_mem hmem))
  · obtain ⟨hi, rfl⟩ := List.getElem?_eq_some_iff.mp ha
    obtain ⟨hj, rfl⟩ := List.getElem?_eq_some_iff.mp hb
    exact absurd hp (List.pairwise_iff_getElem.mp hpairwise j i hj hi hij)

end CommitGraph.Repository
