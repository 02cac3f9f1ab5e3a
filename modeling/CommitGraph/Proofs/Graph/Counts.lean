import CommitGraph.Proofs.Graph.Depiction
import Mathlib.Algebra.GroupWithZero.Nat

namespace CommitGraph.Graph

variable {g h : Graph} {cs : List Commit} {references : List Reference} {c p : CommitId}
  {u n : NodeId} {b : BranchId}

@[simp] theorem size_edges_addEdge (g : Graph) (u l : NodeId) (b : BranchId) :
    (g.addEdge u l b).edges.size = g.edges.size + 1 := by
  simp [addEdge]

theorem size_edges_connect (hh : g.connect c u b p = .ok h) :
    h.edges.size = g.edges.size + 1 := by
  obtain ⟨l, -, -, rfl⟩ | ⟨-, rfl⟩ := connect_eq_ok hh
  · rw [size_edges_addEdge]
  · rw [size_edges_addEdge]
    rfl

theorem edges_claim (hh : g.claim references c = .ok (n, h)) : h.edges = g.edges := by
  obtain ⟨-, -, rfl⟩ | ⟨-, -, rfl⟩ := claim_eq_ok hh
  · rfl
  · rfl

theorem size_edges_connectMerge {head : Option CommitId} {ps : List CommitId}
    (hh : connectMerge references c u head g ps = .ok h) :
    h.edges.size = g.edges.size + ps.length := by
  induction ps generalizing g with
  | nil =>
    cases hh
    rfl
  | cons p ps ih =>
    obtain ⟨k, hk, hh⟩ := bind_eq_ok.mp hh
    have hbranch : (g.addBranch (.ofMerge c p (referencesOn references c) head)).edges = g.edges :=
      rfl
    rw [ih hh, size_edges_connect hk, hbranch, List.length_cons]
    omega

theorem size_edges_append {c : Commit} (hh : g.append references c = .ok h) :
    h.edges.size = g.edges.size + c.parents.length := by
  unfold Graph.append at hh
  obtain ⟨⟨u, k⟩, hk, hh⟩ := bind_eq_ok.mp hh
  have hclaim : k.edges = g.edges := edges_claim hk
  have hplace : (k.place u).edges = g.edges := hclaim
  dsimp only at hh
  split at hh
  · next p hp => rw [size_edges_connect hh, hplace, hp, List.length_singleton]
  · rw [size_edges_connectMerge hh, hplace]

theorem size_edges_foldlM (hh : cs.foldlM (Graph.append references) g = .ok h) :
    h.edges.size = g.edges.size + (cs.map (·.parents.length)).sum := by
  induction cs generalizing g with
  | nil =>
    cases hh
    rfl
  | cons c cs ih =>
    obtain ⟨k, hk, hh⟩ := bind_eq_ok.mp hh
    rw [ih hh, size_edges_append hk, List.map_cons, List.sum_cons, Nat.add_assoc]

theorem size_edges_build (hb : build cs references = .ok g) :
    g.edges.size = (cs.map (·.parents.length)).sum := by
  cases hf : cs.foldlM (append references) empty with
  | error e => simp [build, hf, Except.map] at hb
  | ok h =>
    simp only [build, hf, Except.map, Except.ok.injEq] at hb
    have hnone : empty.edges.size = 0 := rfl
    rw [← hb, edges_finish, size_edges_foldlM hf, hnone, Nat.zero_add]

end CommitGraph.Graph
