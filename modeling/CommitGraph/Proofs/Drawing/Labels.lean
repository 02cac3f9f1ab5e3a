import CommitGraph.Drawing.Layout
import CommitGraph.Graph.Build
import CommitGraph.Graph.Chain
import CommitGraph.Proofs.Except

namespace CommitGraph

/-- A branch without its references and without the head that they tell. -/
def Branch.unlabelled (b : Branch) : Branch := { b with references := [], head := none }

namespace Graph

def unlabelled (g : Graph) : Graph := { g with branches := g.branches.map Branch.unlabelled }

/-- Graphs that differ in the labels of their branches at most. -/
structure SameShape (g h : Graph) : Prop where
  rows_eq : g.rows = h.rows
  nodes_eq : g.nodes = h.nodes
  edges_eq : g.edges = h.edges
  size_branches : g.branches.size = h.branches.size
  branch_eq : ∀ {b : BranchId} {q r : Branch}, g.branches[b]? = some q → h.branches[b]? = some r →
    q.origin = r.origin ∧ q.parent = r.parent

variable {g h : Graph} {cs : List Commit} {references references' : List Reference} {c p : CommitId}
  {u n : NodeId} {b : BranchId}

theorem SameShape.of_unlabelled (hgh : g.unlabelled = h.unlabelled) : g.SameShape h := by
  have hbranches : g.branches.map Branch.unlabelled = h.branches.map Branch.unlabelled :=
    congrArg branches hgh
  refine ⟨(congrArg rows hgh :), (congrArg nodes hgh :), (congrArg edges hgh :), ?_, ?_⟩
  · simpa only [Array.size_map] using congrArg Array.size hbranches
  · intro b q r hq hr
    have hb := congrArg (·[b]?) hbranches
    simp only [Array.getElem?_map, hq, hr, Option.map_some, Option.some_inj] at hb
    exact ⟨(congrArg Branch.origin hb :), (congrArg Branch.parent hb :)⟩

@[simp] theorem unlabelled_addBranch (g : Graph) (r : Branch) :
    (g.addBranch r).unlabelled = g.unlabelled.addBranch r.unlabelled := by
  simp only [unlabelled, addBranch, Array.map_push]

@[simp] theorem unlabelled_addNode (g : Graph) (c : CommitId) (b : BranchId) :
    (g.addNode c b).unlabelled = g.unlabelled.addNode c b := rfl

@[simp] theorem unlabelled_addEdge (g : Graph) (u l : NodeId) (b : BranchId) :
    (g.addEdge u l b).unlabelled = g.unlabelled.addEdge u l b := rfl

@[simp] theorem unlabelled_place (g : Graph) (n : NodeId) :
    (g.place n).unlabelled = g.unlabelled.place n := rfl

@[simp] theorem nodeOf?_unlabelled (g : Graph) (c : CommitId) :
    g.unlabelled.nodeOf? c = g.nodeOf? c := rfl

@[simp] theorem isPlaced_unlabelled (g : Graph) (n : NodeId) :
    g.unlabelled.isPlaced n = g.isPlaced n := rfl

@[simp] theorem size_branches_unlabelled (g : Graph) :
    g.unlabelled.branches.size = g.branches.size := by
  simp only [unlabelled, Array.size_map]

theorem head_unlabelled (g : Graph) (b : BranchId) :
    g.unlabelled.branches[b]?.bind (·.head) = none := by
  simp only [unlabelled, Array.getElem?_map]
  cases g.branches[b]? <;> rfl

theorem claim_unlabelled (g : Graph) (references : List Reference) (c : CommitId) :
    (g.claim references c).map (fun x => (x.1, x.2.unlabelled)) = g.unlabelled.claim [] c := by
  rw [claim, claim, nodeOf?_unlabelled]
  cases g.nodeOf? c with
  | some n =>
    dsimp only
    rw [isPlaced_unlabelled]
    split <;> rfl
  | none =>
    dsimp only
    rw [size_branches_unlabelled, Except.map, unlabelled_addNode, unlabelled_addBranch]
    rfl

theorem connect_unlabelled (g : Graph) (c : CommitId) (u : NodeId) (b : BranchId) (p : CommitId) :
    (g.connect c u b p).map unlabelled = g.unlabelled.connect c u b p := by
  rw [connect, connect, nodeOf?_unlabelled]
  cases g.nodeOf? p with
  | some l =>
    dsimp only
    rw [isPlaced_unlabelled]
    split <;> rfl
  | none => rfl

theorem connectMerge_unlabelled (g : Graph) (references : List Reference) (c : CommitId)
    (n : NodeId) (head : Option CommitId) (ps : List CommitId) :
    (connectMerge references c n head g ps).map unlabelled =
      connectMerge [] c n none g.unlabelled ps := by
  induction ps generalizing g with
  | nil => rfl
  | cons p ps ih =>
    rw [connectMerge, connectMerge, map_bind_comm (connectMerge [] c n none · ps) ih,
      connect_unlabelled, unlabelled_addBranch, size_branches_unlabelled]
    rfl

/-- The head that a merge passes on is a label too, so no commit is placed by it. -/
theorem append_unlabelled (references : List Reference) (g : Graph) (c : Commit) :
    (g.append references c).map unlabelled = g.unlabelled.append [] c := by
  rw [append, append, ← claim_unlabelled g references]
  apply map_bind_comm
  rintro ⟨n, k⟩
  dsimp only
  split
  · exact connect_unlabelled _ _ _ _ _
  · rw [← unlabelled_place, head_unlabelled]
    exact connectMerge_unlabelled _ _ _ _ _ _

theorem foldlM_append_unlabelled (references : List Reference) (g : Graph) (cs : List Commit) :
    (cs.foldlM (append references) g).map unlabelled = cs.foldlM (append []) g.unlabelled := by
  induction cs generalizing g with
  | nil => rfl
  | cons c cs ih =>
    rw [List.foldlM_cons, List.foldlM_cons, map_bind_comm (cs.foldlM (append [])) ih,
      append_unlabelled]

theorem finish_unlabelled (g : Graph) : g.finish.unlabelled = g.unlabelled.finish := by
  have hwaiting : g.unlabelled.waiting = g.waiting := rfl
  rw [finish, finish, hwaiting]
  split <;> rfl

theorem build_unlabelled (cs : List Commit) (references : List Reference) :
    (build cs references).map unlabelled = build cs [] := by
  have hempty : empty.unlabelled = empty := by simp [unlabelled, empty]
  have hfold := foldlM_append_unlabelled references empty cs
  rw [hempty] at hfold
  rw [build, build, ← hfold]
  cases cs.foldlM (append references) empty with
  | error e => rfl
  | ok h => exact congrArg Except.ok (finish_unlabelled h)

/-- A commit's turn depends on its own references only. -/
theorem append_congr {c : Commit}
    (hc : referencesOn references c.id = referencesOn references' c.id) (g : Graph) :
    g.append references c = g.append references' c := by
  have hmerge : ∀ n head g ps, connectMerge references c.id n head g ps =
      connectMerge references' c.id n head g ps := by
    intro n head g ps
    induction ps generalizing g with
    | nil => rfl
    | cons p ps ih => simp only [connectMerge, hc, ih]
  simp only [append, claim, hc, hmerge]

theorem foldlM_append_congr
    (hcs : ∀ c ∈ cs, referencesOn references c.id = referencesOn references' c.id) (g : Graph) :
    cs.foldlM (append references) g = cs.foldlM (append references') g := by
  induction cs generalizing g with
  | nil => rfl
  | cons c cs ih =>
    rw [List.foldlM_cons, List.foldlM_cons, append_congr (hcs c List.mem_cons_self)]
    congr 1
    funext k
    exact ih (fun d hd => hcs d (List.mem_cons_of_mem c hd)) k

theorem build_filter_references (cs : List Commit) (references : List Reference) :
    build cs (references.filter (·.target ∈ cs.map (·.id))) = build cs references := by
  rw [build, build, foldlM_append_congr]
  intro c hc
  rw [referencesOn, referencesOn, List.filter_filter]
  apply List.filter_congr
  intro q _
  have hid : c.id ∈ cs.map (·.id) := List.mem_map_of_mem hc
  by_cases hq : q.target = c.id
  · simp only [hq, hid, decide_true, Bool.and_self]
  · simp only [hq, decide_false, Bool.false_and]

end Graph

namespace Plan

def unlabelled (p : Plan) : Plan := { p with graph := p.graph.unlabelled }

theorem slotsFrom_unlabelled (p : Plan) (above : List Slot) (position : Nat) (rows : List Nat) :
    p.unlabelled.slotsFrom above position rows = p.slotsFrom above position rows := by
  induction rows generalizing above position with
  | nil => rfl
  | cons row rows ih => exact congrArg (_ :: ·) (ih _ _)

theorem rowsFrom_unlabelled (p : Plan) (position : Nat) (l : List (Nat × List Slot)) :
    p.unlabelled.rowsFrom position l = p.rowsFrom position l := by
  induction l generalizing position with
  | nil => rfl
  | cons x l ih => exact congrArg (_ :: ·) (ih _)

theorem draw_unlabelled (p : Plan) (rows : List Nat) : p.unlabelled.draw rows = p.draw rows := by
  rw [draw, draw, slotsFrom_unlabelled]
  simp only [rowsFrom_unlabelled]
  rfl

end Plan

namespace Graph

theorem chainAt?_unlabelled (g : Graph) (el : Element) :
    g.unlabelled.chainAt? el = g.chainAt? el := rfl

theorem draw_unlabelled (g : Graph) (f : Folding) (o : DrawOptions) (s : Selection) :
    g.unlabelled.draw f o s = g.draw f o s := by
  have hplan : ∀ ws, (Plan.mk g.unlabelled ws o s).draw (g.visibleRows f) =
      (Plan.mk g ws o s).draw (g.visibleRows f) :=
    fun ws => (Plan.mk g ws o s).draw_unlabelled _
  have hwires : g.unlabelled.wires f = g.wires f := rfl
  have hrows : g.unlabelled.visibleRows f = g.visibleRows f := rfl
  simp only [draw, hwires, hrows, hplan]

/-- Whatever references there are, a history is refused for the same reason or has a graph of the
same shape, with the same chains and the same drawings. References on commits outside the history do
not even show in the labels. -/
theorem build_sameShape (cs : List Commit) (references references' : List Reference) :
    ((∃ e, build cs references = .error e ∧ build cs references' = .error e) ∨
      ∃ g g', build cs references = .ok g ∧ build cs references' = .ok g' ∧ g.SameShape g' ∧
        (∀ el, g.chainAt? el = g'.chainAt? el) ∧
        ∀ f o s, g.draw f o s = g'.draw f o s) ∧
      build cs (references.filter (·.target ∈ cs.map (·.id))) = build cs references := by
  refine ⟨?_, build_filter_references cs references⟩
  have hsame := (build_unlabelled cs references).trans (build_unlabelled cs references').symm
  cases hg : build cs references with
  | error e =>
    cases hg' : build cs references' with
    | error e' =>
      rw [hg, hg'] at hsame
      cases hsame
      exact .inl ⟨e, rfl, rfl⟩
    | ok g' =>
      rw [hg, hg'] at hsame
      cases hsame
  | ok g =>
    cases hg' : build cs references' with
    | error e' =>
      rw [hg, hg'] at hsame
      cases hsame
    | ok g' =>
      rw [hg, hg'] at hsame
      have hshape : g.unlabelled = g'.unlabelled := Except.ok.inj hsame
      refine .inr ⟨g, g', rfl, rfl, .of_unlabelled hshape, ?_, ?_⟩
      · intro el
        rw [← g.chainAt?_unlabelled, hshape, chainAt?_unlabelled]
      · intro f o s
        rw [← g.draw_unlabelled, hshape, draw_unlabelled]

end Graph

end CommitGraph
