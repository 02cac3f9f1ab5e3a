namespace CommitGraph

/-- The places left behind, in order, and the place reached, in at most `fuel` steps. -/
def follow {α : Type} (next : α → Option α) : Nat → α → List α × α
  | 0, a => ([], a)
  | fuel + 1, a =>
    match next a with
    | none => ([], a)
    | some b =>
      let (passed, last) := follow next fuel b
      (a :: passed, last)

variable {α : Type} {next : α → Option α}

theorem follow_of_none {a : α} (fuel : Nat) (h : next a = none) : follow next fuel a = ([], a) := by
  cases fuel <;> simp [follow, h]

theorem follow_succ_of_some {a b : α} (fuel : Nat) (h : next a = some b) :
    follow next (fuel + 1) a = (a :: (follow next fuel b).1, (follow next fuel b).2) := by
  simp [follow, h]

end CommitGraph
