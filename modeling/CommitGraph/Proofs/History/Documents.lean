import CommitGraph.Proofs.History.LogText

namespace CommitGraph

open Text

namespace LogLine

variable {ls : List (List Char)} {l : List Char} {e : LogError}

/-- The line says something that cannot be read, for the given reason. -/
def Malformed (l : List Char) (e : LogError) : Prop :=
  isSilent (trim l) = false ∧ parse (String.ofList (trim l)) = .error e

def readLines (ls : List (List Char)) : Except LogError (List LogLine) :=
  ((ls.map trim).filter (!isSilent ·)).mapM fun l => parse (String.ofList l)

theorem parseLog_eq_readLines (text : String) : parseLog text = readLines (lines text.toList) :=
  rfl

theorem readLines_cons_of_silent (hl : isSilent (trim l) = true) (ls : List (List Char)) :
    readLines (l :: ls) = readLines ls := by
  simp [readLines, hl]

theorem readLines_cons (hl : isSilent (trim l) = false) (ls : List (List Char)) :
    readLines (l :: ls) = (do
      let a ← parse (String.ofList (trim l))
      let as ← readLines ls
      return a :: as) := by
  simp [readLines, hl]

theorem readLines_eq_error_iff : readLines ls = .error e ↔
    ∃ before l after, ls = before ++ l :: after ∧
      (∀ k ∈ before, ∀ e', ¬ Malformed k e') ∧ Malformed l e := by
  induction ls with
  | nil => simp [readLines, pure, Except.pure]
  | cons l ls ih =>
    rw [exists_cons_split]
    simp only [List.forall_mem_cons, List.not_mem_nil, false_implies, implies_true, true_and]
    cases hl : isSilent (trim l) with
    | true =>
      have hnone : ∀ e', ¬ Malformed l e' := fun e' h => by simp [Malformed, hl] at h
      rw [readLines_cons_of_silent hl, ih]
      simp [hnone]
    | false =>
      rw [readLines_cons hl]
      cases hp : parse (String.ofList (trim l)) with
      | error e' =>
        have hmal : ∀ x, Malformed l x ↔ e' = x := fun x => by simp [Malformed, hl, hp]
        simp [hmal, bind, Except.bind]
      | ok a =>
        have hnone : ∀ e', ¬ Malformed l e' := fun e' h => by simp [Malformed, hp] at h
        have hcons : (do let as ← readLines ls; pure (a :: as) : Except LogError _) = .error e ↔
            readLines ls = .error e := by
          cases readLines ls <;> simp [bind, Except.bind, pure, Except.pure]
        refine hcons.trans (ih.trans ?_)
        simp [hnone]

/-- The lines of a text below another one come after the lines of that one, unless one of the texts
is refused, the upper one first. A text is refused for its first malformed line, whatever stands
below that line. -/
theorem parseLog_of_lines :
    (∀ a b : String, parseLog (a ++ "\n" ++ b) = (do
      let ls ← parseLog a
      let ks ← parseLog b
      return ls ++ ks)) ∧
    ∀ (text : String) (e : LogError), parseLog text = .error e ↔
      ∃ before l after, lines text.toList = before ++ l :: after ∧
        (∀ k ∈ before, ∀ e', ¬ Malformed k e') ∧ Malformed l e := by
  refine ⟨fun a b => ?_, fun text e => ?_⟩
  · have htext : (a ++ "\n" ++ b).toList = a.toList ++ '\n' :: b.toList := by
      rw [String.toList_append, String.toList_append, List.append_assoc]
      rfl
    rw [parseLog_eq, htext, telling_append_lineFeed, List.mapM_append]
    rfl
  · rw [parseLog_eq_readLines, readLines_eq_error_iff]

/-- The second line is refused, before the fourth one is looked at. -/
example : parseLog "7|-a|-\r\nx|-b|-\n# remark\n|-" = .error (.badTime "x" "x|-b|-") := by
  decide

end LogLine

end CommitGraph
