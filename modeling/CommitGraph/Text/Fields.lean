namespace CommitGraph.Text

def after? : List Char → List Char → Option (List Char)
  | [], cs => some cs
  | _ :: _, [] => none
  | s :: start, c :: cs => if s = c then after? start cs else none

def splitFirst (sep : List Char) : List Char → Option (List Char × List Char)
  | [] => if sep = [] then some ([], []) else none
  | c :: cs =>
    match after? sep (c :: cs) with
    | some rest => some ([], rest)
    | none => (splitFirst sep cs).map fun (before, rest) => (c :: before, rest)

theorem append_of_after? {start cs rest : List Char} (h : after? start cs = some rest) :
    cs = start ++ rest := by
  induction start generalizing cs with
  | nil => simpa [after?] using h
  | cons a start ih =>
    cases cs with
    | nil => simp [after?] at h
    | cons b cs =>
      by_cases hab : a = b
      · simp only [after?, hab, if_true] at h
        simp [hab, ih h]
      · simp [after?, hab] at h

theorem append_of_splitFirst {sep cs before rest : List Char}
    (h : splitFirst sep cs = some (before, rest)) : cs = before ++ sep ++ rest := by
  induction cs generalizing before rest with
  | nil =>
    by_cases hs : sep = []
    · simp_all [splitFirst]
    · simp [splitFirst, hs] at h
  | cons c cs ih =>
    rw [splitFirst] at h
    split at h
    · rename_i r hr
      obtain ⟨rfl, rfl⟩ : [] = before ∧ r = rest := by simpa using h
      simpa using append_of_after? hr
    · obtain ⟨⟨b, r⟩, hbr, he⟩ := Option.map_eq_some_iff.1 h
      obtain ⟨rfl, rfl⟩ : c :: b = before ∧ r = rest := by simpa using he
      simp [ih hbr]

end CommitGraph.Text
