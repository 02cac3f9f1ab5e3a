import CommitGraph.Text.Blank
import CommitGraph.Text.Fields
import Mathlib.Data.List.TakeWhile

namespace CommitGraph.Text

/-- No blank stands at either end. -/
def Bare (cs : List Char) : Prop :=
  (∀ c ∈ cs.head?, isBlank c = false) ∧ ∀ c ∈ cs.getLast?, isBlank c = false

-- There is an instance for all characters, too, which tries every one of them.
instance decidableForallMem (cs : List Char) (p : Char → Prop) [DecidablePred p] :
    Decidable (∀ c ∈ cs, p c) :=
  List.decidableBAll p cs

instance decidableBare (cs : List Char) : Decidable (Bare cs) :=
  @instDecidableAnd _ _ (Option.decidableForallMem _) (Option.decidableForallMem _)

variable {cs before core after : List Char}

theorem dropWhile_append_bare {p : Char → Bool} {front rest : List Char}
    (hf : ∀ c ∈ front, p c = true) (hr : ∀ c ∈ rest.head?, p c = false) :
    (front ++ rest).dropWhile p = rest := by
  rw [List.dropWhile_append_of_pos hf]
  cases rest with
  | nil => rfl
  | cons c rest =>
    rw [List.dropWhile_cons_of_neg]
    simp [hr c rfl]

/-- Blanks around a text without any at its ends are what trimming takes away. -/
theorem trim_eq (hb : ∀ c ∈ before, isBlank c = true) (hc : Bare core)
    (ha : ∀ c ∈ after, isBlank c = true) : trim (before ++ core ++ after) = core := by
  rw [trim, trimEnd, List.append_assoc]
  cases core with
  | nil =>
    have hall : (before ++ after ++ []).dropWhile isBlank = [] := by
      apply dropWhile_append_bare
      · intro c hmem
        rcases List.mem_append.mp hmem with hmem | hmem
        · exact hb c hmem
        · exact ha c hmem
      · simp
    rw [List.append_nil] at hall
    rw [List.nil_append, hall]
    rfl
  | cons d core =>
    have hfront : (before ++ (d :: core ++ after)).dropWhile isBlank = d :: core ++ after :=
      dropWhile_append_bare hb fun c h => hc.1 c h
    have hback : (after.reverse ++ (d :: core).reverse).dropWhile isBlank =
        (d :: core).reverse := by
      apply dropWhile_append_bare
      · intro c h
        exact ha c (List.mem_reverse.mp h)
      · intro c h
        rw [List.head?_reverse] at h
        exact hc.2 c h
    rw [hfront, List.reverse_append, hback, List.reverse_reverse]

theorem trim_of_bare (hc : Bare core) : trim core = core := by
  have hnone : ∀ c ∈ ([] : List Char), isBlank c = true := by simp
  simpa using trim_eq hnone hc hnone

theorem head?_dropWhile {p : Char → Bool} {c : Char} (hc : c ∈ (cs.dropWhile p).head?) :
    p c = false := by
  have hhead := List.head?_dropWhile_not p cs
  rwa [Option.mem_def.mp hc] at hhead

theorem bare_trim (cs : List Char) : Bare (trim cs) := by
  rw [trim, trimEnd]
  constructor
  · -- The end that is cut off is a suffix, so the first character stays.
    intro c hc
    have hprefix : ((cs.dropWhile isBlank).reverse.dropWhile isBlank).reverse <+:
        cs.dropWhile isBlank := by
      rw [← List.reverse_suffix, List.reverse_reverse]
      exact List.dropWhile_suffix _
    obtain ⟨rest, hrest⟩ := hprefix
    have hhead : c ∈ (cs.dropWhile isBlank).head? := by
      rw [← hrest, List.head?_append, Option.mem_def.mp hc]
      rfl
    exact head?_dropWhile hhead
  · intro c hc
    rw [List.getLast?_reverse] at hc
    exact head?_dropWhile hc

theorem exists_trim (cs : List Char) :
    ∃ before after, cs = before ++ trim cs ++ after ∧ (∀ c ∈ before, isBlank c = true) ∧
      ∀ c ∈ after, isBlank c = true := by
  have hfront := List.takeWhile_append_dropWhile (p := isBlank) (l := cs)
  have hback := List.takeWhile_append_dropWhile (p := isBlank) (l := (cs.dropWhile isBlank).reverse)
  refine ⟨cs.takeWhile isBlank, ((cs.dropWhile isBlank).reverse.takeWhile isBlank).reverse, ?_, ?_,
    ?_⟩
  · rw [trim, trimEnd, List.append_assoc, ← List.reverse_append, hback, List.reverse_reverse,
      hfront]
  · intro c hc
    exact List.mem_takeWhile_imp hc
  · intro c hc
    exact List.mem_takeWhile_imp (List.mem_reverse.mp hc)

theorem trim_isInfix (cs : List Char) : trim cs <:+: cs := by
  obtain ⟨before, after, hcs, -, -⟩ := exists_trim cs
  exact ⟨before, after, hcs.symm⟩

theorem trim_append_blank (cs : List Char) (ha : ∀ c ∈ after, isBlank c = true) :
    trim (cs ++ after) = trim cs := by
  obtain ⟨before, back, hcs, hb, hback⟩ := exists_trim cs
  have hmore : ∀ c ∈ back ++ after, isBlank c = true := by
    intro c hc
    rcases List.mem_append.mp hc with hc | hc
    · exact hback c hc
    · exact ha c hc
  have htrim := trim_eq hb (bare_trim cs) hmore
  rwa [← List.append_assoc, ← hcs] at htrim

theorem trim_append_cons {c : Char} (hb : ∀ c ∈ before, isBlank c = true) (hc : isBlank c = false)
    (cs : List Char) : trim (before ++ c :: cs) = c :: trimEnd cs := by
  have hfront : (before ++ c :: cs).dropWhile isBlank = c :: cs := by
    apply dropWhile_append_bare hb
    rintro d ⟨⟩
    exact hc
  rw [trim, hfront, trimEnd, trimEnd, List.reverse_cons, List.dropWhile_append]
  split
  · next hnil =>
    rw [List.isEmpty_iff.mp hnil, List.dropWhile_cons_of_neg (by simp [hc])]
    rfl
  · rw [List.reverse_append]
    rfl

theorem after?_append (start rest : List Char) : after? start (start ++ rest) = some rest := by
  induction start with
  | nil => rfl
  | cons c start ih => simp [after?, ih]

/-- A separator of two different characters cannot begin before the place where it is written. -/
theorem splitFirst_eq {x y : Char} (hxy : x ≠ y) (hb : ¬ [x, y] <:+: before) (rest : List Char) :
    splitFirst [x, y] (before ++ [x, y] ++ rest) = some (before, rest) := by
  induction before with
  | nil => simp [splitFirst, after?]
  | cons c before ih =>
    rw [List.infix_cons_iff, not_or] at hb
    -- The separator is not at the start: its characters differ, and it is not in `before`.
    have hnone : after? [x, y] (c :: (before ++ [x, y] ++ rest)) = none := by
      rw [after?]
      split
      · next hc =>
        cases before with
        | nil => simp [after?, hxy.symm]
        | cons d before =>
          have hd : y ≠ d := by
            rintro rfl
            exact hb.1 (by simp [hc])
          simp [after?, hd]
      · rfl
    rw [List.cons_append, List.cons_append, splitFirst, hnone]
    simp only [ih hb.2, Option.map_some]

theorem not_infix_of_splitFirst {sep rest : List Char} (hsep : sep ≠ [])
    (h : splitFirst sep cs = some (before, rest)) : ¬ sep <:+: before := by
  induction cs generalizing before with
  | nil => simp [splitFirst, hsep] at h
  | cons c cs ih =>
    have hcs := append_of_splitFirst h
    rw [splitFirst] at h
    split at h
    · cases h
      simpa using hsep
    · next hnone =>
      obtain ⟨⟨front, r⟩, hfront, he⟩ := Option.map_eq_some_iff.mp h
      cases he
      rw [List.infix_cons_iff, not_or]
      refine ⟨?_, ih hfront⟩
      rintro ⟨tail, htail⟩
      rw [hcs, ← htail, List.append_assoc, List.append_assoc, after?_append] at hnone
      cases hnone

theorem not_of_mem_splitOnP {p : Char → Bool} {piece : List Char} (h : piece ∈ cs.splitOnP p) :
    ∀ c ∈ piece, p c = false := by
  induction cs generalizing piece with
  | nil =>
    rw [List.splitOnP_nil, List.mem_singleton] at h
    simp [h]
  | cons d cs ih =>
    rw [List.splitOnP_cons_eq_if_modifyHead] at h
    split at h
    · rcases List.mem_cons.mp h with rfl | h
      · simp
      · exact ih h
    · next hd =>
      obtain ⟨first, pieces, hpieces⟩ := List.exists_cons_of_ne_nil (List.splitOnP_ne_nil p cs)
      rw [hpieces, List.modifyHead_cons] at h
      rcases List.mem_cons.mp h with rfl | h
      · rw [List.forall_mem_cons]
        exact ⟨by simpa using hd, ih (hpieces ▸ List.mem_cons_self)⟩
      · exact ih (hpieces ▸ List.mem_cons_of_mem _ h)

theorem mem_words {w : List Char} (h : w ∈ words cs) : w ≠ [] ∧ ∀ c ∈ w, isBlank c = false := by
  obtain ⟨hw, hne⟩ := List.mem_filter.mp h
  exact ⟨by simpa using hne, not_of_mem_splitOnP hw⟩

theorem words_append_blank {c : Char} (hc : isBlank c = true) (cs ds : List Char) :
    words (cs ++ c :: ds) = words cs ++ words ds := by
  rw [words, List.splitOnP_append_cons cs ds hc, List.filter_append]
  rfl

theorem words_of_word {w : List Char} (hne : w ≠ []) (hw : ∀ c ∈ w, isBlank c = false) :
    words w = [w] := by
  rw [words, List.splitOnP_eq_singleton hw]
  simp [hne]

theorem words_intercalate {ws : List (List Char)}
    (hws : ∀ w ∈ ws, w ≠ [] ∧ ∀ c ∈ w, isBlank c = false) : words ([' '].intercalate ws) = ws := by
  induction ws with
  | nil => rfl
  | cons w ws ih =>
    rw [List.forall_mem_cons] at hws
    have hw := words_of_word hws.1.1 hws.1.2
    cases ws with
    | nil => rw [List.intercalate_singleton, hw]
    | cons w' ws =>
      rw [List.intercalate_cons_cons, List.append_assoc, List.singleton_append,
        words_append_blank (by decide), hw, ih hws.2, List.singleton_append]

theorem mem_intercalate {ws : List (List Char)} {c : Char} (hc : c ∈ [' '].intercalate ws) :
    c = ' ' ∨ ∃ w ∈ ws, c ∈ w := by
  induction ws with
  | nil => cases hc
  | cons w ws ih =>
    cases ws with
    | nil =>
      rw [List.intercalate_singleton] at hc
      exact .inr ⟨w, List.mem_cons_self, hc⟩
    | cons w' ws =>
      rw [List.intercalate_cons_cons, List.mem_append, List.mem_append, List.mem_singleton] at hc
      rcases hc with (hc | hc) | hc
      · exact .inr ⟨w, List.mem_cons_self, hc⟩
      · exact .inl hc
      · refine (ih hc).imp_right ?_
        rintro ⟨v, hv, hcv⟩
        exact ⟨v, List.mem_cons_of_mem _ hv, hcv⟩

theorem getLast?_intercalate {ws : List (List Char)}
    (hws : ∀ w ∈ ws, w ≠ [] ∧ ∀ c ∈ w, isBlank c = false) :
    ∀ c ∈ ([' '].intercalate ws).getLast?, isBlank c = false := by
  induction ws with
  | nil => simp
  | cons w ws ih =>
    rw [List.forall_mem_cons] at hws
    cases ws with
    | nil =>
      rw [List.intercalate_singleton]
      intro c hc
      exact hws.1.2 c (List.mem_of_getLast? hc)
    | cons w' ws =>
      have hne : [' '].intercalate (w' :: ws) ≠ [] := by
        intro hnil
        have hread := words_intercalate hws.2
        rw [hnil] at hread
        cases hread
      rw [List.intercalate_cons_cons, List.getLast?_append,
        Option.or_of_isSome (List.getLast?_isSome.mpr hne)]
      exact ih hws.2

theorem trim_dropReturn (l : List Char) : trim (dropReturn l) = trim l := by
  rw [dropReturn]
  split
  · next hlast =>
    obtain ⟨front, rfl⟩ := List.getLast?_eq_some_iff.mp hlast
    rw [List.dropLast_concat, trim_append_blank front (by decide)]
  · rfl

/-- Where lines are trimmed and blank ones left out, it does not matter how they end. -/
theorem filter_trim_lines {p : List Char → Bool} (hp : p [] = false) (cs : List Char) :
    ((lines cs).map trim).filter p = ((cs.splitOn '\n').map trim).filter p := by
  obtain ⟨pieces, last, hpieces⟩ : ∃ pieces last, cs.splitOn '\n' = pieces ++ [last] := by
    rw [List.splitOn_eq_splitOnP]
    exact ⟨_, _, (List.dropLast_concat_getLast (List.splitOnP_ne_nil _ cs)).symm⟩
  have hlast : (((some last).filter (· ≠ [])).toList.map trim).filter p =
      [trim last].filter p := by
    cases last with
    | nil => simp [trim, trimEnd, hp]
    | cons c last => rfl
  rw [lines, hpieces, List.dropLast_concat, List.getLast?_concat, List.map_append, List.map_map,
    List.filter_append, hlast, List.map_append, List.filter_append, List.map_singleton]
  congr 2
  exact List.map_congr_left fun l _ => trim_dropReturn l

/-- A carriage return stays where no line feed follows it, and at the end of the text. -/
example : lines "a\r\n\nb\rc\r".toList = ["a".toList, [], "b\rc\r".toList] := by decide

end CommitGraph.Text
