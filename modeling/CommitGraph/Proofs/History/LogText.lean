import CommitGraph.History.LogLine
import CommitGraph.Proofs.Except
import CommitGraph.Proofs.Lists
import CommitGraph.Proofs.Text.Numeral
import CommitGraph.Proofs.Text.Pieces

namespace CommitGraph

open Text

namespace LogLine

variable {l : LogLine} {ls : List LogLine} {cs ds text eol : List Char}

/-- What the lines of a log can say. -/
structure WellFormed (l : LogLine) : Prop where
  time_ge : -(signedBound : Int) ≤ l.time
  time_lt : l.time < signedBound
  hash_ne_nil : l.hash.toList ≠ []
  bare_hash : Bare l.hash.toList
  no_separator : ¬ separator <:+: l.hash.toList
  no_lineFeed : '\n' ∉ l.hash.toList
  parents_words : ∀ p ∈ l.parents, p.toList ≠ [] ∧ ∀ c ∈ p.toList, isBlank c = false

/-- A line as it is written: time, hash and parents, these joined by single spaces. -/
def chars (l : LogLine) : List Char :=
  (toString l.time).toList ++ separator ++
    (l.hash.toList ++ separator ++ [' '].intercalate (l.parents.map String.toList))

/-- A blank line or a remark. -/
inductive SaysNothing : List Char → Prop
  | blank {cs : List Char} : (∀ c ∈ cs, isBlank c = true) → SaysNothing cs
  | remark {before cs : List Char} : (∀ c ∈ before, isBlank c = true) →
    SaysNothing (before ++ '#' :: cs)

/-- A line ends with a line feed, which may follow a carriage return, or with the text. -/
inductive EndsLine : List Char → List Char → Prop
  | lineFeed {rest : List Char} : EndsLine ['\n'] rest
  | carriageReturn {rest : List Char} : EndsLine ['\r', '\n'] rest
  | text : EndsLine [] []

/-- The text consists of the lines in order, with blanks around each of them, and of blank lines and
remarks. -/
inductive Lists : List Char → List LogLine → Prop
  | nil : Lists [] []
  | silent {cs eol text : List Char} {ls : List LogLine} : SaysNothing cs → '\n' ∉ cs →
    EndsLine eol text → Lists text ls → Lists (cs ++ eol ++ text) ls
  | line {before after eol text : List Char} {l : LogLine} {ls : List LogLine} :
    (∀ c ∈ before, isBlank c = true ∧ c ≠ '\n') → (∀ c ∈ after, isBlank c = true ∧ c ≠ '\n') →
    EndsLine eol text → Lists text ls →
    Lists (before ++ l.chars ++ after ++ eol ++ text) (l :: ls)

def written (ls : List LogLine) : List Char := ls.flatMap fun l => l.chars ++ ['\n']

theorem lists_written (ls : List LogLine) : Lists (written ls) ls := by
  induction ls with
  | nil => exact .nil
  | cons l ls ih =>
    have hnone : ∀ c ∈ ([] : List Char), isBlank c = true ∧ c ≠ '\n' := by simp
    have hline := Lists.line (l := l) hnone hnone .lineFeed ih
    simpa [written] using hline

theorem isBlank_of_mem_toString {t : Int} {c : Char} (hc : c ∈ (toString t).toList) :
    isBlank c = false := by
  rcases mem_toString hc with hc | rfl
  · have hdigit : 48 ≤ c.toNat ∧ c.toNat ≤ 57 := by
      simpa [Char.isDigit, Char.le_def, UInt32.le_iff_toNat_le] using hc
    have hapart : ∀ r ∈ blank, r.2 < 48 ∨ 57 < r.1 := by decide
    rw [← Bool.not_eq_true, isBlank, Ranges.has_iff]
    rintro ⟨r, hr, hlow, hhigh⟩
    have := hapart r hr
    omega
  · decide

theorem bare_toString (t : Int) : Bare (toString t).toList :=
  ⟨fun _ hc => isBlank_of_mem_toString (List.mem_of_head? hc),
    fun _ hc => isBlank_of_mem_toString (List.mem_of_getLast? hc)⟩

theorem not_infix_toString (t : Int) : ¬ separator <:+: (toString t).toList := by
  intro h
  have hbar := mem_toString (h.subset List.mem_cons_self)
  exact absurd hbar (by decide)

theorem WellFormed.fields?_chars (hl : l.WellFormed) :
    fields? l.chars = some ((toString l.time).toList, l.hash.toList,
      [' '].intercalate (l.parents.map String.toList)) := by
  have htime := splitFirst_eq (x := '|') (y := '-') (by decide) (not_infix_toString l.time)
    (l.hash.toList ++ separator ++ [' '].intercalate (l.parents.map String.toList))
  have hhash := splitFirst_eq (x := '|') (y := '-') (by decide) hl.no_separator
    ([' '].intercalate (l.parents.map String.toList))
  rw [fields?, chars]
  simp only [separator] at htime hhash ⊢
  rw [htime, Option.map_some, hhash]

theorem readTime_toString {t : Int} (hge : -(signedBound : Int) ≤ t) (hlt : t < signedBound)
    (line : String) : readTime line (toString t).toList = .ok t := by
  obtain ⟨c, cs, hc⟩ := List.exists_cons_of_ne_nil (toString_ne_nil t)
  have hread := readInt_toString hge hlt
  rw [readTime, trim_of_bare (bare_toString t)]
  rw [hc] at hread ⊢
  simp only [hread]

theorem WellFormed.parse_chars (hl : l.WellFormed) : parse (String.ofList l.chars) = .ok l := by
  obtain ⟨c, cs, hc⟩ := List.exists_cons_of_ne_nil hl.hash_ne_nil
  have hparents : (words ([' '].intercalate (l.parents.map String.toList))).map String.ofList =
      l.parents := by
    rw [words_intercalate, List.map_map]
    · simp
    · simpa using hl.parents_words
  rw [parse, String.toList_ofList, hl.fields?_chars]
  simp only [readTime_toString hl.time_ge hl.time_lt, trim_of_bare hl.bare_hash, hparents]
  rw [hc]
  simp only [bind, Except.bind]
  rw [← hc, String.ofList_toList]

theorem WellFormed.bare_chars (hl : l.WellFormed) : Bare l.chars := by
  have hwords : ∀ w ∈ l.parents.map String.toList, w ≠ [] ∧ ∀ c ∈ w, isBlank c = false := by
    simpa using hl.parents_words
  constructor
  · intro c hc
    rw [chars, List.append_assoc, List.head?_append_of_ne_nil _ (toString_ne_nil l.time)] at hc
    exact (bare_toString l.time).1 c hc
  · intro c hc
    rw [chars, ← List.append_assoc, List.getLast?_append, Option.mem_def,
      Option.or_eq_some_iff] at hc
    rcases hc with hc | ⟨-, hc⟩
    · exact getLast?_intercalate hwords c hc
    · rw [← List.append_assoc, List.getLast?_append] at hc
      cases hc
      decide

theorem isSilent_chars (l : LogLine) : isSilent l.chars = false := by
  obtain ⟨c, cs, hc⟩ := List.exists_cons_of_ne_nil (toString_ne_nil l.time)
  have hstart := mem_toString (hc ▸ List.mem_cons_self : c ∈ (toString l.time).toList)
  rw [chars, hc, List.cons_append, List.cons_append, isSilent, decide_eq_false_iff_not]
  rintro rfl
  exact absurd hstart (by decide)

theorem WellFormed.lineFeed_not_mem_chars (hl : l.WellFormed) : '\n' ∉ l.chars := by
  have htime : '\n' ∉ (toString l.time).toList := fun h => absurd (mem_toString h) (by decide)
  have hsep : '\n' ∉ separator := by decide
  have hparents : '\n' ∉ [' '].intercalate (l.parents.map String.toList) := by
    intro h
    rcases mem_intercalate h with h | ⟨w, hw, h⟩
    · exact absurd h (by decide)
    · obtain ⟨p, hp, rfl⟩ := List.mem_map.mp hw
      exact absurd ((hl.parents_words p hp).2 _ h) (by decide)
  simp only [chars, List.mem_append, not_or]
  exact ⟨⟨htime, hsep⟩, ⟨hl.no_lineFeed, hsep⟩, hparents⟩

/-- The lines of a text that say something, without the blanks around them. -/
def telling (text : List Char) : List (List Char) :=
  ((lines text).map trim).filter (!isSilent ·)

theorem parseLog_eq (text : String) :
    parseLog text = (telling text.toList).mapM fun l => parse (String.ofList l) :=
  rfl

theorem telling_eq (text : List Char) :
    telling text = ((text.splitOn '\n').map trim).filter (!isSilent ·) :=
  filter_trim_lines rfl text

theorem telling_of_not_mem (hcs : '\n' ∉ cs) : telling cs = [trim cs].filter (!isSilent ·) := by
  rw [telling_eq, List.splitOn_eq_singleton hcs, List.map_singleton]

theorem telling_append_lineFeed (cs text : List Char) :
    telling (cs ++ '\n' :: text) = telling cs ++ telling text := by
  simp only [telling_eq, List.splitOn_eq_splitOnP]
  rw [List.splitOnP_append_cons cs text (by decide), List.map_append, List.filter_append]

theorem lineFeed_not_mem_of_mem_telling (hcs : cs ∈ telling text) : '\n' ∉ cs := by
  rw [telling_eq, List.splitOn_eq_splitOnP] at hcs
  obtain ⟨piece, hpiece, rfl⟩ := List.mem_map.mp (List.mem_of_mem_filter hcs)
  intro hmem
  simpa using not_of_mem_splitOnP hpiece '\n' ((trim_isInfix piece).subset hmem)

/-- However a line ends, it does not matter to what it says. -/
theorem telling_append (hcs : '\n' ∉ cs) (he : EndsLine eol text) :
    telling (cs ++ eol ++ text) = telling cs ++ telling text := by
  cases he with
  | lineFeed => rw [List.append_assoc, List.singleton_append, telling_append_lineFeed]
  | carriageReturn =>
    have hcr : '\n' ∉ cs ++ ['\r'] := by simp [hcs]
    have hline : cs ++ ['\r', '\n'] ++ text = cs ++ ['\r'] ++ '\n' :: text := by simp
    rw [hline, telling_append_lineFeed, telling_of_not_mem hcr, telling_of_not_mem hcs,
      trim_append_blank cs (by decide)]
  | text =>
    rw [List.append_nil, List.append_nil]
    exact (List.append_nil _).symm

theorem SaysNothing.telling_eq_nil (hcs : SaysNothing cs) (hline : '\n' ∉ cs) :
    telling cs = [] := by
  rw [telling_of_not_mem hline]
  cases hcs with
  | blank hblank =>
    have hnil := trim_append_blank [] hblank
    rw [List.nil_append] at hnil
    rw [hnil]
    rfl
  | remark hbefore =>
    rw [trim_append_cons hbefore (by decide)]
    rfl

theorem WellFormed.telling_eq (hl : l.WellFormed) {before after : List Char}
    (hb : ∀ c ∈ before, isBlank c = true ∧ c ≠ '\n')
    (ha : ∀ c ∈ after, isBlank c = true ∧ c ≠ '\n') :
    '\n' ∉ before ++ l.chars ++ after ∧ telling (before ++ l.chars ++ after) = [l.chars] := by
  have hline : '\n' ∉ before ++ l.chars ++ after := by
    simp only [List.mem_append, not_or]
    exact ⟨⟨fun h => (hb _ h).2 rfl, hl.lineFeed_not_mem_chars⟩, fun h => (ha _ h).2 rfl⟩
  refine ⟨hline, ?_⟩
  rw [telling_of_not_mem hline, trim_eq (fun c hc => (hb c hc).1) hl.bare_chars
    (fun c hc => (ha c hc).1), List.filter_singleton, isSilent_chars]
  rfl

theorem Lists.forall₂_telling (hlist : Lists text ls) (hls : ∀ l ∈ ls, l.WellFormed) :
    List.Forall₂ (fun cs l => parse (String.ofList cs) = .ok l) (telling text) ls := by
  induction hlist with
  | nil => exact .nil
  | silent hcs hline hend _ ih =>
    rw [telling_append hline hend, hcs.telling_eq_nil hline]
    exact ih hls
  | line hb ha hend _ ih =>
    rw [List.forall_mem_cons] at hls
    obtain ⟨hline, htelling⟩ := hls.1.telling_eq hb ha
    rw [telling_append hline hend, htelling]
    exact .cons hls.1.parse_chars (ih hls.2)

theorem Lists.parseLog_eq {text : String} (hlist : Lists text.toList ls)
    (hls : ∀ l ∈ ls, l.WellFormed) : parseLog text = .ok ls := by
  rw [LogLine.parseLog_eq, mapM_eq_ok]
  exact hlist.forall₂_telling hls

theorem fields?_eq_some {time hash parents : List Char}
    (h : fields? cs = some (time, hash, parents)) : ¬ separator <:+: hash ∧ hash <:+: cs := by
  rw [fields?] at h
  obtain ⟨⟨first, rest⟩, hfirst, h⟩ := Option.map_eq_some_iff.mp h
  have hcs := append_of_splitFirst hfirst
  have hsep : separator ≠ [] := by decide
  dsimp only at h
  split at h
  · next hrest =>
    cases h
    have hinner := append_of_splitFirst hrest
    refine ⟨not_infix_of_splitFirst hsep hrest, time ++ separator, separator ++ parents, ?_⟩
    rw [hcs, hinner]
    simp
  · cases h
    refine ⟨not_infix_of_splitFirst hsep hfirst, [], separator ++ parents, ?_⟩
    rw [hcs]
    simp

theorem readTime_bounds {line : String} {t : Int} (h : readTime line cs = .ok t) :
    -(signedBound : Int) ≤ t ∧ t < signedBound := by
  rw [readTime] at h
  split at h
  · cases h
    decide
  · split at h
    · next hread =>
      cases h
      exact readInt_bounds (by decide) hread
    · cases h

theorem wellFormed_of_parse {line : String} (h : parse line = .ok l)
    (hline : '\n' ∉ line.toList) : l.WellFormed := by
  rw [parse] at h
  split at h
  · cases h
  · next time hash parents hfields =>
    obtain ⟨t, ht, h⟩ := bind_eq_ok.mp h
    obtain ⟨hsep, hpart⟩ := fields?_eq_some hfields
    split at h
    · cases h
    · next hne =>
      cases h
      have htrim := trim_isInfix hash
      refine ⟨(readTime_bounds ht).1, (readTime_bounds ht).2, ?_, ?_, ?_, ?_, ?_⟩
      · simpa using hne
      · simpa using bare_trim hash
      · simpa using fun h => hsep (h.trans htrim)
      · simpa using fun h => hline (hpart.subset (htrim.subset h))
      · simpa using fun w hw => mem_words hw

theorem wellFormed_of_parseLog {text : String} (h : parseLog text = .ok ls) :
    ∀ l ∈ ls, l.WellFormed := by
  intro l hl
  rw [parseLog_eq, mapM_eq_ok] at h
  obtain ⟨cs, hcs, hparse⟩ := exists_mem_left h hl
  apply wellFormed_of_parse hparse
  rw [String.toList_ofList]
  exact lineFeed_not_mem_of_mem_telling hcs

/-- A text that lists well-formed lines is read as these lines. Whatever is read from a text is well
formed, and is read again from any text that lists it, such as the lines written one below the
other. -/
theorem log_round_trip (ls : List LogLine) :
    ((∀ l ∈ ls, l.WellFormed) → ∀ text : String, Lists text.toList ls → parseLog text = .ok ls) ∧
      ∀ text : String, parseLog text = .ok ls → (∀ l ∈ ls, l.WellFormed) ∧
        Lists (written ls) ls ∧ parseLog (String.ofList (written ls)) = .ok ls := by
  refine ⟨fun hls text hlist => hlist.parseLog_eq hls, fun text htext => ?_⟩
  have hls := wellFormed_of_parseLog htext
  refine ⟨hls, lists_written ls, ?_⟩
  apply Lists.parseLog_eq _ hls
  rw [String.toList_ofList]
  exact lists_written ls

/-- A remark, a line with blanks around it whose hash and parent hold parts of the separator, a
blank line, and a line without parents. -/
theorem log_round_trip_remark :
    ∃ ls : List LogLine, (∀ l ∈ ls, l.WellFormed) ∧
      Lists "# log\r\n  -5|--a b||-x|-y z\t\r\n\n7|-c|-\n".toList ls ∧
      parseLog "# log\r\n  -5|--a b||-x|-y z\t\r\n\n7|-c|-\n" = .ok ls := by
  have hls : ∀ l ∈ [(⟨-5, "-a b|", ["x|-y", "z"]⟩ : LogLine), ⟨7, "c", []⟩], l.WellFormed := by
    simp only [List.forall_mem_cons]
    exact ⟨⟨by decide, by decide, by decide, by decide, by decide, by decide, by decide⟩,
      ⟨by decide, by decide, by decide, by decide, by decide, by decide, by decide⟩, by simp⟩
  have hchars : chars ⟨-5, "-a b|", ["x|-y", "z"]⟩ = "-5|--a b||-x|-y z".toList := by decide
  have hlast : Lists "7|-c|-\n".toList [⟨7, "c", []⟩] := lists_written [⟨7, "c", []⟩]
  have hblank : Lists "\n7|-c|-\n".toList [⟨7, "c", []⟩] :=
    @Lists.silent [] _ _ _ (.blank (by decide)) (by decide) .lineFeed hlast
  have hline := @Lists.line [' ', ' '] ['\t'] _ _ ⟨-5, "-a b|", ["x|-y", "z"]⟩ _ (by decide)
    (by decide) .carriageReturn hblank
  rw [hchars] at hline
  have hlist : Lists "# log\r\n  -5|--a b||-x|-y z\t\r\n\n7|-c|-\n".toList
      [⟨-5, "-a b|", ["x|-y", "z"]⟩, ⟨7, "c", []⟩] :=
    @Lists.silent "# log".toList _ _ _ (@SaysNothing.remark [] _ (by decide)) (by decide)
      .carriageReturn hline
  exact ⟨_, hls, hlist, (log_round_trip _).1 hls _ hlist⟩

end LogLine

end CommitGraph
