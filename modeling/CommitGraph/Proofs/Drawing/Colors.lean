import CommitGraph.Proofs.Drawing.Page
import CommitGraph.Proofs.Text.Numeral

namespace CommitGraph

/-- What follows the control sequence that a text starts with: an escape, a bracket, digits and the
letter m. -/
def afterSequence? : List Char → Option (List Char)
  | '\x1b' :: '[' :: cs =>
    match cs.takeWhile Char.isDigit, cs.dropWhile Char.isDigit with
    | _ :: _, 'm' :: rest => some rest
    | _, _ => none
  | _ => none

theorem length_of_afterSequence? {cs rest : List Char} (h : afterSequence? cs = some rest) :
    rest.length < cs.length := by
  unfold afterSequence? at h
  split at h
  · next cs =>
    split at h
    · next hrest =>
      cases h
      have hle := (List.dropWhile_suffix (l := cs) Char.isDigit).length_le
      rw [hrest] at hle
      simp only [List.length_cons] at hle ⊢
      omega
    · cases h
  · cases h

/-- A text without the control sequences in it. -/
def withoutSequences : List Char → List Char
  | [] => []
  | c :: cs =>
    match _h : afterSequence? (c :: cs) with
    | some rest => withoutSequences rest
    | none => c :: withoutSequences cs
termination_by cs => cs.length
decreasing_by
  · exact length_of_afterSequence? _h
  · exact Nat.lt_succ_self _

theorem withoutSequences_cons {c : Char} (hc : c ≠ '\x1b') (cs : List Char) :
    withoutSequences (c :: cs) = c :: withoutSequences cs := by
  rw [withoutSequences]
  split
  · next h =>
    unfold afterSequence? at h
    split at h
    · next heq =>
      cases heq
      exact absurd rfl hc
    · cases h
  · rfl

theorem withoutSequences_of_afterSequence? {cs rest : List Char}
    (h : afterSequence? cs = some rest) : withoutSequences cs = withoutSequences rest := by
  cases cs with
  | nil => cases h
  | cons c cs =>
    rw [withoutSequences]
    split
    · next h' => rw [Option.some_inj.mp (h'.symm.trans h)]
    · next h' => cases h'.symm.trans h

theorem afterSequence?_sequence (n : Nat) (rest : List Char) :
    afterSequence? (Color.sequence n ++ rest) = some rest := by
  have hdigits : ∀ c ∈ Nat.toDigits 10 n, c.isDigit = true :=
    fun _ hc => Text.isDigit_of_mem_toDigits hc
  obtain ⟨d, ds, hd⟩ := List.exists_cons_of_ne_nil (Nat.toDigits_ne_nil (n := n) (b := 10))
  have htake : (Nat.toDigits 10 n ++ ('m' :: rest)).takeWhile Char.isDigit = d :: ds := by
    rw [List.takeWhile_append_of_pos hdigits, hd]
    exact List.append_nil _
  have hdrop : (Nat.toDigits 10 n ++ ('m' :: rest)).dropWhile Char.isDigit = 'm' :: rest := by
    rw [List.dropWhile_append_of_pos hdigits]
    rfl
  have hsequence : Color.sequence n ++ rest =
      '\x1b' :: '[' :: (Nat.toDigits 10 n ++ ('m' :: rest)) := by
    simp [Color.sequence]
  rw [hsequence, afterSequence?, htake, hdrop]
  rfl

/-- Wherever the first text stands, it reads as the second one. -/
def ReadsAs (cs ds : List Char) : Prop :=
  ∀ rest, withoutSequences (cs ++ rest) = ds ++ withoutSequences rest

namespace ReadsAs

variable {α β : Type} {cs ds cs' ds' : List Char}

theorem eq (h : ReadsAs cs ds) : withoutSequences cs = ds := by
  have hall := h []
  rwa [withoutSequences, List.append_nil, List.append_nil] at hall

theorem nil : ReadsAs [] [] := fun _ => rfl

theorem append (h : ReadsAs cs ds) (h' : ReadsAs cs' ds') : ReadsAs (cs ++ cs') (ds ++ ds') := by
  intro rest
  rw [List.append_assoc, h, h', List.append_assoc]

theorem sequence (n : Nat) : ReadsAs (Color.sequence n) [] := fun rest =>
  withoutSequences_of_afterSequence? (afterSequence?_sequence n rest)

theorem singleton {c : Char} (hc : c ≠ '\x1b') : ReadsAs [c] [c] := withoutSequences_cons hc

theorem self (h : '\x1b' ∉ cs) : ReadsAs cs cs := by
  induction cs with
  | nil => exact nil
  | cons c cs ih =>
    rw [List.mem_cons, not_or] at h
    exact (singleton (Ne.symm h.1)).append (ih h.2)

theorem flatMap {as : List α} {bs : List β} {f : α → List Char} {g : β → List Char}
    (h : List.Forall₂ (fun a b => ReadsAs (f a) (g b)) as bs) :
    ReadsAs (as.flatMap f) (bs.flatMap g) := by
  induction h with
  | nil => exact nil
  | cons hab _ ih =>
    rw [List.flatMap_cons, List.flatMap_cons]
    exact hab.append ih

end ReadsAs

theorem Mark.readsAs_text {m : Mark} (h : m.char ≠ '\x1b') (colored : Bool) :
    ReadsAs (m.text colored) [m.char] := by
  have hbold : ReadsAs (if m.bold then Color.bold else []) [] := by
    split
    · exact .sequence 1
    · exact .nil
  rw [text]
  split
  · exact (hbold.append (.sequence m.color.code)).append
      ((ReadsAs.singleton h).append (.sequence Color.default.code))
  · exact .singleton h

/-- Only a blank mark ends with a space, since colour is switched off behind every other one. -/
theorem Mark.getLast?_text {m : Mark} (h : m.char ≠ ' ') (colored : Bool) :
    (m.text colored).getLast? ≠ some ' ' := by
  rw [text]
  split
  · have hdefault : Color.default.ansi = ['\x1b', '[', '0'] ++ ['m'] := by decide
    simp [hdefault, List.getLast?_append]
  · simpa using h

theorem Mark.text_of_blank {m : Mark} (h : m.char = ' ') (colored : Bool) :
    m.text colored = [' '] := by
  rw [text, h]
  simp

theorem readsAs_lineText {marks : List Mark} (h : ∀ m ∈ marks, m.char ≠ '\x1b') (colored : Bool) :
    ReadsAs (lineText colored marks) (lineText false marks) := by
  rw [lineText_plain, List.map_eq_flatMap]
  exact .flatMap (List.forall₂_same.mpr fun m hm => Mark.readsAs_text (h m hm) colored)

/-- The same marks are left in colour and without it when spaces are cut off. -/
theorem dropSpaces_lineText (colored : Bool) (marks : List Mark) :
    dropSpaces (lineText colored marks) =
      lineText colored (marks.rdropWhile fun m => m.char = ' ') := by
  induction marks using List.reverseRecOn with
  | nil => rfl
  | append_singleton marks m ih =>
    have hlast : lineText colored (marks ++ [m]) = lineText colored marks ++ m.text colored := by
      simp [lineText]
    by_cases hm : m.char = ' '
    · rw [List.rdropWhile_concat, if_pos (decide_eq_true hm), ← ih, hlast, Mark.text_of_blank hm,
        dropSpaces_append, if_pos (by decide)]
    · have hkept := dropSpaces_eq_self.mpr (Mark.getLast?_text hm colored)
      have hne : m.text colored ≠ [] := by
        rw [Mark.text]
        split <;> simp
      rw [List.rdropWhile_concat, if_neg (by simpa using hm), hlast, dropSpaces_append, hkept,
        if_neg hne]

theorem readsAs_dropSpaces_lineText {marks : List Mark} (h : ∀ m ∈ marks, m.char ≠ '\x1b')
    (colored : Bool) :
    ReadsAs (dropSpaces (lineText colored marks)) (dropSpaces (lineText false marks)) := by
  rw [dropSpaces_lineText, dropSpaces_lineText]
  apply readsAs_lineText
  intro m hm
  exact h m ((List.rdropWhile_prefix _ marks).subset hm)

/-- A label of spaces alone is cut off in both texts, and then the blank marks before it. -/
theorem readsAs_dropSpaces_label {marks : List Mark} (h : ∀ m ∈ marks, m.char ≠ '\x1b')
    (colored : Bool) {label : String} (hlabel : '\x1b' ∉ label.toList) :
    ReadsAs (dropSpaces (lineText colored marks ++ ' ' :: label.toList))
      (dropSpaces (lineText false marks ++ ' ' :: label.toList)) := by
  have hplain : '\x1b' ∉ dropSpaces (' ' :: label.toList) := by
    intro hmem
    rcases List.mem_cons.mp (mem_of_mem_dropSpaces hmem) with hspace | hmem
    · exact absurd hspace (by decide)
    · exact hlabel hmem
  rw [dropSpaces_append, dropSpaces_append]
  split
  · exact readsAs_dropSpaces_lineText h colored
  · exact (readsAs_lineText h colored).append (.self hplain)

theorem DrawnRow.IsFlush.readsAs_rowLines {r : DrawnRow} (h : r.IsFlush) {charset : Charset}
    {width : Nat} {label : String} (hlabel : '\x1b' ∉ label.toList) {colored : Bool}
    {ls ls' : List (List Char)}
    (hls : Drawing.rowLines ⟨charset, colored⟩ width label r = some ls)
    (hls' : Drawing.rowLines ⟨charset, false⟩ width label r = some ls') :
    List.Forall₂ ReadsAs ls ls' := by
  rw [Drawing.rowLines, h.line?_eq, Option.map_some, Option.some_inj] at hls hls'
  subst hls hls'
  refine .cons (readsAs_dropSpaces_label ?_ colored hlabel) ?_
  · intro m hm
    exact (Charset.ne_of_mem (h.char_mem_line (h.line?_eq _ _) hm)).2
  · rw [List.forall₂_map_left_iff, List.forall₂_map_right_iff, List.forall₂_same]
    intro below hbelow
    apply readsAs_dropSpaces_lineText
    intro m hm
    exact (Charset.ne_of_mem (char_mem_connector (Option.mem_toList.mp hbelow) hm)).2

namespace Graph

variable {g : Graph} {f : Folding} {o : DrawOptions} {s : Selection} {d : Drawing}

/-- Colour changes nothing but colour: without its control sequences the text in colour is the plain
text. -/
theorem plain_of_colored {cs : List Commit} {references : List Reference}
    (hb : build cs references = .ok g) (hd : g.draw f o s = .ok d) (charset : Charset)
    {label : DrawnRow → String} (hlabel : ∀ r ∈ d.rows, '\x1b' ∉ (label r).toList) :
    ∃ colored plain, d.render ⟨charset, true⟩ label = some colored ∧
      d.render ⟨charset, false⟩ label = some plain ∧
      withoutSequences colored.toList = plain.toList := by
  have hinside : d.IsInside := fun r hr c hc => (isFlush_of_draw hb hd hr).column_lt hc
  obtain ⟨colored, hcolored⟩ := hinside.exists_render ⟨charset, true⟩ label
  obtain ⟨plain, hplain⟩ := hinside.exists_render ⟨charset, false⟩ label
  refine ⟨colored, plain, hcolored, hplain, ?_⟩
  obtain ⟨lss, hlss, rfl⟩ := Drawing.render_eq_some.mp hcolored
  obtain ⟨lss', hlss', rfl⟩ := Drawing.render_eq_some.mp hplain
  -- Both texts come from the same rows, and each line reads as its plain one.
  have hrows : List.Forall₂ (List.Forall₂ ReadsAs) lss lss' := by
    refine (forall₂_of_right (forall₂_mem hlss).flip hlss'.flip).imp ?_
    rintro ls ls' ⟨r, ⟨hls, hr, -⟩, hls'⟩
    exact (isFlush_of_draw hb hd hr).readsAs_rowLines (hlabel r hr) hls hls'
  rw [String.toList_ofList, String.toList_ofList]
  apply ReadsAs.eq
  apply ReadsAs.flatMap
  refine (List.rel_flatten hrows).imp fun _ _ h => ?_
  exact h.append (.singleton (by decide))

/-- One commit, which is selected, with a label that loses its last space. -/
theorem plain_of_colored_selected :
    ∃ (g : Graph) (d : Drawing) (colored plain : String), build [⟨0, [], 0⟩] [] = .ok g ∧
      g.draw (.unfolded 1) .standard (.ofList [.node 0]) = .ok d ∧
      (∀ r ∈ d.rows, '\x1b' ∉ "first ".toList) ∧
      d.render ⟨.utf8, true⟩ (fun _ => "first ") = some colored ∧
      colored = "\x1b[1m\x1b[34m●\x1b[0m  first\n" ∧
      d.render ⟨.utf8, false⟩ (fun _ => "first ") = some plain ∧ plain = "●  first\n" ∧
      withoutSequences colored.toList = plain.toList := by
  have hdraw : ∃ (g : Graph) (d : Drawing), build [⟨0, [], 0⟩] [] = .ok g ∧
      g.draw (.unfolded 1) .standard (.ofList [.node 0]) = .ok d ∧
      (∀ r ∈ d.rows, '\x1b' ∉ "first ".toList) ∧
      d.render ⟨.utf8, true⟩ (fun _ => "first ") = some "\x1b[1m\x1b[34m●\x1b[0m  first\n" ∧
      d.render ⟨.utf8, false⟩ (fun _ => "first ") = some "●  first\n" :=
    ⟨_, _, rfl, rfl, by decide, by decide, by decide⟩
  obtain ⟨g, d, hb, hd, hlabel, htrue, hfalse⟩ := hdraw
  obtain ⟨colored, plain, hcolored, hplain, heq⟩ := plain_of_colored hb hd .utf8 hlabel
  have hcoloredtext := Option.some_inj.mp (hcolored.symm.trans htrue)
  have hplaintext := Option.some_inj.mp (hplain.symm.trans hfalse)
  exact ⟨g, d, colored, plain, hb, hd, hlabel, hcolored, hcoloredtext, hplain, hplaintext, heq⟩

end Graph

end CommitGraph
