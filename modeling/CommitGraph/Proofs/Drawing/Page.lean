import CommitGraph.Proofs.Drawing.Connectors
import Mathlib.Data.List.DropRight

namespace CommitGraph

theorem exists_dropSpaces_append (cs : List Char) :
    ∃ n, dropSpaces cs ++ List.replicate n ' ' = cs := by
  have hspaces : ∀ c ∈ cs.rtakeWhile fun c => decide (c = ' '), c = ' ' := by
    intro c hc
    exact of_decide_eq_true (List.mem_rtakeWhile_imp (p := fun c => decide (c = ' ')) hc)
  refine ⟨(cs.rtakeWhile fun c => decide (c = ' ')).length, ?_⟩
  rw [← List.eq_replicate_of_mem hspaces]
  exact List.rdropWhile_append_rtakeWhile

theorem dropSpaces_eq_self {cs : List Char} : dropSpaces cs = cs ↔ cs.getLast? ≠ some ' ' := by
  refine List.rdropWhile_eq_self_iff.trans ?_
  rcases List.eq_nil_or_concat cs with rfl | ⟨cs, c, rfl⟩
  · simp
  · simp

theorem getLast?_dropSpaces (cs : List Char) : (dropSpaces cs).getLast? ≠ some ' ' := by
  have := List.rdropWhile_idempotent (p := fun c => decide (c = ' ')) cs
  exact dropSpaces_eq_self.mp this

theorem mem_of_mem_dropSpaces {cs : List Char} {c : Char} (hc : c ∈ dropSpaces cs) : c ∈ cs :=
  (List.rdropWhile_prefix (p := fun c => decide (c = ' ')) (l := cs)).subset hc

theorem dropSpaces_append (cs ds : List Char) : dropSpaces (cs ++ ds) =
    if dropSpaces ds = [] then dropSpaces cs else cs ++ dropSpaces ds := by
  rw [dropSpaces, dropSpaces, dropSpaces, List.reverse_append, List.dropWhile_append]
  simp only [List.isEmpty_iff, List.reverse_eq_nil_iff]
  split
  · rfl
  · rw [List.reverse_append, List.reverse_reverse]

theorem dropSpaces_append_of_getLast? {cs : List Char} (h : cs.getLast? ≠ some ' ')
    (ds : List Char) : dropSpaces (cs ++ ds) = cs ++ dropSpaces ds := by
  rw [dropSpaces_append]
  split
  · next hds => rw [hds, List.append_nil, dropSpaces_eq_self.mpr h]
  · rfl

def Glyphs.toList (g : Glyphs) : List Char :=
  [g.commit, g.endCommit, g.edge, g.foldedEdge, g.stubDown, g.stubUp, g.slash, g.backslash,
    g.horizontal]

theorem Charset.ne_of_mem {charset : Charset} {c : Char} (hc : c ∈ ' ' :: charset.glyphs.toList) :
    c ≠ '\n' ∧ c ≠ '\x1b' := by
  have hall : (' ' :: charset.glyphs.toList).all fun c => c ≠ '\n' ∧ c ≠ '\x1b' := by
    cases charset with
    | utf8 => decide
    | ascii => decide
  exact of_decide_eq_true (List.all_eq_true.mp hall c hc)

theorem Cell.glyph_mem (g : Glyphs) (c : Cell) : c.glyph g ∈ g.toList := by
  rw [glyph, Glyphs.toList]
  cases c.kind with
  | edge => cases c.folded <;> simp
  | commit | endCommit | stubDown | stubUp => simp

theorem Link.mem_of_glyphAt? {g : Glyphs} {l : Link} {x : Nat} {c : Char}
    (h : l.glyphAt? g x = some c) : c ∈ g.toList := by
  rw [glyphAt?] at h
  split_ifs at h <;> cases h <;> simp [Glyphs.toList]

theorem Link.lt_of_glyphAt? {g : Glyphs} {l : Link} {x width : Nat} {c : Char}
    (h : l.glyphAt? g x = some c) (hup : l.upColumn < width) (hdown : l.downColumn < width) :
    x < 2 * width := by
  rw [glyphAt?] at h
  split_ifs at h <;> omega

theorem Link.map_char_markAt? (g : Glyphs) (l : Link) (x : Nat) :
    (l.markAt? g x).map (·.char) = l.glyphAt? g x := by
  rw [markAt?, Option.map_map]
  exact Option.map_id'

theorem lineText_plain (marks : List Mark) : lineText false marks = marks.map (·.char) := by
  rw [lineText, List.map_eq_flatMap]
  rfl

theorem char_mem_getD {α : Type} {as : List α} {mark? : α → Option Mark} {g : Glyphs}
    (h : ∀ a m, mark? a = some m → m.char ∈ g.toList) :
    ((as.findSome? mark?).getD .blank).char ∈ ' ' :: g.toList := by
  cases hm : as.findSome? mark? with
  | none => exact List.mem_cons_self
  | some m =>
    obtain ⟨a, -, ha⟩ := List.exists_of_findSome?_eq_some hm
    exact List.mem_cons_of_mem _ (h a m ha)

def Cell.markAt? (g : Glyphs) (c : Cell) (x : Nat) : Option Mark :=
  if x = 2 * c.column then some (c.mark g) else none

theorem Cell.getElem?_set_mark (g : Glyphs) (marks : List Mark) (c : Cell) (x : Nat) :
    (marks.set (2 * c.column) (c.mark g))[x]? = marks[x]?.map fun m => (c.markAt? g x).getD m := by
  rw [markAt?]
  by_cases hx : x = 2 * c.column
  · rw [if_pos hx, hx, List.getElem?_set_self']
    rfl
  · rw [if_neg hx, List.getElem?_set_ne (Ne.symm hx)]
    exact Option.map_id'.symm

namespace DrawnRow

variable {r : DrawnRow} {g : Glyphs} {width : Nat} {marks : List Mark} {m : Mark}

def cellMark? (r : DrawnRow) (g : Glyphs) (x : Nat) : Option Mark :=
  r.cells.reverse.findSome? (·.markAt? g x)

theorem IsFlush.cellMark?_of_mem (h : r.IsFlush) {c : Cell} (hc : c ∈ r.cells) (g : Glyphs) :
    r.cellMark? g (2 * c.column) = some (c.mark g) := by
  have hnodup : (r.cells.map (·.column)).Nodup := h ▸ List.nodup_range
  rw [cellMark?]
  cases hm : r.cells.reverse.findSome? (·.markAt? g (2 * c.column)) with
  | none =>
    have hnone := List.findSome?_eq_none_iff.mp hm c (List.mem_reverse.mpr hc)
    rw [Cell.markAt?, if_pos rfl] at hnone
    cases hnone
  | some m =>
    obtain ⟨c', hc', hmark⟩ := List.exists_of_findSome?_eq_some hm
    rw [Cell.markAt?, Option.ite_none_right_eq_some] at hmark
    have hcolumn : c'.column = c.column := by omega
    obtain rfl := List.inj_on_of_nodup_map hnodup (List.mem_reverse.mp hc') hc hcolumn
    exact hmark.2.symm

theorem IsFlush.line?_eq (h : r.IsFlush) (g : Glyphs) (width : Nat) : r.line? g width =
    some ((List.range (2 * max width r.width)).map fun x => (r.cellMark? g x).getD .blank) := by
  rw [line?_of_inside fun c hc => h.column_lt hc, blankLine,
    foldl_write_replicate (Cell.getElem?_set_mark g)]
  rfl

theorem IsFlush.char_mem_line (h : r.IsFlush) (hline : r.line? g width = some marks)
    (hm : m ∈ marks) : m.char ∈ ' ' :: g.toList := by
  rw [h.line?_eq, Option.some_inj] at hline
  obtain ⟨x, -, rfl⟩ := List.mem_map.mp (hline ▸ hm)
  apply char_mem_getD
  intro c m hmark
  rw [Cell.markAt?, Option.ite_none_right_eq_some, Option.some_inj] at hmark
  exact hmark.2 ▸ c.glyph_mem g

theorem char_mem_connector (hline : r.connector? g width = some marks) (hm : m ∈ marks) :
    m.char ∈ ' ' :: g.toList := by
  rw [connector?_eq, Option.ite_none_right_eq_some, Option.some_inj] at hline
  obtain ⟨x, -, rfl⟩ := List.mem_map.mp (hline.2 ▸ hm)
  apply char_mem_getD
  intro l m hmark
  rw [Link.markAt?, Option.map_eq_some_iff] at hmark
  obtain ⟨c, hc, rfl⟩ := hmark
  exact Link.mem_of_glyphAt? hc

/-- The whole text of a row's line: a glyph for every cell, nothing else up to the last column and
one place beyond it, and then the label. -/
structure ShowsCells (r : DrawnRow) (g : Glyphs) (width : Nat) (label : String)
    (text : List Char) : Prop where
  column_lt : ∀ c ∈ r.cells, c.column < width
  cell : ∀ c ∈ r.cells, text[2 * c.column]? = some (c.glyph g)
  blank : ∀ x < 2 * width + 1, (∀ c ∈ r.cells, x ≠ 2 * c.column) → text[x]? = some ' '
  label : text.drop (2 * width + 1) = label.toList

/-- The whole text of a row's connectors: each place shows the last link that has a glyph there, and
every glyph of a link has its place. -/
structure ShowsLinks (r : DrawnRow) (g : Glyphs) (width : Nat) (text : List Char) : Prop where
  length_eq : text.length = 2 * width
  inside : ∀ l ∈ r.links, ∀ x c, l.glyphAt? g x = some c → x < 2 * width
  shown : ∀ x < 2 * width,
    text[x]? = some ((r.links.reverse.findSome? (·.glyphAt? g x)).getD ' ')

/-- The lines that are printed for a row. They show its cells and its links once they get back the
spaces at their ends. -/
structure IsPrinted (r : DrawnRow) (g : Glyphs) (width : Nat) (label : String)
    (ls : List (List Char)) : Prop where
  length_eq : ls.length = if ∃ l ∈ r.links, l.upColumn ≠ l.downColumn ∨ l.folded then 2 else 1
  cells : ∃ cs n, ls[0]? = some cs ∧ r.ShowsCells g width label (cs ++ List.replicate n ' ')
  links : ∀ cs, ls[1]? = some cs → ∃ n, r.ShowsLinks g width (cs ++ List.replicate n ' ')
  ended : ∀ cs ∈ ls, '\n' ∉ cs ∧ cs.getLast? ≠ some ' '

theorem IsFlush.showsCells (h : r.IsFlush) (hwidth : r.width ≤ width)
    (hline : r.line? g width = some marks) (label : String) :
    r.ShowsCells g width label (lineText false marks ++ ' ' :: label.toList) := by
  rw [h.line?_eq, Option.some_inj, Nat.max_eq_left hwidth] at hline
  have hlength : (lineText false marks).length = 2 * width := by
    rw [lineText_plain, List.length_map, ← hline, List.length_map, List.length_range]
  have hget : ∀ x < 2 * width, (lineText false marks ++ ' ' :: label.toList)[x]? =
      some ((r.cellMark? g x).getD .blank).char := by
    intro x hx
    rw [List.getElem?_append_left (hlength ▸ hx), lineText_plain, ← hline, List.map_map,
      List.getElem?_map, List.getElem?_range hx]
    rfl
  constructor
  case column_lt => exact fun c hc => Nat.lt_of_lt_of_le (h.column_lt hc) hwidth
  case cell =>
    intro c hc
    have hcolumn := h.column_lt hc
    rw [hget _ (by omega), h.cellMark?_of_mem hc, Option.getD_some]
    rfl
  case blank =>
    intro x hx hfree
    rcases Nat.lt_succ_iff_lt_or_eq.mp hx with hx | rfl
    · have hnone : r.cellMark? g x = none := by
        rw [cellMark?, List.findSome?_eq_none_iff]
        intro c hc
        exact if_neg (hfree c (List.mem_reverse.mp hc))
      rw [hget x hx, hnone]
      rfl
    · rw [← hlength, List.getElem?_append_right (Nat.le_refl _), Nat.sub_self,
        List.getElem?_cons_zero]
  case label =>
    rw [List.append_cons]
    apply List.drop_left'
    rw [List.length_append, hlength, List.length_singleton]

theorem showsLinks (hwidth : r.width ≤ width) (hline : r.connector? g width = some marks)
    (hinside : ∀ l ∈ r.links, l.upColumn < width ∧ l.downColumn < width) :
    r.ShowsLinks g width (lineText false marks) := by
  rw [connector?_eq, Option.ite_none_right_eq_some, Option.some_inj, Nat.max_eq_left hwidth]
    at hline
  obtain ⟨-, rfl⟩ := hline
  constructor
  case length_eq => rw [lineText_plain, List.length_map, List.length_map, List.length_range]
  case inside =>
    intro l hl x c hc
    exact Link.lt_of_glyphAt? hc (hinside l hl).1 (hinside l hl).2
  case shown =>
    intro x hx
    have hglyph : (r.links.reverse.findSome? (·.markAt? g x)).map (·.char) =
        r.links.reverse.findSome? (·.glyphAt? g x) := by
      rw [List.map_findSome?]
      apply congrArg (List.findSome? · _)
      funext l
      exact l.map_char_markAt? g x
    rw [lineText_plain, List.map_map, List.getElem?_map, List.getElem?_range hx, Option.map_some,
      ← hglyph]
    exact congrArg some (Option.getD_map (·.char) Mark.blank _).symm

theorem isSome_connector? : (r.connector? g width).isSome ↔
    ∃ l ∈ r.links, l.upColumn ≠ l.downColumn ∨ l.folded := by
  rw [connector?, Option.isSome_ite]
  simp [Link.needsLine]

theorem not_mem_lineText {charset : Charset}
    (h : ∀ m ∈ marks, m.char ∈ ' ' :: charset.glyphs.toList) : '\n' ∉ lineText false marks := by
  rw [lineText_plain, List.mem_map]
  rintro ⟨m, hm, hchar⟩
  exact (Charset.ne_of_mem (h m hm)).1 hchar

/-- A line that is cut at its end has its characters from the whole text. -/
theorem ended_dropSpaces {cs : List Char} (h : '\n' ∉ cs) :
    '\n' ∉ dropSpaces cs ∧ (dropSpaces cs).getLast? ≠ some ' ' :=
  ⟨fun hmem => h (mem_of_mem_dropSpaces hmem), getLast?_dropSpaces cs⟩

theorem IsFlush.exists_rowLines (h : r.IsFlush) (hwidth : r.width ≤ width)
    (hinside : ∀ l ∈ r.links, l.upColumn < width ∧ l.downColumn < width) (charset : Charset)
    {label : String} (hlabel : '\n' ∉ label.toList) :
    ∃ ls, Drawing.rowLines ⟨charset, false⟩ width label r = some ls ∧
      r.IsPrinted charset.glyphs width label ls := by
  have hline := h.line?_eq charset.glyphs width
  set marks := (List.range (2 * max width r.width)).map fun x =>
    (r.cellMark? charset.glyphs x).getD .blank
  obtain ⟨n, hn⟩ := exists_dropSpaces_append (lineText false marks ++ ' ' :: label.toList)
  have hcells := hn ▸ h.showsCells hwidth hline label
  -- Glyphs are no line feeds, so only the label could break the line.
  have hended : '\n' ∉ lineText false marks ++ ' ' :: label.toList := by
    rw [List.mem_append, List.mem_cons]
    rintro (hmem | hmem | hmem)
    · exact not_mem_lineText (fun m hm => h.char_mem_line hline hm) hmem
    · exact absurd hmem (by decide)
    · exact hlabel hmem
  refine ⟨_, by rw [Drawing.rowLines, hline, Option.map_some], ?_⟩
  constructor
  case length_eq =>
    rw [List.length_cons, List.length_map, Option.length_toList]
    simp only [isSome_connector?]
    split <;> rfl
  case cells => exact ⟨_, n, rfl, hcells⟩
  case links =>
    intro cs hcs
    rw [List.getElem?_cons_succ, List.getElem?_map, Option.map_eq_some_iff] at hcs
    obtain ⟨below, hbelow, rfl⟩ := hcs
    have hconnector := Option.mem_toList.mp (List.mem_of_getElem? hbelow)
    obtain ⟨k, hk⟩ := exists_dropSpaces_append (lineText false below)
    exact ⟨k, hk.symm ▸ showsLinks hwidth hconnector hinside⟩
  case ended =>
    intro cs hcs
    rcases List.mem_cons.mp hcs with rfl | hcs
    · exact ended_dropSpaces hended
    · obtain ⟨below, hbelow, rfl⟩ := List.mem_map.mp hcs
      have hconnector := Option.mem_toList.mp hbelow
      exact ended_dropSpaces (not_mem_lineText fun m hm => char_mem_connector hconnector hm)

end DrawnRow

/-- Writes a line at the end of a page: spaces are cut off the end of the page, not of the line. -/
def putLine (page cs : List Char) : List Char := dropSpaces (page ++ cs) ++ ['\n']

namespace Drawing

def putRow (s : Style) (width : Nat) (label : String) (page : List Char) (r : DrawnRow) :
    Option (List Char) :=
  (r.line? s.charset.glyphs width).map fun line =>
    ((lineText s.colored line ++ ' ' :: label.toList) ::
      (r.connector? s.charset.glyphs width).toList.map (lineText s.colored)).foldl putLine page

/-- The page with the rows of a drawing, written one after the other. -/
def page? (s : Style) (label : DrawnRow → String) (d : Drawing) : Option (List Char) :=
  d.rows.foldlM (fun page r => putRow s d.width (label r) page r) []

variable {s : Style} {width : Nat} {label : DrawnRow → String} {page : List Char}

theorem getLast?_append_lines (h : page.getLast? ≠ some ' ') (ls : List (List Char)) :
    (page ++ ls.flatMap (· ++ ['\n'])).getLast? ≠ some ' ' := by
  cases ls using List.reverseRecOn with
  | nil => rwa [List.flatMap_nil, List.append_nil]
  | append_singleton ls cs => simp

/-- Only the line that is written loses its spaces. -/
theorem foldl_putLine (h : page.getLast? ≠ some ' ') (css : List (List Char)) :
    css.foldl putLine page = page ++ (css.map dropSpaces).flatMap (· ++ ['\n']) := by
  induction css using List.reverseRecOn with
  | nil => rw [List.foldl_nil, List.map_nil, List.flatMap_nil, List.append_nil]
  | append_singleton css cs ih =>
    rw [List.foldl_append, ih, List.foldl_cons, List.foldl_nil, putLine,
      dropSpaces_append_of_getLast? (getLast?_append_lines h _), List.map_append,
      List.flatMap_append, List.map_singleton, List.flatMap_singleton]
    simp only [List.append_assoc]

theorem putRow_eq (h : page.getLast? ≠ some ' ') (label : String) (r : DrawnRow) :
    putRow s width label page r =
      (rowLines s width label r).map fun ls => page ++ ls.flatMap (· ++ ['\n']) := by
  rw [putRow, rowLines, Option.map_map]
  apply congrArg (Option.map · _)
  funext line
  rw [foldl_putLine h, List.map_cons, List.map_map]
  rfl

theorem foldlM_putRow (h : page.getLast? ≠ some ' ') (rows : List DrawnRow) :
    rows.foldlM (fun page r => putRow s width (label r) page r) page =
      (rows.mapM fun r => rowLines s width (label r) r).map fun lss =>
        page ++ lss.flatten.flatMap (· ++ ['\n']) := by
  induction rows generalizing page with
  | nil => simp
  | cons r rows ih =>
    rw [List.foldlM_cons, List.mapM_cons, putRow_eq h]
    cases rowLines s width (label r) r with
    | none => rfl
    | some ls =>
      change List.foldlM _ (page ++ ls.flatMap (· ++ ['\n'])) rows = _
      rw [ih (getLast?_append_lines h ls)]
      cases rows.mapM fun r => rowLines s width (label r) r with
      | none => rfl
      | some lss => simp

/-- A page that loses the spaces at its end after each line has the text of lines that lose the
spaces at their own ends. -/
theorem page?_eq (s : Style) (label : DrawnRow → String) (d : Drawing) :
    d.page? s label = (d.render s label).map String.toList := by
  rw [page?, foldlM_putRow (by simp), render, lines, Option.map_map, Option.map_map]
  apply congrArg (Option.map · _)
  funext lss
  exact String.toList_ofList.symm

theorem render_eq_some {d : Drawing} {text : String} : d.render s label = some text ↔
    ∃ lss, List.Forall₂ (fun r ls => rowLines s d.width (label r) r = some ls) d.rows lss ∧
      text = String.ofList (lss.flatten.flatMap (· ++ ['\n'])) := by
  rw [render, lines, Option.map_map, Option.map_eq_some_iff]
  apply exists_congr
  intro lss
  rw [mapM_eq_some]
  exact and_congr_right fun _ => eq_comm

end Drawing

namespace Graph

variable {g : Graph} {f : Folding} {o : DrawOptions} {s : Selection} {d : Drawing} {r : DrawnRow}

theorem isFlush_of_draw {cs : List Commit} {references : List Reference}
    (hb : build cs references = .ok g) (hd : g.draw f o s = .ok d) (hr : r ∈ d.rows) :
    r.IsFlush := by
  have hg := (depicts_of_build hb).toSound
  obtain ⟨p, rfl, rfl, rfl, hp, hd⟩ := hg.exists_plan hd
  exact hp.isFlush hg hd hr

/-- In plain text a drawing is printed row by row, and each of its rows shows all its cells and
links. -/
theorem page_of_draw {cs : List Commit} {references : List Reference}
    (hb : build cs references = .ok g) (hd : g.draw f o s = .ok d) (charset : Charset)
    {label : DrawnRow → String} (hlabel : ∀ r ∈ d.rows, '\n' ∉ (label r).toList) :
    ∃ text lss, d.render ⟨charset, false⟩ label = some text ∧
      d.page? ⟨charset, false⟩ label = some text.toList ∧
      text.toList = lss.flatten.flatMap (· ++ ['\n']) ∧
      List.Forall₂ (fun r ls => r.IsPrinted charset.glyphs d.width (label r) ls) d.rows lss := by
  have hrows : ∀ r ∈ d.rows, ∃ ls,
      Drawing.rowLines ⟨charset, false⟩ d.width (label r) r = some ls ∧
        r.IsPrinted charset.glyphs d.width (label r) ls := by
    intro r hr
    apply (isFlush_of_draw hb hd hr).exists_rowLines (Drawing.width_le hr) ?_ charset (hlabel r hr)
    -- The lower ends of links are columns of the next row.
    intro l hl
    obtain ⟨i, hi⟩ := List.mem_iff_getElem?.mp hr
    obtain ⟨hup, r', hr', hdown⟩ := link_lt_of_draw hb hd hi hl
    exact ⟨Nat.lt_of_lt_of_le hup (Drawing.width_le hr),
      Nat.lt_of_lt_of_le hdown (Drawing.width_le (List.mem_of_getElem? hr'))⟩
  obtain ⟨lss, hlss⟩ := exists_forall₂ hrows
  have hrender := Drawing.render_eq_some.mpr ⟨lss, hlss.imp fun _ _ h => h.1, rfl⟩
  refine ⟨_, lss, hrender, ?_, String.toList_ofList, hlss.imp fun _ _ h => h.2⟩
  rw [Drawing.page?_eq, hrender, Option.map_some]

/-- A merge, with the numbers of rows as labels. -/
theorem page_of_draw_merge :
    ∃ (g : Graph) (d : Drawing) (text : String) (lss : List (List (List Char))),
      build [⟨0, [1, 2], 0⟩, ⟨1, [3], 0⟩, ⟨2, [3], 0⟩, ⟨3, [], 0⟩] [] = .ok g ∧
      g.draw (.unfolded 4) .standard .none = .ok d ∧
      (∀ r ∈ d.rows, '\n' ∉ (toString r.row).toList) ∧
      d.render ⟨.ascii, false⟩ (fun r => toString r.row) = some text ∧
      text = "*    0\n|\\\n* |  1\n| *  2\n|/\n*    3\n" ∧
      List.Forall₂ (fun r ls => r.IsPrinted Charset.ascii.glyphs d.width (toString r.row) ls)
        d.rows lss := by
  have hdraw : ∃ (g : Graph) (d : Drawing),
      build [⟨0, [1, 2], 0⟩, ⟨1, [3], 0⟩, ⟨2, [3], 0⟩, ⟨3, [], 0⟩] [] = .ok g ∧
      g.draw (.unfolded 4) .standard .none = .ok d ∧
      (∀ r ∈ d.rows, '\n' ∉ (toString r.row).toList) ∧
      d.render ⟨.ascii, false⟩ (fun r => toString r.row) =
        some "*    0\n|\\\n* |  1\n| *  2\n|/\n*    3\n" :=
    ⟨_, _, rfl, rfl, by decide, by decide⟩
  obtain ⟨g, d, hb, hd, hlabel, htext⟩ := hdraw
  obtain ⟨text, lss, hrender, -, -, hprinted⟩ := page_of_draw hb hd .ascii hlabel
  rw [htext, Option.some_inj] at hrender
  exact ⟨g, d, text, lss, hb, hd, hlabel, hrender ▸ htext, hrender.symm, hprinted⟩

end Graph

end CommitGraph
