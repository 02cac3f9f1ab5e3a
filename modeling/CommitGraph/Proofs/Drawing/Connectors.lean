import CommitGraph.Proofs.Drawing.Crossings
import CommitGraph.Proofs.Drawing.Text

namespace CommitGraph

namespace Link

variable {g : Glyphs} {l : Link} {x column : Nat}

def markAt? (g : Glyphs) (l : Link) (x : Nat) : Option Mark :=
  (l.glyphAt? g x).map fun c => ⟨c, .ofBranch l.branch, l.selected⟩

def IsStraightAt (l : Link) (column : Nat) : Prop :=
  l.upColumn = column ∧ l.downColumn = column

instance (l : Link) (column : Nat) : Decidable (l.IsStraightAt column) :=
  inferInstanceAs (Decidable (_ ∧ _))

/-- The link runs level to the left over a column. -/
def PassesOver (l : Link) (column : Nat) : Prop := l.downColumn < column ∧ column < l.upColumn

def straightMark (g : Glyphs) (l : Link) : Mark :=
  ⟨if l.folded then g.foldedEdge else g.edge, .ofBranch l.branch, l.selected⟩

theorem getElem?_paint (g : Glyphs) (marks : List Mark) (l : Link) (x : Nat) :
    (l.paint g marks)[x]? = marks[x]?.map fun m => (l.markAt? g x).getD m := by
  rw [paint, List.getElem?_mapIdx]
  apply congrArg (Option.map · marks[x]?)
  funext m
  rw [markAt?]
  cases l.glyphAt? g x with
  | none => rfl
  | some c => rfl

theorem markAt?_of_straight (h : l.IsStraightAt column) :
    l.markAt? g (2 * column) = some (l.straightMark g) := by
  obtain ⟨hup, hdown⟩ := h
  rw [markAt?, glyphAt?, if_pos (by omega), if_pos (by omega)]
  rfl

theorem markAt?_of_passesOver (h : l.PassesOver column) :
    l.markAt? g (2 * column) = some ⟨g.horizontal, .ofBranch l.branch, l.selected⟩ := by
  obtain ⟨hdown, hup⟩ := h
  rw [markAt?, glyphAt?, if_neg (by omega), if_pos (by omega), if_neg (by omega),
    if_pos (by omega)]
  rfl

theorem of_markAt?_eq_none (hm : l.markAt? g (2 * column) = none) :
    ¬ l.IsStraightAt column ∧ ¬ l.PassesOver column := by
  constructor
  · intro h
    cases hm.symm.trans (markAt?_of_straight h)
  · intro h
    cases hm.symm.trans (markAt?_of_passesOver h)

/-- A link from no further left than a column paints there only if it is straight or passes over. -/
theorem straight_or_passesOver {m : Mark} (hm : l.markAt? g (2 * column) = some m)
    (hup : column ≤ l.upColumn) : l.IsStraightAt column ∨ l.PassesOver column := by
  by_contra hneither
  rw [not_or, IsStraightAt, PassesOver] at hneither
  have hnone : l.glyphAt? g (2 * column) = none := by
    rw [glyphAt?]
    split
    · rw [if_neg (by omega)]
    · split
      · rw [if_neg (by omega), if_neg (by omega)]
      · rw [if_neg (by omega), if_neg (by omega)]
  rw [markAt?, hnone] at hm
  cases hm

end Link

namespace DrawnRow

variable {r : DrawnRow} {g : Glyphs} {width x column : Nat} {marks : List Mark}

theorem connector?_eq (r : DrawnRow) (g : Glyphs) (width : Nat) : r.connector? g width =
    if r.links.any (·.needsLine) then
      some ((List.range (2 * max width r.width)).map fun x =>
        (r.links.reverse.findSome? (·.markAt? g x)).getD .blank)
    else none := by
  rw [connector?, blankLine, foldl_write_replicate (Link.getElem?_paint g)]

theorem getElem?_connector (h : r.connector? g width = some marks)
    (hx : x < 2 * max width r.width) :
    marks[x]? = some ((r.links.reverse.findSome? (·.markAt? g x)).getD .blank) := by
  rw [connector?_eq, Option.ite_none_right_eq_some, Option.some_inj] at h
  rw [← h.2, List.getElem?_map, List.getElem?_range hx, Option.map_some]

/-- What the connector line shows at a column down which links run straight: a level link if one
passes over it, and else the last of the straight links. A link that passes over it joins a node
that was reached from no further right. -/
structure ShowsColumn (r : DrawnRow) (g : Glyphs) (marks : List Mark) (column : Nat) : Prop where
  covered : ∀ l ∈ r.links, l.PassesOver column →
    ∃ m, marks[2 * column]? = some m ∧ m.char = g.horizontal
  kept : (∀ l ∈ r.links, ¬ l.PassesOver column) →
    ∃ l, (r.links.filter (·.IsStraightAt column)).getLast? = some l ∧
      marks[2 * column]? = some (l.straightMark g)
  joins : ∀ l ∈ r.links, l.PassesOver column →
    ∃ first ∈ r.links, first.upColumn ≤ column ∧ first.downColumn = l.downColumn

theorem exists_last_painted (hpairwise : (r.links.map (·.upColumn)).Pairwise (· ≤ ·)) {l : Link}
    (hl : l ∈ r.links) (hstraight : l.IsStraightAt column) (g : Glyphs) :
    ∃ later last earlier m, r.links.reverse = later ++ last :: earlier ∧
      r.links.reverse.findSome? (·.markAt? g (2 * column)) = some m ∧
      last.markAt? g (2 * column) = some m ∧
      (last.IsStraightAt column ∨ last.PassesOver column) ∧
      (∀ x ∈ later, x.markAt? g (2 * column) = none) ∧
      ∀ x ∈ earlier, x.upColumn ≤ last.upColumn := by
  have hsome : r.links.reverse.findSome? (·.markAt? g (2 * column)) ≠ none := by
    rw [ne_eq, List.findSome?_eq_none_iff]
    intro hnone
    exact (Link.of_markAt?_eq_none (hnone l (List.mem_reverse.mpr hl))).1 hstraight
  obtain ⟨m, hm⟩ := Option.ne_none_iff_exists'.mp hsome
  obtain ⟨later, last, earlier, hsplit, hlast, hlater⟩ := List.findSome?_eq_some_iff.mp hm
  have hback : (last :: earlier).Pairwise fun x y => y.upColumn ≤ x.upColumn := by
    have hreverse := List.pairwise_reverse.mpr (List.pairwise_map.mp hpairwise)
    rw [hsplit, List.pairwise_append] at hreverse
    exact hreverse.2.1
  have hearlier := (List.pairwise_cons.mp hback).1
  refine ⟨later, last, earlier, m, hsplit, hm, hlast, ?_, hlater, hearlier⟩
  apply Link.straight_or_passesOver hlast
  -- The straight link itself is this one or an earlier one.
  have hmem : l ∈ later ++ last :: earlier := hsplit ▸ List.mem_reverse.mpr hl
  rw [← hstraight.1]
  rcases List.mem_append.mp hmem with hmem | hmem
  · exact absurd hstraight (Link.of_markAt?_eq_none (hlater l hmem)).1
  · rcases List.mem_cons.mp hmem with rfl | hmem
    · exact Nat.le_refl _
    · exact hearlier l hmem

theorem showsColumn (hleaving : (r.links.map (·.upColumn)).Pairwise (· ≤ ·))
    (harriving : (r.links.map (·.downColumn)).eraseDups.Pairwise (· < ·))
    (h : r.connector? g width = some marks) (hcolumn : column < r.width) {l : Link}
    (hl : l ∈ r.links) (hstraight : l.IsStraightAt column) : r.ShowsColumn g marks column := by
  obtain ⟨later, last, earlier, m, hsplit, hfind, hlast, hkind, hlater, hearlier⟩ :=
    exists_last_painted hleaving hl hstraight g
  have hline : marks[2 * column]? = some m := by
    rw [getElem?_connector h (by omega), hfind, Option.getD_some]
  have hmem : ∀ x, x ∈ r.links ↔ x ∈ later ∨ x = last ∨ x ∈ earlier := by
    intro x
    rw [← List.mem_reverse, hsplit, List.mem_append, List.mem_cons]
  constructor
  case covered =>
    intro x hx hover
    -- Were the last link straight, no link painted after it or before it would pass over.
    have hpasses : last.PassesOver column := by
      refine hkind.resolve_left fun hlast => ?_
      rcases (hmem x).mp hx with hx | rfl | hx
      · exact (Link.of_markAt?_eq_none (hlater x hx)).2 hover
      · have := hover.2
        have := hlast.1
        omega
      · have := hearlier x hx
        have := hover.2
        have := hlast.1
        omega
    rw [Link.markAt?_of_passesOver hpasses] at hlast
    cases hlast
    exact ⟨_, hline, rfl⟩
  case kept =>
    intro hfree
    have hlaststraight := hkind.resolve_right (hfree last ((hmem last).mpr (.inr (.inl rfl))))
    refine ⟨last, ?_, ?_⟩
    · rw [List.getLast?_filter, List.find?_eq_some_iff_append]
      refine ⟨decide_eq_true hlaststraight, later, earlier, hsplit, fun x hx => ?_⟩
      rw [Bool.not_eq_true', decide_eq_false_iff_not]
      exact (Link.of_markAt?_eq_none (hlater x hx)).1
    · rw [Link.markAt?_of_straight hlaststraight] at hlast
      rw [hline, ← hlast]
  case joins =>
    intro x hx hover
    -- A link that passes over a straight one crosses it.
    have hcross : l.CrossedBy x := by
      rw [Link.CrossedBy, hstraight.1, hstraight.2]
      exact ⟨hover.2, hover.1⟩
    obtain ⟨first, hsub, hleft, hsame⟩ :=
      exists_first_of_crossedBy hleaving harriving hl hx hcross
    exact ⟨first, hsub.subset List.mem_cons_self, hstraight.1 ▸ hleft, hsame⟩

end DrawnRow

theorem Drawing.width_le {d : Drawing} {r : DrawnRow} (hr : r ∈ d.rows) : r.width ≤ d.width :=
  List.le_max?_getD_of_mem (List.mem_map_of_mem hr)

namespace Plan

variable {p : Plan} {rows : List Nat} {shown below : List Slot} {i j : Nat} {l : Link}
  {r : DrawnRow} {d : Drawing}

theorem length_cells (h : shown.Nodup)
    (hs : ∀ n, .node n ∈ shown → ∃ m, p.graph.nodes[n]? = some m) (i : Nat) :
    (p.cells i shown).length = shown.length := by
  rw [← (forall₂_cells h hs i).length_eq, List.length_zipIdx]

theorem columns_lt (h : shown.Nodup) (h' : below.Nodup) (hl : l ∈ p.links j shown below) :
    l.upColumn < shown.length ∧ l.downColumn < below.length := by
  rw [links_eq_map h h', List.mem_map] at hl
  obtain ⟨⟨s, w⟩, hx, rfl⟩ := hl
  obtain ⟨hx, hbelow⟩ := List.mem_filter.mp hx
  exact ⟨List.idxOf_lt_length_iff.mpr (mem_departures.mp hx).1,
    List.idxOf_lt_length_iff.mpr (of_decide_eq_true hbelow)⟩

/-- Links leave from left to right, and they get to new cells from left to right. -/
theorem Levelled.pairwise_columns (hg : p.graph.Sound) (h : p.Levelled rows)
    (hd : p.draw rows = .ok d) (hr : d.rows[i]? = some r) :
    (r.links.map (·.upColumn)).Pairwise (· ≤ ·) ∧
      (r.links.map (·.downColumn)).eraseDups.Pairwise (· < ·) := by
  rw [h.row_of_draw hg hd, Option.map_eq_some_iff] at hr
  obtain ⟨row, hr, rfl⟩ := hr
  cases hnext : rows[i + 1]? with
  | none =>
    rw [p.linksAt_eq_nil hnext]
    exact ⟨.nil, .nil⟩
  | some row' =>
    rw [p.linksAt_eq_links hnext]
    exact ⟨pairwise_upColumn_links (h.nodup_drawnSlots hg hr) (h.nodup_drawnSlots hg hnext) _,
      h.pairwise_downColumn_links hg hr hnext⟩

theorem Levelled.link_lt (hg : p.graph.Sound) (h : p.Levelled rows) (hd : p.draw rows = .ok d)
    (hr : d.rows[i]? = some r) (hl : l ∈ r.links) :
    l.upColumn < r.width ∧ ∃ r', d.rows[i + 1]? = some r' ∧ l.downColumn < r'.width := by
  have hrow := h.row_of_draw hg hd
  rw [hrow, Option.map_eq_some_iff] at hr
  obtain ⟨row, hr, rfl⟩ := hr
  cases hnext : rows[i + 1]? with
  | none =>
    rw [p.linksAt_eq_nil hnext] at hl
    cases hl
  | some row' =>
    have hshown := h.nodup_drawnSlots hg hr
    have hbelow := h.nodup_drawnSlots hg hnext
    rw [p.linksAt_eq_links hnext] at hl
    obtain ⟨hup, hdown⟩ := columns_lt hshown hbelow hl
    refine ⟨?_, _, by rw [hrow, hnext, Option.map_some], ?_⟩
    · rw [DrawnRow.width]
      exact (length_cells hshown (fun _ hn => (h.fills hg hr).exists_node hg hn) i).symm ▸ hup
    · rw [DrawnRow.width]
      exact (length_cells hbelow (fun _ hn => (h.fills hg hnext).exists_node hg hn) _).symm ▸ hdown

end Plan

namespace Graph

variable {g : Graph} {f : Folding} {o : DrawOptions} {s : Selection} {d : Drawing} {r : DrawnRow}
  {l : Link}

theorem link_lt_of_draw {cs : List Commit} {references : List Reference}
    (hb : build cs references = .ok g) (hd : g.draw f o s = .ok d) {i : Nat}
    (hr : d.rows[i]? = some r) (hl : l ∈ r.links) :
    l.upColumn < r.width ∧ ∃ r', d.rows[i + 1]? = some r' ∧ l.downColumn < r'.width := by
  have hg := (depicts_of_build hb).toSound
  obtain ⟨p, rfl, rfl, rfl, hp, hd⟩ := hg.exists_plan hd
  exact (hp.levelled hg).link_lt hg hd hr hl

/-- A straight link keeps its place in the connector line unless a later link passes over it, on its
way to a node that was reached before. -/
theorem straight_of_connector {cs : List Commit} {references : List Reference}
    (hb : build cs references = .ok g) (hd : g.draw f o s = .ok d) (hr : r ∈ d.rows)
    (charset : Charset) {marks : List Mark}
    (hline : r.connector? charset.glyphs d.width = some marks) (hl : l ∈ r.links)
    (hstraight : l.upColumn = l.downColumn) :
    r.ShowsColumn charset.glyphs marks l.upColumn := by
  obtain ⟨i, hi⟩ := List.mem_iff_getElem?.mp hr
  obtain ⟨hup, -⟩ := link_lt_of_draw hb hd hi hl
  have hg := (depicts_of_build hb).toSound
  obtain ⟨p, rfl, rfl, rfl, hp, hd⟩ := hg.exists_plan hd
  obtain ⟨hleaving, harriving⟩ := (hp.levelled hg).pairwise_columns hg hd hi
  exact DrawnRow.showsColumn hleaving harriving hline hup hl ⟨rfl, hstraight.symm⟩

/-- The link to the last of three commits in a row leads through the second one, which is folded
away. -/
theorem straight_of_connector_folded :
    ∃ (g : Graph) (d : Drawing) (r : DrawnRow) (marks : List Mark),
      build [⟨3, [2], 0⟩, ⟨2, [1], 0⟩, ⟨1, [], 0⟩] [] = .ok g ∧
      g.draw ⟨#[false, true, false]⟩ .standard .none = .ok d ∧ d.rows[0]? = some r ∧
      r.connector? Charset.utf8.glyphs d.width = some marks ∧
      marks = [⟨'┆', .blue, false⟩, .blank] ∧ r.ShowsColumn Charset.utf8.glyphs marks 0 := by
  have hdraw : ∃ (g : Graph) (d : Drawing) (r : DrawnRow) (marks : List Mark),
      build [⟨3, [2], 0⟩, ⟨2, [1], 0⟩, ⟨1, [], 0⟩] [] = .ok g ∧
      g.draw ⟨#[false, true, false]⟩ .standard .none = .ok d ∧ d.rows[0]? = some r ∧
      r.connector? Charset.utf8.glyphs d.width = some marks ∧
      marks = [⟨'┆', .blue, false⟩, .blank] ∧ r.links = [⟨0, 0, 0, 0, true, false⟩] :=
    ⟨_, _, _, _, rfl, rfl, rfl, rfl, rfl, rfl⟩
  obtain ⟨g, d, r, marks, hb, hd, hr, hline, hmarks, hlinks⟩ := hdraw
  have hl : ⟨0, 0, 0, 0, true, false⟩ ∈ r.links := hlinks ▸ List.mem_singleton_self _
  exact ⟨g, d, r, marks, hb, hd, hr, hline, hmarks,
    straight_of_connector hb hd (List.mem_of_getElem? hr) .utf8 hline hl rfl⟩

/-- The edge of the second head runs straight down below the third one, but nothing is left of it in
the line of connectors there, since the edge of the third head passes over it. -/
theorem covered_straight_link :
    ∃ (g : Graph) (d : Drawing) (r : DrawnRow) (marks : List Mark) (l : Link),
      build [⟨1, [4], 0⟩, ⟨2, [5], 0⟩, ⟨3, [4], 0⟩, ⟨4, [], 0⟩, ⟨5, [], 0⟩] [] = .ok g ∧
      g.draw (.unfolded 5) .standard .none = .ok d ∧ d.rows[2]? = some r ∧
      r.connector? Charset.ascii.glyphs d.width = some marks ∧
      l ∈ r.links ∧ l.upColumn = l.downColumn ∧ l.folded = false ∧
      marks.map (·.char) = ['|', '_', '_', '/', ' ', ' '] ∧
      marks[2 * l.upColumn]?.map (·.char) ≠ some Charset.ascii.glyphs.edge := by
  refine ⟨_, _, _, _, ⟨1, 1, 1, 1, false, false⟩, rfl, rfl, rfl, rfl, ?_, rfl, rfl, rfl, ?_⟩
  · decide
  · decide

end Graph

end CommitGraph
