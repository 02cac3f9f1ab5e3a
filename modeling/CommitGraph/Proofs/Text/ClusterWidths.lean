import CommitGraph.Proofs.Text.Widths
import Mathlib.Algebra.Ring.Int.Defs

namespace CommitGraph.Text

/-- The characters, the last one first, have been read as the beginning of a cluster. -/
inductive Grown : Seen → List Char → Prop
  | start (c : Char) : Grown (.start c) [c]
  | apart {s : Seen} {c : Char} {cl : List Char} :
    Grown s cl → s.joins c = false → Grown (s.next c) [c]
  | join {s : Seen} {c : Char} {cl : List Char} :
    Grown s cl → s.joins c = true → Grown (s.next c) (c :: cl)

variable {s s' : Seen} {c p q : Char} {cl ps : List Char} {x y : Context}

/-- The characters are read in the order given, after what the context shows. -/
def scan (x : Context) : List Char → Int × Context
  | [] => (0, x)
  | c :: cs =>
    let (width, y) := step c x
    let (rest, z) := scan y cs
    (width + rest, z)

theorem scan_cons (c : Char) (cs : List Char) (x : Context) :
    (scan x (c :: cs)).1 = (step c x).1 + (scan (step c x).2 cs).1 := rfl

theorem scan_append (cs ds : List Char) (x : Context) :
    scan x (cs ++ ds) = ((scan x cs).1 + (scan (scan x cs).2 ds).1, (scan (scan x cs).2 ds).2) := by
  induction cs generalizing x with
  | nil => simp [scan]
  | cons c cs ih =>
    rw [List.cons_append]
    simp [scan, ih, Int.add_assoc]

theorem measure_eq_scan (cs : List Char) : measure cs = scan .empty cs.reverse := by
  induction cs with
  | nil => rfl
  | cons c cs ih =>
    rw [List.reverse_cons, scan_append, ← ih, measure]
    simp [scan]

theorem measure_append (cs ds : List Char) :
    (measure (cs ++ ds)).1 = (measure ds).1 + (scan (measure ds).2 cs.reverse).1 := by
  rw [measure_eq_scan, List.reverse_append, scan_append, ← measure_eq_scan]

theorem Grown.exists_cons (h : Grown s cl) : ∃ p ps, cl = p :: ps := by
  cases h <;> exact ⟨_, _, rfl⟩

theorem Grown.last (h : Grown s (p :: ps)) : s.last = breakClass p := by
  cases h <;> rfl

theorem Grown.joined (h : Grown s (p :: q :: ps)) :
    ∃ s', Grown s' (q :: ps) ∧ s'.joins p = true ∧ s = s'.next p := by
  cases h with
  | join h hjoins => exact ⟨_, h, hjoins, rfl⟩

theorem joins_of_isMark (hmark : IsMark c) (h : s.last ∉ controlClasses) : s.joins c = true := by
  simp only [controlClasses, List.mem_cons, List.not_mem_nil, or_false, not_or] at h
  simp only [IsMark, markClasses, List.mem_cons, List.not_mem_nil, or_false] at hmark
  fun_cases Seen.joins s c <;> grind

theorem classes_of_joins_control (h : s.joins c = true)
    (hcontrol : s.last ∈ controlClasses ∨ IsControl c) :
    s.last = .carriageReturn ∧ breakClass c = .lineFeed := by
  simp only [IsControl, controlClasses, List.mem_cons, List.not_mem_nil, or_false] at hcontrol
  revert h
  fun_cases Seen.joins s c <;> grind

/-- No character but a prepended one is joined by this one. -/
structure Firm (c : Char) : Prop where
  breakClass : breakClass c = .prepended ∨ breakClass c = .other
  conjunct : conjunctConsonant.has c = false
  pictograph : extendedPictographic.has c = false

theorem last_of_joins_firm (h : s.joins c = true) (hc : Firm c) : s.last = .prepended := by
  obtain ⟨hclass, hconjunct, hpictograph⟩ := hc
  revert h
  fun_cases Seen.joins s c <;> grind

theorem not_pulled (h : breakClass c ∈ [BreakClass.flagLetter, .prepended]) :
    conjunctConsonant.has c = false ∧ extendedPictographic.has c = false :=
  ⟨not_has_of_breakClass (by decide) (tablesCompared.pulled _ (by simp)) h,
    not_has_of_breakClass (by decide) (tablesCompared.pulled _ (by simp)) h⟩

theorem firm_of_prepended (h : breakClass c = .prepended) : Firm c := by
  obtain ⟨hconjunct, hpictograph⟩ := not_pulled (c := c) (by simp [h])
  exact ⟨.inl h, hconjunct, hpictograph⟩

theorem firm_of_tifinagh (h : tifinaghLetters.has c = true) : Firm c where
  breakClass := by
    right
    by_contra hclass
    have hsets (k : BreakClass) : ∀ u ∈ setsOf k, tifinaghLetters.Apart u := by
      cases k <;> decide +kernel
    obtain ⟨u, hu, hcu⟩ := exists_mem_setsOf hclass
    rw [Ranges.not_has_of_apart (hsets _ u hu) h] at hcu
    cases hcu
  conjunct := Ranges.not_has_of_apart (tablesCompared.tifinagh _ (by simp)) h
  pictograph := Ranges.not_has_of_apart (tablesCompared.tifinagh _ (by simp)) h

theorem last_of_joins_flag (h : s.joins c = true) (hflag : isFlagLetter c = true) :
    s.last = .prepended ∨ s.last = .flagLetter ∧ s.halfFlag = true := by
  have hclass := breakClass_of_isFlagLetter hflag
  obtain ⟨hconjunct, hpictograph⟩ := not_pulled (c := c) (by simp [hclass])
  revert h
  fun_cases Seen.joins s c <;> grind

theorem joins_flags (hlast : s.last = .flagLetter) (hflag : isFlagLetter c = true) :
    s.joins c = s.halfFlag := by
  have hclass := breakClass_of_isFlagLetter hflag
  simp [Seen.joins, hlast, hclass]

/-- Flag letters are counted in pairs. -/
theorem Grown.halfFlag (h : Grown s cl) : ∀ p ps, cl = p :: ps →
    (s.halfFlag = true → isFlagLetter p = true ∧ ∀ q ∈ ps.head?, isFlagLetter q = false) ∧
      (s.halfFlag = false → isFlagLetter p = true → ∃ q ∈ ps.head?, isFlagLetter q = true) := by
  induction h with
  | start c =>
    rintro p ps ⟨rfl, rfl⟩
    simp [Seen.start]
  | @apart s c cl h hjoins ih =>
    rintro p ps ⟨rfl, rfl⟩
    refine ⟨fun hodd => ⟨(Bool.and_eq_true_iff.mp hodd).1, by simp⟩, fun heven hflag => ?_⟩
    -- Had an odd number of flag letters come before, this one would have joined them.
    have hodd : s.halfFlag = true := by simpa [Seen.next, hflag] using heven
    obtain ⟨q, ps, rfl⟩ := h.exists_cons
    have hlast := h.last.trans (breakClass_of_isFlagLetter ((ih q ps rfl).1 hodd).1)
    rw [joins_flags hlast hflag, hodd] at hjoins
    cases hjoins
  | @join s c cl h hjoins ih =>
    rintro p ps ⟨rfl, rfl⟩
    obtain ⟨q, ps, rfl⟩ := h.exists_cons
    refine ⟨fun hodd => ?_, fun heven hflag => ?_⟩
    · obtain ⟨hflag, heven⟩ : isFlagLetter c = true ∧ s.halfFlag = false := by
        simpa [Seen.next] using hodd
      refine ⟨hflag, fun q' hq' => ?_⟩
      obtain rfl : q = q' := Option.some.inj hq'
      refine not_isFlagLetter fun hq => ?_
      rcases last_of_joins_flag hjoins hflag with hlast | ⟨-, hodd⟩
      · rw [h.last, hq] at hlast
        cases hlast
      · rw [heven] at hodd
        cases hodd
    · have hodd : s.halfFlag = true := by simpa [Seen.next, hflag] using heven
      exact ⟨q, rfl, ((ih q ps rfl).1 hodd).1⟩

theorem Grown.prepended_of_last (h : Grown s (p :: ps)) (hlast : s.last = .prepended) :
    ∀ q ∈ p :: ps, breakClass q = .prepended := by
  induction ps generalizing s p with
  | nil => exact List.forall_mem_singleton.mpr (h.last.symm.trans hlast)
  | cons q ps ih =>
    have hp : breakClass p = .prepended := h.last.symm.trans hlast
    obtain ⟨s', h', hjoins, -⟩ := h.joined
    exact List.forall_mem_cons.mpr ⟨hp, ih h' (last_of_joins_firm hjoins (firm_of_prepended hp))⟩

theorem Grown.prepended_of_firm (h : Grown s (p :: ps)) (hp : Firm p) :
    ∀ q ∈ ps, breakClass q = .prepended := by
  cases ps with
  | nil => simp
  | cons q ps =>
    obtain ⟨s', h', hjoins, -⟩ := h.joined
    exact h'.prepended_of_last (last_of_joins_firm hjoins hp)

/-- Where the flag letters of a cluster are odd in number there is one only, with nothing but
prepended characters before it. -/
theorem Grown.prepended_of_halfFlag (h : Grown s (p :: ps)) (hodd : s.halfFlag = true) :
    ∀ q ∈ ps, breakClass q = .prepended := by
  obtain ⟨hflag, hnext⟩ := (h.halfFlag p ps rfl).1 hodd
  cases ps with
  | nil => simp
  | cons q ps =>
    obtain ⟨s', h', hjoins, -⟩ := h.joined
    rcases last_of_joins_flag hjoins hflag with hlast | ⟨-, hodd'⟩
    · exact h'.prepended_of_last hlast
    · have := ((h'.halfFlag q ps rfl).1 hodd').1
      rw [hnext q rfl] at this
      cases this

theorem step_of_prepended (hq : breakClass q = .prepended) (x : Context) :
    (step q x).1 = charWidth q := by
  have hl : NoLetter q := noLetter_of_breakClass (by simp [hq, letterless])
  have hm : NoMark q := noMark_of_not_isMark (by simp [IsMark, markClasses, hq])
  have hgt : 0xa0 < q.toNat := gt_of_breakClass (by simp [hq])
  exact step_of_inert hl hm (not_isFlagLetter (by simp [hq])) hgt x

theorem scan_prepended (h : ∀ q ∈ ps, breakClass q = .prepended) (x y : Context) :
    (scan x ps).1 = (scan y ps).1 := by
  induction ps generalizing x y with
  | nil => rfl
  | cons q ps ih =>
    obtain ⟨hq, hps⟩ := List.forall_mem_cons.mp h
    rw [scan_cons, scan_cons, step_of_prepended hq, step_of_prepended hq, ih hps]

/-- What follows the cluster bears on its last characters as it can bear on the end of one. -/
structure Meets (f : Following) (p : Char) (ps : List Char) : Prop where
  quote : f ≠ .curlyQuoteForm
  skinTone : f ≠ .skinTone
  flag : f = .joinedFlagsEven → isFlagLetter p = true → ∃ q ∈ ps.head?, isFlagLetter q = true
  kirat : f = .kiratE ∨ f = .kiratAi → kiratVowels.has p = false

theorem meets_of_isSettled {f : Following} (h : f.isSettled = true) : Meets f p ps := by
  constructor <;> grind [Following.isSettled]

theorem scan_flags_le (hg : Grown s (p :: ps)) (hp : isFlagLetter p = true) (hxy : Ahead x y)
    (hmeets : Meets x.following p ps) : (scan x (p :: ps)).1 ≤ (scan y (p :: ps)).1 := by
  have hsingle (hps : ∀ q ∈ ps, breakClass q = .prepended) :
      (scan x (p :: ps)).1 ≤ (scan y (p :: ps)).1 := by
    have hnot : x.following ≠ .joinedFlagsEven := fun hx => by
      obtain ⟨q, hq, hflag⟩ := hmeets.flag hx hp
      have := hps q (List.mem_of_mem_head? hq)
      rw [breakClass_of_isFlagLetter hflag] at this
      cases this
    rw [scan_cons, scan_cons, scan_prepended hps (step p x).2 (step p y).2]
    have := step_flag_le hp hxy hnot
    omega
  -- The cluster ends with a single flag letter or with two that make one flag.
  cases ps with
  | nil => exact hsingle (by simp)
  | cons q ps =>
    obtain ⟨s', h', hjoins, -⟩ := hg.joined
    rcases last_of_joins_flag hjoins hp with hlast | ⟨-, hodd⟩
    · exact hsingle (h'.prepended_of_last hlast)
    · have hq : isFlagLetter q = true := ((h'.halfFlag q ps rfl).1 hodd).1
      have hps := h'.prepended_of_halfFlag hodd
      have := step_flags_le hp hq hxy
      rw [scan_cons, scan_cons, scan_cons, scan_cons,
        scan_prepended hps (step q (step p x).2).2 (step q (step p y).2).2]
      omega

theorem scan_cons_le (hg : Grown s (p :: ps)) (hs : s.last ∉ controlClasses) (hxy : Ahead x y)
    (hmeets : Meets x.following p ps)
    (hrest : ∀ x y : Context, Ahead x y → x.following.isSettled = true →
      (scan x ps).1 ≤ (scan y ps).1) : (scan x (p :: ps)).1 ≤ (scan y (p :: ps)).1 := by
  by_cases hmark : IsMark p
  · obtain ⟨hle, heq | ⟨hsettled, hahead⟩⟩ := step_of_mark hmark hxy <;> rw [scan_cons, scan_cons]
    · rw [heq]
      omega
    · have := hrest _ _ hahead hsettled
      omega
  cases hflag : isFlagLetter p with
  | true => exact scan_flags_le hg hflag hxy hmeets
  | false =>
    have hcontrol : ¬ IsControl p := by rwa [IsControl, ← hg.last]
    obtain ⟨hle, heq | ⟨hsettled, hahead⟩ | htif⟩ :=
      step_of_base (noMark_of_not_isMark hmark) hcontrol hflag hxy hmeets.quote hmeets.skinTone
        hmeets.kirat <;> rw [scan_cons, scan_cons]
    · rw [heq]
      omega
    · have := hrest _ _ hahead hsettled
      omega
    · rw [scan_prepended (hg.prepended_of_firm (firm_of_tifinagh htif)) (step p x).2 (step p y).2]
      omega

/-- What follows makes no cluster wider. -/
theorem scan_le_of_ahead (hg : Grown s (p :: ps)) (hs : s.last ∉ controlClasses) (hxy : Ahead x y)
    (hmeets : Meets x.following p ps) : (scan x (p :: ps)).1 ≤ (scan y (p :: ps)).1 := by
  -- Past the last character the two readings agree, or differ by what a mark lets through.
  induction ps generalizing s p x y with
  | nil => exact scan_cons_le hg hs hxy hmeets fun _ _ _ _ => Int.le_refl 0
  | cons q ps ih =>
    obtain ⟨s', h', hjoins, -⟩ := hg.joined
    have hs' : s'.last ∉ controlClasses := fun hlast => by
      obtain ⟨-, hfeed⟩ := classes_of_joins_control hjoins (.inl hlast)
      rw [hg.last, hfeed] at hs
      exact hs (by decide)
    exact scan_cons_le hg hs hxy hmeets fun _ _ hahead hsettled =>
      ih h' hs' hahead (meets_of_isSettled hsettled)

theorem eq_lineFeed (h : breakClass p = .lineFeed) : p = '\n' := by
  revert h
  fun_cases breakClass p <;> intro h
  case case2 hfeed => exact hfeed
  all_goals cases h

/-- A control is a cluster of its own, but for a line feed after a carriage return. -/
theorem scan_control_le (hg : Grown s (p :: ps)) (hs : s.last ∈ controlClasses) (x : Context) :
    (scan x (p :: ps)).1 ≤ (scan .empty (p :: ps)).1 := by
  have hp : IsControl p := by rwa [IsControl, ← hg.last]
  have hle := step_control_le hp x
  rw [scan_cons, scan_cons]
  cases ps with
  | nil => simpa [scan] using hle
  | cons q ps =>
    obtain ⟨s', -, hjoins, -⟩ := hg.joined
    obtain ⟨-, hfeed⟩ := classes_of_joins_control hjoins (.inr hp)
    obtain rfl := eq_lineFeed hfeed
    exact Int.le_of_eq (by rw [step_lineFeed, step_lineFeed])

theorem breakClass_of_kirat (h : kiratVowels.has c = true) : breakClass c = .vowelJamo := by
  obtain ⟨r, hr, hlo, hhi⟩ := Ranges.has_iff.mp h
  simp only [kiratVowels, List.mem_cons, List.not_mem_nil, or_false] at hr
  have hn : c.toNat ∈ [0x16d63, 0x16d67, 0x16d68, 0x16d69] := by
    simp only [List.mem_cons, List.not_mem_nil, or_false]
    rcases hr with rfl | rfl <;> omega
  have hall : ∀ n ∈ [0x16d63, 0x16d67, 0x16d68, 0x16d69],
      breakClass (Char.ofNat n) = .vowelJamo := by decide +kernel
  have hclass := hall _ hn
  rwa [Char.ofNat_toNat] at hclass

theorem scan_le (hg : Grown s (p :: ps)) (hjoins : s.joins c = false) (x : Context) :
    (scan (step c x).2 (p :: ps)).1 ≤ (scan .empty (p :: ps)).1 := by
  by_cases hs : s.last ∈ controlClasses
  · exact scan_control_le hg hs _
  have hm : NoMark c := noMark_of_not_isMark fun hmark => by
    rw [joins_of_isMark hmark hs] at hjoins
    cases hjoins
  obtain ⟨hunset, hshown⟩ := shownBy_step hm x
  refine scan_le_of_ahead hg hs ⟨hunset, .inl rfl⟩ ⟨hshown.quote, hshown.skinTone, ?_, ?_⟩
  -- The flag letter that follows has not joined, so those before it are even in number.
  · intro heven hp
    have hlast := hg.last.trans (breakClass_of_isFlagLetter hp)
    rw [joins_flags hlast (hshown.flag heven)] at hjoins
    exact (hg.halfFlag p ps rfl).2 hjoins hp
  · intro hkirat
    rw [Bool.eq_false_iff]
    intro hp
    have hlast := hg.last.trans (breakClass_of_kirat hp)
    have hc := breakClass_of_kirat (hshown.kirat hkirat)
    simp [Seen.joins, hlast, hc] at hjoins

theorem clustersFrom_eq (s : Seen) (cl cs : List Char) :
    ∃ g gs, clustersFrom s cl cs = (cl.reverse ++ g) :: gs := by
  induction cs generalizing s cl with
  | nil => exact ⟨[], [], by simp [clustersFrom]⟩
  | cons c cs ih =>
    rw [clustersFrom]
    split
    · obtain ⟨g, gs, heq⟩ := ih (s.next c) (c :: cl)
      exact ⟨c :: g, gs, by simp [heq]⟩
    · exact ⟨[], _, by rw [List.append_nil]⟩

def widthSum (gs : List (List Char)) : Int := (gs.map fun g => (measure g).1).sum

theorem widthSum_cons (g : List Char) (gs : List (List Char)) :
    widthSum (g :: gs) = (measure g).1 + widthSum gs := by
  rw [widthSum, List.map_cons, List.sum_cons, widthSum]

theorem measure_cluster_append_le (hg : Grown s cl) (hjoins : s.joins c = false) (cs : List Char) :
    (measure (cl.reverse ++ c :: cs)).1 ≤ (measure cl.reverse).1 + (measure (c :: cs)).1 := by
  obtain ⟨p, ps, rfl⟩ := hg.exists_cons
  have := scan_le hg hjoins (measure cs).2
  rw [measure_append, List.reverse_reverse, measure_eq_scan (p :: ps).reverse, List.reverse_reverse]
  change _ + (scan (step c (measure cs).2).2 (p :: ps)).1 ≤ _
  omega

theorem measure_flatten_clustersFrom_le (hg : Grown s cl) (cs : List Char)
    {front : List (List Char)} (h : front <+: clustersFrom s cl cs) :
    (measure front.flatten).1 ≤ widthSum front := by
  induction cs generalizing s cl front with
  | nil =>
    rcases List.prefix_cons_iff.mp h with rfl | ⟨t, rfl, ht⟩
    · decide
    · rw [List.prefix_nil.mp ht]
      simp [widthSum]
  | cons c cs ih =>
    cases hjoins : s.joins c with
    | true =>
      rw [clustersFrom, if_pos hjoins] at h
      exact ih (hg.join hjoins) h
    | false =>
      rw [clustersFrom, if_neg (by simp [hjoins])] at h
      rcases List.prefix_cons_iff.mp h with rfl | ⟨t, rfl, ht⟩
      · decide
      -- A cluster ends here, and what follows makes it no wider.
      have hrest := ih (hg.apart hjoins) ht
      rw [List.flatten_cons, widthSum_cons]
      cases t with
      | nil => simp [widthSum]
      | cons g t =>
        obtain ⟨g', gs, heq⟩ := clustersFrom_eq (s.next c) [c] cs
        rw [heq] at ht
        obtain ⟨rfl, -⟩ := List.cons_prefix_cons.mp ht
        have := measure_cluster_append_le hg hjoins (g' ++ t.flatten)
        simp only [List.flatten_cons, List.reverse_singleton, List.nil_append,
          List.cons_append] at hrest ⊢
        omega

/-- The first clusters of a text are together no wider than one by one. -/
theorem measure_flatten_le (cs : List Char) {front : List (List Char)}
    (h : front <+: clusters cs) : (measure front.flatten).1 ≤ widthSum front := by
  cases cs with
  | nil =>
    rw [List.prefix_nil.mp h]
    decide
  | cons c cs => exact measure_flatten_clustersFrom_le (.start c) cs h

end CommitGraph.Text
