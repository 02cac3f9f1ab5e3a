import CommitGraph.Text.Width
import Mathlib.Data.List.Chain
import Mathlib.Data.List.TakeWhile
import Mathlib.Tactic.SplitIfs

namespace CommitGraph.Text

namespace Ranges

/-- The first range is not empty, and ends before the second one. -/
def Below (a b : Nat × Nat) : Prop := a.1 ≤ a.2 ∧ a.2 < b.1

instance : Trans Below Below Below where
  trans := fun ⟨ha, hab⟩ ⟨hb, hbc⟩ => ⟨ha, by omega⟩

/-- The two sets share no character: the ranges of both are passed through once, in their order. -/
def parted : Ranges → Ranges → Bool
  | [], _ => true
  | a :: t, u =>
    let v := u.dropWhile fun b => b.2 < a.1
    v.head?.all (a.2 < ·.1) && parted t v

def Apart (t u : Ranges) : Prop := t.IsChain Below ∧ u.IsChain Below ∧ t.parted u = true

def Inside (t u : Ranges) : Prop := ∀ a ∈ t, ∃ b ∈ u, b.1 ≤ a.1 ∧ a.2 ≤ b.2

instance (a b : Nat × Nat) : Decidable (Below a b) := inferInstanceAs (Decidable (_ ∧ _))

instance (t u : Ranges) : Decidable (t.Apart u) := inferInstanceAs (Decidable (_ ∧ _ ∧ _))

instance (t u : Ranges) : Decidable (t.Inside u) := inferInstanceAs (Decidable (∀ a ∈ t, _))

variable {t u : Ranges} {c d : Char}

theorem has_of_inside (h : t.Inside u) (hc : t.has c = true) : u.has c = true := by
  obtain ⟨a, ha, hac⟩ := has_iff.mp hc
  obtain ⟨b, hb, hab⟩ := h a ha
  exact has_iff.mpr ⟨b, hb, by omega⟩

theorem not_common_of_parted (ht : t.Pairwise Below) (hu : u.Pairwise Below)
    (h : t.parted u = true) {a b : Nat × Nat} (ha : a ∈ t) (hb : b ∈ u) {n : Nat} :
    ¬ ((a.1 ≤ n ∧ n ≤ a.2) ∧ b.1 ≤ n ∧ n ≤ b.2) := by
  rintro ⟨hna, hnb⟩
  induction t generalizing u with
  | nil => simp at ha
  | cons a₀ t ih =>
    obtain ⟨hfirst, htail⟩ := List.pairwise_cons.mp ht
    rw [parted, Bool.and_eq_true] at h
    obtain ⟨hhead, hrest⟩ := h
    have hstart : a₀.1 ≤ n := by
      rcases List.mem_cons.mp ha with rfl | hmem
      · exact hna.1
      · obtain ⟨_, _⟩ := hfirst a hmem
        omega
    -- What is dropped of `u` ends before `t` starts, so the range of `n` is kept.
    have hkept : b ∈ u.dropWhile fun b => b.2 < a₀.1 := by
      rw [← u.takeWhile_append_dropWhile (p := fun b => b.2 < a₀.1), List.mem_append] at hb
      refine hb.resolve_left fun htake => ?_
      have := List.mem_takeWhile_imp htake
      simp only [decide_eq_true_eq] at this
      omega
    have hv := hu.sublist (List.dropWhile_sublist fun b => decide (b.2 < a₀.1))
    rcases List.mem_cons.mp ha with rfl | hmem
    · cases hdrop : u.dropWhile fun b => b.2 < a.1 with
      | nil => simp [hdrop] at hkept
      | cons b₀ v =>
        rw [hdrop] at hkept hv hhead
        have hbound : a.2 < b₀.1 := by simpa using hhead
        rcases List.mem_cons.mp hkept with rfl | hmem
        · omega
        · obtain ⟨_, _⟩ := (List.pairwise_cons.mp hv).1 b hmem
          omega
    · exact ih htail hv hrest hmem hkept

theorem not_has_of_apart (h : t.Apart u) (hc : t.has c = true) : u.has c = false := by
  rw [Bool.eq_false_iff]
  intro hu
  obtain ⟨a, ha, hac⟩ := has_iff.mp hc
  obtain ⟨b, hb, hbc⟩ := has_iff.mp hu
  exact not_common_of_parted h.1.pairwise h.2.1.pairwise h.2.2 ha hb ⟨hac, hbc⟩

theorem not_has_of_apart_right (h : t.Apart u) (hc : u.has c = true) : t.has c = false := by
  rw [Bool.eq_false_iff]
  intro ht
  rw [not_has_of_apart h ht] at hc
  cases hc

theorem ne_of_not_has (hc : t.has c = false) (hd : t.has d = true) : c ≠ d := by
  rintro rfl
  rw [hc] at hd
  cases hd

theorem not_within (hc : t.has c = false) {lo hi : Nat} (hr : ∃ r ∈ t, r.1 ≤ lo ∧ hi ≤ r.2) :
    within lo hi c = false := by
  rw [Bool.eq_false_iff]
  intro hin
  simp only [within, Bool.and_eq_true, decide_eq_true_eq] at hin
  obtain ⟨r, hr, _⟩ := hr
  exact absurd (has_iff.mpr ⟨r, hr, by omega⟩) (Bool.eq_false_iff.mp hc)

theorem toNat_ne (hc : t.has c = false) {n : Nat} (hr : ∃ r ∈ t, r.1 ≤ n ∧ n ≤ r.2) :
    c.toNat ≠ n := by
  rintro rfl
  exact absurd (has_iff.mpr hr) (Bool.eq_false_iff.mp hc)

end Ranges

variable {c : Char} {t : Ranges}

def flagLetters : Ranges := [(0x1f1e6, 0x1f1ff)]

def skinTones : Ranges := [(0x1f3fb, 0x1f3ff)]

theorem has_flagLetters : flagLetters.has c = isFlagLetter c := by
  simp [flagLetters, Ranges.has, isFlagLetter]

theorem has_skinTones : skinTones.has c = isSkinTone c := by
  simp [skinTones, Ranges.has, isSkinTone]

def setsOf : BreakClass → List Ranges
  | .other => []
  | .control => [clusterControl]
  | .carriageReturn => [[(0xd, 0xd)]]
  | .lineFeed => [[(0xa, 0xa)]]
  | .extending => [graphemeExtend, skinTones]
  | .joiner => [[(0x200d, 0x200d)]]
  | .flagLetter => [flagLetters]
  | .prepended => [clusterPrepend]
  | .spacingMark => [clusterSpacingMark]
  | .leadJamo => [leadJamo]
  | .vowelJamo => [vowelJamo]
  | .tailJamo => [tailJamo]
  | .openSyllable | .closedSyllable => [syllables]

theorem exists_mem_setsOf (hk : breakClass c ≠ .other) :
    ∃ u ∈ setsOf (breakClass c), u.has c = true := by
  revert hk
  fun_cases breakClass c <;> intro hk
  case case1 h | case2 h | case6 h => subst h; decide
  case case3 | case15 => exact absurd rfl hk
  case case5 h =>
    rcases Bool.or_eq_true_iff.mp h with h | h
    · exact ⟨graphemeExtend, List.mem_cons_self, h⟩
    · exact ⟨skinTones, List.mem_cons_of_mem _ (List.mem_singleton_self _), has_skinTones.trans h⟩
  case case7 h => exact ⟨_, List.mem_singleton_self _, has_flagLetters.trans h⟩
  case case4 h | case8 h | case9 h | case10 h | case11 h | case12 h | case13 h _ | case14 h _ =>
    exact ⟨_, List.mem_singleton_self _, h⟩

theorem not_has_of_breakClass {ks : List BreakClass} (hother : .other ∉ ks)
    (ht : ∀ k ∈ ks, ∀ u ∈ setsOf k, t.Apart u) (h : breakClass c ∈ ks) : t.has c = false := by
  rw [Bool.eq_false_iff]
  intro hc
  have hne : breakClass c ≠ .other := fun ho => hother (ho ▸ h)
  obtain ⟨u, hu, hcu⟩ := exists_mem_setsOf hne
  exact absurd hcu (Bool.eq_false_iff.mp (Ranges.not_has_of_apart (ht _ h u hu) hc))

def markClasses : List BreakClass := [.extending, .joiner, .spacingMark]

def controlClasses : List BreakClass := [.control, .carriageReturn, .lineFeed]

def IsMark (c : Char) : Prop := breakClass c ∈ markClasses

def IsControl (c : Char) : Prop := breakClass c ∈ controlClasses

instance (c : Char) : Decidable (IsMark c) := inferInstanceAs (Decidable (_ ∈ _))

instance (c : Char) : Decidable (IsControl c) := inferInstanceAs (Decidable (_ ∈ _))

/-- Classes without letters and emoji, flags apart. -/
def letterless : List BreakClass := .flagLetter :: .prepended :: markClasses ++ controlClasses

theorem IsMark.letterless (h : IsMark c) : breakClass c ∈ letterless := by
  rw [Text.letterless]
  exact List.mem_append_left _ (List.mem_cons_of_mem _ (List.mem_cons_of_mem _ h))

theorem IsControl.letterless (h : IsControl c) : breakClass c ∈ letterless :=
  List.mem_append_right _ h

/-- Letters that complete a ligature, each in its own way. -/
def singleLetters : Ranges :=
  [(0x5d0, 0x5d0), (0x1a15, 0x1a15), (0xa4f8, 0xa4fb), (0x10c32, 0x10c32)]

def singleEnds : Ranges :=
  [(0x5dc, 0x5dc), (0x1a10, 0x1a10), (0xa4fc, 0xa4fd), (0x10c03, 0x10c03)]

def kiratVowels : Ranges := [(0x16d63, 0x16d63), (0x16d67, 0x16d69)]

def singleMarks : Ranges :=
  [(0x17d2, 0x17d2), (0x1a17, 0x1a17), (0x20e3, 0x20e3), (0x2d7f, 0x2d7f), (0xe0030, 0xe0039),
   (0xe0061, 0xe007a), (0xe007f, 0xe007f)]

def letterSets : List Ranges :=
  [lams, singleLetters, tifinaghLetters, kiratVowels, curlyQuotes, emojiPresentation,
    emojiModifierBase, emojiVariationBase]

def endSets : List Ranges :=
  [alefs, khmerLetters, singleEnds, tifinaghLetters, [(0x16d67, 0x16d68)]]

def shownSets : List Ranges := endSets ++ [flagLetters, skinTones, emojiPresentation]

def zeroSets : List Ranges := [defaultIgnorable, graphemeExtend, innerJamo, silentPrepend]

/-- What the tables have in common, and what they have not. -/
structure TablesCompared : Prop where
  low : ∀ k ∈ .prepended :: markClasses, ∀ u ∈ setsOf k, Ranges.Apart [(0, 0xa0)] u
  letterless : ∀ t ∈ letterSets ++ endSets, ∀ k ∈ letterless, ∀ u ∈ setsOf k, t.Apart u
  extend : ∀ t ∈ [singleMarks, looseMarks], t.Inside graphemeExtend
  control : ∀ t ∈ [singleMarks, looseMarks, skinTones, flagLetters], t.Apart clusterControl
  flag : flagLetters.Apart graphemeExtend
  shown : shownSets.Pairwise Ranges.Apart
  silent : ∀ t ∈ [lams, singleLetters, curlyQuotes] ++ zeroSets, ∀ u ∈ shownSets, t.Apart u
  pulled : ∀ t ∈ [conjunctConsonant, extendedPictographic],
    ∀ k ∈ [BreakClass.flagLetter, .prepended], ∀ u ∈ setsOf k, t.Apart u
  tifinagh : ∀ u ∈ [conjunctConsonant, extendedPictographic], tifinaghLetters.Apart u

-- Each comparison is left to the kernel, and all of them are made in one place for that.
theorem tablesCompared : TablesCompared := by
  constructor <;> decide +kernel

theorem gt_of_breakClass (h : breakClass c ∈ .prepended :: markClasses) : 0xa0 < c.toNat := by
  have hlow : Ranges.has [(0, 0xa0)] c = false :=
    not_has_of_breakClass (by decide) tablesCompared.low h
  simpa [Ranges.has] using hlow

/-- No letter that completes a ligature, and no emoji, flags apart. -/
structure NoLetter (c : Char) : Prop where
  lam : lams.has c = false
  hebrew : c ≠ '\u05d0'
  buginese : c ≠ '\u1a15'
  tifinagh : tifinaghLetters.has c = false
  tone : within 0xa4f8 0xa4fb c = false
  orkhon : c.toNat ≠ 0x10c32
  kirat : kiratVowels.has c = false
  quote : curlyQuotes.has c = false
  emoji : emojiPresentation.has c = false
  modified : emojiModifierBase.has c = false
  selected : emojiVariationBase.has c = false

/-- No mark that a ligature or a sequence is made with, or that may stand within one. -/
structure NoMark (c : Char) : Prop where
  khmer : c ≠ '\u17d2'
  buginese : c ≠ '\u1a17'
  tifinagh : c ≠ '\u2d7f'
  joiner : c ≠ zeroWidthJoiner
  loose : looseMarks.has c = false
  keycap : c ≠ '\u20e3'
  skinTone : isSkinTone c = false
  tagDigit : within 0xe0030 0xe0039 c = false
  tagLetter : within 0xe0061 0xe007a c = false
  tagEnd : c.toNat ≠ 0xe007f

attribute [grind →] NoLetter.lam NoLetter.hebrew NoLetter.buginese NoLetter.tifinagh NoLetter.tone
  NoLetter.orkhon NoLetter.kirat NoLetter.quote NoLetter.emoji NoLetter.modified NoLetter.selected
  NoMark.khmer NoMark.buginese NoMark.tifinagh NoMark.joiner NoMark.loose NoMark.keycap
  NoMark.skinTone NoMark.tagDigit NoMark.tagLetter NoMark.tagEnd

@[grind →]
theorem toNat_ne_of_not_kirat (h : kiratVowels.has c = false) :
    c.toNat ≠ 0x16d63 ∧ c.toNat ≠ 0x16d67 ∧ c.toNat ≠ 0x16d68 ∧ c.toNat ≠ 0x16d69 :=
  ⟨Ranges.toNat_ne h (by decide), Ranges.toNat_ne h (by decide), Ranges.toNat_ne h (by decide),
    Ranges.toNat_ne h (by decide)⟩

theorem noLetter_of_breakClass (h : breakClass c ∈ letterless) : NoLetter c := by
  have hnot : ∀ t ∈ letterSets, t.has c = false := fun t ht =>
    not_has_of_breakClass (by decide) (tablesCompared.letterless t (List.mem_append_left _ ht)) h
  simp only [letterSets, List.forall_mem_cons] at hnot
  obtain ⟨hlam, hsingle, htif, hkirat, hquote, hemoji, hmodified, hselected, -⟩ := hnot
  exact {
    lam := hlam
    hebrew := Ranges.ne_of_not_has hsingle (by decide)
    buginese := Ranges.ne_of_not_has hsingle (by decide)
    tifinagh := htif
    tone := Ranges.not_within hsingle (by decide)
    orkhon := Ranges.toNat_ne hsingle (by decide)
    kirat := hkirat
    quote := hquote
    emoji := hemoji
    modified := hmodified
    selected := hselected }

theorem breakClass_of_isFlagLetter (h : isFlagLetter c = true) : breakClass c = .flagLetter := by
  have hhas := has_flagLetters.trans h
  have hcontrol : clusterControl.has c = false :=
    Ranges.not_has_of_apart (tablesCompared.control _ (by simp)) hhas
  have hextend : graphemeExtend.has c = false :=
    Ranges.not_has_of_apart tablesCompared.flag hhas
  have hskin : isSkinTone c = false :=
    has_skinTones.symm.trans (Ranges.not_has_of_apart (by decide) hhas)
  simp only [isFlagLetter, Bool.and_eq_true, decide_eq_true_eq] at h
  have hr : c ≠ '\r' := by rintro rfl; exact absurd h.1 (by decide)
  have hn : c ≠ '\n' := by rintro rfl; exact absurd h.1 (by decide)
  have hj : c ≠ zeroWidthJoiner := by rintro rfl; exact absurd h.1 (by decide)
  rw [breakClass, if_neg hr, if_neg hn, if_neg (by omega), if_neg (by simp [hcontrol]),
    if_neg (by simp [hextend, hskin]), if_neg hj, if_pos (by simp [isFlagLetter, h])]

theorem not_isFlagLetter (h : breakClass c ≠ .flagLetter) : isFlagLetter c = false :=
  Bool.eq_false_iff.mpr fun hc => h (breakClass_of_isFlagLetter hc)

theorem IsMark.not_isFlagLetter (h : IsMark c) : isFlagLetter c = false :=
  Text.not_isFlagLetter fun hc => absurd (hc ▸ h : .flagLetter ∈ markClasses) (by decide)

theorem isMark_of_has (ht : ∀ c, t.has c = true → (graphemeExtend.has c || isSkinTone c) = true)
    (hcontrol : t.Apart clusterControl) (hlow : ∀ a ∈ t, 0x7f ≤ a.1) (h : t.has c = true) :
    IsMark c := by
  have hnot := Ranges.not_has_of_apart hcontrol h
  obtain ⟨a, ha, hac⟩ := Ranges.has_iff.mp h
  have hbound := hlow a ha
  have hr : c ≠ '\r' := by rintro rfl; exact absurd hac.1 (by simp; omega)
  have hn : c ≠ '\n' := by rintro rfl; exact absurd hac.1 (by simp; omega)
  have hclass : breakClass c = .extending := by
    rw [breakClass, if_neg hr, if_neg hn, if_neg (by omega), if_neg (by simp [hnot]),
      if_pos (ht c h)]
  rw [IsMark, hclass]
  decide

theorem noMark_of_not_isMark (h : ¬ IsMark c) : NoMark c := by
  have hextend (t : Ranges) (ht : t ∈ [singleMarks, looseMarks]) (hlow : ∀ a ∈ t, 0x7f ≤ a.1) :
      t.has c = false := by
    rw [Bool.eq_false_iff]
    intro hc
    have hcontrol := tablesCompared.control t (List.mem_append_left [skinTones, flagLetters] ht)
    refine h (isMark_of_has (fun d hd => ?_) hcontrol hlow hc)
    rw [Ranges.has_of_inside (tablesCompared.extend t ht) hd, Bool.true_or]
  have hsingle := hextend singleMarks (by simp) (by decide)
  exact {
    khmer := Ranges.ne_of_not_has hsingle (by decide)
    buginese := Ranges.ne_of_not_has hsingle (by decide)
    tifinagh := Ranges.ne_of_not_has hsingle (by decide)
    joiner := by
      rintro rfl
      exact h (by decide +kernel)
    loose := hextend looseMarks (by simp) (by decide)
    keycap := Ranges.ne_of_not_has hsingle (by decide)
    skinTone := by
      rw [Bool.eq_false_iff]
      intro hc
      rw [← has_skinTones] at hc
      refine h (isMark_of_has (fun d hd => ?_) (tablesCompared.control _ (by simp)) (by decide) hc)
      rw [← has_skinTones, hd, Bool.or_true]
    tagDigit := Ranges.not_within hsingle (by decide)
    tagLetter := Ranges.not_within hsingle (by decide)
    tagEnd := Ranges.toNat_ne hsingle (by decide) }

theorem IsControl.noMark (h : IsControl c) : NoMark c := by
  refine noMark_of_not_isMark fun hmark => ?_
  have hdisjoint : ∀ k ∈ controlClasses, k ∉ markClasses := by decide
  exact hdisjoint _ h hmark

theorem ofChar_of_not_end (h : ∀ u ∈ endSets, u.has c = false) :
    Following.ofChar c = if isFlagLetter c then .flag else if isSkinTone c then .skinTone
      else if emojiPresentation.has c then .emoji else .plain := by
  simp only [endSets, List.forall_mem_cons] at h
  obtain ⟨halef, hkhmer, hend, htif, hkirat, -⟩ := h
  have hlamed : c ≠ '\u05dc' := Ranges.ne_of_not_has hend (by decide)
  have hya : c ≠ '\u1a10' := Ranges.ne_of_not_has hend (by decide)
  have htone : within 0xa4fc 0xa4fd c = false := Ranges.not_within hend (by decide)
  have horkhon : c.toNat ≠ 0x10c03 := Ranges.toNat_ne hend (by decide)
  have he : c.toNat ≠ 0x16d67 := Ranges.toNat_ne hkirat (by decide)
  have hai : c.toNat ≠ 0x16d68 := Ranges.toNat_ne hkirat (by decide)
  simp only [Following.ofChar, halef, hkhmer, htif, hlamed, hya, htone, horkhon, he, hai, if_false,
    Bool.false_eq_true]

theorem not_end_of_has (ht : t ∈ [flagLetters, skinTones, emojiPresentation]) (h : t.has c = true) :
    ∀ u ∈ endSets, u.has c = false := fun u hu =>
  Ranges.not_has_of_apart_right ((List.pairwise_append.mp tablesCompared.shown).2.2 u hu t ht) h

theorem ofChar_of_isFlagLetter (h : isFlagLetter c = true) : Following.ofChar c = .flag := by
  rw [ofChar_of_not_end (not_end_of_has (by simp) (has_flagLetters.trans h)), if_pos h]

theorem ofChar_of_isSkinTone (h : isSkinTone c = true) : Following.ofChar c = .skinTone := by
  have hhas := has_skinTones.trans h
  have hflag : isFlagLetter c = false :=
    has_flagLetters.symm.trans (Ranges.not_has_of_apart_right (by decide) hhas)
  rw [ofChar_of_not_end (not_end_of_has (by simp) hhas), if_neg (by simp [hflag]), if_pos h]

theorem ofChar_of_emojiPresentation (h : emojiPresentation.has c = true) :
    Following.ofChar c = .emoji := by
  have hlast := (List.pairwise_append.mp tablesCompared.shown).2.1
  simp only [List.pairwise_cons, List.forall_mem_cons] at hlast
  have hflag : isFlagLetter c = false :=
    has_flagLetters.symm.trans (Ranges.not_has_of_apart_right hlast.1.2.1 h)
  have hskin : isSkinTone c = false :=
    has_skinTones.symm.trans (Ranges.not_has_of_apart_right hlast.2.1.1 h)
  rw [ofChar_of_not_end (not_end_of_has (by simp) h), if_neg (by simp [hflag]),
    if_neg (by simp [hskin]), if_pos h]

theorem ofChar_of_has (ht : ∀ u ∈ shownSets, t.Apart u) (h : t.has c = true) :
    Following.ofChar c = .plain := by
  have hnot := fun u hu => Ranges.not_has_of_apart (ht u hu) h
  rw [shownSets, List.forall_mem_append] at hnot
  obtain ⟨hend, hlast⟩ := hnot
  simp only [List.forall_mem_cons, has_flagLetters, has_skinTones] at hlast
  obtain ⟨hflag, hskin, hemoji, -⟩ := hlast
  rw [ofChar_of_not_end hend]
  simp [hflag, hskin, hemoji]

theorem ofChar_of_letter
    (h : lams.has c = true ∨ singleLetters.has c = true ∨ curlyQuotes.has c = true) :
    Following.ofChar c = .plain := by
  rcases h with h | h | h <;> exact ofChar_of_has (tablesCompared.silent _ (by simp)) h

theorem ofChar_of_breakClass (h : breakClass c ∈ letterless) (hflag : isFlagLetter c = false)
    (hskin : isSkinTone c = false) : Following.ofChar c = .plain := by
  have hletter := noLetter_of_breakClass h
  rw [ofChar_of_not_end fun t ht => not_has_of_breakClass (by decide)
    (tablesCompared.letterless t (List.mem_append_right _ ht)) h]
  simp [hflag, hskin, hletter.emoji]

theorem charWidth_nonneg (c : Char) : 0 ≤ charWidth c := by
  unfold charWidth
  split_ifs <;> decide

theorem exists_mem_zeroSets (h : charWidth c = 0) : ∃ u ∈ zeroSets, u.has c = true := by
  revert h
  fun_cases charWidth c <;> intro h
  case case6 hzero =>
    have hany : zeroSets.any (·.has c) = true := by
      simpa only [zeroSets, List.any_cons, List.any_nil, Bool.or_false, Bool.or_assoc] using hzero
    exact List.any_eq_true.mp hany
  all_goals exact absurd h (by decide)

theorem ofChar_of_charWidth (h : charWidth c = 0) : Following.ofChar c = .plain := by
  obtain ⟨t, ht, htc⟩ := exists_mem_zeroSets h
  exact ofChar_of_has (tablesCompared.silent t (List.mem_append_right _ ht)) htc

theorem charWidth_pos (h : Following.ofChar c ≠ .plain) : 0 < charWidth c := by
  have hne : charWidth c ≠ 0 := fun hzero => h (ofChar_of_charWidth hzero)
  have := charWidth_nonneg c
  omega

end CommitGraph.Text
