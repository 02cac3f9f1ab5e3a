import CommitGraph.Proofs.Text.CharSets

namespace CommitGraph.Text

variable {c d : Char} {x y : Context} {f g : Following} {w : Int}

theorem alone_fst (c : Char) : (alone c).1 = charWidth c := by
  unfold alone
  split_ifs with h1 h2 h3
  · rw [h1]; decide
  · rw [h2]; decide
  · rw [h3]; decide
  · rfl

theorem composed_plain (c : Char) : composed .plain c = alone c := rfl

theorem step_eq (hshape : c ≠ '\ufe0f') (htext : c ≠ '\ufe0e') (x : Context) : step c x =
    if x.selector = .emoji && emojiVariationBase.has c then
      (if x.following.isJoined then 0 else 2, ⟨.emoji, .unset⟩)
    else if c.toNat ≤ 0xa0 then
      if c = '\n' then (1, ⟨.lineFeed, .unset⟩)
      else if c = '\r' && x = ⟨.lineFeed, .unset⟩ then (0, .empty)
      else (1, .empty)
    else if x.selector = .text && emojiVariationBase.has c && emojiPresentation.has c
        && !within 0x1f200 0x1f2ff c then
      (1, .empty)
    else composed x.dropSelector.following c := by
  obtain ⟨f, s⟩ := x
  cases s with
  | unset =>
    simp only [step, Context.dropSelector, Context.empty]
    grind [composed_plain]
  | text =>
    simp only [step, Context.dropSelector, Context.empty]
    grind
  | emoji =>
    simp only [step, Context.dropSelector, Context.empty]
    cases hf : f.isLetter with
    | true =>
      have hplain : f ≠ .plain := by rintro rfl; cases hf
      have hfeed : f ≠ .lineFeed := by rintro rfl; cases hf
      grind
    | false => grind [composed_plain]

theorem step_eq_composed (hshape : c ≠ '\ufe0f') (htext : c ≠ '\ufe0e') (hgt : 0xa0 < c.toNat)
    (hbase : emojiVariationBase.has c = false) (x : Context) :
    step c x = composed x.dropSelector.following c := by
  have hlow : ¬ c.toNat ≤ 0xa0 := by omega
  rw [step_eq hshape htext]
  simp [hbase, hlow]

/-- A selector adds nothing, and keeps nothing that follows but letters and joined emoji. -/
theorem step_of_selector {p : Presentation}
    (hc : c = '\ufe0f' ∧ p = .emoji ∨ c = '\ufe0e' ∧ p = .text) (x : Context) :
    ∃ g, step c x = (0, ⟨g, p⟩) ∧
      (g = .plain ∨ g = x.following ∧ (g.isLetter = true ∨ g.isJoined = true)) := by
  have hshape : emojiVariationBase.has '\ufe0f' = false := by decide
  have htext : emojiVariationBase.has '\ufe0e' = false := by decide
  obtain ⟨f, s⟩ := x
  rcases hc with ⟨rfl, rfl⟩ | ⟨rfl, rfl⟩
  · cases s <;> simp only [step, Context.dropSelector, Context.empty, hshape, alone,
      Context.selectEmoji]
    all_goals grind
  · cases s <;> simp only [step, Context.dropSelector, Context.empty, htext, alone,
      Context.selectText]
    all_goals grind

theorem following_dropSelector (x : Context) :
    x.dropSelector.following = x.following ∨ x.dropSelector.following = .plain := by
  obtain ⟨f, s⟩ := x
  cases s <;> grind [Context.dropSelector, Context.empty]

/-- What a character shows that is no flag letter, no Kirat Rai vowel and no skin tone. -/
def Following.isSettled : Following → Bool
  | .curlyQuoteForm | .skinTone | .joinedFlagsEven | .kiratE | .kiratAi => false
  | _ => true

theorem isSettled_of_isLetter (h : f.isLetter = true) : f.isSettled = true := by
  cases f <;> first | rfl | cases h

theorem isLetter_across (h : f.isLetter = true) : f.across.isLetter = true := by
  cases f <;> first | rfl | cases h

theorem not_isSkinTone_of_charWidth (h : charWidth c = 0) : isSkinTone c = false := by
  rw [Bool.eq_false_iff]
  intro hs
  have := charWidth_pos (c := c) (by rw [ofChar_of_isSkinTone hs]; decide)
  omega

theorem not_isSkinTone_of_lt (h : 0xe0000 ≤ c.toNat) : isSkinTone c = false := by
  simp only [isSkinTone, Bool.and_eq_false_iff, decide_eq_false_iff_not]
  omega

theorem letterLigature_of_noLetter (hl : NoLetter c) (h : letterLigature f c = some (w, g)) :
    w ≤ charWidth c ∧ g.isSettled = true ∧ isSkinTone c = false := by
  have hnonneg := charWidth_nonneg c
  have hjoiner : charWidth '\u2d7f' = 1 := by decide
  have hzero := @not_isSkinTone_of_charWidth c
  have hskin : ∀ d ∈ ['\u17d2', '\u1a17', '\u2d7f'], isSkinTone d = false := by decide
  revert h
  fun_cases letterLigature f c <;> intro h <;> grind [Following.isSettled]

theorem tagSequence_of_noLetter (hl : NoLetter c) (h : tagSequence f c = some g) :
    g.isSettled = true ∧ isSkinTone c = false := by
  have hflag : c.toNat ≠ 0x1f3f4 := Ranges.toNat_ne hl.emoji (by decide)
  have htag := @not_isSkinTone_of_lt c
  revert h
  fun_cases tagSequence f c <;> intro h <;> grind [Following.isSettled, within]

theorem emojiSequence_of_noLetter (hl : NoLetter c) (hflag : isFlagLetter c = false)
    (h : emojiSequence f c = some (w, g)) :
    w = 0 ∧ (g.isSettled = true ∧ isSkinTone c = false ∨ g = .skinTone ∧ isSkinTone c = true) := by
  have htag := @tagSequence_of_noLetter c f
  have hskin : ∀ d ∈ [zeroWidthJoiner, '\u20e3'], isSkinTone d = false := by decide
  have hend := @not_isSkinTone_of_lt c
  revert h
  fun_cases emojiSequence f c <;> intro h <;> grind [Following.isSettled, Option.map_eq_some_iff]

theorem letterLigature_of_noMark (hm : NoMark c) (h : letterLigature f c = some (w, g))
    (hf : f ≠ .curlyQuoteForm) (hkirat : f = .kiratE ∨ f = .kiratAi → kiratVowels.has c = false) :
    w ≤ 0 ∧ (g = .plain ∧ (lams.has c = true ∨ singleLetters.has c = true) ∨
      tifinaghLetters.has c = true ∨ g = .alef ∧ charWidth c = 0) := by
  have hhebrew : c = '\u05d0' → singleLetters.has c = true := by rintro rfl; decide
  have hbuginese : c = '\u1a15' → singleLetters.has c = true := by rintro rfl; decide
  have htone : within 0xa4f8 0xa4fb c = true → singleLetters.has c = true := fun h =>
    Ranges.has_iff.mpr ⟨(0xa4f8, 0xa4fb), by decide, by simpa [within] using h⟩
  have horkhon : c.toNat = 0x10c32 → singleLetters.has c = true := fun h =>
    Ranges.has_iff.mpr ⟨(0x10c32, 0x10c32), by decide, by omega⟩
  revert h
  fun_cases letterLigature f c <;> intro h <;> grind

theorem tagSequence_of_noMark (hm : NoMark c) (h : tagSequence f c = some g) :
    g = .emoji ∧ emojiPresentation.has c = true := by
  have hflag : c.toNat = 0x1f3f4 → emojiPresentation.has c = true := fun h =>
    Ranges.has_iff.mpr ⟨(0x1f3f4, 0x1f3f4), by decide, by omega⟩
  revert h
  fun_cases tagSequence f c <;> intro h <;> grind

theorem tagSequence_eq_none (hm : NoMark c) (hemoji : emojiPresentation.has c = false)
    (f : Following) : tagSequence f c = none := by
  cases h : tagSequence f c with
  | none => rfl
  | some g => exact absurd (tagSequence_of_noMark hm h).2 (by simp [hemoji])

theorem emojiSequence_of_noMark (hm : NoMark c) (hflag : isFlagLetter c = false)
    (h : emojiSequence f c = some (w, g)) :
    w = 0 ∧ g = .emoji ∧ (f ≠ .skinTone → emojiPresentation.has c = true) := by
  have htag := @tagSequence_of_noMark c f
  revert h
  fun_cases emojiSequence f c <;> intro h <;> grind [Option.map_eq_some_iff]

theorem composed_cases (hjoiner : (f.isLoose && c = zeroWidthJoiner) = false)
    (hloose : (f.isLoose && looseMarks.has c) = false) :
    (∃ w g, letterLigature f c = some (w, g) ∧ composed f c = (w, ⟨g, .unset⟩)) ∨
      (∃ w g, emojiSequence f c = some (w, g) ∧ composed f c = (w, ⟨g, .unset⟩)) ∨
      composed f c = alone c := by
  rw [composed, if_neg (by simp [hjoiner]), if_neg (by simp [hloose])]
  cases letterLigature f c with
  | some p => exact .inl ⟨p.1, p.2, rfl, rfl⟩
  | none =>
    cases emojiSequence f c with
    | some p => exact .inr (.inl ⟨p.1, p.2, rfl, rfl⟩)
    | none => exact .inr (.inr rfl)

theorem composed_cases_of_noMark (hm : NoMark c) (f : Following) :
    (∃ w g, letterLigature f c = some (w, g) ∧ composed f c = (w, ⟨g, .unset⟩)) ∨
      (∃ w g, emojiSequence f c = some (w, g) ∧ composed f c = (w, ⟨g, .unset⟩)) ∨
      composed f c = alone c :=
  composed_cases (by simp [hm.joiner]) (by simp [hm.loose])

theorem NoMark.not_selector (hm : NoMark c) : c ≠ '\ufe0f' ∧ c ≠ '\ufe0e' ∧ c ≠ '\ufe01' :=
  ⟨Ranges.ne_of_not_has hm.loose (by decide), Ranges.ne_of_not_has hm.loose (by decide),
    Ranges.ne_of_not_has hm.loose (by decide)⟩

theorem alone_of_noMark (hm : NoMark c) : alone c = (charWidth c, ⟨.ofChar c, .unset⟩) := by
  obtain ⟨hshape, htext, hcurly⟩ := hm.not_selector
  rw [alone, if_neg hshape, if_neg htext, if_neg hcurly]

/-- A character that is neither letter nor mark adds its own width whatever follows it. -/
theorem composed_of_inert (hl : NoLetter c) (hm : NoMark c) (hflag : isFlagLetter c = false)
    (f : Following) : (composed f c).1 = charWidth c := by
  have hligature (w : Int) (g : Following) (h : letterLigature f c = some (w, g)) :
      w = charWidth c := by
    revert h
    fun_cases letterLigature f c <;> intro h <;> grind
  have hemoji : emojiSequence f c = none := by
    have htag := tagSequence_eq_none hm hl.emoji f
    fun_cases emojiSequence f c <;> grind
  rcases composed_cases_of_noMark hm f with ⟨w, g, h, heq⟩ | ⟨w, g, h, -⟩ | heq
  · rw [heq]
    exact hligature w g h
  · rw [hemoji] at h
    cases h
  · rw [heq, alone_fst]

theorem step_of_inert (hl : NoLetter c) (hm : NoMark c) (hflag : isFlagLetter c = false)
    (hgt : 0xa0 < c.toNat) (x : Context) : (step c x).1 = charWidth c := by
  rw [step_eq_composed hm.not_selector.1 hm.not_selector.2.1 hgt hl.selected]
  exact composed_of_inert hl hm hflag _

theorem step_lineFeed (x : Context) : step '\n' x = (1, ⟨.lineFeed, .unset⟩) := by
  have hbase : emojiVariationBase.has '\n' = false := by decide
  simp [step, hbase]

theorem step_control_le (hc : IsControl c) (x : Context) : (step c x).1 ≤ (step c .empty).1 := by
  have hl := noLetter_of_breakClass hc.letterless
  by_cases hlow : c.toNat ≤ 0xa0
  · rw [step_eq hc.noMark.not_selector.1 hc.noMark.not_selector.2.1,
      step_eq hc.noMark.not_selector.1 hc.noMark.not_selector.2.1]
    simp only [hl.selected, hlow, Bool.and_false, Bool.false_eq_true, if_false, if_true]
    split_ifs <;> simp_all [Context.empty]
  · have hflag : isFlagLetter c = false := not_isFlagLetter fun h =>
      absurd (h ▸ hc : .flagLetter ∈ controlClasses) (by decide)
    have hown := step_of_inert hl hc.noMark hflag (by omega)
    exact Int.le_of_eq ((hown x).trans (hown .empty).symm)

/-- The second context is what one reading shows where nothing follows; the first one may show
more. -/
structure Ahead (x y : Context) : Prop where
  selector : x.selector = y.selector
  following : y.following = .plain ∨ y.following = .curlyQuoteForm

theorem Ahead.following_dropSelector (h : Ahead x y) :
    y.dropSelector.following = .plain ∨ y.dropSelector.following = .curlyQuoteForm := by
  rcases Text.following_dropSelector y with hdrop | hdrop <;> rw [hdrop]
  · exact h.following
  · exact .inl rfl

theorem alone_of_mark (hc : IsMark c) (hshape : c ≠ '\ufe0f') (htext : c ≠ '\ufe0e')
    (hskin : isSkinTone c = false) : Ahead ⟨f, .unset⟩ (alone c).2 := by
  rw [alone, if_neg hshape, if_neg htext]
  split_ifs
  · exact ⟨rfl, .inr rfl⟩
  · exact ⟨rfl, .inl (ofChar_of_breakClass hc.letterless hc.not_isFlagLetter hskin)⟩

theorem composed_of_mark (hc : IsMark c) (hshape : c ≠ '\ufe0f') (htext : c ≠ '\ufe0e')
    (f : Following) :
    (composed f c).1 ≤ charWidth c ∧ ((composed f c).2 = (alone c).2 ∨
      (composed f c).2.following.isSettled = true ∧ Ahead (composed f c).2 (alone c).2) := by
  have hl := noLetter_of_breakClass hc.letterless
  have hnonneg := charWidth_nonneg c
  cases hjoiner : (f.isLoose && c = zeroWidthJoiner : Bool) with
  | true =>
    obtain ⟨hf, rfl⟩ : f.isLoose = true ∧ c = zeroWidthJoiner := by simpa using hjoiner
    have hletter : f.isLetter = true := (Bool.and_eq_true_iff.mp hf).1
    rw [composed, if_pos hjoiner]
    exact ⟨hnonneg, .inr ⟨isSettled_of_isLetter (isLetter_across hletter),
      alone_of_mark hc hshape htext (by decide)⟩⟩
  | false =>
  cases hloose : (f.isLoose && looseMarks.has c) with
  | true =>
    obtain ⟨hf, hmark⟩ := Bool.and_eq_true_iff.mp hloose
    have hletter : f.isLetter = true := (Bool.and_eq_true_iff.mp hf).1
    have hskin : isSkinTone c = false :=
      has_skinTones.symm.trans (Ranges.not_has_of_apart (by decide) hmark)
    rw [composed, if_neg (by simp [hjoiner]), if_pos hloose]
    exact ⟨hnonneg, .inr ⟨isSettled_of_isLetter hletter, alone_of_mark hc hshape htext hskin⟩⟩
  | false =>
  rcases composed_cases hjoiner hloose with ⟨w, g, h, heq⟩ | ⟨w, g, h, heq⟩ | heq <;> rw [heq]
  · obtain ⟨hw, hg, hskin⟩ := letterLigature_of_noLetter hl h
    exact ⟨hw, .inr ⟨hg, alone_of_mark hc hshape htext hskin⟩⟩
  · obtain ⟨rfl, ⟨hg, hskin⟩ | ⟨rfl, hskin⟩⟩ :=
      emojiSequence_of_noLetter hl hc.not_isFlagLetter h
    · exact ⟨hnonneg, .inr ⟨hg, alone_of_mark hc hshape htext hskin⟩⟩
    · have hcurly : c ≠ '\ufe01' := by rintro rfl; cases hskin
      rw [alone, if_neg hshape, if_neg htext, if_neg hcurly, ofChar_of_isSkinTone hskin]
      exact ⟨hnonneg, .inl rfl⟩
  · exact ⟨Int.le_of_eq (alone_fst c), .inl rfl⟩

theorem composed_of_ahead_mark (hc : IsMark c) (hf : f = .plain ∨ f = .curlyQuoteForm) :
    composed f c = alone c := by
  have hquote := (noLetter_of_breakClass hc.letterless).quote
  rcases hf with rfl | rfl
  · rfl
  · simp [composed, Following.isLoose, Following.isLetter, letterLigature, emojiSequence,
      tagSequence, hquote]

theorem step_of_mark (hc : IsMark c) (h : Ahead x y) :
    (step c x).1 ≤ (step c y).1 ∧ ((step c x).2 = (step c y).2 ∨
      (step c x).2.following.isSettled = true ∧ Ahead (step c x).2 (step c y).2) := by
  -- A selector leaves both readings with nothing but what it lets through.
  have hselector (p : Presentation) (hp : c = '\ufe0f' ∧ p = .emoji ∨ c = '\ufe0e' ∧ p = .text) :
      (step c x).1 ≤ (step c y).1 ∧ ((step c x).2 = (step c y).2 ∨
        (step c x).2.following.isSettled = true ∧ Ahead (step c x).2 (step c y).2) := by
    obtain ⟨g, hx, hg⟩ := step_of_selector hp x
    obtain ⟨g', hy, hg'⟩ := step_of_selector hp y
    have hplain : g' = .plain := by
      rcases hg' with hg' | ⟨hfollows, hkept⟩
      · exact hg'
      · rcases h.following with hf | hf <;> rw [hfollows, hf] at hkept <;>
          simp [Following.isLetter, Following.isJoined] at hkept
    rw [hx, hy]
    refine ⟨Int.le_refl 0, .inr ⟨?_, rfl, .inl hplain⟩⟩
    rcases hg with rfl | ⟨-, hletter | hjoined⟩
    · rfl
    · exact isSettled_of_isLetter hletter
    · cases g <;> first | rfl | cases hjoined
  by_cases hshape : c = '\ufe0f'
  · exact hselector .emoji (.inl ⟨hshape, rfl⟩)
  by_cases htext : c = '\ufe0e'
  · exact hselector .text (.inr ⟨htext, rfl⟩)
  have hstep := step_eq_composed hshape htext (gt_of_breakClass (List.mem_cons_of_mem _ hc))
    (noLetter_of_breakClass hc.letterless).selected
  rw [hstep, hstep, composed_of_ahead_mark hc h.following_dropSelector, alone_fst]
  exact composed_of_mark hc hshape htext _

theorem composed_of_base (hm : NoMark c) (hflag : isFlagLetter c = false)
    (hquote : f ≠ .curlyQuoteForm) (hskin : f ≠ .skinTone)
    (hkirat : f = .kiratE ∨ f = .kiratAi → kiratVowels.has c = false) :
    (composed f c).1 ≤ charWidth c ∧ ((composed f c).2 = (alone c).2 ∨
      (composed f c).2 = ⟨.alef, .unset⟩ ∧ (alone c).2 = ⟨.plain, .unset⟩ ∨
      tifinaghLetters.has c = true) := by
  have hnonneg := charWidth_nonneg c
  rcases composed_cases_of_noMark hm f with ⟨w, g, h, heq⟩ | ⟨w, g, h, heq⟩ | heq <;>
    rw [heq, alone_of_noMark hm]
  · obtain ⟨hw, ⟨rfl, hg⟩ | hg | ⟨rfl, hzero⟩⟩ := letterLigature_of_noMark hm h hquote hkirat
    · rw [ofChar_of_letter (by grind)]
      exact ⟨Int.le_trans hw hnonneg, .inl rfl⟩
    · exact ⟨Int.le_trans hw hnonneg, .inr (.inr hg)⟩
    · rw [ofChar_of_charWidth hzero]
      exact ⟨Int.le_trans hw hnonneg, .inr (.inl ⟨rfl, rfl⟩)⟩
  · obtain ⟨rfl, rfl, hg⟩ := emojiSequence_of_noMark hm hflag h
    rw [ofChar_of_emojiPresentation (hg hskin)]
    exact ⟨hnonneg, .inl rfl⟩
  · exact ⟨Int.le_refl _, .inl rfl⟩

theorem charWidth_of_quote (h : curlyQuotes.has c = true) : charWidth c ≤ 2 := by
  have hne : c ≠ '\u17d8' := by rintro rfl; exact absurd h (by decide)
  fun_cases charWidth c <;> grind

theorem composed_of_ahead (hm : NoMark c) (hf : f = .plain ∨ f = .curlyQuoteForm) :
    charWidth c ≤ (composed f c).1 ∧ (composed f c).2 = (alone c).2 := by
  rcases hf with rfl | rfl
  · exact ⟨Int.le_of_eq (alone_fst c).symm, rfl⟩
  cases hquote : curlyQuotes.has c with
  | true =>
    have hcomposed : composed .curlyQuoteForm c = (2, ⟨.plain, .unset⟩) := by
      simp [composed, Following.isLoose, Following.isLetter, letterLigature, hquote]
    rw [hcomposed, alone_of_noMark hm, ofChar_of_letter (.inr (.inr hquote))]
    exact ⟨charWidth_of_quote hquote, rfl⟩
  | false =>
    have hcomposed : composed .curlyQuoteForm c = alone c := by
      simp [composed, Following.isLoose, Following.isLetter, letterLigature, hquote, emojiSequence,
        tagSequence]
    rw [hcomposed]
    exact ⟨Int.le_of_eq (alone_fst c).symm, rfl⟩

structure ShownBy (c : Char) (f : Following) : Prop where
  quote : f ≠ .curlyQuoteForm
  skinTone : f ≠ .skinTone
  flag : f = .joinedFlagsEven → isFlagLetter c = true
  kirat : f = .kiratE ∨ f = .kiratAi → kiratVowels.has c = true

/-- What follows makes a character no wider; both readings show the same before it, but for an alef
seen through it, and for Tifinagh letters. -/
theorem step_of_base (hm : NoMark c) (hcontrol : ¬ IsControl c) (hflag : isFlagLetter c = false)
    (h : Ahead x y) (hquote : x.following ≠ .curlyQuoteForm) (hskin : x.following ≠ .skinTone)
    (hkirat : x.following = .kiratE ∨ x.following = .kiratAi → kiratVowels.has c = false) :
    (step c x).1 ≤ (step c y).1 ∧ ((step c x).2 = (step c y).2 ∨
      (step c x).2.following.isSettled = true ∧ Ahead (step c x).2 (step c y).2 ∨
      tifinaghLetters.has c = true) := by
  have hjoined : y.following.isJoined = false := by
    rcases h.following with hf | hf <;> rw [hf] <;> rfl
  have hn : c ≠ '\n' := by rintro rfl; exact hcontrol (by decide)
  have hr : c ≠ '\r' := by rintro rfl; exact hcontrol (by decide)
  rw [step_eq hm.not_selector.1 hm.not_selector.2.1, step_eq hm.not_selector.1 hm.not_selector.2.1,
    ← h.selector, hjoined]
  simp only [hn, hr, decide_false, Bool.false_and, Bool.false_eq_true, if_false]
  -- Selectors and controls decide four cases alike for both readings.
  split_ifs
  · exact ⟨by decide, .inl rfl⟩
  · exact ⟨Int.le_refl 2, .inl rfl⟩
  · exact ⟨Int.le_refl 1, .inl rfl⟩
  · exact ⟨Int.le_refl 1, .inl rfl⟩
  have hbase : x.dropSelector.following ≠ .curlyQuoteForm ∧ x.dropSelector.following ≠ .skinTone ∧
      (x.dropSelector.following = .kiratE ∨ x.dropSelector.following = .kiratAi →
        kiratVowels.has c = false) := by
    rcases following_dropSelector x with hdrop | hdrop <;> rw [hdrop]
    · exact ⟨hquote, hskin, hkirat⟩
    · simp
  obtain ⟨hle, hshown⟩ := composed_of_base hm hflag hbase.1 hbase.2.1 hbase.2.2
  obtain ⟨hge, halone⟩ := composed_of_ahead hm h.following_dropSelector
  refine ⟨Int.le_trans hle hge, ?_⟩
  rw [halone]
  rcases hshown with heq | ⟨halef, hplain⟩ | htif
  · exact .inl heq
  · rw [halef, hplain]
    exact .inr (.inl ⟨rfl, rfl, .inl rfl⟩)
  · exact .inr (.inr htif)

theorem noLetter_of_isFlagLetter (h : isFlagLetter c = true) : NoLetter c := by
  refine noLetter_of_breakClass ?_
  rw [breakClass_of_isFlagLetter h]
  decide

theorem noMark_of_isFlagLetter (h : isFlagLetter c = true) : NoMark c := by
  refine noMark_of_not_isMark ?_
  rw [IsMark, breakClass_of_isFlagLetter h]
  decide

theorem charWidth_of_isFlagLetter (h : isFlagLetter c = true) : 0 < charWidth c :=
  charWidth_pos (by rw [ofChar_of_isFlagLetter h]; decide)

theorem composed_of_flag (h : isFlagLetter c = true) (f : Following) :
    composed f c = match f with
      | .flag | .flags => (1, ⟨.flags, .unset⟩)
      | .joined => (1, ⟨.joinedFlag, .unset⟩)
      | .joinedFlag | .joinedFlagsOdd => (-1, ⟨.joinedFlagsEven, .unset⟩)
      | .joinedFlagsEven => (3, ⟨.joinedFlagsOdd, .unset⟩)
      | _ => (charWidth c, ⟨.flag, .unset⟩) := by
  have hl := noLetter_of_isFlagLetter h
  have hm := noMark_of_isFlagLetter h
  have hpos := charWidth_of_isFlagLetter h
  have hligature : letterLigature f c = none := by
    fun_cases letterLigature f c <;> grind
  have htag := tagSequence_eq_none hm hl.emoji f
  rw [composed, hm.loose, hligature, alone_of_noMark hm, ofChar_of_isFlagLetter h]
  simp only [hm.joiner, decide_false, Bool.and_false, Bool.false_eq_true, if_false]
  cases f <;> simp [emojiSequence, h, hl.modified, hm.joiner, htag, hm.keycap]

theorem step_of_flag (h : isFlagLetter c = true) (x : Context) :
    step c x = composed x.dropSelector.following c := by
  have hm := noMark_of_isFlagLetter h
  refine step_eq_composed hm.not_selector.1 hm.not_selector.2.1 ?_
    (noLetter_of_isFlagLetter h).selected x
  simp only [isFlagLetter, Bool.and_eq_true, decide_eq_true_eq] at h
  omega

theorem selector_of_flag (h : isFlagLetter c = true) (x : Context) :
    (step c x).2.selector = .unset := by
  rw [step_of_flag h, composed_of_flag h]
  split <;> rfl

theorem step_flag_of_ahead (h : isFlagLetter c = true) (hxy : Ahead x y) :
    step c y = (charWidth c, ⟨.flag, .unset⟩) := by
  rw [step_of_flag h, composed_of_flag h]
  rcases hxy.following_dropSelector with hy | hy <;> rw [hy]

/-- One flag letter adds no more, unless an even number of letters of a joined flag follows. -/
theorem step_flag_le (h : isFlagLetter c = true) (hxy : Ahead x y)
    (hx : x.following ≠ .joinedFlagsEven) : (step c x).1 ≤ (step c y).1 := by
  have hpos := charWidth_of_isFlagLetter h
  have hx : x.dropSelector.following ≠ .joinedFlagsEven := by
    rcases following_dropSelector x with hdrop | hdrop <;> rw [hdrop]
    · exact hx
    · decide
  rw [step_flag_of_ahead h hxy, step_of_flag h, composed_of_flag h]
  split <;> first | contradiction | (dsimp only; omega)

/-- Two flag letters add two columns at most, and two where nothing follows them. -/
theorem step_flags_le (hc : isFlagLetter c = true) (hd : isFlagLetter d = true)
    (hxy : Ahead x y) :
    (step c x).1 + (step d (step c x).2).1 ≤ (step c y).1 + (step d (step c y).2).1 := by
  have hpos := charWidth_of_isFlagLetter hc
  have hsecond (g : Following) : step d ⟨g, .unset⟩ = composed g d := step_of_flag hd _
  rw [step_flag_of_ahead hc hxy, step_of_flag hc, composed_of_flag hc]
  split <;> simp only [hsecond, composed_of_flag hd] <;> omega

theorem has_kiratVowels (h : c.toNat = 0x16d67 ∨ c.toNat = 0x16d68) : kiratVowels.has c = true :=
  Ranges.has_iff.mpr ⟨(0x16d67, 0x16d69), by decide, by omega⟩

theorem shownBy_ofChar (hm : NoMark c) : ShownBy c (.ofChar c) := by
  have hkirat := @has_kiratVowels c
  have hskin := hm.skinTone
  fun_cases Following.ofChar c <;> constructor <;> grind

theorem shownBy_letterLigature (h : letterLigature f c = some (w, g)) : ShownBy c g := by
  have hkirat := @has_kiratVowels c
  revert h
  fun_cases letterLigature f c <;> intro h <;> constructor <;> grind

theorem shownBy_composed (hm : NoMark c) (hflag : isFlagLetter c = false) (f : Following) :
    (composed f c).2.selector = .unset ∧ ShownBy c (composed f c).2.following := by
  rcases composed_cases_of_noMark hm f with ⟨w, g, h, heq⟩ | ⟨w, g, h, heq⟩ | heq <;> rw [heq]
  · exact ⟨rfl, shownBy_letterLigature h⟩
  · obtain ⟨-, rfl, -⟩ := emojiSequence_of_noMark hm hflag h
    refine ⟨rfl, ?_⟩
    constructor <;> simp
  · rw [alone_of_noMark hm]
    exact ⟨rfl, shownBy_ofChar hm⟩

theorem shownBy_step (hm : NoMark c) (x : Context) :
    (step c x).2.selector = .unset ∧ ShownBy c (step c x).2.following := by
  have hfixed : ∀ f ∈ [Following.plain, .lineFeed, .emoji], ShownBy c f := fun f hf => by
    simp only [List.mem_cons, List.not_mem_nil, or_false] at hf
    constructor <;> grind
  cases hflag : isFlagLetter c with
  | true =>
    refine ⟨selector_of_flag hflag x, ?_⟩
    rw [step_of_flag hflag, composed_of_flag hflag]
    split <;> constructor <;> simp [hflag]
  | false =>
    rw [step_eq hm.not_selector.1 hm.not_selector.2.1]
    split_ifs
    iterate 6 exact ⟨rfl, hfixed _ (by decide)⟩
    exact shownBy_composed hm hflag _

/-- What the character before may take back. -/
def Following.reserve : Following → Int
  | .khmerLetter | .joinedTifinagh | .joinedFlag | .joinedFlagsOdd => 1
  | _ => 0

theorem reserve_nonneg (f : Following) : 0 ≤ f.reserve := by
  unfold Following.reserve
  split <;> decide

theorem reserve_ofChar (c : Char) : (Following.ofChar c).reserve ≤ charWidth c := by
  by_cases hplain : Following.ofChar c = .plain
  · rw [hplain]
    exact charWidth_nonneg c
  · have hpos := charWidth_pos hplain
    have hle : (Following.ofChar c).reserve ≤ 1 := by
      unfold Following.reserve
      split <;> decide
    omega

theorem reserve_alone (c : Char) : (alone c).2.following.reserve ≤ (alone c).1 := by
  rw [alone_fst, alone]
  have hnonneg := charWidth_nonneg c
  split_ifs
  iterate 3 exact hnonneg
  exact reserve_ofChar c

theorem reserve_composed (c : Char) (f : Following) :
    (composed f c).2.following.reserve ≤ f.reserve + (composed f c).1 := by
  have hacross : f.across.reserve = f.reserve := by cases f <;> rfl
  have hnonneg := reserve_nonneg f
  cases hjoiner : (f.isLoose && c = zeroWidthJoiner : Bool) with
  | true =>
    rw [composed, if_pos hjoiner]
    simp [hacross]
  | false =>
  cases hloose : (f.isLoose && looseMarks.has c) with
  | true =>
    rw [composed, if_neg (by simp [hjoiner]), if_pos hloose]
    simp
  | false =>
  -- No ligature or sequence takes back more than what follows has set aside.
  rcases composed_cases hjoiner hloose with ⟨w, g, h, heq⟩ | ⟨w, g, h, heq⟩ | heq <;> rw [heq]
  · revert h
    fun_cases letterLigature f c <;> intro h <;> grind [Following.reserve]
  · have htag : ∀ g, tagSequence f c = some g → g.reserve = 0 := by
      fun_cases tagSequence f c <;> grind [Following.reserve]
    revert h
    fun_cases emojiSequence f c <;> intro h <;> grind [Following.reserve, Option.map_eq_some_iff]
  · have := reserve_alone c
    omega

/-- A character takes back no more than those after it have set aside. -/
theorem reserve_step (c : Char) (x : Context) :
    (step c x).2.following.reserve ≤ x.following.reserve + (step c x).1 := by
  have hnonneg := reserve_nonneg x.following
  have hselector (p : Presentation) (hp : c = '\ufe0f' ∧ p = .emoji ∨ c = '\ufe0e' ∧ p = .text) :
      (step c x).2.following.reserve ≤ x.following.reserve + (step c x).1 := by
    obtain ⟨g, hstep, rfl | ⟨rfl, -⟩⟩ := step_of_selector hp x <;> rw [hstep]
    · simpa [Following.reserve] using hnonneg
    · simp
  by_cases hshape : c = '\ufe0f'
  · exact hselector .emoji (.inl ⟨hshape, rfl⟩)
  by_cases htext : c = '\ufe0e'
  · exact hselector .text (.inr ⟨htext, rfl⟩)
  have hdrop : x.dropSelector.following.reserve ≤ x.following.reserve := by
    rcases following_dropSelector x with hdrop | hdrop
    · exact Int.le_of_eq (by rw [hdrop])
    · rw [hdrop]
      exact hnonneg
  have hcomposed := reserve_composed c x.dropSelector.following
  rw [step_eq hshape htext]
  split_ifs <;> grind [Following.reserve, Context.empty]

theorem reserve_le_measure (cs : List Char) :
    (measure cs).2.following.reserve ≤ (measure cs).1 := by
  induction cs with
  | nil => decide
  | cons c cs ih =>
    have := reserve_step c (measure cs).2
    rw [measure]
    dsimp only
    omega

theorem measure_nonneg (cs : List Char) : 0 ≤ (measure cs).1 :=
  Int.le_trans (reserve_nonneg _) (reserve_le_measure cs)

end CommitGraph.Text
