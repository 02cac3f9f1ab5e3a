import CommitGraph.Text.Cluster
import CommitGraph.Text.EastAsian
import CommitGraph.Text.ZeroWidth

/-!
The number of terminal columns that a text takes. A text is read from its end, because what a
character adds depends on what follows it: selectors, skin tones, joiners, and the letters that
form ligatures.
-/

namespace CommitGraph.Text

def charWidth (c : Char) : Int :=
  if 0x20 ≤ c.toNat ∧ c.toNat < 0x7f then 1
  -- These four go against the tables.
  else if c = '\u115f' then 2
  else if c = '\u2d7f' then 1
  else if c = '\u17a4' then 2
  else if c = '\u17d8' then 3
  else if defaultIgnorable.has c || graphemeExtend.has c || innerJamo.has c || silentPrepend.has c
  then 0
  else if eastAsianWide.has c then 2
  else 1

/-- What follows a character, as far as it bears on the character's width. -/
inductive Following where
  | plain
  | lineFeed
  | skinTone
  /-- One flag letter. -/
  | flag
  /-- Two flag letters or more. -/
  | flags
  | emoji
  /-- A joiner before an emoji, and what may stand between it and the emoji joined to it. -/
  | joined
  | joinedKeycap
  | joinedFlag
  | joinedFlagsEven
  | joinedFlagsOdd
  | joinedTags
  /-- Digits of a joined tag sequence, so many. -/
  | joinedTagDigits (n : Nat)
  /-- Letters of a joined tag sequence, so many. -/
  | joinedTagLetters (n : Nat)
  | alef
  /-- Letters that form a ligature with the letter before them, across a joiner or not. -/
  | lamed (across : Bool)
  | ya (across : Bool)
  | vowelAndYa
  | tifinagh (across : Bool)
  | joinedTifinagh
  | toneLetter
  | orkhonI (across : Bool)
  | khmerLetter
  | kiratE
  | kiratAi
  | curlyQuoteForm
  deriving DecidableEq

inductive Presentation where
  | unset | text | emoji
  deriving DecidableEq

structure Context where
  following : Following
  selector : Presentation
  deriving DecidableEq

def Context.empty : Context := ⟨.plain, .unset⟩

/-- Ligature letters, seen through the marks that stand before them. -/
def Following.isLetter : Following → Bool
  | .alef | .lamed _ | .ya _ | .vowelAndYa | .tifinagh _ | .joinedTifinagh | .toneLetter
  | .orkhonI _ | .khmerLetter => true
  | _ => false

/-- A joiner and marks without a column may stand within the ligature. -/
def Following.isLoose (f : Following) : Bool := f.isLetter && f != .alef

def Following.across : Following → Following
  | .lamed _ => .lamed true
  | .ya _ => .ya true
  | .tifinagh _ => .tifinagh true
  | .orkhonI _ => .orkhonI true
  | f => f

def Following.isJoined : Following → Bool
  | .joined | .joinedKeycap => true
  | _ => false

def Context.selectEmoji (x : Context) : Context :=
  if x.following.isLetter || x.following.isJoined then ⟨x.following, .emoji⟩ else ⟨.plain, .emoji⟩

def Context.selectText (x : Context) : Context :=
  if x.following.isLetter then ⟨x.following, .text⟩ else ⟨.plain, .text⟩

def Context.dropSelector (x : Context) : Context :=
  match x.selector with
  | .unset => x
  | .text => ⟨x.following, .unset⟩
  | .emoji => if x.following.isLetter then ⟨x.following, .unset⟩ else .empty

def within (lo hi : Nat) (c : Char) : Bool := lo ≤ c.toNat && c.toNat ≤ hi

def lams : Ranges :=
  [(0x644, 0x644), (0x6b5, 0x6b8), (0x76a, 0x76a), (0x8a6, 0x8a6), (0x8c7, 0x8c7)]

def alefs : Ranges :=
  [(0x622, 0x623), (0x625, 0x625), (0x627, 0x627), (0x671, 0x673), (0x675, 0x675),
   (0x773, 0x774), (0x870, 0x882)]

def khmerLetters : Ranges :=
  [(0x1780, 0x1782), (0x1784, 0x1787), (0x1789, 0x178c), (0x178e, 0x1793), (0x1795, 0x1798),
   (0x179b, 0x179d), (0x17a0, 0x17a0), (0x17a2, 0x17a2), (0x17a7, 0x17a7), (0x17ab, 0x17ac),
   (0x17af, 0x17af)]

def tifinaghLetters : Ranges := [(0x2d31, 0x2d65), (0x2d6f, 0x2d6f)]

def curlyQuotes : Ranges := [(0x2018, 0x2019), (0x201c, 0x201d)]

def looseMarks : Ranges :=
  [(0x34f, 0x34f), (0x17b4, 0x17b5), (0x180b, 0x180d), (0x180f, 0x180f), (0xfe00, 0xfe0f),
   (0xe0100, 0xe01ef)]

/-- What a character without company shows to the character before it. -/
def Following.ofChar (c : Char) : Following :=
  if alefs.has c then .alef
  else if c = '\u05dc' then .lamed false
  else if khmerLetters.has c then .khmerLetter
  else if c = '\u1a10' then .ya false
  else if tifinaghLetters.has c then .tifinagh false
  else if within 0xa4fc 0xa4fd c then .toneLetter
  else if c.toNat = 0x10c03 then .orkhonI false
  else if c.toNat = 0x16d67 then .kiratE
  else if c.toNat = 0x16d68 then .kiratAi
  else if isFlagLetter c then .flag
  else if isSkinTone c then .skinTone
  else if emojiPresentation.has c then .emoji
  else .plain

def alone (c : Char) : Int × Context :=
  if c = '\ufe0f' then (0, ⟨.plain, .emoji⟩)
  else if c = '\ufe0e' then (0, ⟨.plain, .text⟩)
  else if c = '\ufe01' then (0, ⟨.curlyQuoteForm, .unset⟩)
  else (charWidth c, ⟨.ofChar c, .unset⟩)

/-- Ligatures of letters: the width that the letter before adds, and what it shows in turn. -/
def letterLigature (f : Following) (c : Char) : Option (Int × Following) :=
  match f with
  | .alef =>
    if lams.has c then some (0, .plain)
    else if charWidth c = 0 && !opaqueMark.has c then some (0, .alef)
    else none
  | .lamed true => if c = '\u05d0' then some (0, .plain) else none
  | .khmerLetter => if c = '\u17d2' then some (-1, .plain) else none
  | .ya true => if c = '\u1a17' then some (0, .vowelAndYa) else none
  | .vowelAndYa => if c = '\u1a15' then some (0, .plain) else none
  | .tifinagh across =>
    if c = '\u2d7f' then some (1, .joinedTifinagh)
    else if across && tifinaghLetters.has c then some (0, .plain)
    else none
  | .joinedTifinagh => if tifinaghLetters.has c then some (-1, .plain) else none
  | .toneLetter => if within 0xa4f8 0xa4fb c then some (0, .plain) else none
  | .orkhonI true => if c.toNat = 0x10c32 then some (0, .plain) else none
  | .kiratE =>
    if c.toNat = 0x16d63 then some (0, .plain)
    else if c.toNat = 0x16d67 then some (0, .kiratAi)
    else if c.toNat = 0x16d68 then some (1, .kiratE)
    else if c.toNat = 0x16d69 then some (0, .plain)
    else none
  | .kiratAi => if c.toNat = 0x16d63 then some (0, .plain) else none
  | .curlyQuoteForm => if curlyQuotes.has c then some (2, .plain) else none
  | _ => none

/-- Tag characters of a joined flag: up to three digits after up to four letters, or three to six
letters, stand between the black flag and the end mark. -/
def tagSequence (f : Following) (c : Char) : Option Following :=
  let letter := within 0xe0061 0xe007a c
  let digit := within 0xe0030 0xe0039 c
  let blackFlag := c.toNat = 0x1f3f4
  match f with
  | .joinedTags =>
    if letter then some (.joinedTagLetters 1) else if digit then some (.joinedTagDigits 1) else none
  | .joinedTagLetters n =>
    if letter && n < 6 then some (.joinedTagLetters (n + 1))
    else if digit && n ≤ 4 then some (.joinedTagDigits 1)
    else if blackFlag && 3 ≤ n then some .emoji
    else none
  | .joinedTagDigits n =>
    if digit && n < 3 then some (.joinedTagDigits (n + 1))
    else if blackFlag && n = 3 then some .emoji
    else none
  | _ => none

/-- Emoji sequences: the width that the character before adds, and what it shows in turn. -/
def emojiSequence (f : Following) (c : Char) : Option (Int × Following) :=
  match f with
  | .skinTone =>
    if emojiModifierBase.has c then some (0, .emoji)
    else if c = zeroWidthJoiner then some (0, .joined)
    else none
  -- One flag letter takes a column, and each pair takes two.
  | .flag => if isFlagLetter c then some (1, .flags) else none
  | .flags =>
    if isFlagLetter c then some (1, .flags)
    else if c = zeroWidthJoiner then some (0, .joined)
    else none
  | .emoji => if c = zeroWidthJoiner then some (0, .joined) else none
  | .joined =>
    if c = '\u20e3' then some (0, .joinedKeycap)
    else if isFlagLetter c then some (1, .joinedFlag)
    else if isSkinTone c then some (0, .skinTone)
    else if c.toNat = 0xe007f then some (0, .joinedTags)
    else if emojiPresentation.has c then some (0, .emoji)
    else none
  | .joinedFlag => if isFlagLetter c then some (-1, .joinedFlagsEven) else none
  | .joinedFlagsOdd =>
    if isFlagLetter c then some (-1, .joinedFlagsEven)
    else if c = zeroWidthJoiner then some (0, .joined)
    else none
  | .joinedFlagsEven =>
    if isFlagLetter c then some (3, .joinedFlagsOdd)
    else if c = zeroWidthJoiner then some (0, .joined)
    else none
  | _ => (tagSequence f c).map fun g => (0, g)

def composed (f : Following) (c : Char) : Int × Context :=
  if f.isLoose && c = zeroWidthJoiner then (0, ⟨f.across, .unset⟩)
  else if f.isLoose && looseMarks.has c then (0, ⟨f, .unset⟩)
  else match letterLigature f c <|> emojiSequence f c with
    | some (w, g) => (w, ⟨g, .unset⟩)
    | none => alone c

/-- What a character adds to the width of the text after it, and the context it leaves to the
character before it. -/
def step (c : Char) (x : Context) : Int × Context :=
  if x.selector = .emoji && emojiVariationBase.has c then
    (if x.following.isJoined then 0 else 2, ⟨.emoji, .unset⟩)
  else
    -- An emoji selector acts on the character right before it or not at all.
    let x := if x.selector = .emoji then x.dropSelector else x
    if c.toNat ≤ 0xa0 then
      if c = '\n' then (1, ⟨.lineFeed, .unset⟩)
      else if c = '\r' && x = ⟨.lineFeed, .unset⟩ then (0, .empty)
      else (1, .empty)
    else if x = .empty then alone c
    else if c = '\ufe0f' then (0, x.selectEmoji)
    else if c = '\ufe0e' then (0, x.selectText)
    else if x.selector = .text && emojiVariationBase.has c && emojiPresentation.has c
        && !within 0x1f200 0x1f2ff c then
      -- An emoji with a text selector is drawn in one column.
      (1, .empty)
    else composed x.dropSelector.following c

def measure : List Char → Int × Context
  | [] => (0, .empty)
  | c :: cs =>
    let (width, x) := measure cs
    let (added, y) := step c x
    (width + added, y)

/-- Terminal columns of a text. Every control takes one, and a carriage return before a line feed
none. -/
def displayWidth (s : String) : Nat := (measure s.toList).1.toNat

end CommitGraph.Text
