import CommitGraph.Text.ClusterBreak
import CommitGraph.Text.Emoji
import CommitGraph.Text.Extend

namespace CommitGraph.Text

inductive BreakClass where
  | other | control | carriageReturn | lineFeed | extending | joiner | flagLetter | prepended
  | spacingMark | leadJamo | vowelJamo | tailJamo | openSyllable | closedSyllable
  deriving DecidableEq

def isSkinTone (c : Char) : Bool := 0x1f3fb ≤ c.toNat && c.toNat ≤ 0x1f3ff

/-- The letters that form flags in pairs. -/
def isFlagLetter (c : Char) : Bool := 0x1f1e6 ≤ c.toNat && c.toNat ≤ 0x1f1ff

def zeroWidthJoiner : Char := '\u200d'

def zeroWidthNonJoiner : Char := '\u200c'

def vowelJamo : Ranges := [(0x1160, 0x11a7), (0xd7b0, 0xd7c6), (0x16d63, 0x16d63), (0x16d67, 0x16d6a)]

def tailJamo : Ranges := [(0x11a8, 0x11ff), (0xd7cb, 0xd7fb)]

def leadJamo : Ranges := [(0x1100, 0x115f), (0xa960, 0xa97c)]

def syllables : Ranges := [(0xac00, 0xd7a3)]

def breakClass (c : Char) : BreakClass :=
  if c = '\r' then .carriageReturn
  else if c = '\n' then .lineFeed
  else if 0x20 ≤ c.toNat ∧ c.toNat < 0x7f then .other
  else if clusterControl.has c then .control
  else if graphemeExtend.has c || isSkinTone c then .extending
  else if c = zeroWidthJoiner then .joiner
  else if isFlagLetter c then .flagLetter
  else if clusterPrepend.has c then .prepended
  else if clusterSpacingMark.has c then .spacingMark
  else if leadJamo.has c then .leadJamo
  else if vowelJamo.has c then .vowelJamo
  else if tailJamo.has c then .tailJamo
  else if syllables.has c then
    -- Every vowel has one syllable without a final consonant, and then 27 with one.
    if (c.toNat - 0xac00) % 28 = 0 then .openSyllable else .closedSyllable
  else .other

/-- How far a sequence that needs a third character has come. -/
inductive Progress where
  | absent | begun | linked
  deriving DecidableEq

structure Seen where
  last : BreakClass
  /-- A pictograph with its marks, and then a joiner. -/
  pictograph : Progress
  /-- A consonant with its marks, and then a joining sign. -/
  conjunct : Progress
  /-- An odd number of flag letters stand at the end. -/
  halfFlag : Bool

def Progress.pictograph (p : Progress) (c : Char) : Progress :=
  if extendedPictographic.has c then .begun
  else match p, breakClass c with
    | .begun, .extending => .begun
    | .begun, .joiner => .linked
    | _, _ => .absent

def Progress.conjunct (p : Progress) (c : Char) : Progress :=
  if conjunctConsonant.has c then .begun
  else if p = .absent then .absent
  else if conjunctLinker.has c then .linked
  else if c = zeroWidthNonJoiner then .absent
  else match breakClass c with
    | .extending | .joiner => p
    | _ => .absent

def Seen.start (c : Char) : Seen where
  last := breakClass c
  pictograph := Progress.absent.pictograph c
  conjunct := Progress.absent.conjunct c
  halfFlag := isFlagLetter c

def Seen.next (s : Seen) (c : Char) : Seen where
  last := breakClass c
  pictograph := s.pictograph.pictograph c
  conjunct := s.conjunct.conjunct c
  halfFlag := isFlagLetter c && !s.halfFlag

def Seen.joins (s : Seen) (c : Char) : Bool :=
  match s.last, breakClass c with
  | .carriageReturn, .lineFeed => true
  | .control, _ | .carriageReturn, _ | .lineFeed, _ => false
  | _, .control | _, .carriageReturn | _, .lineFeed => false
  | .leadJamo, .leadJamo | .leadJamo, .vowelJamo | .leadJamo, .openSyllable
  | .leadJamo, .closedSyllable => true
  | .openSyllable, .vowelJamo | .openSyllable, .tailJamo | .vowelJamo, .vowelJamo
  | .vowelJamo, .tailJamo => true
  | .closedSyllable, .tailJamo | .tailJamo, .tailJamo => true
  | _, .extending | _, .joiner | _, .spacingMark | .prepended, _ => true
  | .flagLetter, .flagLetter => s.halfFlag
  | _, _ =>
    (s.conjunct = .linked && conjunctConsonant.has c) ||
      (s.pictograph = .linked && extendedPictographic.has c)

/-- The clusters of a text, of which the first has begun with `cluster`, reversed. -/
def clustersFrom (s : Seen) (cluster : List Char) : List Char → List (List Char)
  | [] => [cluster.reverse]
  | c :: cs =>
    if s.joins c then clustersFrom (s.next c) (c :: cluster) cs
    else cluster.reverse :: clustersFrom (s.next c) [c] cs

def clusters : List Char → List (List Char)
  | [] => []
  | c :: cs => clustersFrom (Seen.start c) [c] cs

theorem flatten_clustersFrom (s : Seen) (cluster cs : List Char) :
    (clustersFrom s cluster cs).flatten = cluster.reverse ++ cs := by
  induction cs generalizing s cluster with
  | nil => simp [clustersFrom]
  | cons c cs ih =>
    rw [clustersFrom]
    split <;> simp [ih]

theorem flatten_clusters (cs : List Char) : (clusters cs).flatten = cs := by
  cases cs <;> simp [clusters, flatten_clustersFrom]

end CommitGraph.Text
