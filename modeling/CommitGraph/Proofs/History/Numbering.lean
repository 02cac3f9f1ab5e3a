import CommitGraph.History.Basic
import CommitGraph.Proofs.Lists

namespace CommitGraph

namespace Numbering

variable {n m : Numbering} {h k : String} {hs ms : List String}

def numberOf (n : Numbering) (h : String) : CommitId := UInt32.ofNat (n.hashes.idxOf h)

/-- There are enough numbers for all hashes. -/
def HasRoom (n : Numbering) : Prop := n.size ≤ UInt32.size

/-- The number of a hash, or none, is told by where the hash is listed. -/
def Agrees (n : Numbering) : Prop :=
  ∀ h : String, n.number? h = (n.hashes.idxOf? h).map UInt32.ofNat

theorem agrees_empty : empty.Agrees := fun _ => rfl

theorem Agrees.assign (hn : n.Agrees) (h : String) : (n.assign h).2.Agrees := by
  rw [Numbering.assign]
  split
  · exact hn
  · next hnone =>
    intro k
    have hplace : (n.hashes ++ [h]).idxOf? k =
        (n.hashes.idxOf? k).or (if h = k then some n.size else none) := by
      rw [List.idxOf?, List.findIdx?_append, List.findIdx?_singleton]
      by_cases hk : h = k <;> simp [hk, size]
    rw [number?, List.lookup_cons, hplace]
    by_cases hk : h = k
    · subst hk
      have hnew : n.hashes.idxOf? h = none := by simpa [hn h] using hnone
      rw [beq_self_eq_true, if_pos rfl, hnew]
      rfl
    · rw [beq_eq_false_iff_ne.mpr (Ne.symm hk), if_neg hk, Option.or_none]
      exact hn k

theorem Agrees.assignAll (hn : n.Agrees) (hs : List String) : (n.assignAll hs).2.Agrees := by
  induction hs generalizing n with
  | nil => exact hn
  | cons h hs ih => exact ih (hn.assign h)

theorem number?_of_mem (hn : n.Agrees) (hh : h ∈ n.hashes) :
    n.number? h = some (n.numberOf h) := by
  obtain ⟨i, hi⟩ := Option.isSome_iff_exists.mp (List.isSome_idxOf?.mpr hh)
  rw [hn h, numberOf, List.idxOf_eq_getD_idxOf?, hi]
  rfl

theorem number?_of_not_mem (hn : n.Agrees) (hh : h ∉ n.hashes) : n.number? h = none := by
  rw [hn h, List.idxOf?_eq_none_iff.mpr hh]
  rfl

theorem hashes_assign (hn : n.Agrees) (h : String) :
    (n.assign h).2.hashes = if h ∈ n.hashes then n.hashes else n.hashes ++ [h] := by
  rw [Numbering.assign]
  split
  · next hsome =>
    rw [if_pos]
    by_contra hh
    simp [number?_of_not_mem hn hh] at hsome
  · next hnone =>
    rw [if_neg]
    intro hh
    simp [number?_of_mem hn hh] at hnone

theorem mem_assign (hn : n.Agrees) (h : String) : h ∈ (n.assign h).2.hashes := by
  rw [hashes_assign hn]
  split
  · next hh => exact hh
  · exact List.mem_concat_self

theorem fst_assign (hn : n.Agrees) (h : String) :
    (n.assign h).1 = (n.assign h).2.numberOf h := by
  rw [numberOf, hashes_assign hn, Numbering.assign]
  by_cases hh : h ∈ n.hashes
  · rw [number?_of_mem hn hh, if_pos hh]
    rfl
  · rw [number?_of_not_mem hn hh, if_neg hh, List.idxOf_append_of_notMem hh, List.idxOf_cons_self]
    rfl

theorem assign_extends (n : Numbering) (h : String) : n.hashes <+: (n.assign h).2.hashes := by
  rw [Numbering.assign]
  split
  · exact List.prefix_rfl
  · exact List.prefix_append _ _

theorem numberOf_of_extends (hnm : n.hashes <+: m.hashes) (hh : h ∈ n.hashes) :
    m.numberOf h = n.numberOf h := by
  obtain ⟨rest, hrest⟩ := hnm
  rw [numberOf, numberOf, ← hrest, List.idxOf_append_of_mem hh]

theorem hashes_assign_eraseDups (hn : n.Agrees) (hms : n.hashes = ms.eraseDups) (h : String) :
    (n.assign h).2.hashes = (ms ++ [h]).eraseDups := by
  rw [hashes_assign hn, eraseDups_concat, hms]
  simp only [List.mem_eraseDups]

theorem assignAll_extends (n : Numbering) (hs : List String) :
    n.hashes <+: (n.assignAll hs).2.hashes := by
  induction hs generalizing n with
  | nil => exact List.prefix_rfl
  | cons h hs ih => exact (n.assign_extends h).trans (ih (n.assign h).2)

theorem hashes_assignAll_eraseDups (hn : n.Agrees) (hms : n.hashes = ms.eraseDups)
    (hs : List String) : (n.assignAll hs).2.hashes = (ms ++ hs).eraseDups := by
  induction hs generalizing n ms with
  | nil => rw [List.append_nil, ← hms, Numbering.assignAll]
  | cons h hs ih =>
    have hnext := ih (hn.assign h) (hashes_assign_eraseDups hn hms h)
    rwa [List.append_assoc] at hnext

theorem fst_assignAll (hn : n.Agrees) (hs : List String) :
    (n.assignAll hs).1 = hs.map (n.assignAll hs).2.numberOf ∧
      ∀ h ∈ hs, h ∈ (n.assignAll hs).2.hashes := by
  induction hs generalizing n with
  | nil => simp [Numbering.assignAll]
  | cons h hs ih =>
    obtain ⟨hmap, hmem⟩ := ih (hn.assign h)
    have hgrows := (n.assign h).2.assignAll_extends hs
    constructor
    · change (n.assign h).1 :: ((n.assign h).2.assignAll hs).1 = _
      rw [hmap, fst_assign hn, ← numberOf_of_extends hgrows (mem_assign hn h)]
      rfl
    · rw [List.forall_mem_cons]
      exact ⟨hgrows.subset (mem_assign hn h), hmem⟩

theorem toNat_numberOf (hn : n.HasRoom) (hh : h ∈ n.hashes) :
    (n.numberOf h).toNat = n.hashes.idxOf h :=
  UInt32.toNat_ofNat_of_lt' (Nat.lt_of_lt_of_le (List.idxOf_lt_length_of_mem hh) hn)

theorem numberOf_inj (hn : n.HasRoom) (hh : h ∈ n.hashes) (hk : k ∈ n.hashes) :
    n.numberOf h = n.numberOf k ↔ h = k := by
  rw [← UInt32.toNat_inj, toNat_numberOf hn hh, toNat_numberOf hn hk, List.idxOf_inj hh]

theorem hash?_numberOf (hn : n.HasRoom) (hh : h ∈ n.hashes) :
    n.hash? (n.numberOf h) = some h := by
  rw [hash?, toNat_numberOf hn hh, List.getElem?_idxOf hh]

/-- Where there are more hashes than numbers, a number leads back to the first hash that has it. -/
theorem exists_hash?_numberOf (hh : h ∈ n.hashes) : ∃ k, n.hash? (n.numberOf h) = some k := by
  have hlt : (n.numberOf h).toNat < n.hashes.length := by
    rw [numberOf, UInt32.toNat_ofNat']
    exact Nat.lt_of_le_of_lt (Nat.mod_le _ _) (List.idxOf_lt_length_of_mem hh)
  exact ⟨_, List.getElem?_eq_getElem hlt⟩

theorem mem_map_numberOf (hn : n.HasRoom) (hh : h ∈ n.hashes) (hhs : ∀ k ∈ hs, k ∈ n.hashes) :
    n.numberOf h ∈ hs.map n.numberOf ↔ h ∈ hs := by
  rw [List.mem_map]
  constructor
  · rintro ⟨k, hk, heq⟩
    exact (numberOf_inj hn (hhs k hk) hh).mp heq ▸ hk
  · intro h
    exact ⟨_, h, rfl⟩

theorem number?_of_extends (hn : n.Agrees) (hm : m.Agrees) (hnm : n.hashes <+: m.hashes)
    (hroom : m.HasRoom) (h : String) :
    n.number? h = (m.number? h).filter (·.toNat < n.size) := by
  by_cases hh : h ∈ n.hashes
  · have hfirst : (n.numberOf h).toNat < n.size := by
      rw [← numberOf_of_extends hnm hh, toNat_numberOf hroom (hnm.subset hh)]
      obtain ⟨rest, hrest⟩ := hnm
      rw [← hrest, List.idxOf_append_of_mem hh]
      exact List.idxOf_lt_length_of_mem hh
    rw [number?_of_mem hn hh, number?_of_mem hm (hnm.subset hh), numberOf_of_extends hnm hh,
      Option.filter_some_pos (by simpa using hfirst)]
  -- A hash that came later has a later number.
  · rw [number?_of_not_mem hn hh]
    by_cases hh' : h ∈ m.hashes
    · have hlater : n.size ≤ (m.numberOf h).toNat := by
        rw [toNat_numberOf hroom hh']
        obtain ⟨rest, hrest⟩ := hnm
        rw [← hrest, List.idxOf_append_of_notMem hh]
        exact Nat.le_add_right _ _
      rw [number?_of_mem hm hh', Option.filter_some_neg (by simpa using hlater)]
    · rw [number?_of_not_mem hm hh', Option.filter_none]

end Numbering

namespace History

variable {n : Numbering} {ls ks : List LogLine} {l : LogLine} {ms : List String}

/-- The hashes that lines mention, each line's own before its parents. -/
def mentioned (ls : List LogLine) : List String := ls.flatMap fun l => l.hash :: l.parents

theorem hash_mem_mentioned (hl : l ∈ ls) : l.hash ∈ mentioned ls :=
  List.mem_flatMap.mpr ⟨l, hl, List.mem_cons_self⟩

theorem parent_mem_mentioned {p : String} (hl : l ∈ ls) (hp : p ∈ l.parents) : p ∈ mentioned ls :=
  List.mem_flatMap.mpr ⟨l, hl, List.mem_cons_of_mem _ hp⟩

def numbered (n : Numbering) (l : LogLine) : Commit :=
  ⟨n.numberOf l.hash, l.parents.map n.numberOf, l.time⟩

theorem numbered_of_extends {m : Numbering} (hnm : n.hashes <+: m.hashes)
    (hl : ∀ h ∈ l.hash :: l.parents, h ∈ n.hashes) : numbered m l = numbered n l := by
  rw [List.forall_mem_cons] at hl
  have hparents : l.parents.map m.numberOf = l.parents.map n.numberOf :=
    List.map_congr_left fun p hp => Numbering.numberOf_of_extends hnm (hl.2 p hp)
  rw [numbered, numbered, Numbering.numberOf_of_extends hnm hl.1, hparents]

theorem numberLines_cons (n : Numbering) (l : LogLine) (ls : List LogLine) :
    numberLines n (l :: ls) =
      (⟨(n.assign l.hash).1, ((n.assign l.hash).2.assignAll l.parents).1, l.time⟩ ::
          (numberLines ((n.assign l.hash).2.assignAll l.parents).2 ls).1,
        (numberLines ((n.assign l.hash).2.assignAll l.parents).2 ls).2) :=
  rfl

theorem numberLines_append (n : Numbering) (ls ks : List LogLine) :
    numberLines n (ls ++ ks) =
      ((numberLines n ls).1 ++ (numberLines (numberLines n ls).2 ks).1,
        (numberLines (numberLines n ls).2 ks).2) := by
  induction ls generalizing n with
  | nil => rfl
  | cons l ls ih =>
    simp only [List.cons_append, numberLines, ih]

theorem numberLines_extends (n : Numbering) (ls : List LogLine) :
    n.hashes <+: (numberLines n ls).2.hashes := by
  induction ls generalizing n with
  | nil => exact List.prefix_rfl
  | cons l ls ih =>
    have hhash := n.assign_extends l.hash
    have hparents := (n.assign l.hash).2.assignAll_extends l.parents
    exact (hhash.trans hparents).trans (ih _)

theorem agrees_numberLines (hn : n.Agrees) (ls : List LogLine) :
    (numberLines n ls).2.Agrees := by
  induction ls generalizing n with
  | nil => exact hn
  | cons l ls ih => exact ih ((hn.assign l.hash).assignAll l.parents)

theorem hashes_numberLines (hn : n.Agrees) (hms : n.hashes = ms.eraseDups) (ls : List LogLine) :
    (numberLines n ls).2.hashes = (ms ++ mentioned ls).eraseDups := by
  induction ls generalizing n ms with
  | nil => rw [numberLines, mentioned, List.flatMap_nil, List.append_nil, hms]
  | cons l ls ih =>
    have hhash := Numbering.hashes_assign_eraseDups hn hms l.hash
    have hparents := Numbering.hashes_assignAll_eraseDups (hn.assign l.hash) hhash l.parents
    have hnext := ih ((hn.assign l.hash).assignAll l.parents) hparents
    rw [List.append_assoc, List.append_assoc] at hnext
    exact hnext

theorem fst_numberLines (hn : n.Agrees) (ls : List LogLine) :
    (numberLines n ls).1 = ls.map (numbered (numberLines n ls).2) := by
  induction ls generalizing n with
  | nil => rfl
  | cons l ls ih =>
    have hnext := (hn.assign l.hash).assignAll l.parents
    obtain ⟨hmap, hmem⟩ := Numbering.fst_assignAll (hn.assign l.hash) l.parents
    have hparents := (n.assign l.hash).2.assignAll_extends l.parents
    have hlines := numberLines_extends ((n.assign l.hash).2.assignAll l.parents).2 ls
    have hhash := Numbering.mem_assign hn l.hash
    have hfirst := numbered_of_extends hlines
      (List.forall_mem_cons.mpr ⟨hparents.subset hhash, hmem⟩)
    rw [numberLines_cons, List.map_cons, ih hnext, hfirst, numbered,
      Numbering.numberOf_of_extends hparents hhash, ← hmap, ← Numbering.fst_assign hn]

theorem hashes_numberLines_empty (ls : List LogLine) :
    (numberLines .empty ls).2.hashes = (mentioned ls).eraseDups := by
  have hnone : Numbering.empty.hashes = ([] : List String).eraseDups := rfl
  exact hashes_numberLines Numbering.agrees_empty hnone ls

end History

end CommitGraph
