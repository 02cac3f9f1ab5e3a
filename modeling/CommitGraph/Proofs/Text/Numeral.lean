import CommitGraph.Text.Numeral
import Mathlib.Data.Option.Basic

namespace CommitGraph.Text

variable {bound : Nat}

theorem toList_toString_natCast (n : Nat) : (toString (n : Int)).toList = Nat.toDigits 10 n := by
  change (toString n).toList = _
  rw [Nat.toString_eq_ofList_toDigits, String.toList_ofList]

theorem toList_toString_negSucc (n : Nat) :
    (toString (Int.negSucc n)).toList = '-' :: Nat.toDigits 10 (n + 1) := by
  have hminus : "-".toList = ['-'] := rfl
  change ("-" ++ toString (n + 1)).toList = _
  rw [String.toList_append, hminus, Nat.toString_eq_ofList_toDigits, String.toList_ofList,
    List.singleton_append]

theorem isDigit_of_mem_toDigits {n : Nat} {c : Char} (hc : c ∈ Nat.toDigits 10 n) :
    c.isDigit = true :=
  Nat.isDigit_of_mem_toDigits (by decide) (by decide) hc

theorem mem_toString {t : Int} {c : Char} (hc : c ∈ (toString t).toList) :
    c.isDigit = true ∨ c = '-' := by
  cases t with
  | ofNat n =>
    rw [Int.ofNat_eq_natCast, toList_toString_natCast] at hc
    exact .inl (isDigit_of_mem_toDigits hc)
  | negSucc n =>
    rw [toList_toString_negSucc] at hc
    rcases List.mem_cons.mp hc with hc | hc
    · exact .inr hc
    · exact .inl (isDigit_of_mem_toDigits hc)

theorem toString_ne_nil (t : Int) : (toString t).toList ≠ [] := by
  cases t with
  | ofNat n =>
    rw [Int.ofNat_eq_natCast, toList_toString_natCast]
    exact Nat.toDigits_ne_nil
  | negSucc n =>
    rw [toList_toString_negSucc]
    exact List.cons_ne_nil _ _

theorem readDigits_toDigits (n : Nat) : readDigits (Nat.toDigits 10 n) = some n := by
  have hall : (Nat.toDigits 10 n).all Char.isDigit = true := by
    rw [List.all_eq_true]
    intro c hc
    exact isDigit_of_mem_toDigits hc
  rw [readDigits, if_pos ⟨Nat.toDigits_ne_nil, hall⟩, ← Nat.ofDigitChars_eq_foldl,
    Nat.ofDigitChars_ten_toDigits]

theorem readInt_of_isDigit {d : Char} {ds : List Char} (hd : d.isDigit = true) :
    readInt bound (d :: ds) = ((readDigits (d :: ds)).filter (· < bound)).map Int.ofNat := by
  have hminus : ∀ rest, d :: ds ≠ '-' :: rest := by
    rintro rest ⟨⟩
    exact absurd hd (by decide)
  have hplus : ∀ rest, d :: ds ≠ '+' :: rest := by
    rintro rest ⟨⟩
    exact absurd hd (by decide)
  rw [readInt.eq_def]
  split
  · next h => exact absurd h (hminus _)
  · rw [readNat.eq_def]
    split
    next h => exact absurd h (hplus _)
    rfl

theorem readInt_toString {t : Int} (hlow : -(bound : Int) ≤ t) (hhigh : t < bound) :
    readInt bound (toString t).toList = some t := by
  cases t with
  | ofNat n =>
    have hn : n < bound := Int.ofNat_lt.mp hhigh
    obtain ⟨d, ds, hd⟩ := List.exists_cons_of_ne_nil (Nat.toDigits_ne_nil (n := n) (b := 10))
    have hdigit : d.isDigit = true := isDigit_of_mem_toDigits (hd ▸ List.mem_cons_self)
    rw [Int.ofNat_eq_natCast, toList_toString_natCast, hd, readInt_of_isDigit hdigit, ← hd,
      readDigits_toDigits, Option.filter_some, if_pos (decide_eq_true hn)]
    rfl
  | negSucc n =>
    have hn : n + 1 ≤ bound := by omega
    rw [toList_toString_negSucc, readInt, readDigits_toDigits, Option.bind_some, if_pos hn]
    rfl

theorem readNat_lt {cs : List Char} {n : Nat} (h : readNat bound cs = some n) : n < bound := by
  rw [readNat.eq_def, Option.filter_eq_some_iff] at h
  exact of_decide_eq_true h.2

theorem readInt_bounds {cs : List Char} {t : Int} (hbound : 0 < bound)
    (h : readInt bound cs = some t) : -(bound : Int) ≤ t ∧ t < bound := by
  rw [readInt.eq_def] at h
  split at h
  · obtain ⟨n, -, hn⟩ := Option.bind_eq_some_iff.mp h
    split at hn
    · cases hn
      omega
    · cases hn
  · obtain ⟨n, hn, rfl⟩ := Option.map_eq_some_iff.mp h
    have hlt := readNat_lt hn
    rw [Int.ofNat_eq_natCast]
    omega

end CommitGraph.Text
