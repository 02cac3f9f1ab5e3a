import CommitGraph.Label
import CommitGraph.Proofs.Text.ClusterWidths
import Mathlib.Algebra.GroupWithZero.Nat

namespace CommitGraph.Text

/-- What cutting relies on: clusters make up their text, no text is wider than its clusters are one
by one, and an ellipsis and spaces take the columns they should. -/
structure Ruler.Lawful (r : Ruler) : Prop where
  join_clusters (s : String) : String.join (r.clusters s) = s
  width_join_le {s : String} {front : List String} (h : front <+: r.clusters s) :
    r.width (String.join front) ≤ (front.map r.width).sum
  width_join_ellipsis_le {s : String} {front : List String} (h : front <+: r.clusters s) :
    r.width (String.join front ++ ellipsis) ≤ (front.map r.width).sum + r.width ellipsis
  width_ellipsis : r.width ellipsis = 1
  width_append_spaces (s : String) (n : Nat) :
    r.width (s ++ String.ofList (List.replicate n ' ')) = r.width s + n

/-- The ellipsis follows the first clusters of the text, as many as leave a column for it, and they
are not all. -/
def Ruler.IsCut (r : Ruler) (room : Nat) (s t : String) : Prop :=
  ∃ front g rest, r.clusters s = front ++ g :: rest ∧ t = String.join front ++ ellipsis ∧
    (front.map r.width).sum + 1 ≤ room ∧ room < ((front ++ [g]).map r.width).sum + 1

theorem join_map_ofList (gs : List (List Char)) :
    String.join (gs.map String.ofList) = String.ofList gs.flatten := by
  induction gs with
  | nil => rfl
  | cons g gs ih => simp [ih]

theorem displayWidth_ofList (cs : List Char) :
    displayWidth (String.ofList cs) = (measure cs).1.toNat := by
  rw [displayWidth, String.toList_ofList]

theorem widthSum_eq (gs : List (List Char)) :
    widthSum gs = (((gs.map String.ofList).map displayWidth).sum : Nat) := by
  induction gs with
  | nil => rfl
  | cons g gs ih =>
    have := measure_nonneg g
    rw [widthSum_cons, ih]
    simp only [List.map_cons, List.sum_cons, displayWidth_ofList]
    omega

theorem displayWidth_append {s t : String} (h : (measure t.toList).2 = .empty) :
    displayWidth (s ++ t) = displayWidth s + displayWidth t := by
  have hs := measure_nonneg s.toList
  have ht := measure_nonneg t.toList
  rw [displayWidth, String.toList_append, measure_append, h, ← measure_eq_scan, displayWidth,
    displayWidth]
  omega

theorem measure_spaces (n : Nat) : measure (List.replicate n ' ') = ((n : Int), .empty) := by
  induction n with
  | zero => rfl
  | succ n ih =>
    have hspace : step ' ' .empty = (1, .empty) := by decide
    rw [List.replicate_succ, measure, ih]
    simp [hspace]

theorem displayWidth_join_le {s : String} {front : List String}
    (h : front <+: Ruler.terminal.clusters s) :
    displayWidth (String.join front) ≤ (front.map displayWidth).sum := by
  obtain ⟨gs, hgs, rfl⟩ := List.prefix_map_iff.mp h
  have := measure_flatten_le s.toList hgs
  rw [widthSum_eq] at this
  rw [join_map_ofList, displayWidth_ofList]
  omega

namespace Ruler

theorem width_terminal : terminal.width = displayWidth := rfl

/-- The terminal measures texts in the way that cutting relies on. -/
theorem terminal_lawful : terminal.Lawful where
  join_clusters s := by
    rw [terminal, join_map_ofList, flatten_clusters, String.ofList_toList]
  width_join_le := displayWidth_join_le
  width_join_ellipsis_le h := by
    have hellipsis : (measure ellipsis.toList).2 = .empty := by decide +kernel
    rw [width_terminal, displayWidth_append hellipsis]
    exact Nat.add_le_add_right (displayWidth_join_le h) _
  width_ellipsis := by decide +kernel
  width_append_spaces s n := by
    have hspaces := measure_spaces n
    rw [width_terminal, displayWidth_append (by rw [String.toList_ofList, hspaces]),
      displayWidth_ofList, hspaces]
    rfl

variable {r : Ruler} {room : Nat} {s : String}

theorem keep_prefix (r : Ruler) (room : Nat) (gs : List String) : r.keep room gs <+: gs := by
  induction gs generalizing room with
  | nil => exact List.nil_prefix
  | cons g gs ih =>
    rw [keep]
    split
    · exact List.cons_prefix_cons.mpr ⟨rfl, ih _⟩
    · exact List.nil_prefix

theorem sum_keep_lt (r : Ruler) (hroom : 0 < room) (gs : List String) :
    ((r.keep room gs).map r.width).sum < room := by
  induction gs generalizing room with
  | nil => exact hroom
  | cons g gs ih =>
    rw [keep]
    split
    case isTrue hfits =>
      have hleft : 0 < room - r.width g := by omega
      have := ih hleft
      simp only [List.map_cons, List.sum_cons]
      omega
    case isFalse => exact hroom

/-- The first cluster that is not kept would have left no column for the ellipsis. -/
theorem le_sum_keep {gs rest : List String} {g : String} (h : gs = r.keep room gs ++ g :: rest) :
    room ≤ ((r.keep room gs).map r.width).sum + r.width g := by
  induction gs generalizing room with
  | nil => simp [keep] at h
  | cons g' gs ih =>
    rw [keep] at h ⊢
    split at h
    case isTrue hfits =>
      rw [if_pos hfits]
      have := ih (List.cons.inj h).2
      simp only [List.map_cons, List.sum_cons]
      omega
    case isFalse hfits =>
      rw [if_neg hfits]
      obtain ⟨rfl, -⟩ := List.cons.inj h
      simp only [List.map_nil, List.sum_nil]
      omega

theorem fit_of_le (h : r.width s ≤ room) : r.fit room s = s := if_pos h

theorem fit_of_lt (hroom : 0 < room) (h : room < r.width s) :
    r.fit room s = String.join (r.keep room (r.clusters s)) ++ ellipsis := by
  rw [fit, if_neg (by omega), if_neg (by omega)]

namespace Lawful

variable (hr : r.Lawful)
include hr

theorem width_empty : r.width "" = 0 :=
  Nat.le_zero.mp (hr.width_join_le (s := "") List.nil_prefix)

theorem width_le_sum_clusters (s : String) : r.width s ≤ ((r.clusters s).map r.width).sum := by
  have := hr.width_join_le (List.prefix_refl (r.clusters s))
  rwa [hr.join_clusters] at this

theorem isCut_fit (hroom : 0 < room) (h : room < r.width s) : r.IsCut room s (r.fit room s) := by
  obtain ⟨rest, hrest⟩ := r.keep_prefix room (r.clusters s)
  have hkept := r.sum_keep_lt hroom (r.clusters s)
  cases rest with
  | nil =>
    -- Were all clusters kept, the whole text would fit.
    rw [List.append_nil] at hrest
    rw [hrest] at hkept
    have := hr.width_le_sum_clusters s
    omega
  | cons g rest =>
    refine ⟨_, g, rest, hrest.symm, fit_of_lt hroom h, hkept, ?_⟩
    have := le_sum_keep hrest.symm
    simp only [List.map_append, List.map_cons, List.map_nil, List.sum_append, List.sum_cons,
      List.sum_nil]
    omega

theorem width_fit_le (room : Nat) (s : String) : r.width (r.fit room s) ≤ room := by
  by_cases hfits : r.width s ≤ room
  · rwa [fit_of_le hfits]
  · rcases Nat.eq_zero_or_pos room with rfl | hroom
    · rw [fit, if_neg hfits, if_pos rfl]
      exact Nat.le_of_eq hr.width_empty
    · rw [fit_of_lt hroom (by omega)]
      calc r.width (String.join (r.keep room (r.clusters s)) ++ ellipsis)
          ≤ ((r.keep room (r.clusters s)).map r.width).sum + r.width ellipsis :=
            hr.width_join_ellipsis_le (r.keep_prefix room _)
        _ ≤ room := by
            have := r.sum_keep_lt hroom (r.clusters s)
            rw [hr.width_ellipsis]
            omega

theorem width_pad (room : Nat) (s : String) : r.width (r.pad room s) = room := by
  have := hr.width_fit_le room s
  rw [pad, hr.width_append_spaces]
  omega

/-- Cut text fits, text that fits is not cut, a cut is as late as it can be and is made once, padded
text fills its columns, and the labels of a graph fit. -/
theorem fits (room : Nat) (s : String) :
    r.width (r.fit room s) ≤ room ∧
      (r.width s ≤ room → r.fit room s = s) ∧
      (room < r.width s → 1 ≤ room → r.IsCut room s (r.fit room s)) ∧
      r.fit room (r.fit room s) = r.fit room s ∧
      r.width (r.pad room s) = room ∧
      ∀ (g : Graph) (h : History) (row : Nat), r.width (g.label h r room row) ≤ room :=
  ⟨hr.width_fit_le room s, fit_of_le, fun h hroom => hr.isCut_fit hroom h,
    fit_of_le (hr.width_fit_le room s), hr.width_pad room s,
    fun _ _ _ => hr.width_fit_le room _⟩

end Lawful

/-- An alef after a lam takes no column. The cut counts one for it all the same, and where a
character of two columns does not fit any more a column is left for padding. -/
theorem Lawful.fits_ligature :
    terminal.Lawful ∧ terminal.width "\u0633\u0644\u0627\u0645世界" = 7 ∧
      terminal.fit 5 "\u0633\u0644\u0627\u0645世界" = "\u0633\u0644\u0627\u0645…" ∧
      terminal.width "\u0633\u0644\u0627\u0645…" = 4 ∧
      terminal.IsCut 5 "\u0633\u0644\u0627\u0645世界" "\u0633\u0644\u0627\u0645…" ∧
      terminal.width (terminal.pad 5 "\u0633\u0644\u0627\u0645世界") = 5 := by
  have hwidth : terminal.width "\u0633\u0644\u0627\u0645世界" = 7 := by decide +kernel
  have hcut : terminal.fit 5 "\u0633\u0644\u0627\u0645世界" = "\u0633\u0644\u0627\u0645…" := by
    decide +kernel
  obtain ⟨-, -, hlate, -, hpad, -⟩ :=
    terminal_lawful.fits 5 "\u0633\u0644\u0627\u0645世界"
  rw [hwidth, hcut] at hlate
  exact ⟨terminal_lawful, hwidth, hcut, by decide +kernel, hlate (by decide) (by decide), hpad⟩

end Ruler

end CommitGraph.Text
