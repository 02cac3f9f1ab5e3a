import Mathlib.Data.List.Forall2
import Mathlib.Data.List.Induction

namespace CommitGraph

variable {α β : Type} {R : α → β → Prop} {as : List α} {bs : List β}

theorem exists_getElem?_right (h : List.Forall₂ R as bs) {i : Nat} {a : α} (ha : as[i]? = some a) :
    ∃ b, bs[i]? = some b ∧ R a b := by
  induction h generalizing i with
  | nil => simp at ha
  | @cons a' b' _ _ hab _ ih =>
    cases i with
    | zero =>
      rw [List.getElem?_cons_zero, Option.some_inj] at ha
      exact ⟨b', rfl, ha ▸ hab⟩
    | succ i => exact ih ha

theorem exists_getElem?_left (h : List.Forall₂ R as bs) {i : Nat} {b : β} (hb : bs[i]? = some b) :
    ∃ a, as[i]? = some a ∧ R a b :=
  exists_getElem?_right (R := flip R) h.flip hb

theorem exists_mem_right (h : List.Forall₂ R as bs) {a : α} (ha : a ∈ as) : ∃ b ∈ bs, R a b := by
  obtain ⟨i, hi⟩ := List.mem_iff_getElem?.mp ha
  obtain ⟨b, hb, hab⟩ := exists_getElem?_right h hi
  exact ⟨b, List.mem_of_getElem? hb, hab⟩

theorem exists_mem_left (h : List.Forall₂ R as bs) {b : β} (hb : b ∈ bs) : ∃ a ∈ as, R a b := by
  obtain ⟨i, hi⟩ := List.mem_iff_getElem?.mp hb
  obtain ⟨a, ha, hab⟩ := exists_getElem?_left h hi
  exact ⟨a, List.mem_of_getElem? ha, hab⟩

theorem forall₂_mem (h : List.Forall₂ R as bs) :
    List.Forall₂ (fun a b => R a b ∧ a ∈ as ∧ b ∈ bs) as bs := by
  induction h with
  | nil => exact .nil
  | cons hab _ ih =>
    refine .cons ⟨hab, List.mem_cons_self, List.mem_cons_self⟩ (ih.imp fun _ _ h => ?_)
    exact ⟨h.1, List.mem_cons_of_mem _ h.2.1, List.mem_cons_of_mem _ h.2.2⟩

theorem forall₂_of_right {γ : Type} {S : γ → β → Prop} {cs : List γ} (h : List.Forall₂ R as bs)
    (h' : List.Forall₂ S cs bs) : List.Forall₂ (fun a c => ∃ b, R a b ∧ S c b) as cs := by
  induction h generalizing cs with
  | nil =>
    cases h'
    exact .nil
  | cons hab _ ih =>
    cases h' with
    | cons hcb h' => exact .cons ⟨_, hab, hcb⟩ (ih h')

theorem forall₂_zipIdx (h : List.Forall₂ R as bs) (k : Nat) :
    List.Forall₂ (fun x y => R x.1 y.1 ∧ x.2 = y.2) (as.zipIdx k) (bs.zipIdx k) := by
  induction h generalizing k with
  | nil => exact .nil
  | cons hab _ ih => exact .cons ⟨hab, rfl⟩ (ih (k + 1))

theorem exists_forall₂ (h : ∀ a ∈ as, ∃ b, R a b) : ∃ bs, List.Forall₂ R as bs := by
  induction as with
  | nil => exact ⟨[], .nil⟩
  | cons a as ih =>
    obtain ⟨b, hb⟩ := h a List.mem_cons_self
    obtain ⟨bs, hbs⟩ := ih fun a ha => h a (List.mem_cons_of_mem _ ha)
    exact ⟨b :: bs, .cons hb hbs⟩

theorem map_eq_map_of_forall₂ {γ : Type} {f : α → γ} {g : β → γ} (h : List.Forall₂ R as bs)
    (hfg : ∀ a b, R a b → f a = g b) : as.map f = bs.map g := by
  induction h with
  | nil => rfl
  | cons hab _ ih => rw [List.map_cons, List.map_cons, hfg _ _ hab, ih]

theorem filterMap_eq_filterMap_of_forall₂ {γ : Type} {f : α → Option γ} {g : β → Option γ}
    (h : List.Forall₂ R as bs) (hfg : ∀ a b, R a b → f a = g b) :
    as.filterMap f = bs.filterMap g := by
  induction h with
  | nil => rfl
  | cons hab _ ih => rw [List.filterMap_cons, List.filterMap_cons, hfg _ _ hab, ih]

theorem flatMap_eq_flatMap_of_forall₂ {γ : Type} {f : α → List γ} {g : β → List γ}
    (h : List.Forall₂ R as bs) (hfg : ∀ a b, R a b → f a = g b) :
    as.flatMap f = bs.flatMap g := by
  rw [List.flatMap_def, List.flatMap_def, map_eq_map_of_forall₂ h hfg]

theorem forall₂_filterMap {f : α → Option β} (h : ∀ a ∈ as, ∃ b, f a = some b ∧ R a b) :
    List.Forall₂ R as (as.filterMap f) := by
  induction as with
  | nil => exact .nil
  | cons a as ih =>
    obtain ⟨b, hb, hab⟩ := h a List.mem_cons_self
    rw [List.filterMap_cons_some hb]
    exact .cons hab (ih fun a ha => h a (List.mem_cons_of_mem _ ha))

theorem forall₂_of_getElem? (hlen : as.length = bs.length)
    (h : ∀ (i : Nat) a b, as[i]? = some a → bs[i]? = some b → R a b) : List.Forall₂ R as bs := by
  refine List.forall₂_of_length_eq_of_get hlen fun i ha hb => ?_
  exact h i _ _ (List.getElem?_eq_getElem ha) (List.getElem?_eq_getElem hb)

theorem filter_zipIdx_concat (p : Nat → Bool) (as : List α) (b : α) :
    (as ++ [b]).zipIdx.filter (fun x => p x.2) =
      as.zipIdx.filter (fun x => p x.2) ++ if p as.length then [(b, as.length)] else [] := by
  rw [List.zipIdx_append, List.filter_append]
  cases hp : p as.length <;> simp [hp]

theorem length_filter_zipIdx (p : Nat → Bool) (as : List α) :
    (as.zipIdx.filter fun x => p x.2).length = (List.range as.length).countP p := by
  induction as using List.reverseRecOn with
  | nil => rfl
  | append_singleton as a ih =>
    rw [filter_zipIdx_concat, List.length_append, ih, List.length_append, List.length_singleton,
      List.range_succ, List.countP_append, List.countP_singleton]
    split <;> rfl

theorem getElem?_filter_zipIdx {p : Nat → Bool} {a : α} {i k : Nat} :
    (as.zipIdx.filter fun x => p x.2)[k]? = some (a, i) ↔
      as[i]? = some a ∧ p i ∧ (List.range i).countP p = k := by
  -- From the right, since an entry added there moves no other.
  induction as using List.reverseRecOn with
  | nil => simp
  | append_singleton as b ih =>
    have hlen := length_filter_zipIdx p as
    rw [filter_zipIdx_concat, List.getElem?_append, hlen]
    constructor
    · intro h
      split at h
      · obtain ⟨ha, hp, hk⟩ := ih.mp h
        exact ⟨List.getElem?_append_left (List.getElem?_eq_some_iff.mp ha).1 ▸ ha, hp, hk⟩
      · cases hp : p as.length with
        | false => simp [hp] at h
        | true =>
          rw [hp, if_pos rfl, List.getElem?_singleton] at h
          split at h
          · cases h
            exact ⟨List.getElem?_concat_length, hp, by omega⟩
          · cases h
    · rintro ⟨ha, hp, rfl⟩
      rcases Nat.lt_or_ge i as.length with hi | hi
      · rw [List.getElem?_append_left hi] at ha
        have hmem := ih.mpr ⟨ha, hp, rfl⟩
        rw [if_pos (hlen ▸ (List.getElem?_eq_some_iff.mp hmem).1), hmem]
      · obtain rfl : i = as.length := by
          have := (List.getElem?_eq_some_iff.mp ha).1
          rw [List.length_append, List.length_singleton] at this
          omega
        rw [List.getElem?_concat_length] at ha
        cases ha
        rw [if_neg (Nat.lt_irrefl _), if_pos hp, Nat.sub_self, List.getElem?_cons_zero]

theorem length_filter_lt {p q : α → Bool} {a : α} (hqp : ∀ b ∈ as, q b → p b) (ha : a ∈ as)
    (hp : p a) (hq : q a = false) : (as.filter q).length < (as.filter p).length := by
  have hfilter : as.filter q = (as.filter p).filter q := by
    rw [List.filter_filter]
    apply List.filter_congr
    intro b hb
    cases hqb : q b
    · rfl
    · simp [hqp b hb hqb]
  rw [hfilter]
  exact List.length_filter_lt_length_iff_exists.mpr
    ⟨a, List.mem_filter.mpr ⟨ha, hp⟩, by simp [hq]⟩

theorem filter_eq_singleton [DecidableEq β] {f : α → β} {a : α} (h : (as.map f).Nodup)
    (ha : a ∈ as) : as.filter (f · = f a) = [a] := by
  induction as with
  | nil => cases ha
  | cons x as ih =>
    rw [List.map_cons, List.nodup_cons] at h
    rcases List.mem_cons.mp ha with rfl | ha
    · rw [List.filter_cons_of_pos (by simp), List.filter_eq_nil_iff.mpr]
      intro y hy hya
      exact h.1 (List.mem_map.mpr ⟨y, hy, by simpa using hya⟩)
    · rw [List.filter_cons_of_neg, ih h.2 ha]
      simp only [decide_eq_true_eq]
      intro hx
      exact h.1 (List.mem_map.mpr ⟨a, ha, hx.symm⟩)

theorem filter_mem_take [DecidableEq β] {f : α → β} (h : (as.map f).Nodup) (k : Nat) :
    as.filter (f · ∈ (as.take k).map f) = as.take k := by
  have hfirst : (as.take k).filter (f · ∈ (as.take k).map f) = as.take k := by
    rw [List.filter_eq_self]
    intro a ha
    exact decide_eq_true (List.mem_map_of_mem ha)
  have hlater : (as.drop k).filter (f · ∈ (as.take k).map f) = [] := by
    rw [List.filter_eq_nil_iff]
    intro a ha hfa
    rw [← List.take_append_drop k as, List.map_append, List.nodup_append] at h
    exact h.2.2 _ (of_decide_eq_true hfa) _ (List.mem_map_of_mem ha) rfl
  calc as.filter (f · ∈ (as.take k).map f)
      = (as.take k ++ as.drop k).filter (f · ∈ (as.take k).map f) := by rw [List.take_append_drop]
    _ = as.take k := by rw [List.filter_append, hfirst, hlater, List.append_nil]

theorem filter_filterMap_eq {f : α → Option β} {p : β → Bool} {q : α → Bool}
    (h : ∀ a ∈ as, ∀ b, f a = some b → p b = q a) :
    (as.filterMap f).filter p = (as.filter q).filterMap f := by
  rw [List.filter_filterMap, List.filterMap_filter]
  apply List.filterMap_congr
  intro a ha
  cases hb : f a with
  | none => simp
  | some b => simp [h a ha b hb, Option.filter]

theorem filter_fst_map [DecidableEq α] (bs : List β) (x a : α) :
    (bs.map (x, ·)).filter (·.1 = a) = if x = a then bs.map (x, ·) else [] := by
  split
  · next hx => simp [hx]
  · next hx => simp [hx]

theorem filter_fst_flatMap [DecidableEq α] {f : α → List β} {a : α} (h : as.Nodup) (ha : a ∈ as) :
    (as.flatMap fun x => (f x).map (x, ·)).filter (·.1 = a) = (f a).map (a, ·) := by
  simp only [List.filter_flatMap, filter_fst_map]
  induction as with
  | nil => cases ha
  | cons x as ih =>
    rw [List.nodup_cons] at h
    rw [List.flatMap_cons]
    rcases List.mem_cons.mp ha with rfl | ha
    · rw [if_pos rfl, List.flatMap_eq_nil_iff.mpr, List.append_nil]
      intro y hy
      rw [if_neg]
      rintro rfl
      exact h.1 hy
    · rw [if_neg, List.nil_append, ih h.2 ha]
      rintro rfl
      exact h.1 ha

theorem getLast?_filter_range {p : Nat → Bool} {n k : Nat} :
    ((List.range n).filter p).getLast? = some k ↔ k < n ∧ p k ∧ ∀ j < n, p j → j ≤ k := by
  induction n with
  | zero => simp
  | succ n ih =>
    rw [List.range_succ, List.filter_append, List.filter_singleton]
    cases hp : p n with
    | true =>
      rw [cond_true, List.getLast?_concat, Option.some_inj]
      constructor
      · rintro rfl
        exact ⟨Nat.lt_succ_self _, hp, fun j hj _ => Nat.le_of_lt_succ hj⟩
      · rintro ⟨hk, -, hmax⟩
        exact Nat.le_antisymm (hmax n (Nat.lt_succ_self n) hp) (Nat.le_of_lt_succ hk)
    | false =>
      have hne : ∀ j, p j → j < n + 1 → j < n := by
        intro j hj hlt
        rcases Nat.lt_succ_iff_lt_or_eq.mp hlt with hlt | rfl
        · exact hlt
        · simp [hp] at hj
      rw [cond_false, List.append_nil, ih]
      constructor
      · rintro ⟨hk, hpk, hmax⟩
        exact ⟨Nat.lt_succ_of_lt hk, hpk, fun j hj hpj => hmax j (hne j hpj hj) hpj⟩
      · rintro ⟨hk, hpk, hmax⟩
        exact ⟨hne k hpk hk, hpk, fun j hj => hmax j (Nat.lt_succ_of_lt hj)⟩

theorem exists_cons_split {Q : List α → α → List α → Prop} {a : α} :
    (∃ front b back, a :: as = front ++ b :: back ∧ Q front b back) ↔
      Q [] a as ∨ ∃ front b back, as = front ++ b :: back ∧ Q (a :: front) b back := by
  constructor
  · rintro ⟨front, b, back, h, hq⟩
    rcases List.cons_eq_append_iff.mp h with ⟨rfl, hcons⟩ | ⟨front', rfl, htail⟩
    · cases hcons
      exact .inl hq
    · exact .inr ⟨front', b, back, htail, hq⟩
  · rintro (hq | ⟨front, b, back, rfl, hq⟩)
    · exact ⟨[], a, as, rfl, hq⟩
    · exact ⟨a :: front, b, back, rfl, hq⟩

theorem pairwise_idxOf [DecidableEq α] (h : as.Nodup) :
    as.Pairwise fun a b => as.idxOf a < as.idxOf b := by
  rw [List.pairwise_iff_getElem]
  intro i j hi hj hij
  rwa [h.idxOf_getElem i hi, h.idxOf_getElem j hj]

/-- After a series of writes each place shows what was written there last. -/
theorem getElem?_foldl_write {write : List β → α → List β} {mark? : α → Nat → Option β}
    (h : ∀ bs a x, (write bs a)[x]? = bs[x]?.map fun b => (mark? a x).getD b) (as : List α)
    (bs : List β) (x : Nat) : (as.foldl write bs)[x]? =
      bs[x]?.map fun b => (as.reverse.findSome? (mark? · x)).getD b := by
  induction as using List.reverseRecOn with
  | nil => exact Option.map_id'.symm
  | append_singleton as a ih =>
    rw [List.foldl_append, List.foldl_cons, List.foldl_nil, h, ih, Option.map_map,
      List.reverse_append, List.reverse_singleton, List.singleton_append, List.findSome?_cons]
    apply congrArg (Option.map · bs[x]?)
    funext b
    cases mark? a x with
    | none => simp
    | some c => simp

theorem foldl_write_replicate {write : List β → α → List β} {mark? : α → Nat → Option β}
    (h : ∀ bs a x, (write bs a)[x]? = bs[x]?.map fun b => (mark? a x).getD b) (as : List α)
    (n : Nat) (b : β) : as.foldl write (List.replicate n b) =
      (List.range n).map fun x => (as.reverse.findSome? (mark? · x)).getD b := by
  ext1 x
  rw [getElem?_foldl_write h, List.getElem?_replicate, List.getElem?_map]
  by_cases hx : x < n
  · rw [if_pos hx, List.getElem?_range hx, Option.map_some, Option.map_some]
  · rw [if_neg hx, List.getElem?_eq_none (by simpa using hx),
      Option.map_none, Option.map_none]

theorem eraseDups_concat [DecidableEq α] (as : List α) (a : α) :
    (as ++ [a]).eraseDups = if a ∈ as then as.eraseDups else as.eraseDups ++ [a] := by
  rw [List.eraseDups_append]
  by_cases ha : a ∈ as
  · simp [List.removeAll, ha]
  · simp [List.removeAll, ha, List.eraseDups_cons]

theorem nodup_eraseDups [DecidableEq α] (as : List α) : as.eraseDups.Nodup := by
  induction as using List.reverseRecOn with
  | nil => exact List.nodup_nil
  | append_singleton as a ih =>
    rw [eraseDups_concat]
    split
    · exact ih
    · next ha =>
      have hne : ∀ b ∈ as.eraseDups, b ≠ a := by
        rintro b hb rfl
        exact ha (List.mem_eraseDups.mp hb)
      simpa [List.nodup_append, ih] using hne

theorem eraseDups_map [DecidableEq α] [DecidableEq β] {f : α → β}
    (hf : ∀ a ∈ as, ∀ b ∈ as, f a = f b → a = b) : (as.map f).eraseDups = as.eraseDups.map f := by
  induction as using List.reverseRecOn with
  | nil => rfl
  | append_singleton as a ih =>
    have hmem : f a ∈ as.map f ↔ a ∈ as := by
      rw [List.mem_map]
      constructor
      · rintro ⟨b, hb, hba⟩
        exact hf b (List.mem_append_left _ hb) a List.mem_concat_self hba ▸ hb
      · intro ha
        exact ⟨a, ha, rfl⟩
    have hnext := ih fun b hb c hc =>
      hf b (List.mem_append_left _ hb) c (List.mem_append_left _ hc)
    rw [List.map_append, List.map_singleton, eraseDups_concat, eraseDups_concat, hnext]
    by_cases ha : a ∈ as
    · rw [if_pos (hmem.mpr ha), if_pos ha]
    · rw [if_neg (mt hmem.mp ha), if_neg ha, List.map_append, List.map_singleton]

theorem filter_eraseDups [DecidableEq α] (p : α → Bool) (as : List α) :
    as.eraseDups.filter p = (as.filter p).eraseDups := by
  induction as using List.reverseRecOn with
  | nil => rfl
  | append_singleton as a ih =>
    rw [eraseDups_concat, List.filter_append]
    cases hp : p a with
    | false =>
      rw [List.filter_singleton, hp, cond_false, List.append_nil, ← ih]
      split
      · rfl
      · rw [List.filter_append, List.filter_singleton, hp, cond_false, List.append_nil]
    | true =>
      rw [List.filter_singleton, hp, cond_true, eraseDups_concat, ← ih]
      by_cases ha : a ∈ as
      · rw [if_pos ha, if_pos (List.mem_filter.mpr ⟨ha, hp⟩)]
      · rw [if_neg ha, if_neg fun h => ha (List.mem_of_mem_filter h), List.filter_append,
          List.filter_singleton, hp, cond_true]

theorem max?_congr {xs ys : List Nat} (h : ∀ x, x ∈ xs ↔ x ∈ ys) : xs.max? = ys.max? := by
  cases hx : xs.max? with
  | none =>
    rw [List.max?_eq_none_iff] at hx
    have hnil : ys = [] := List.eq_nil_iff_forall_not_mem.mpr fun y hy => by
      simpa [hx] using (h y).mpr hy
    rw [hnil, List.max?_nil]
  | some a =>
    rw [List.max?_eq_some_iff] at hx
    rw [eq_comm, List.max?_eq_some_iff]
    exact ⟨(h a).mp hx.1, fun b hb => hx.2 b ((h b).mpr hb)⟩

/-- If numbers go up where they come first, a number comes before each place of a greater one. -/
theorem exists_before_of_lt {ks : List Nat} (h : ks.eraseDups.Pairwise (· < ·)) {i a b : Nat}
    (hb : ks[i]? = some b) (ha : a ∈ ks) (hab : a < b) : ∃ j < i, ks[j]? = some a := by
  obtain ⟨hi, rfl⟩ := List.getElem?_eq_some_iff.mp hb
  by_cases hfront : a ∈ ks.take (i + 1)
  · obtain ⟨j, hj, rfl⟩ := List.mem_take_iff_getElem.mp hfront
    have hne : j ≠ i := fun heq => by simp [heq] at hab
    exact ⟨j, by omega, List.getElem?_eq_getElem _⟩
  · -- Then it comes for the first time after the greater one.
    have hback : a ∈ (ks.drop (i + 1)).removeAll (ks.take (i + 1)) := by
      rw [← List.take_append_drop (i + 1) ks, List.mem_append] at ha
      simpa [List.removeAll, hfront] using ha
    have hfirst : ks[i] ∈ ks.take (i + 1) := by
      rw [List.mem_take_iff_getElem]
      exact ⟨i, by omega, rfl⟩
    rw [← List.take_append_drop (i + 1) ks, List.eraseDups_append] at h
    have hba := (List.pairwise_append.mp h).2.2 _ (List.mem_eraseDups.mpr hfirst) _
      (List.mem_eraseDups.mpr hback)
    exact absurd hab (Nat.lt_asymm hba)

end CommitGraph
