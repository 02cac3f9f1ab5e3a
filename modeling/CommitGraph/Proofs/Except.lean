import CommitGraph.Proofs.Lists

namespace CommitGraph

variable {ε α β : Type}

theorem bind_eq_ok {x : Except ε α} {f : α → Except ε β} {b : β} :
    (x >>= f) = .ok b ↔ ∃ a, x = .ok a ∧ f a = .ok b := by
  cases x with
  | error e => simp [bind, Except.bind]
  | ok a => simp [bind, Except.bind]

theorem map_bind_comm {α' β' : Type} {x : Except ε α} {f : α → Except ε β} {u : α → α'}
    {v : β → β'} (f' : α' → Except ε β') (h : ∀ a, (f a).map v = f' (u a)) :
    (x >>= f).map v = x.map u >>= f' := by
  cases x with
  | error e => rfl
  | ok a => exact h a

theorem mapM_eq_ok {f : α → Except ε β} {as : List α} {bs : List β} :
    as.mapM f = .ok bs ↔ List.Forall₂ (fun a b => f a = .ok b) as bs := by
  induction as generalizing bs with
  | nil => simp [pure, Except.pure, eq_comm]
  | cons a as ih =>
    rw [List.mapM_cons, bind_eq_ok, List.forall₂_cons_left_iff]
    constructor
    · rintro ⟨b, hb, h⟩
      obtain ⟨cs, hcs, h⟩ := bind_eq_ok.mp h
      cases h
      exact ⟨b, cs, hb, ih.mp hcs, rfl⟩
    · rintro ⟨b, cs, hb, hcs, rfl⟩
      exact ⟨b, hb, bind_eq_ok.mpr ⟨cs, ih.mpr hcs, rfl⟩⟩

theorem exists_mapM_eq_ok {f : α → Except ε β} {as : List α} :
    (∃ bs, as.mapM f = .ok bs) ↔ ∀ a ∈ as, ∃ b, f a = .ok b := by
  simp only [mapM_eq_ok]
  constructor
  · rintro ⟨bs, h⟩ a ha
    obtain ⟨b, -, hb⟩ := exists_mem_right h ha
    exact ⟨b, hb⟩
  · exact exists_forall₂

theorem mapM_eq_error {f : α → Except ε β} {as : List α} {x : ε} :
    as.mapM f = .error x ↔ ∃ (i : Nat) (a : α), as[i]? = some a ∧ f a = .error x ∧
      ∀ j < i, ∀ b, as[j]? = some b → ∃ c, f b = .ok c := by
  induction as with
  | nil => simp [pure, Except.pure]
  | cons a as ih =>
    rw [List.mapM_cons]
    -- The list fails at its head, or its head succeeds and it fails as its tail does.
    cases hfa : f a with
    | error y =>
      constructor
      · intro h
        cases h
        exact ⟨0, a, rfl, hfa, by simp⟩
      · rintro ⟨i, b, hb, hx, hbefore⟩
        cases i with
        | zero =>
          cases hb
          cases hfa.symm.trans hx
          rfl
        | succ i =>
          obtain ⟨c, hc⟩ := hbefore 0 (Nat.succ_pos i) a rfl
          simp [hfa] at hc
    | ok c =>
      have hcons : (do let bs ← as.mapM f; pure (c :: bs) : Except ε (List β)) = .error x ↔
          as.mapM f = .error x := by
        cases as.mapM f <;> simp [bind, Except.bind, pure, Except.pure]
      refine (hcons.trans ih).trans ?_
      constructor
      · rintro ⟨i, b, hb, hx, hbefore⟩
        refine ⟨i + 1, b, hb, hx, fun j hj b' hb' => ?_⟩
        cases j with
        | zero =>
          cases hb'
          exact ⟨c, hfa⟩
        | succ j => exact hbefore j (Nat.lt_of_succ_lt_succ hj) b' hb'
      · rintro ⟨i, b, hb, hx, hbefore⟩
        cases i with
        | zero =>
          cases hb
          simp [hfa] at hx
        | succ i => exact ⟨i, b, hb, hx, fun j hj => hbefore (j + 1) (Nat.succ_lt_succ hj)⟩

theorem mapM_eq_some {f : α → Option β} {as : List α} {bs : List β} :
    as.mapM f = some bs ↔ List.Forall₂ (fun a b => f a = some b) as bs := by
  induction as generalizing bs with
  | nil => simp [eq_comm]
  | cons a as ih =>
    rw [List.mapM_cons, List.forall₂_cons_left_iff]
    constructor
    · intro h
      obtain ⟨b, hb, h⟩ := Option.bind_eq_some_iff.mp h
      obtain ⟨cs, hcs, h⟩ := Option.bind_eq_some_iff.mp h
      cases h
      exact ⟨b, cs, hb, ih.mp hcs, rfl⟩
    · rintro ⟨b, cs, hb, hcs, rfl⟩
      rw [hb, ih.mpr hcs]
      rfl

theorem exists_mapM {f : α → Option β} {as : List α} (h : ∀ a ∈ as, ∃ b, f a = some b) :
    ∃ bs, as.mapM f = some bs := by
  obtain ⟨bs, hbs⟩ := exists_forall₂ h
  exact ⟨bs, mapM_eq_some.mpr hbs⟩

theorem forM_eq_ok {f : α → Except ε Unit} {as : List α} :
    as.forM f = .ok () ↔ ∀ a ∈ as, f a = .ok () := by
  induction as with
  | nil => simp [pure, Except.pure]
  | cons a as ih =>
    change (f a >>= fun _ => as.forM f) = .ok () ↔ _
    rw [bind_eq_ok, List.forall_mem_cons, ih]
    constructor
    · rintro ⟨⟨⟩, ha, h⟩
      exact ⟨ha, h⟩
    · rintro ⟨ha, h⟩
      exact ⟨(), ha, h⟩

end CommitGraph
