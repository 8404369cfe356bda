import Mathlib.Data.List.Forall2

/-!
Computations that give a result or an error, taken apart: a chain of them succeeds exactly if its
first part does and the rest succeeds on what that part found.
-/

set_option autoImplicit false

namespace ResourceQuery

variable {ε α β : Type}

@[simp]
theorem ok_bind (a : α) (next : α → Except ε β) : (Except.ok a >>= next) = next a :=
  rfl

@[simp]
theorem error_bind (e : ε) (next : α → Except ε β) :
    ((Except.error e : Except ε α) >>= next) = .error e :=
  rfl

@[simp]
theorem pure_eq_ok (a : α) : (pure a : Except ε α) = .ok a :=
  rfl

theorem bind_eq_ok_iff {x : Except ε α} {next : α → Except ε β} {b : β} :
    (x >>= next) = .ok b ↔ ∃ a, x = .ok a ∧ next a = .ok b := by
  cases x <;> simp

theorem bind_ok_eq_error_iff {x : Except ε α} {f : α → β} {e : ε} :
    (x >>= fun a ↦ .ok (f a)) = .error e ↔ x = .error e := by
  cases x <;> simp

/-- Each member of a list has a partner in a list that is related to it. -/
theorem exists_mem_of_forall₂ {R : α → β → Prop} {as : List α} {bs : List β}
    (h : List.Forall₂ R as bs) {a : α} (ha : a ∈ as) : ∃ b ∈ bs, R a b := by
  induction h with
  | nil => cases ha
  | @cons _ b _ bs hab _ ih =>
    obtain rfl | ha := List.mem_cons.1 ha
    · exact ⟨b, List.mem_cons_self, hab⟩
    · obtain ⟨c, hc, hac⟩ := ih ha
      exact ⟨c, List.mem_cons_of_mem b hc, hac⟩

/-- A list of partners exists if each member has one. -/
theorem exists_forall₂_iff {R : α → β → Prop} {as : List α} :
    (∃ bs, List.Forall₂ R as bs) ↔ ∀ a ∈ as, ∃ b, R a b := by
  induction as with
  | nil => simp
  | cons a as ih =>
    rw [List.forall_mem_cons, ← ih]
    simp only [List.forall₂_cons_left_iff]
    constructor
    · rintro ⟨_, b, bs, hb, hbs, rfl⟩
      exact ⟨⟨b, hb⟩, bs, hbs⟩
    · rintro ⟨⟨b, hb⟩, bs, hbs⟩
      exact ⟨_, b, bs, hb, hbs, rfl⟩

/-- What holds of any two members of a list holds of their partners, if it goes over to them. -/
theorem pairwise_of_forall₂ {R : α → β → Prop} {S : β → β → Prop} {T : α → α → Prop}
    (hT : ∀ {a a' b b'}, R a b → R a' b' → S b b' → T a a') {as : List α} {bs : List β}
    (h : List.Forall₂ R as bs) (hpairwise : bs.Pairwise S) : as.Pairwise T := by
  induction h with
  | nil => exact .nil
  | cons hab hrest ih =>
    rw [List.pairwise_cons] at hpairwise
    refine List.pairwise_cons.2 ⟨fun a' ha' ↦ ?_, ih hpairwise.2⟩
    obtain ⟨b', hb', hab'⟩ := exists_mem_of_forall₂ hrest ha'
    exact hT hab hab' (hpairwise.1 b' hb')

/-- A list is worked through exactly if each of its elements is. -/
theorem mapM_eq_ok_iff {f : α → Except ε β} {as : List α} {bs : List β} :
    as.mapM f = .ok bs ↔ List.Forall₂ (fun a b ↦ f a = .ok b) as bs := by
  induction as generalizing bs with
  | nil => simp [eq_comm]
  | cons a as ih =>
    simp only [List.mapM_cons, bind_eq_ok_iff, pure_eq_ok, Except.ok.injEq, ih,
      List.forall₂_cons_left_iff]
    constructor
    · rintro ⟨b, hb, bs, hbs, rfl⟩
      exact ⟨b, bs, hb, hbs, rfl⟩
    · rintro ⟨b, bs, hb, hbs, rfl⟩
      exact ⟨b, hb, bs, hbs, rfl⟩

theorem exists_mapM_eq_ok_iff {f : α → Except ε β} {as : List α} :
    (∃ bs, as.mapM f = .ok bs) ↔ ∀ a ∈ as, ∃ b, f a = .ok b := by
  simp only [mapM_eq_ok_iff, exists_forall₂_iff]

theorem toOption_bind (x : Except ε α) (next : α → Except ε β) :
    (x >>= next).toOption = x.toOption.bind fun a ↦ (next a).toOption := by
  cases x <;> rfl

theorem toOption_bind_pure (x : Except ε α) (f : α → β) :
    (x >>= fun a ↦ pure (f a)).toOption = x.toOption.map f := by
  cases x <;> rfl

theorem toOption_eq_some_iff {x : Except ε α} {a : α} : x.toOption = some a ↔ x = .ok a := by
  cases x <;> simp [Except.toOption]

/-- If a computation fails, then with an error that has a property. -/
def FailsOnly (p : ε → Prop) (x : Except ε α) : Prop :=
  ∀ e, x = .error e → p e

section FailsOnly

variable {p q : ε → Prop}

@[simp]
theorem failsOnly_ok (a : α) : FailsOnly p (.ok a) := by
  simp [FailsOnly]

@[simp]
theorem failsOnly_pure (a : α) : FailsOnly p (pure a : Except ε α) :=
  failsOnly_ok a

@[simp]
theorem failsOnly_error_iff {e : ε} : FailsOnly p (.error e : Except ε α) ↔ p e := by
  simp [FailsOnly]

theorem FailsOnly.mono {x : Except ε α} (h : FailsOnly p x) (hpq : ∀ e, p e → q e) :
    FailsOnly q x :=
  fun e he ↦ hpq e (h e he)

/-- What a chain fails with, its first part fails with, or the rest on what that part found. -/
theorem FailsOnly.bind_of_ok {x : Except ε α} {next : α → Except ε β} (h : FailsOnly p x)
    (hnext : ∀ a, x = .ok a → FailsOnly p (next a)) : FailsOnly p (x >>= next) := by
  cases x with
  | ok a => exact hnext a rfl
  | error e => exact failsOnly_error_iff.2 (h e rfl)

theorem FailsOnly.bind {x : Except ε α} {next : α → Except ε β} (h : FailsOnly p x)
    (hnext : ∀ a, FailsOnly p (next a)) : FailsOnly p (x >>= next) :=
  h.bind_of_ok fun a _ ↦ hnext a

theorem FailsOnly.map {x : Except ε α} (h : FailsOnly p x) (f : α → β) :
    FailsOnly p (x >>= fun a ↦ pure (f a)) :=
  h.bind fun a ↦ failsOnly_pure (f a)

theorem failsOnly_mapM {f : α → Except ε β} (h : ∀ a, FailsOnly p (f a)) (as : List α) :
    FailsOnly p (as.mapM f) := by
  induction as with
  | nil => exact failsOnly_pure []
  | cons a as ih =>
    rw [List.mapM_cons]
    exact (h a).bind fun b ↦ ih.map (b :: ·)

theorem failsOnly_foldlM {f : β → α → Except ε β} (h : ∀ b a, FailsOnly p (f b a)) (start : β)
    (as : List α) : FailsOnly p (as.foldlM f start) := by
  induction as generalizing start with
  | nil => exact failsOnly_pure start
  | cons a as ih =>
    rw [List.foldlM_cons]
    exact (h start a).bind ih

end FailsOnly

end ResourceQuery
