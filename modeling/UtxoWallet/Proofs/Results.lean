import UtxoWallet.Fees

/-! # Computations that may fail

What is known when a computation in `Except` gives a result, or fails. With these a chain of checked steps is
taken apart from the front, and the steps themselves stay folded.
-/

namespace UtxoWallet

variable {ε ε' α β γ : Type}

/-- A computation in two steps succeeds if both steps do. -/
theorem bind_eq_ok {x : Except ε α} {f : α → Except ε β} {b : β} :
    x >>= f = .ok b ↔ ∃ a, x = .ok a ∧ f a = .ok b := by
  cases x with
  | error e =>
      constructor
      · intro h
        cases h
      · rintro ⟨a, h, -⟩
        cases h
  | ok a =>
      constructor
      · intro h
        exact ⟨a, rfl, h⟩
      · rintro ⟨_, h, hf⟩
        cases h
        exact hf

/-- A chain of computations fails where one of them does. -/
theorem bind_eq_error {x : Except ε α} {f : α → Except ε β} {e : ε} :
    x >>= f = .error e ↔ x = .error e ∨ ∃ a, x = .ok a ∧ f a = .error e := by
  cases x with
  | error e' =>
      constructor
      · intro h
        exact .inl (congrArg Except.error (Except.error.inj h))
      · rintro (h | ⟨a, h, -⟩)
        · exact congrArg Except.error (Except.error.inj h)
        · cases h
  | ok a =>
      constructor
      · intro h
        exact .inr ⟨a, rfl, h⟩
      · rintro (h | ⟨_, h, hf⟩)
        · cases h
        · cases h
          exact hf

/-- When a chain of computations gives a result. -/
theorem exists_bind_iff {x : Except ε α} {f : α → Except ε β} :
    (∃ b, x >>= f = .ok b) ↔ ∃ a, x = .ok a ∧ ∃ b, f a = .ok b := by
  simp only [bind_eq_ok]
  constructor
  · rintro ⟨b, a, hx, hf⟩
    exact ⟨a, hx, b, hf⟩
  · rintro ⟨a, hx, b, hf⟩
    exact ⟨b, a, hx, hf⟩

theorem pure_eq_ok {a b : α} : (pure a : Except ε α) = .ok b ↔ a = b := by
  constructor
  · intro h
    cases h
    rfl
  · rintro rfl
    rfl

theorem mapError_eq_ok {x : Except ε α} {f : ε → ε'} {a : α} :
    x.mapError f = .ok a ↔ x = .ok a := by
  cases x with
  | error e =>
      constructor <;> intro h <;> cases h
  | ok b =>
      constructor
      · intro h
        cases h
        rfl
      · intro h
        cases h
        rfl

theorem mapError_eq_error {x : Except ε α} {f : ε → ε'} {e' : ε'} :
    x.mapError f = .error e' ↔ ∃ e, x = .error e ∧ f e = e' := by
  cases x with
  | error e =>
      constructor
      · intro h
        exact ⟨e, rfl, Except.error.inj h⟩
      · rintro ⟨_, h, hf⟩
        cases h
        exact congrArg Except.error hf
  | ok a =>
      constructor
      · intro h
        cases h
      · rintro ⟨e, h, -⟩
        cases h

theorem map_eq_error {x : Except ε α} {f : α → β} {e : ε} :
    x.map f = .error e ↔ x = .error e := by
  cases x with
  | error e' =>
      constructor <;>
      · intro h
        exact congrArg Except.error (Except.error.inj h)
  | ok a => constructor <;> intro h <;> cases h

/-- A checked calculation succeeds if the number it gives is in range. -/
theorem checked_eq_ok {calculation : Calculation} {x : Option α} {a : α} :
    checked calculation x = .ok a ↔ x = some a := by
  cases x <;> simp [checked]

theorem foldlM_cons_eq_ok {f : β → α → Except ε β} {a : α} {l : List α} {b c : β} :
    (a :: l).foldlM f b = .ok c ↔ ∃ next, f b a = .ok next ∧ l.foldlM f next = .ok c := by
  rw [List.foldlM_cons, bind_eq_ok]

/-- If each step gives a result and acts on what is seen of the state, so does a whole run. -/
theorem foldlM_eq_ok_of_step {f : β → α → Except ε β} {act : γ → α → γ} (Inv : β → Prop)
    (view : β → γ)
    (hstep : ∀ b, Inv b → ∀ a, ∃ next, f b a = .ok next ∧ view next = act (view b) a ∧ Inv next)
    {b : β} (hb : Inv b) (l : List α) :
    ∃ final, l.foldlM f b = .ok final ∧ view final = l.foldl act (view b) := by
  induction l generalizing b with
  | nil => exact ⟨b, rfl, rfl⟩
  | cons a l ih =>
      obtain ⟨next, hnext, hview, hinv⟩ := hstep b hb a
      obtain ⟨final, hfinal, hend⟩ := ih hinv
      refine ⟨final, foldlM_cons_eq_ok.mpr ⟨next, hnext, hfinal⟩, ?_⟩
      rw [hend, hview, List.foldl_cons]

theorem mapM_cons_eq_ok {f : α → Except ε β} {a : α} {l : List α} {bs : List β} :
    (a :: l).mapM f = .ok bs ↔
      ∃ b rest, f a = .ok b ∧ l.mapM f = .ok rest ∧ bs = b :: rest := by
  rw [List.mapM_cons, bind_eq_ok]
  constructor
  · rintro ⟨b, hb, h⟩
    obtain ⟨rest, hrest, h⟩ := bind_eq_ok.mp h
    exact ⟨b, rest, hb, hrest, (pure_eq_ok.mp h).symm⟩
  · rintro ⟨b, rest, hb, hrest, rfl⟩
    exact ⟨b, hb, bind_eq_ok.mpr ⟨rest, hrest, rfl⟩⟩

/-- Each result of a list of computations comes from one of them. -/
theorem exists_of_mem_mapM {f : α → Except ε β} {l : List α} {bs : List β}
    (h : l.mapM f = .ok bs) : ∀ b ∈ bs, ∃ a ∈ l, f a = .ok b := by
  induction l generalizing bs with
  | nil =>
      cases h
      exact nofun
  | cons a l ih =>
      obtain ⟨b, rest, hb, hrest, rfl⟩ := mapM_cons_eq_ok.mp h
      rw [List.forall_mem_cons]
      refine ⟨⟨a, List.mem_cons_self, hb⟩, fun other hmem => ?_⟩
      obtain ⟨source, hsource, hother⟩ := ih hrest other hmem
      exact ⟨source, List.mem_cons_of_mem a hsource, hother⟩

end UtxoWallet
