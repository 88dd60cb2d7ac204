import Mathlib.Init

/-!
# Computations that may fail

Inversion of sequenced `Except` computations: a run that succeeds has
succeeded at every step.
-/

namespace Result

variable {ε α β : Type} {x : Except ε α} {b a : α} {e : ε}

theorem bind_ok {f : α → Except ε β} {b : β} :
    (x >>= f) = .ok b ↔ ∃ a, x = .ok a ∧ f a = .ok b := by
  cases x with
  | error e =>
    constructor
    · intro h; simp [bind, Except.bind] at h
    · rintro ⟨a, h, _⟩; simp at h
  | ok a =>
    constructor
    · intro h; exact ⟨a, rfl, h⟩
    · rintro ⟨a', h, hf⟩
      injection h with h
      subst h
      exact hf

theorem pure_ok : (pure a : Except ε α) = .ok b ↔ a = b := by
  constructor
  · intro h; injection h
  · rintro rfl; rfl

theorem pure_pair {c d : β} : (pure (a, c) : Except ε (α × β)) = .ok (b, d) ↔ a = b ∧ c = d := by
  rw [pure_ok, Prod.mk.injEq]

/-- A sequence that returns the second of two results. -/
theorem bind_snd_ok {x : Except ε (α × β)} {b : β} (h : (x >>= fun p => pure p.2) = .ok b) :
    ∃ a, x = .ok (a, b) := by
  obtain ⟨⟨a, _⟩, hx, h⟩ := bind_ok.mp h
  obtain rfl := pure_ok.mp h
  exact ⟨a, hx⟩

theorem ok_ok : (Except.ok a : Except ε α) = .ok b ↔ a = b := by
  constructor
  · intro h; injection h
  · rintro rfl; rfl

theorem throw_ok : ¬ (throw e : Except ε α) = .ok b := by
  intro h
  simp [throw, throwThe, MonadExceptOf.throw] at h

/-- The call returns a value that passes the test. -/
def okWith (p : α → Bool) : Except ε α → Bool
  | .ok a => p a
  | .error _ => false

theorem okWith_iff {p : α → Bool} : okWith p x = true ↔ ∃ a, x = .ok a ∧ p a = true := by
  cases x <;> simp [okWith]

/-- The call fails in this way. -/
def failsWith [DecidableEq ε] (e : ε) : Except ε α → Bool
  | .ok _ => false
  | .error e' => decide (e' = e)

theorem failsWith_iff [DecidableEq ε] : failsWith e x = true ↔ x = .error e := by
  cases x <;> simp [failsWith]

theorem toOption_some : x.toOption = some a ↔ x = .ok a := by
  cases x <;> simp [Except.toOption]

end Result
