import F9.Lib.Result

/-!
# Computations with a log

A computation that may fail and that writes a log. What was written before a failure stays. Without
the log it is the computation in `Except`: `result` commutes with sequencing, so a logged copy of a
program is compared with the program step by step.
-/

/-- A log and a result. -/
structure Traced (ω ε α : Type) where
  log : List ω
  result : Except ε α

namespace Traced

variable {ω ε α β : Type} {w : ω}

/-- The second computation runs if the first one has a result. -/
def andThen (x : Traced ω ε α) (f : α → Traced ω ε β) : Traced ω ε β :=
  match x.result with
  | .ok a => ⟨x.log ++ (f a).log, (f a).result⟩
  | .error e => ⟨x.log, .error e⟩

instance : Monad (Traced ω ε) where
  pure a := ⟨[], .ok a⟩
  bind := andThen

/-- A computation that writes nothing. -/
def lift (x : Except ε α) : Traced ω ε α := ⟨[], x⟩

/-- Write to the log. -/
def tell (ws : List ω) : Traced ω ε Unit := ⟨ws, .ok ()⟩

/-! ## Results -/

@[simp] theorem result_lift (x : Except ε α) : (lift x : Traced ω ε α).result = x := rfl

variable {x : Traced ω ε α} {f : α → Traced ω ε β}

/-- A logged sequence against a sequence, half by half. -/
theorem result_bind {y : Except ε α} {g : α → Except ε β} (hx : x.result = y)
    (hf : ∀ a, (f a).result = g a) : (x >>= f).result = y >>= g := by
  rw [← hx, ← funext hf]
  show (andThen x f).result = _
  unfold andThen
  cases x.result <;> rfl

/-! ## Logs -/

@[simp] theorem log_pure (a : α) : (pure a : Traced ω ε α).log = [] := rfl

@[simp] theorem log_lift (x : Except ε α) : (lift x : Traced ω ε α).log = [] := rfl

@[simp] theorem log_tell (ws : List ω) (f : Unit → Traced ω ε β) :
    (tell ws >>= f).log = ws ++ (f ()).log := rfl

variable {a : α}

theorem log_bind_ok (h : x.result = .ok a) : (x >>= f).log = x.log ++ (f a).log := by
  show (andThen x f).log = _
  unfold andThen
  rw [h]

theorem log_lift_ok {x : Except ε α} (h : x = .ok a) : (lift x >>= f).log = (f a).log := by
  rw [log_bind_ok (a := a) h]
  rfl

/-- What a sequence writes is written by one of its halves. -/
theorem mem_log_bind : w ∈ (x >>= f).log ↔ w ∈ x.log ∨ ∃ a, x.result = .ok a ∧ w ∈ (f a).log := by
  show w ∈ (andThen x f).log ↔ _
  unfold andThen
  cases hx : x.result <;> simp

theorem mem_log_lift {x : Except ε α} :
    w ∈ (lift x >>= f).log ↔ ∃ a, x = .ok a ∧ w ∈ (f a).log := by
  rw [mem_log_bind]
  simp

/-! ## Whole logs -/

/-- The log is a beginning of `l`, and all of it if the computation succeeds. -/
def Logs (x : Traced ω ε α) (l : List ω) : Prop :=
  x.log <+: l ∧ ∀ a, x.result = .ok a → x.log = l

theorem Logs.pure (a : α) : (Pure.pure a : Traced ω ε α).Logs [] :=
  ⟨List.prefix_refl _, fun _ _ => rfl⟩

theorem Logs.lift (x : Except ε α) : (Traced.lift x : Traced ω ε α).Logs [] :=
  ⟨List.prefix_refl _, fun _ _ => rfl⟩

variable {l : List ω}

theorem Logs.tell {f : Unit → Traced ω ε β} (ws : List ω) (h : (f ()).Logs l) :
    (Traced.tell ws >>= f).Logs (ws ++ l) := by
  refine ⟨?_, fun a ha => ?_⟩
  · exact (List.prefix_append_right_inj ws).mpr h.1
  · rw [log_tell, h.2 a ha]

theorem Logs.bind (hx : x.Logs l) (hf : ∀ a, x.result = .ok a → (f a).Logs []) :
    (x >>= f).Logs l := by
  show (andThen x f).Logs l
  unfold andThen
  cases h : x.result with
  | error e => exact ⟨hx.1, fun a ha => absurd ha (by simp)⟩
  | ok a =>
    have hnil : (f a).log = [] := List.prefix_nil.mp (hf a h).1
    have hlog : x.log ++ (f a).log = l := by rw [hnil, List.append_nil, hx.2 a h]
    refine ⟨?_, fun _ _ => hlog⟩
    exact ⟨[], (List.append_nil _).trans hlog⟩

theorem Logs.lift_bind {x : Except ε α} (hf : ∀ a, x = .ok a → (f a).Logs l) :
    (Traced.lift x >>= f).Logs l := by
  cases x with
  | error e =>
    exact ⟨List.nil_prefix, fun a ha => absurd ha (by simp [Bind.bind, andThen, Traced.lift])⟩
  | ok a => exact hf a rfl

end Traced
