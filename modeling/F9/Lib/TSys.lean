import Mathlib.Init

/-!
# Transition systems

A system is its initial states and a step relation labelled with actions.
`Reachable M P` are the states of the runs in which every step satisfies the
side condition `P` on the state before it; with the trivial condition these
are all reachable states. The invariant rule is proved once here.
-/

/-- Initial states and labelled steps. -/
structure TSys (σ α : Type) where
  init : σ → Prop
  step : σ → α → σ → Prop

namespace TSys

variable {σ α : Type}

/-- States reached by runs all of whose steps satisfy `P`. -/
inductive Reachable (M : TSys σ α) (P : σ → α → Prop) : σ → Prop
  | init {s} : M.init s → Reachable M P s
  | step {s a s'} : Reachable M P s → P s a → M.step s a s' → Reachable M P s'

variable {M : TSys σ α} {P Q : σ → α → Prop}

/-- The invariant rule: what holds initially and survives every step that
satisfies the side condition holds in every state reached. -/
theorem Reachable.invariant {I : σ → Prop} (h0 : ∀ s, M.init s → I s)
    (hs : ∀ s a s', I s → P s a → M.step s a s' → I s') {s : σ} (h : M.Reachable P s) : I s := by
  induction h with
  | init hi => exact h0 _ hi
  | step _ hp hstep ih => exact hs _ _ _ ih hp hstep

theorem Reachable.mono (hPQ : ∀ s a, P s a → Q s a) {s : σ} (h : M.Reachable P s) :
    M.Reachable Q s := by
  induction h with
  | init hi => exact .init hi
  | step _ hp hstep ih => exact .step ih (hPQ _ _ hp) hstep

/-! ## Steps to anywhere -/

/-- The system in which a step that meets `W` may lead to any state. -/
def wild (M : TSys σ α) (W : σ → α → Prop) : TSys σ α where
  init := M.init
  step s a s' := M.step s a s' ∨ W s a

variable {W : σ → α → Prop}

theorem Reachable.tame (hPW : ∀ s a, P s a → ¬ W s a) {s : σ} (h : (M.wild W).Reachable P s) :
    M.Reachable P s := by
  induction h with
  | init hi => exact .init hi
  | step _ hp hstep ih => exact .step ih hp (hstep.resolve_right (hPW _ _ hp))

theorem Reachable.wild {s : σ} (h : M.Reachable P s) : (M.wild W).Reachable P s := by
  induction h with
  | init hi => exact .init hi
  | step _ hp hstep ih => exact .step ih hp (.inl hstep)

/-! ## Execution -/

/-- Carry out actions that pass the test, one after the other. -/
def runAll (exec : σ → α → Option σ) (ok : σ → α → Bool) : σ → List α → Option σ
  | s, [] => some s
  | s, a :: as => if ok s a then (exec s a).bind fun s => runAll exec ok s as else none

section

variable {exec : σ → α → Option σ} {ok : σ → α → Bool} {s s' : σ}
  (hexec : ∀ s a s', exec s a = some s' → M.step s a s')

include hexec

/-- A list of actions that pass a test is a run, if the test decides the side condition in the
states with an invariant. -/
theorem Reachable.runAll_inv {I : σ → Prop} (hok : ∀ s a, I s → ok s a = true → P s a)
    (hI : ∀ s a s', I s → ok s a = true → M.step s a s' → I s') (as : List α)
    (hs : M.Reachable P s) (hi : I s) (h : TSys.runAll exec ok s as = some s') :
    M.Reachable P s' ∧ I s' := by
  induction as generalizing s s' with
  | nil =>
    injection h with h
    rw [← h]
    exact ⟨hs, hi⟩
  | cons a as ih =>
    unfold TSys.runAll at h
    split at h
    · rename_i hpass
      obtain ⟨s1, h1, h⟩ := Option.bind_eq_some_iff.mp h
      have hstep := hexec s a s1 h1
      exact ih (.step hs (hok s a hi hpass) hstep) (hI s a s1 hi hpass hstep) h
    · simp at h

theorem Reachable.runAll (hok : ∀ s a, ok s a = true → P s a) (as : List α)
    (hs : M.Reachable P s) (h : TSys.runAll exec ok s as = some s') : M.Reachable P s' :=
  (hs.runAll_inv (I := fun _ => True) hexec (fun s a _ => hok s a) (fun _ _ _ _ _ _ => trivial) as
    trivial h).1

end

end TSys
