import Mathlib.Logic.Function.Iterate
import F9.Kernel.Softirq

/-!
# Requests for softirqs

A request that arrives while the handler of its type runs sets a flag that is already set.
`softirq_execute` clears it when the handler returns, and the request is lost.
`softirq_not_lost` says that requests at all other times are served: by a run of the handler
that starts after the request and before the kernel thread is suspended.
-/

namespace F9

namespace Softirq

variable {types : List SoftirqType} {s s' : Softirq} {i : SoftirqType}

/-- The type whose handler has been started and whose flag is not yet cleared. -/
def handling : SoftirqPc → Option SoftirqType
  | .running i _ | .clear i _ => some i
  | _ => none

/-- The handler of this type is running, or has returned and the flag is not yet cleared. -/
def InHandler (s : Softirq) (i : SoftirqType) : Prop := handling s.pc = some i

instance (s : Softirq) (i : SoftirqType) : Decidable (InHandler s i) :=
  inferInstanceAs (Decidable (handling s.pc = some i))

/-- A request does not come while the handler of its type runs. -/
def Timely (s : Softirq) : Action → Prop
  | .schedule i => s.handler i = true → ¬ InHandler s i
  | .execute => True

/-- When the kernel thread is suspended, every request has been followed by a run of its
handler. -/
def Served (types : List SoftirqType) (s : Softirq) : Prop :=
  s.kernelState = .inactive → ∀ i ∈ types, s.handler i = true → s.owed i = false

theorem set_self (f : SoftirqType → Bool) (i : SoftirqType) (b : Bool) : set f i b i = b := by
  unfold set
  rw [if_pos rfl]

theorem set_ne (f : SoftirqType → Bool) {i j : SoftirqType} (b : Bool) (h : j ≠ i) :
    set f i b j = f j := by
  unfold set
  rw [if_neg h]

/-! ## The invariant -/

/-- What is owed is flagged, and is not owed while its handler runs. -/
structure Flagged (types : List SoftirqType) (s : Softirq) : Prop where
  flag : ∀ i, s.handler i = true → s.owed i = true → s.schedule i = true
  started : ∀ i, s.handler i = true → InHandler s i → s.owed i = false
  served : Served types s

theorem boot_flagged (registered : List SoftirqType) : Flagged types (boot registered) := by
  have hboot : ∀ (l : List SoftirqType) (s : Softirq), (∀ i, s.owed i = false) →
      ∀ i, (l.foldl softirqRegister s).owed i = false := by
    intro l
    induction l with
    | nil => exact fun s ho => ho
    | cons i l ih => exact fun s ho => ih (s.softirqRegister i) ho
  have howed : ∀ i, (boot registered).owed i = false := hboot registered _ fun _ => rfl
  exact ⟨fun i _ hi => absurd hi (by simp [howed]), fun i _ _ => howed i, fun _ i _ _ => howed i⟩

theorem schedule_flagged (h : Flagged types s) (ht : Timely s (.schedule i)) :
    Flagged types (s.softirqSchedule i) where
  flag j hj howed := by
    by_cases hji : j = i
    · subst hji
      exact set_self _ _ _
    · have howed : set s.owed i true j = true := howed
      rw [set_ne _ _ hji] at howed
      show set s.schedule i true j = true
      rw [set_ne _ _ hji]
      exact h.flag j hj howed
  started j hj hin := by
    have hji : j ≠ i := by
      rintro rfl
      exact ht hj hin
    show set s.owed i true j = false
    rw [set_ne _ _ hji]
    exact h.started j hj hin
  served hst := absurd hst (by simp [softirqSchedule])

/-- The kernel thread moves on without looking at a flag or a request. -/
theorem Flagged.move (h : Flagged types s) (hschedule : s'.schedule = s.schedule)
    (hhandler : s'.handler = s.handler) (howed : s'.owed = s.owed)
    (hstate : s'.kernelState = .inactive → s.kernelState = .inactive)
    (hin : ∀ i, InHandler s' i → InHandler s i) : Flagged types s' where
  flag i hi ho := by
    rw [hhandler] at hi
    rw [howed] at ho
    rw [hschedule]
    exact h.flag i hi ho
  started i hi hrun := by
    rw [hhandler] at hi
    rw [howed]
    exact h.started i hi (hin i hrun)
  served hst i hmem hi := by
    rw [hhandler] at hi
    rw [howed]
    exact h.served (hstate hst) i hmem hi

theorem execute_flagged (h : Flagged types s) : Flagged types (s.execute types) := by
  unfold execute
  split
  · split
    · exact h.move rfl rfl rfl id fun i hrun => absurd hrun (by simp [InHandler, handling])
    · exact h
  · split <;> exact h.move rfl rfl rfl id fun i hrun => absurd hrun (by simp [InHandler, handling])
  · -- the handler starts
    rename_i type todo hpc
    have howed : ∀ i, set s.owed type false i = true → s.owed i = true := by
      intro i ho
      by_cases hi : i = type
      · rw [hi, set_self] at ho
        simp at ho
      · rwa [set_ne _ _ hi] at ho
    refine ⟨fun i hi ho => h.flag i hi (howed i ho), fun i _ hrun => ?_, fun hst i hmem hi => ?_⟩
    · rw [← Option.some.inj hrun]
      exact set_self _ _ _
    · have hold := h.served hst i hmem hi
      by_cases ho : set s.owed type false i = true
      · rw [howed i ho] at hold
        simp at hold
      · simpa using ho
  · rename_i type todo hpc
    refine h.move rfl rfl rfl id fun i hrun => ?_
    show handling s.pc = some i
    rw [hpc]
    exact hrun
  · -- the flag is cleared: no request has come since the handler started
    rename_i type todo hpc
    refine ⟨fun i hi ho => ?_, fun i _ hrun => absurd hrun (by simp [InHandler, handling]),
      h.served⟩
    show set s.schedule type false i = true
    have hne : i ≠ type := by
      rintro rfl
      rw [h.started i hi (by unfold InHandler; rw [hpc]; rfl)] at ho
      simp at ho
    rw [set_ne _ _ hne]
    exact h.flag i hi ho
  · -- the last section
    split
    · exact ⟨h.flag, fun i _ hrun => absurd hrun (by simp [InHandler, handling]),
        fun hst => absurd hst (by simp)⟩
    · rename_i hnone
      refine ⟨h.flag, fun i _ hrun => absurd hrun (by simp [InHandler, handling]),
        fun _ i hmem hi => ?_⟩
      -- an owed request would have been seen
      show s.owed i = false
      by_contra ho
      refine hnone (List.any_eq_true.mpr ⟨i, hmem, h.flag i hi ?_⟩)
      simpa using ho

theorem reachable_flagged (h : (system types).Reachable Timely s) : Flagged types s := by
  refine TSys.Reachable.invariant (I := Flagged types) ?_ ?_ h
  · rintro s ⟨registered, rfl⟩
    exact boot_flagged registered
  · rintro s a s' hs ht rfl
    cases a with
    | schedule i => exact schedule_flagged hs ht
    | execute => exact execute_flagged hs

theorem iterate_flagged (h : Flagged types s) (n : Nat) :
    Flagged types ((execute types)^[n] s) := by
  induction n generalizing s with
  | zero => exact h
  | succ n ih => exact ih (execute_flagged h)

theorem handler_execute (types : List SoftirqType) (s : Softirq) :
    (s.execute types).handler = s.handler := by
  unfold execute
  split
  · split <;> rfl
  · split <;> rfl
  · rfl
  · rfl
  · rfl
  · split <;> rfl

theorem handler_iterate (n : Nat) : ((execute types)^[n] s).handler = s.handler := by
  induction n generalizing s with
  | zero => rfl
  | succ n ih =>
    rw [Function.iterate_succ_apply, ih]
    exact handler_execute types s

/-- A request that comes while its handler runs is forgotten when the flag is cleared. -/
theorem forgotten (hin : InHandler s i) : ∃ n,
    ((execute types)^[n] (s.softirqSchedule i)).owed i = true ∧
      ((execute types)^[n] (s.softirqSchedule i)).schedule i = false := by
  have hclear : ∀ (s : Softirq) todo, s.pc = .clear i todo → s.owed i = true →
      (s.execute types).owed i = true ∧ (s.execute types).schedule i = false := by
    intro s todo hpc ho
    unfold execute
    rw [hpc]
    exact ⟨ho, set_self _ _ _⟩
  have howed : (s.softirqSchedule i).owed i = true := set_self _ _ _
  unfold InHandler at hin
  cases hpc : s.pc with
  | idle => simp [hpc, handling] at hin
  | test _ => simp [hpc, handling] at hin
  | call _ _ => simp [hpc, handling] at hin
  | running type todo =>
    rw [hpc] at hin
    rw [Option.some.inj hin] at hpc
    have hpc' : (s.softirqSchedule i).pc = .running i todo := hpc
    refine ⟨2, hclear ((s.softirqSchedule i).execute types) todo ?_ ?_⟩
    · unfold execute
      rw [hpc']
    · unfold execute
      rw [hpc']
      exact howed
  | clear type todo =>
    rw [hpc] at hin
    rw [Option.some.inj hin] at hpc
    exact ⟨1, hclear (s.softirqSchedule i) todo hpc howed⟩

end Softirq

open Softirq in
/-- In every interleaving in which no request comes while its own handler runs: when the kernel
thread is suspended, every request has been followed by a run of its handler. And a request at any
time stays flagged until its handler is started, if only the kernel thread goes on, if and only if
it does not come while its handler runs. -/
theorem softirq_not_lost {types : List SoftirqType} {s : Softirq}
    (h : (Softirq.system types).Reachable Timely s) :
    Served types s ∧ ∀ i, s.handler i = true →
      ((∀ n, ((execute types)^[n] (s.softirqSchedule i)).owed i = true →
          ((execute types)^[n] (s.softirqSchedule i)).schedule i = true) ↔ ¬ InHandler s i) := by
  have hs := reachable_flagged h
  refine ⟨hs.served, fun i hi => ⟨fun hkept hin => ?_, fun hin n howed => ?_⟩⟩
  · obtain ⟨n, ho, hf⟩ : ∃ n, ((execute types)^[n] (s.softirqSchedule i)).owed i = true ∧
        ((execute types)^[n] (s.softirqSchedule i)).schedule i = false := forgotten hin
    rw [hkept n ho] at hf
    simp at hf
  · have h1 := iterate_flagged (schedule_flagged hs (fun _ => hin)) n
    refine h1.flag i ?_ howed
    rw [handler_iterate]
    exact hi

open Softirq in
/-- The timer softirq is requested and served, and requested again after its flag is cleared. -/
theorem softirq_not_lost_again : ∃ s : Softirq,
    (Softirq.system (softirqTypes true)).Reachable Timely s ∧ s.owed .kte = true ∧
    s.pc = .test [.async, .syscall, .kdb] ∧ Served (softirqTypes true) s := by
  have h0 : (Softirq.system (softirqTypes true)).Reachable Timely (boot (softirqTypes true)) :=
    .init ⟨_, rfl⟩
  have h1 := TSys.Reachable.step h0 (show Timely _ (.schedule .kte) from fun _ => by decide) rfl
  have hgo : ∀ n, (Softirq.system (softirqTypes true)).Reachable Timely
      ((execute (softirqTypes true))^[n]
        ((boot (softirqTypes true)).run (softirqTypes true) (.schedule .kte))) := by
    intro n
    induction n with
    | zero => exact h1
    | succ n ih =>
      rw [Function.iterate_succ_apply']
      exact ih.step (show Timely _ .execute from trivial) rfl
  have h2 := (hgo 5).step (show Timely _ (.schedule .kte) from fun _ => by decide) rfl
  exact ⟨_, h2, by decide, by decide, (softirq_not_lost h2).1⟩

open Softirq in
/-- A timer interrupt comes while the timer handler runs: the kernel thread is suspended and the
handler has not been run again. -/
theorem softirq_lost_in_handler : ∃ s : Softirq,
    (Softirq.system (softirqTypes true)).Reachable (fun _ _ => True) s ∧
    s.kernelState = .inactive ∧ s.handler .kte = true ∧ s.owed .kte = true ∧
    s.schedule .kte = false ∧ ¬ Served (softirqTypes true) s := by
  have hrun : ∀ (as : List Action) (s : Softirq),
      (Softirq.system (softirqTypes true)).Reachable (fun _ _ => True) s →
      (Softirq.system (softirqTypes true)).Reachable (fun _ _ => True)
        (as.foldl (run (softirqTypes true)) s) := by
    intro as
    induction as with
    | nil => exact fun s h => h
    | cons a as ih => exact fun s h => ih _ (.step h trivial rfl)
  have h := hrun [.schedule .kte, .execute, .execute, .execute, .schedule .kte, .execute, .execute,
    .execute, .execute, .execute, .execute] (boot (softirqTypes true)) (.init ⟨_, rfl⟩)
  refine ⟨_, h, by decide, by decide, by decide, by decide, fun hserved => ?_⟩
  have := hserved (by decide) .kte (by decide) (by decide)
  exact absurd this (by decide)

end F9
