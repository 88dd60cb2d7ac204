import F9.Logic.Sleep
import F9.Logic.ThreadEffects

/-!
# What IPC does to the scheduler

IPC puts threads into the slots of normal threads and of IPC, and it changes which threads are
runnable. `Dispatches L B` bounds this: what is put into a slot is in `L`, and only threads in `B`
stop to be runnable. With `L` as the allocated threads it says that the slots stay clean, with all
threads as `L` it says that idle goes on.
-/

namespace F9

open Result

variable {t c : TcbRef} {mm : Memmap} {kip : Word}

/-- The threads are the same; a slot is as before or holds a thread in `L`; a runnable thread is
runnable still, unless it is in `B`. -/
structure Dispatches (L B : TcbRef → Prop) (s s' : Core) : Prop where
  same : SameThreads s s'
  caller : s'.caller = s.caller
  slots : ∀ i, s'.slots i = s.slots i ∨
    ((i = .normalThread ∨ i = .ipcThread) ∧ ∃ t, s'.slots i = some t ∧ L t)
  runnable : ∀ x, ¬ B x → (s.tcb x).state = .runnable → (s'.tcb x).state = .runnable

namespace Dispatches

variable {L B : TcbRef → Prop} {s s' s'' : Core}

theorem refl (s : Core) : Dispatches L B s s :=
  ⟨.refl s, rfl, fun _ => .inl rfl, fun _ _ h => h⟩

theorem trans (h1 : Dispatches L B s s') (h2 : Dispatches L B s' s'') : Dispatches L B s s'' := by
  refine ⟨h1.same.trans h2.same, h2.caller.trans h1.caller, fun i => ?_,
    fun x hx h => h2.runnable x hx (h1.runnable x hx h)⟩
  rcases h2.slots i with heq | hnew
  · rw [heq]
    exact h1.slots i
  · exact .inr hnew

end Dispatches

/-! ## Updates -/

section

variable {L B : TcbRef → Prop} {s s' : Core}

/-- A thread is changed; it is in `B`, or it is runnable afterwards, or was not before. -/
theorem setTcb_dispatches {f : Tcb → Tcb} (hstatic : (f (s.tcb t)).static = (s.tcb t).static)
    (hstate : B t ∨ (f (s.tcb t)).state = .runnable ∨ (s.tcb t).state ≠ .runnable) :
    Dispatches L B s (s.setTcb t f) := by
  refine ⟨setTcb_same hstatic, rfl, fun _ => .inl rfl, fun x hx hrun => ?_⟩
  rw [Core.tcb_setTcb]
  split
  · rename_i hxt
    rw [hxt] at hx hrun
    rcases hstate with hB | hnew | hold
    · exact absurd hB hx
    · exact hnew
    · exact absurd hrun hold
  · exact hrun

theorem setState_same (s : Core) (t : TcbRef) (state : ThreadState) :
    SameThreads s (s.setTcb t fun tcb => { tcb with state := state }) :=
  setTcb_same rfl

theorem setState_dispatches (s : Core) (t : TcbRef) (state : ThreadState) :
    Dispatches L (fun x => x = t) s (s.setTcb t fun tcb => { tcb with state := state }) :=
  setTcb_dispatches rfl (.inl rfl)

theorem setUtcb_dispatches (u : Word) (f : Utcb → Utcb) : Dispatches L B s (s.setUtcb u f) :=
  ⟨setUtcb_same s u f, rfl, fun _ => .inl rfl, fun _ _ h => h⟩

theorem setCalls_dispatches (calls : List (TcbRef × Word)) :
    Dispatches L B s { s with calls := calls } :=
  ⟨⟨fun _ => rfl, rfl, rfl, rfl, rfl, rfl⟩, rfl, fun _ => .inl rfl, fun _ _ h => h⟩

/-! ## Messages -/

/-- `do_ipc` dispatches its two threads, and of runnable threads it blocks only the sender. -/
theorem doIpc_dispatches {f : TcbRef} (h : doIpc mm s f t = .ok s') (hf : L f) (ht : L t)
    (hB : B f ∨ (s.tcb f).state ≠ .runnable) : Dispatches L B s s' := by
  obtain ⟨hsame, hcaller, _, hout⟩ := doIpc_effect h
  cases hout with
  | overflow hst hslots =>
    refine ⟨hsame, hcaller, fun i => .inl (by rw [hslots]), fun x _ hrun => ?_⟩
    rw [hst]
    exact hrun
  | noStack c _ _ hst hslots =>
    refine ⟨hsame, hcaller, fun i => .inl (by rw [hslots]), fun x _ hrun => ?_⟩
    rw [hst]
    split
    · rfl
    · exact hrun
  | complete _ _ hst hslots =>
    refine ⟨hsame, hcaller, fun i => ?_, fun x hx hrun => ?_⟩
    · rw [hslots]
      show (if i = .ipcThread then some t else if i = .normalThread then some f else s.slots i) =
        _ ∨ _ ∧ ∃ u, (if i = .ipcThread then some t
          else if i = .normalThread then some f else s.slots i) = _ ∧ _
      by_cases hipc : i = .ipcThread
      · rw [if_pos hipc]
        exact .inr ⟨.inr hipc, t, rfl, ht⟩
      · rw [if_neg hipc]
        by_cases hnormal : i = .normalThread
        · rw [if_pos hnormal]
          exact .inr ⟨.inl hnormal, f, rfl, hf⟩
        · rw [if_neg hnormal]
          exact .inl rfl
    · rw [hst, if_neg]
      · split
        · rfl
        · exact hrun
      · rintro rfl
        exact hB.elim hx fun hne => hne hrun

theorem startThread_dispatches (h : startThread kip s c t = .ok s') : Dispatches L B s s' := by
  obtain ⟨hsame, hcaller, hslots, _, hst⟩ := startThread_effect h
  refine ⟨hsame, hcaller, fun i => .inl (by rw [hslots]), fun x _ hrun => ?_⟩
  rw [hst]
  split
  · rfl
  · exact hrun

/-- The send phase of a call dispatches the caller and the destination, and may block the caller. -/
theorem sysIpcSend_dispatches {toTid : Word} (h : sysIpcSend mm kip s c toTid = .ok s') (hc : L c)
    (hdest : toTid ≠ tidToGlobalid THREAD_LOG → ∀ t, threadByGlobalid s toTid = .ok (some t) → L t) :
    Dispatches L (fun x => x = c) s s' := by
  obtain ⟨p, hlook, ⟨_, rfl⟩ | ⟨hlog, ⟨t, rfl, _, h⟩ | ⟨_, _,
    ⟨t, rfl, hpager, ⟨_, h⟩ | ⟨_, s1, hipc, rfl⟩⟩ | ⟨_, u, _, rfl⟩⟩⟩⟩ := sysIpcSend_cases h
  · exact setTcb_dispatches rfl (.inr (.inl rfl))
  · exact doIpc_dispatches h hc (hdest hlog t hlook) (.inl rfl)
  · exact startThread_dispatches h
  · -- the destination was inactive before
    have hinactive : (s.tcb t).state = .inactive := inactiveOfPager_true hpager
    have h1 : Dispatches L (fun x => x = c) s s1 :=
      doIpc_dispatches hipc hc (hdest hlog t hlook) (.inl rfl)
    have h2 : SameThreads s1 (s1.setTcb t fun tcb => { tcb with state := .inactive }) :=
      setTcb_same rfl
    refine ⟨h1.same.trans h2, h1.caller, h1.slots, fun x hx hrun => ?_⟩
    rw [Core.tcb_setTcb, if_neg]
    · exact h1.runnable x hx hrun
    · rintro rfl
      rw [hinactive] at hrun
      exact absurd hrun (by decide)
  · have h1 : Dispatches L (fun x => x = c) s
        (s.setTcb c fun tcb => { tcb with state := .sendBlocked }) :=
      setTcb_dispatches rfl (.inl rfl)
    exact h1.trans (setUtcb_dispatches _ _)

theorem sysIpc_dispatches {m m' : Machine} (h : sysIpc mm kip m c = .ok m') (hc : L c)
    (hdest : (m.core.tcb c).frame.r0 ≠ L4_NILTHREAD →
      (m.core.tcb c).frame.r0 ≠ tidToGlobalid THREAD_LOG →
      ∀ t, threadByGlobalid m.core (m.core.tcb c).frame.r0 = .ok (some t) → L t) :
    Dispatches L (fun x => x = c) m.core m'.core := by
  obtain ⟨calls, _, ⟨_, _, hcore, _⟩ | ⟨_, ⟨hto, hsend⟩ | ⟨_, _, state, source, _, hcore⟩⟩⟩ :=
    sysIpc_outcome h
  · rw [hcore]
    exact (setCalls_dispatches calls).trans (setTcb_dispatches rfl (.inl rfl))
  · have h0 : Dispatches L (fun x => x = c) m.core { m.core with calls := calls } :=
      setCalls_dispatches calls
    refine h0.trans (sysIpcSend_dispatches hsend hc fun hlog t ht => ?_)
    rw [h0.same.lookup] at ht
    exact hdest hto hlog t ht
  · rw [hcore]
    exact (setCalls_dispatches calls).trans (setTcb_dispatches rfl (.inl rfl))

/-! ## Delivery and timeouts -/

/-- The threads that a pass of `ipc_deliver` may pair at index `i` are in `L`. -/
def Parties (L : TcbRef → Prop) (s : Core) (i : Nat) : Prop :=
  ∀ f t, (s.tcb f).state = .sendBlocked → (s.tcb t).state = .recvBlocked →
    (s.threadMap i = some f ∧ LeadsTo s (s.remembered f) t) ∨
      (s.threadMap i = some t ∧ LeadsTo s (s.tcb t).ipcFrom f) → L f ∧ L t

theorem deliverAt_dispatches {i : Nat} (h : deliverAt mm s i = .ok s') (hL : Parties L s i) :
    Dispatches L B s s' := by
  rcases deliverAt_cases h with rfl | ⟨f, t, hipc, hf, ht, hparties⟩
  · exact .refl s'
  · obtain ⟨hLf, hLt⟩ := hL f t hf ht hparties
    refine doIpc_dispatches hipc hLf hLt (.inr ?_)
    rw [hf]
    decide

/-- The loop of `ipc_deliver`. `I n i` holds with `n` indices to go from `i` on. -/
theorem deliverLoop_dispatches {I : Nat → Nat → Core → Prop}
    (hI : ∀ n i s s', I (n + 1) i s → deliverAt mm s i = .ok s' → I n (i + 1) s')
    (hL : ∀ n i s, I (n + 1) i s → Parties L s i) (n i : Nat) (s s' : Core) (hi : I n i s)
    (h : deliverLoop mm n i s = .ok s') : Dispatches L B s s' := by
  induction n generalizing i s s' with
  | zero =>
    rw [← ok_ok.mp h]
    exact .refl s
  | succ n ih =>
    obtain ⟨s1, h1, h⟩ := bind_ok.mp h
    exact (deliverAt_dispatches h1 (hL n i s hi)).trans (ih _ _ _ (hI n i s s1 hi h1) h)

theorem ipcTimeout_dispatches (ht : L t) : Dispatches L B s (ipcTimeout s t) := by
  obtain ⟨hsame, _, hst⟩ := ipcTimeout_effect s t
  refine ⟨hsame, rfl, fun i => ?_, fun x _ hrun => ?_⟩
  · show (if i = .normalThread then some t else s.slots i) = _ ∨
      _ ∧ ∃ u, (if i = .normalThread then some t else s.slots i) = _ ∧ _
    by_cases hi : i = .normalThread
    · rw [if_pos hi]
      exact .inr ⟨.inl hi, t, rfl, ht⟩
    · rw [if_neg hi]
      exact .inl rfl
  · rw [hst]
    split
    · rfl
    · exact hrun

/-- Passes of `ipc_deliver` and the timer handler, whoever the threads are. -/
theorem ipcDeliver_any {n : Word} (h : ipcDeliver mm s = .ok (n, s')) :
    Dispatches (fun _ => True) B s s' := by
  obtain ⟨s1, h1, h⟩ := bind_ok.mp h
  have heq := pure_pair.mp h
  rw [← heq.2]
  exact deliverLoop_dispatches (I := fun _ _ _ => True) (fun _ _ _ _ _ _ => trivial)
    (fun _ _ _ _ _ _ _ _ _ => ⟨trivial, trivial⟩) _ _ _ _ trivial h1

theorem eventHandler_any {k k' : Ktimer TimerHandler}
    (h : Ktimer.eventHandler (TimerHandler.run mm) s k = .ok (s', k')) :
    Dispatches (fun _ => True) B s s' := by
  refine Ktimer.eventHandler_rule (I := fun _ st _ => Dispatches (fun _ => True) B s st)
    (fun _ _ _ _ _ hI => hI) ?_ (fun _ _ _ _ _ hI => hI) h (.refl s)
  intro e es st k r st' hrun hI
  have hstep : Dispatches (fun _ => True) B st st' := by
    cases hhandler : k.handlerOf e with
    | ipcDeliver =>
      rw [hhandler] at hrun
      exact ipcDeliver_any hrun
    | ipcTimeout t =>
      rw [hhandler] at hrun
      have heq := Prod.mk.inj (ok_ok.mp hrun)
      rw [← heq.2]
      exact ipcTimeout_dispatches trivial
  exact ⟨fun _ => hI.trans hstep, fun _ => hI.trans hstep⟩

end

end F9
