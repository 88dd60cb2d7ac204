import F9.Logic.IpcRuns

/-!
# Whom a message reaches

The three places that start a transfer match the two threads differently. `sys_ipc`
and the sender-driven branch of `ipc_deliver` do not look at the thread the receiver
waits for, the receiver-driven branch does not look at the thread the sender sends to,
and a call with neither destination nor source blocks the caller in a send to the
receiver of an earlier one. So a closed receive can get a message of another thread, a
message can reach another thread than its destination, and one that was never sent.

Each theorem gives the condition on the calls under which this does not happen, in every
run of system calls other than `sys_thread_control`, passes of `ipc_deliver` and timer
events. `messages_wanted` is what holds without one.
-/

namespace F9

open Result Rendezvous

variable {m m' : Machine} {e : Event} {s s' : State TcbRef Nat} {mm : Memmap} {kip : Word}

theorem Machine.Start.idle (h : m.Start) (t : TcbRef) : m.core.abs.phase t = .idle := by
  rcases h.unblocked t with hst | hst
  · exact Core.phase_of_idle (by rw [hst]; simp) (by rw [hst]; simp)
  · exact Core.phase_of_idle (by rw [hst]; simp) (by rw [hst]; simp)

theorem Machine.Start.ready (h : m.Start) : m.Ready := by
  exact ⟨h.own, fun t ht => absurd (h.idle t) ht,
    fun hp => absurd (hp.symm.trans h.syscallSoftirq) (by simp)⟩

/-! ## A meeting -/

/-- Thread 257 sends to 256, which then receives from 257. -/
def meeting : List Event :=
  [ipcTrap 4 (tidToGlobalid 256) L4_NILTHREAD, .syscall,
    ipcTrap 3 L4_NILTHREAD (tidToGlobalid 257), .syscall, .deliver]

/-- The thread is idle, or it sends to the caller, which only receives from it. -/
def Meets (s : State TcbRef Nat) (c : TcbRef) (dest : Option Nat) (reply : Option (Option Nat))
    (t : TcbRef) : Prop :=
  s.phase t = .idle ∨ (dest = none ∧ reply = some (some (s.number t)) ∧
    s.phase t = .sending (some (s.number c)) (some (s.number c)) none)

instance (s : State TcbRef Nat) (c : TcbRef) (dest : Option Nat) (reply : Option (Option Nat))
    (t : TcbRef) : Decidable (Meets s c dest reply t) := by
  unfold Meets
  infer_instance

/-- A call of `sys_ipc` with a destination or a source, by which the caller meets at most one
other thread. Threads outside the table are not looked at. -/
def meets? (m : Machine) : Event → Bool
  | .svc thr _ => m.core.live thr
  | .syscall =>
    m.core.caller.all fun c =>
      decide (svcNum m.core c = SYS_IPC) &&
      decide (¬ ((m.core.tcb c).frame.r0 = L4_NILTHREAD ∧
        (m.core.tcb c).frame.r1 = L4_NILTHREAD)) &&
      (List.range m.core.threadTable.num).all fun t =>
        decide (t = c ∨ Meets m.core.abs c (named? (m.core.tcb c).frame.r0)
          (reply? (m.core.tcb c).frame.r1) t)
  | _ => true

theorem meets_call (hr : m.Ready) (h : meets? m .syscall = true) {c : TcbRef}
    (hc : m.core.caller = some c) : svcNum m.core c = SYS_IPC ∧
      ¬ ((m.core.tcb c).frame.r0 = L4_NILTHREAD ∧ (m.core.tcb c).frame.r1 = L4_NILTHREAD) ∧
      ∀ t, t ≠ c → Meets m.core.abs c (named? (m.core.tcb c).frame.r0)
        (reply? (m.core.tcb c).frame.r1) t := by
  unfold meets? at h
  rw [hc] at h
  simp only [Option.all_some, Bool.and_eq_true, decide_eq_true_eq, List.all_eq_true,
    List.mem_range] at h
  refine ⟨h.1.1, h.1.2, fun t ht => ?_⟩
  by_cases hidle : m.core.phase t = .idle
  · exact .inl hidle
  · have hlive := hr.blocked t hidle
    unfold Core.live KTable.live at hlive
    simp only [Bool.and_eq_true, decide_eq_true_eq] at hlive
    exact (h.2 t hlive.1).resolve_left ht

theorem meets_notThreadControl (hr : m.Ready) (h : meets? m e = true) : NotThreadControl m e := by
  cases e with
  | svc thr user => exact h
  | syscall =>
    intro c hc
    rw [(meets_call hr h hc).1]
    decide
  | tick => trivial
  | timer => trivial
  | deliver => trivial

theorem meeting_reachable {P : Machine → Event → Prop}
    (hP : ∀ m e, m.Ready → meets? m e = true → P m e) : ∃ m : Machine,
    (Machine.system [] 0#32 Machine.Start).Reachable P m ∧ ∃ t ∈ m.core.transfers,
      t.awaited = some (tidToGlobalid 257) ∧ t.dest = tidToGlobalid 256 := by
  have h : ((TSys.runAll (Machine.exec [] 0#32) meets? sixThreads meeting).any fun m =>
      m.core.transfers.any fun t => decide (t.awaited = some (tidToGlobalid 257) ∧
        t.dest = tidToGlobalid 256)) = true := by decide +kernel
  obtain ⟨m, hm, ht⟩ := (Option.any_eq_true _ _).mp h
  obtain ⟨t, hmem, ht⟩ := List.any_eq_true.mp ht
  refine ⟨m, ?_, t, hmem, of_decide_eq_true ht⟩
  exact (TSys.Reachable.runAll_inv (fun _ _ _ => Machine.exec_step) hP
    (fun m e m' hr hok hstep => (hstep.ipc hr (meets_notThreadControl hr hok)).1) meeting
    (.init sixThreads_start) sixThreads_start.ready hm).1

/-! ## Closed receives -/

/-- The step is not a thread control, and a call of `sys_ipc` brings no rivals together: nobody
else waits to send to the caller if it is about to receive from one thread, and the caller
does not send to a thread that receives, or will receive, from another one. -/
def ClosedCall (m : Machine) (e : Event) : Prop :=
  NotThreadControl m e ∧ (e = .syscall → ∀ c, m.core.caller = some c →
    svcNum m.core c = SYS_IPC → Exchanges m.core c →
    NoNewRival m.core.abs c (named? (m.core.tcb c).frame.r0) (reply? (m.core.tcb c).frame.r1)
      (partner? (m.core.remembered c)))

theorem moves_noRival (h : Relation.ReflTransGen Move s s') (hr : NoRival s) (hc : Closed s) :
    NoRival s' ∧ Closed s' := by
  induction h with
  | refl => exact ⟨hr, hc⟩
  | tail _ hm ih => exact hm.noRival ih.1 ih.2

theorem reachable_noRival (h : (Machine.system mm kip Machine.Start).Reachable ClosedCall m) :
    m.Ready ∧ NoRival m.core.abs ∧ Closed m.core.abs := by
  refine TSys.Reachable.invariant
    (I := fun m => m.Ready ∧ NoRival m.core.abs ∧ Closed m.core.abs) ?_ ?_ h
  · intro m hm
    refine ⟨hm.ready, ?_, ?_⟩
    · intro f t _ hsend
      rw [hm.idle f] at hsend
      exact absurd hsend (Phase.not_sendsTo_idle _)
    · intro r hmem
      have : m.core.abs.transfers = m.core.transfers.map Transfer.abs := rfl
      rw [this, hm.transfers] at hmem
      simp at hmem
  · rintro m e m' ⟨hr, hnr, hcl⟩ ⟨hn, hp⟩ hstep
    obtain ⟨hr', hcase⟩ := hstep.ipc hr hn
    refine ⟨hr', ?_⟩
    rcases hcase with ⟨c, rfl, hc, hipc, hidle, hcall⟩ | hm
    · rcases hcall with ⟨_, ha⟩ | ⟨hex, hcall, _⟩
      · rw [ha]
        exact ⟨hnr, hcl⟩
      · exact hcall.noRival hnr hcl hidle (hp rfl c hc hipc hex)
    · exact moves_noRival hm hnr hcl

theorem meets_closed (hr : m.Ready) (h : meets? m e = true) : ClosedCall m e := by
  refine ⟨meets_notThreadControl hr h, ?_⟩
  rintro rfl c hc _ _
  obtain ⟨_, hsome, hall⟩ := meets_call hr h hc
  constructor
  · rintro t ht hdest n haw
    rcases hall t ht with hidle | ⟨_, _, hsend⟩
    · rw [hidle] at haw
      simp [Phase.awaits] at haw
    · rw [hsend] at haw
      simp [Phase.awaits] at haw
  · rintro f hf hsend n hn
    rcases hall f hf with hidle | ⟨_, hreply, _⟩
    · rw [hidle] at hsend
      exact absurd hsend (Phase.not_sendsTo_idle _)
    · rw [hreply] at hn
      exact Option.some.inj hn

/-- The step is not a thread control, and a call of `sys_ipc` leaves no blocked sender that
another thread than its destination waits for: nobody else waits, or will wait, for the caller
if it has to block in its send, and the caller does not receive from a thread that sends to
another one. -/
def AddressedCall (m : Machine) (e : Event) : Prop :=
  NotThreadControl m e ∧ (e = .syscall → ∀ c, m.core.caller = some c →
    svcNum m.core c = SYS_IPC → Exchanges m.core c →
    NoNewStray m.core.abs c (named? (m.core.tcb c).frame.r0) (reply? (m.core.tcb c).frame.r1)
      (¬ Waits m.core (m.core.tcb c).frame.r0))

theorem moves_aligned (h : Relation.ReflTransGen Move s s') (ha : Aligned s) (hd : Addressed s) :
    Aligned s' ∧ Addressed s' := by
  induction h with
  | refl => exact ⟨ha, hd⟩
  | tail _ hm ih => exact hm.aligned ih.1 ih.2

theorem Machine.Start.aligned (hm : m.Start) : Aligned m.core.abs ∧ Addressed m.core.abs := by
  refine ⟨⟨fun f d k reply hf => ?_, fun f t _ d k reply hf => ?_⟩, fun r hmem => ?_⟩
  · rw [hm.idle f] at hf
    simp at hf
  · rw [hm.idle f] at hf
    simp at hf
  · have : m.core.abs.transfers = m.core.transfers.map Transfer.abs := rfl
    rw [this, hm.transfers] at hmem
    simp at hmem

/-- A step that meets the condition keeps blocked senders and those who wait for them aligned. -/
theorem Machine.Step.aligned (hstep : Machine.Step mm kip m e m') (hr : m.Ready)
    (ha : Aligned m.core.abs) (hd : Addressed m.core.abs) (hp : AddressedCall m e) :
    Aligned m'.core.abs ∧ Addressed m'.core.abs := by
  obtain ⟨_, hcase⟩ := hstep.ipc hr hp.1
  rcases hcase with ⟨c, rfl, hc, hipc, hidle, hcall⟩ | hm
  · rcases hcall with ⟨_, he⟩ | ⟨hex, hcall, hblocks⟩
    · rw [he]
      exact ⟨⟨ha.kept, ha.awaited⟩, hd⟩
    · exact hcall.aligned ha hd (hp.2 rfl c hc hipc hex) fun d k h => hblocks d k _ h
  · exact moves_aligned hm ha hd

theorem meets_addressed (hr : m.Ready) (h : meets? m e = true) : AddressedCall m e := by
  refine ⟨meets_notThreadControl hr h, ?_⟩
  rintro rfl c hc _ _
  obtain ⟨_, _, hall⟩ := meets_call hr h hc
  constructor
  · intro _ t ht d hd haw
    rcases hall t ht with hidle | ⟨hnone, _⟩
    · rw [hidle] at haw
      simp [Phase.awaits] at haw
    · rw [hnone] at hd
      simp at hd
  · intro f hf d k r hsend _
    rcases hall f hf with hidle | ⟨_, _, hsend'⟩
    · rw [hidle] at hsend
      simp at hsend
    · rw [hsend'] at hsend
      injection hsend with h1
      exact (Option.some.inj h1).symm

/-- How many messages have passed from a thread to the threads with a number. -/
def Core.delivered (s : Core) (f : TcbRef) (n : Nat) : Nat :=
  s.transfers.countP fun t => decide (t.sender = f ∧ globalidToTid t.receiverId = n)

/-- How many calls of `sys_ipc` a thread has made with a destination of this number. -/
def Core.requested (s : Core) (f : TcbRef) (n : Nat) : Nat :=
  s.calls.countP fun c => decide (c.1 = f ∧ c.2 ≠ L4_NILTHREAD ∧ globalidToTid c.2 = n)

/-- A call that meets the condition above, and has a destination or a source if it exchanges
messages. -/
def SpentCall (m : Machine) (e : Event) : Prop :=
  AddressedCall m e ∧ (e = .syscall → ∀ c, m.core.caller = some c →
    svcNum m.core c = SYS_IPC → Exchanges m.core c →
    ¬ ((m.core.tcb c).frame.r0 = L4_NILTHREAD ∧ (m.core.tcb c).frame.r1 = L4_NILTHREAD))

theorem moves_spent (h : Relation.ReflTransGen Move s s') (hs : Spent s) (ha : Aligned s)
    (hd : Addressed s) : Spent s' := by
  induction h with
  | refl => exact hs
  | tail h hm ih => exact hm.spent ih (moves_aligned h ha hd).1

theorem Machine.Start.spent (hm : m.Start) : Spent m.core.abs := by
  refine ⟨fun f n => ?_, fun f k r hf => ?_⟩
  · rw [hm.idle f]
    have : m.core.abs.transfers = m.core.transfers.map Transfer.abs := rfl
    unfold State.passed
    rw [this, hm.transfers]
    exact Nat.zero_le _
  · rw [hm.idle f] at hf
    simp at hf

theorem Machine.Step.spent (hstep : Machine.Step mm kip m e m') (hr : m.Ready)
    (ha : Aligned m.core.abs) (hd : Addressed m.core.abs) (hs : Spent m.core.abs)
    (hp : SpentCall m e) : Spent m'.core.abs := by
  obtain ⟨_, hcase⟩ := hstep.ipc hr hp.1.1
  rcases hcase with ⟨c, rfl, hc, hipc, hidle, hcall⟩ | hm
  · rcases hcall with ⟨_, he⟩ | ⟨hex, hcall, _⟩
    · rw [he]
      exact (Call.stay : Call c _ (some none) none m.core.abs _).spent hs hidle (by simp)
    · refine hcall.spent hs hidle fun hdest hreply => ?_
      exact hp.2 rfl c hc hipc hex ⟨named_eq_none.mp hdest, reply_eq_none.mp hreply⟩
  · exact moves_spent hm hs ha hd

theorem delivered_eq_passed (s : Core) (f : TcbRef) (n : Nat) :
    s.delivered f n = s.abs.passed f n := by
  have : s.abs.transfers = s.transfers.map Transfer.abs := rfl
  unfold Core.delivered State.passed
  rw [this, List.countP_map]
  rfl

theorem requested_eq_asked (s : Core) (f : TcbRef) (n : Nat) :
    s.requested f n = s.abs.asked f n := by
  have : s.abs.calls = s.calls.map fun c => (c.1, named? c.2) := rfl
  unfold Core.requested State.asked
  rw [this, List.countP_map]
  refine List.countP_congr fun c _ => ?_
  simp only [Function.comp, decide_eq_true_eq, named_eq_some]

theorem meets_spent (hr : m.Ready) (h : meets? m e = true) : SpentCall m e := by
  refine ⟨meets_addressed hr h, ?_⟩
  rintro rfl c hc _ _
  exact (meets_call hr h hc).2.1

theorem Machine.Step.refines (hstep : Machine.Step mm kip m e m') (hr : m.Ready)
    (hn : NotThreadControl m e) :
    m'.Ready ∧ Relation.ReflTransGen Rendezvous.Step m.core.abs m'.core.abs := by
  obtain ⟨hr', ⟨c, _, _, _, hidle, ⟨_, ha⟩ | ⟨_, hcall, _⟩⟩ | hmoves⟩ := hstep.ipc hr hn
  · rw [ha]
    exact ⟨hr', .single (.inl ⟨c, _, none, none, hidle, .stay⟩)⟩
  · exact ⟨hr', .single (.inl ⟨c, _, _, _, hidle, hcall⟩)⟩
  · exact ⟨hr', hmoves.lift id fun _ _ => .inr⟩

end F9
