import F9.Logic.Events
import F9.Logic.Ipc

/-!
# Runs of IPC

Every step of the machine but a call of `sys_thread_control` is a call of the rendezvous
or a sequence of its moves (`Machine.Step.ipc`). For this the threads must have UTCBs of
their own: the destination of a blocked send is kept there.
-/

namespace F9

open Result Rendezvous

variable {kip : Word} {s s' : Core} {c x : TcbRef} {mm : Memmap} {m' : Machine} {e : Event}
  {t : TcbRef} {toTid : Word} {m : Machine} {init I : Machine → Prop}

/-! ## Calls -/

theorem OwnUtcbs.eq {u : Word} (h : OwnUtcbs s) (ht : s.live t = true) (hx : s.live x = true)
    (hut : (s.tcb t).utcb = some u) (hux : (s.tcb x).utcb = some u) : t = x := by
  by_contra hne
  have hapart := (h t x u u ht hx hut hux hne).1
  rw [BitVec.sub_self] at hapart
  exact absurd hapart (by decide)

theorem OwnUtcbs.congr (h : OwnUtcbs s) (hlive : ∀ t, s'.live t = true → s.live t = true)
    (hutcb : ∀ t, (s'.tcb t).utcb = (s.tcb t).utcb) : OwnUtcbs s' := by
  intro t t' u u' ht ht' hu hu'
  rw [hutcb] at hu hu'
  exact h t t' u u' (hlive t ht) (hlive t' ht') hu hu'

/-- Only allocated threads are blocked. -/
def BlockedLive (s : Core) : Prop := ∀ t, s.phase t ≠ .idle → s.live t = true

/-- The thread with this id waits in `T_RECV_BLOCKED`. -/
def Waits (s : Core) (id : Word) : Prop :=
  ∃ t, threadByGlobalid s id = .ok (some t) ∧ (s.tcb t).state = .recvBlocked

/-- The call of a thread is to exchange messages: it does not sleep, and does not print. -/
def Exchanges (s : Core) (c : TcbRef) : Prop :=
  ¬ ((s.tcb c).frame.r0 = L4_NILTHREAD ∧ (s.tcb c).frame.r2 ≠ 0#32) ∧
    (s.tcb c).frame.r0 ≠ tidToGlobalid THREAD_LOG

theorem abs_phase (h : s'.abs = s.abs) : s'.phase x = s.phase x :=
  congrFun (congrArg State.phase h) x

theorem startThread_abs (h : startThread kip s c t = .ok s') (hc : s.phase c = .idle)
    (ht : (s.tcb t).state = .inactive) : s'.abs = s.abs ∧ Identity s s' := by
  obtain ⟨sp, size, pc, rfl⟩ := startThread_ok h
  have hti : s.phase t = .idle := Core.phase_of_idle (by rw [ht]; simp) (by rw [ht]; simp)
  generalize hs1 : s.setTcb t _ = s1
  have ha1 : s1.abs = s.abs := by
    rw [← hs1, setTcb_abs_idle (by rfl) (by simp [ht]) (by simp [ht])]
    exact set_idle hti
  have hst : (s1.tcb t).state = .inactive := by
    rw [← hs1, Core.tcb_setTcb, if_pos rfl]
    exact ht
  have hi1 : Identity s s1 := by
    rw [← hs1]
    exact setTcb_identity rfl
  generalize hs2 : threadInitCtx kip s1 sp pc t = s2
  have ha2 : s2.abs = s.abs := by
    rw [← hs2]
    unfold threadInitCtx
    rw [setTcb_abs_idle (by rfl) (by simp [hst]) (by simp [hst]), ha1]
    exact set_idle hti
  have hi2 : Identity s s2 := hi1.trans (by rw [← hs2]; exact setTcb_identity rfl)
  constructor
  · have hci : s.abs.set c .idle = s.abs := set_idle hc
    rw [setRunnable_abs, setRunnable_abs, ha2, hci]
    exact set_idle hti
  · exact (hi2.trans (setTcb_identity rfl)).trans (setTcb_identity rfl)

theorem block_abs {u : Word} (hu : (s.tcb c).utcb = some u) (hto : toTid = (s.tcb c).frame.r0)
    (hlive : s.live c = true) (hown : OwnUtcbs s) (hblocked : BlockedLive s) :
    ((s.setTcb c fun tcb => { tcb with state := .sendBlocked }).setUtcb u
      fun utcb => { utcb with intendedReceiver := toTid }).abs =
      s.abs.set c (.sending (named? toTid) (partner? toTid) (reply? (s.tcb c).frame.r1)) := by
  generalize hs1 : s.setTcb c _ = s1
  have htcb : ∀ x, s1.tcb x = if x = c then { s.tcb c with state := .sendBlocked } else s.tcb x := by
    intro x
    rw [← hs1, Core.tcb_setTcb]
  have htcbc : s1.tcb c = { s.tcb c with state := .sendBlocked } := by rw [htcb, if_pos rfl]
  have hutcbs : s1.utcbs = s.utcbs := by rw [← hs1]; rfl
  have hnum : (s1.setUtcb u fun utcb => { utcb with intendedReceiver := toTid }).number =
      s.number := by
    funext x
    unfold Core.number
    rw [Core.tcb_setUtcb, htcb]
    split
    · rename_i hx
      rw [hx]
    · rfl
  have hphase : (s1.setUtcb u fun utcb => { utcb with intendedReceiver := toTid }).phase =
      fun x => if x = c then
        .sending (named? toTid) (partner? toTid) (reply? (s.tcb c).frame.r1) else s.phase x := by
    funext x
    by_cases hx : x = c
    · rw [if_pos hx, hx, Core.phase_sending (by rw [Core.tcb_setUtcb, htcbc])]
      have hrem : (s1.setUtcb u fun utcb => { utcb with intendedReceiver := toTid }).remembered c =
          toTid := by
        unfold Core.remembered
        rw [Core.tcb_setUtcb, htcbc]
        rw [hu]
        dsimp only
        rw [Core.utcbs_setUtcb, if_pos rfl]
      rw [hrem, Core.tcb_setUtcb, htcbc, hto]
    · rw [if_neg hx]
      have hxt : s1.tcb x = s.tcb x := by rw [htcb, if_neg hx]
      by_cases hidle : s.phase x = .idle
      · -- not blocked: what is remembered does not count
        rw [hidle]
        have hst : (s.tcb x).state ≠ .sendBlocked ∧ (s.tcb x).state ≠ .recvBlocked := by
          constructor
          · intro hst
            rw [Core.phase_sending hst] at hidle
            simp at hidle
          · intro hst
            rw [Core.phase_receiving hst] at hidle
            simp at hidle
        exact Core.phase_of_idle (by rw [Core.tcb_setUtcb, hxt]; exact hst.1)
          (by rw [Core.tcb_setUtcb, hxt]; exact hst.2)
      · refine Core.phase_congr (by rw [Core.tcb_setUtcb, hxt]) (by rw [Core.tcb_setUtcb, hxt])
          (by rw [Core.tcb_setUtcb, hxt]) (by rw [Core.tcb_setUtcb, hxt]) ?_
        refine Core.remembered_congr (by rw [Core.tcb_setUtcb, hxt]) fun v hv => ?_
        have hne : v ≠ u := by
          rintro rfl
          exact hx (hown.eq (hblocked x hidle) hlive hv hu)
        rw [Core.utcbs_setUtcb, if_neg hne, hutcbs]
  have hlog : s1.transfers = s.transfers ∧ s1.calls = s.calls := by
    rw [← hs1]
    exact ⟨rfl, rfl⟩
  unfold Core.abs State.set
  rw [hnum, hphase]
  show State.mk _ _ (s1.transfers.map Transfer.abs) (s1.calls.map fun c => (c.1, named? c.2)) = _
  rw [hlog.1, hlog.2]

theorem sysIpcSend_call (old : Option Nat) {s0 : State TcbRef Nat}
    (h : sysIpcSend mm kip s c toTid = .ok s') (hto : toTid = (s.tcb c).frame.r0)
    (hnil : toTid ≠ L4_NILTHREAD) (hlog : toTid ≠ tidToGlobalid THREAD_LOG)
    (hcaller : s.caller = some c)
    (hstate : (s.tcb c).state = .svcBlocked ∨ (s.tcb c).state = .runnable) (hlive : s.live c = true)
    (hown : OwnUtcbs s) (hblocked : BlockedLive s) (habs : s.abs = s0.called c (named? toTid)) :
    Call c (named? toTid) (reply? (s.tcb c).frame.r1) old s0 s'.abs ∧ Identity s s' ∧
      (∀ d k r, s'.phase c = .sending (some d) k r → ¬ Waits s toTid) := by
  have hidle : s.phase c = .idle := Core.phase_of_ready hstate
  have hnamed : named? toTid = some (globalidToTid toTid) := by
    unfold named?
    rw [if_neg hnil]
  have hstay : s.abs.set c .idle = s.abs := set_idle hidle
  -- the outcomes of `do_ipc` called by the caller
  have hdo : ∀ t s1, doIpc mm s c t = .ok s1 → threadByGlobalid s toTid = .ok (some t) →
      (s1.abs = s.abs ∨ s1.abs = s.abs.transfer c t (named? toTid) (reply? (s.tcb c).frame.r1)) ∧
      Identity s s1 := by
    intro t s1 h1 _
    obtain ⟨h2, hid⟩ := doIpc_abs h1
    refine ⟨?_, hid⟩
    rcases h2 with h2 | ⟨c', hc', h2⟩ | h2
    · exact .inl h2
    · rw [hcaller] at hc'
      injection hc' with hc'
      rw [← hc', hstay] at h2
      exact .inl h2
    · rw [← hto] at h2
      exact .inr h2
  -- nothing, or a transfer to the thread that is named
  have hend : ∀ t s1, threadByGlobalid s toTid = .ok (some t) → Identity s s1 →
      (s1.abs = s.abs ∨ s1.abs = s.abs.transfer c t (named? toTid) (reply? (s.tcb c).frame.r1)) →
      Call c (named? toTid) (reply? (s.tcb c).frame.r1) old s0 s1.abs ∧ Identity s s1 ∧
        (∀ d k r, s1.phase c = .sending (some d) k r → ¬ Waits s toTid) := by
    intro t s1 hlook hid h1
    have hphase : s1.phase c = s1.abs.phase c := rfl
    rcases h1 with h1 | h1
    · refine ⟨by rw [h1, habs]; exact .stay, hid, fun d k r hp => ?_⟩
      rw [abs_phase h1, hidle] at hp
      simp at hp
    · refine ⟨?_, hid, fun d k r hp => ?_⟩
      · have hn : s.abs.number t = globalidToTid toTid := threadByGlobalid_number hlook
        rw [habs] at hn
        rw [h1, habs]
        exact .direct hnamed hn
      · rw [hphase, h1, State.transfer_phase, if_pos rfl] at hp
        cases hr : reply? (s.tcb c).frame.r1 with
        | none => rw [hr] at hp; simp [Phase.afterSend] at hp
        | some src => rw [hr] at hp; simp [Phase.afterSend] at hp
  obtain ⟨p, hlook, hcase⟩ := sysIpcSend_cases h
  rcases hcase with ⟨h, _⟩ | ⟨_, ⟨t, rfl, _, h1⟩ | ⟨hwait, _, hcase⟩⟩
  · exact absurd h hlog
  · obtain ⟨h2, hid⟩ := hdo t _ h1 hlook
    exact hend t _ hlook hid h2
  · rcases hcase with ⟨t, rfl, hin, ⟨_, h1⟩ | ⟨_, s1, h1, rfl⟩⟩ | ⟨_, u, hu, rfl⟩
    · obtain ⟨ha, hid⟩ := startThread_abs h1 hidle (inactiveOfPager_true hin)
      exact hend t _ hlook hid (.inl ha)
    · -- the inactive thread stays inactive
      have hti := inactiveOfPager_true hin
      have htc : t ≠ c := by
        rintro rfl
        rcases hstate with hst | hst
        · rw [hti] at hst
          simp at hst
        · rw [hti] at hst
          simp at hst
      have htidle : s.phase t = .idle := Core.phase_of_idle (by rw [hti]; simp) (by rw [hti]; simp)
      obtain ⟨h2, hid⟩ := hdo t _ h1 hlook
      have hset : (s1.setTcb t fun tcb => { tcb with state := .inactive }).abs = s1.abs := by
        rw [setTcb_abs_idle (by rfl) (by simp) (by simp)]
        refine set_idle ?_
        rcases h2 with h2 | h2
        · rw [h2]
          exact htidle
        · rw [h2, State.transfer_phase, if_neg htc, if_pos rfl]
      have hid' := hid.trans (setTcb_identity rfl :
        Identity s1 (s1.setTcb t fun tcb => { tcb with state := .inactive }))
      exact hend t _ hlook hid' (by rw [hset]; exact h2)
    · refine ⟨?_, ?_, ?_⟩
      · rw [block_abs hu hto hlive hown hblocked, habs]
        refine .blocked hnamed ?_
        unfold partner?
        split
        · exact .inl rfl
        · exact .inr rfl
      · have hid : Identity s (s.setTcb c fun tcb => { tcb with state := .sendBlocked }) :=
          setTcb_identity rfl
        exact ⟨hid.utcb, hid.live, hid.caller, rfl, rfl⟩
      · rintro _ _ _ _ ⟨t, ht, hrecv⟩
        rw [hlook] at ht
        injection ht with ht
        rw [waitsInRecv_iff.mpr ⟨t, ht, hrecv⟩] at hwait
        simp at hwait

/-- `sys_ipc` in the abstraction. A thread that is left waiting to send has found that its
destination does not wait. -/
def SysIpcCall (m m' : Machine) (c : TcbRef) : Prop :=
  (¬ Exchanges m.core c ∧ m'.core.abs = m.core.abs.called c (named? (m.core.tcb c).frame.r0)) ∨
  (Exchanges m.core c ∧
    Call c (named? (m.core.tcb c).frame.r0) (reply? (m.core.tcb c).frame.r1)
      (partner? (m.core.remembered c)) m.core.abs m'.core.abs ∧
    (∀ d k r, m'.core.phase c = .sending (some d) k r → ¬ Waits m.core (m.core.tcb c).frame.r0))

theorem sysIpc_call (h : sysIpc mm kip m c = .ok m') (hcaller : m.core.caller = some c)
    (hstate : (m.core.tcb c).state = .svcBlocked ∨ (m.core.tcb c).state = .runnable)
    (hlive : m.core.live c = true) (hown : OwnUtcbs m.core) (hblocked : BlockedLive m.core) :
    SysIpcCall m m' c ∧ Identity m.core m'.core := by
  have hidle : m.core.phase c = .idle := Core.phase_of_ready hstate
  obtain ⟨s, hs, hway⟩ := sysIpc_ways h
  have habs : s.abs = m.core.abs.called c (named? (m.core.tcb c).frame.r0) := by
    rw [hs]
    rfl
  have htcb : ∀ x, s.tcb x = m.core.tcb x := fun x => by
    rw [hs]
    rfl
  have hphase : ∀ x, s.phase x = m.core.phase x := fun x => by
    have : s.phase x = s.abs.phase x := rfl
    rw [this, habs]
    rfl
  have hrem : s.remembered c = m.core.remembered c := by
    rw [hs]
    rfl
  have hid : Identity m.core s := by
    rw [hs]
    exact ⟨fun _ => rfl, fun _ => rfl, rfl, rfl, rfl⟩
  rcases hway with ⟨hr0, hr2, rfl⟩ | ⟨hnil, s1, h1, rfl⟩ | ⟨hnil, hzero, hway⟩
  · -- sleep
    have ha : (s.setTcb c fun tcb => { tcb with state := .inactive }).abs = s.abs := by
      rw [setTcb_abs_idle (by rfl) (by simp) (by simp)]
      exact set_idle ((hphase c).trans hidle)
    have hid1 : Identity s (s.setTcb c fun tcb => { tcb with state := .inactive }) :=
      setTcb_identity rfl
    exact ⟨.inl ⟨fun hex => hex.1 ⟨hr0, hr2⟩, ha.trans habs⟩, hid.trans hid1⟩
  · have hown' : OwnUtcbs s := by
      rw [hs]
      exact hown
    have hblocked' : BlockedLive s := by
      intro x hx
      rw [hphase] at hx
      rw [hid.live]
      exact hblocked x hx
    by_cases hlog : (m.core.tcb c).frame.r0 = tidToGlobalid THREAD_LOG
    · -- the log thread
      obtain ⟨p, _, ⟨_, hs1⟩ | ⟨hne, _⟩⟩ := sysIpcSend_cases h1
      · have ha : s1.abs = s.abs := by
          rw [hs1, setRunnable_abs]
          exact set_idle ((hphase c).trans hidle)
        have hid1 : Identity s s1 := by
          rw [hs1]
          exact setTcb_identity rfl
        exact ⟨.inl ⟨fun hex => hex.2 hlog, ha.trans habs⟩, hid.trans hid1⟩
      · exact absurd hlog hne
    obtain ⟨hcall, hid', hnot⟩ := sysIpcSend_call (partner? (m.core.remembered c)) h1
      (by rw [htcb]) hnil hlog (hid.caller.trans hcaller) (by rw [htcb]; exact hstate)
      ((hid.live c).trans hlive) hown' hblocked' habs
    rw [htcb] at hcall
    refine ⟨.inr ⟨⟨fun h => hnil h.1, hlog⟩, hcall, fun d k r hp => ?_⟩, hid.trans hid'⟩
    have hw := hnot d k r hp
    rintro ⟨t, ht, hrecv⟩
    refine hw ⟨t, ?_, by rw [htcb]; exact hrecv⟩
    rw [← ht]
    refine threadByGlobalid_congr ?_ (fun t => by unfold Core.number; rw [htcb]) ?_ _
    · rw [hs]
    · rw [hs]
  · have hex : Exchanges m.core c := by
      refine ⟨fun h => h.2 hzero, ?_⟩
      rw [hnil]
      decide
    have hnone : named? (m.core.tcb c).frame.r0 = none := by
      unfold named?
      rw [if_pos hnil]
    rcases hway with ⟨hfrom, rfl⟩ | ⟨hfrom, rfl⟩
    · -- only a receive phase
      dsimp only
      generalize hs1 : s.setTcb c _ = s1
      have hp : s1.phase c = .receiving (partner? (m.core.tcb c).frame.r1) := by
        rw [← hs1, Core.phase_receiving (by rw [Core.tcb_setTcb, if_pos rfl]), Core.tcb_setTcb,
          if_pos rfl]
      have ha : s1.abs = s.abs.set c (.receiving (partner? (m.core.tcb c).frame.r1)) := by
        rw [← hp, ← hs1]
        exact setTcb_abs rfl
      refine ⟨.inr ⟨hex, ?_, fun d k r hs' => ?_⟩, ?_⟩
      · rw [ha, habs]
        refine .receive hnone ?_
        unfold reply?
        rw [if_neg hfrom]
      · rw [hp] at hs'
        simp at hs'
      · rw [← hs1]
        exact hid.trans (setTcb_identity rfl)
    · -- neither: blocked in a send, with what the UTCB remembers
      dsimp only
      generalize hs1 : s.setTcb c _ = s1
      have hp : s1.phase c = .sending none (partner? (m.core.remembered c)) none := by
        have hrem' : s1.remembered c = m.core.remembered c := by
          rw [← hrem, ← hs1]
          refine Core.remembered_congr ?_ fun _ _ => rfl
          rw [Core.tcb_setTcb, if_pos rfl]
        have htcb' : s1.tcb c = { m.core.tcb c with state := .sendBlocked } := by
          rw [← hs1, Core.tcb_setTcb, if_pos rfl, htcb]
        rw [Core.phase_sending (by rw [htcb']), hrem', htcb', hnone]
        unfold reply?
        rw [if_pos hfrom]
      have ha : s1.abs = s.abs.set c (.sending none (partner? (m.core.remembered c)) none) := by
        rw [← hp, ← hs1]
        exact setTcb_abs rfl
      refine ⟨.inr ⟨hex, ?_, fun d k r hs' => ?_⟩, ?_⟩
      · rw [ha, habs]
        refine .lost hnone ?_
        unfold reply?
        rw [if_pos hfrom]
      · rw [hp] at hs'
        simp at hs'
      · rw [← hs1]
        exact hid.trans (setTcb_identity rfl)

/-! ## Steps -/

theorem syscallHandler_cases (h : syscallHandler mm kip m = .ok m') :
    ∃ c, m.core.caller = some c ∧
    ((svcNum m.core c = SYS_THREAD_CONTROL ∧ ∃ s, sysThreadControl mm m.core c = .ok s ∧
        m' = { m with core := s.setTcb c fun tcb => { tcb with state := .runnable } }) ∨
      (svcNum m.core c = SYS_IPC ∧ sysIpc mm kip m c = .ok m') ∨
      (svcNum m.core c ≠ SYS_THREAD_CONTROL ∧ svcNum m.core c ≠ SYS_IPC ∧
        m' = { m with core := m.core.setTcb c fun tcb => { tcb with state := .runnable } })) := by
  obtain ⟨c, hc, h⟩ := bind_ok.mp h
  refine ⟨c, nonNull_ok.mp hc, ?_⟩
  dsimp only at h
  split at h
  · rename_i htc
    obtain ⟨s, hs, h⟩ := bind_ok.mp h
    exact .inl ⟨htc, s, hs, (pure_ok.mp h).symm⟩
  · rename_i htc
    split at h
    · rename_i hipc
      exact .inr (.inl ⟨hipc, h⟩)
    · rename_i hipc
      exact .inr (.inr ⟨htc, hipc, (pure_ok.mp h).symm⟩)

/-- The event is not a call of `sys_thread_control`, and a thread that traps is allocated. -/
def NotThreadControl (m : Machine) : Event → Prop
  | .svc thr _ => m.core.live thr = true
  | .syscall => ∀ c, m.core.caller = some c → svcNum m.core c ≠ SYS_THREAD_CONTROL
  | _ => True

/-- Between two steps: threads have their own UTCBs, only allocated ones are blocked, and the
caller of a pending system call waits for it. -/
structure Machine.Ready (m : Machine) : Prop where
  own : OwnUtcbs m.core
  blocked : BlockedLive m.core
  pending : m.syscallSoftirq = true → ∃ c, m.core.caller = some c ∧ m.core.live c = true ∧
    ((m.core.tcb c).state = .svcBlocked ∨ (m.core.tcb c).state = .runnable)

theorem Identity.ownUtcbs (h : Identity s s') (hown : OwnUtcbs s) : OwnUtcbs s' :=
  hown.congr (fun t ht => (h.live t).symm.trans ht) h.utcb

theorem Identity.blockedLive (h : Identity s s') (hb : BlockedLive s)
    (hp : ∀ x, s'.phase x ≠ .idle → s.phase x ≠ .idle ∨ s.live x = true) : BlockedLive s' := by
  intro x hx
  rw [h.live]
  rcases hp x hx with hx | hl
  · exact hb x hx
  · exact hl

/-- A thread that is blocked after a move was blocked before. -/
theorem move_blocked {s s' : State TcbRef Nat} (h : Move s s') (hx : s'.phase x ≠ .idle) :
    s.phase x ≠ .idle := by
  cases h with
  | wake t =>
    rw [State.set_phase] at hx
    split at hx
    · exact absurd rfl hx
    · exact hx
  | @pair f t dest kept reply source hf ht _ =>
    rcases s.transfer_cases f t dest reply x with ⟨hxf, _⟩ | ⟨_, hp⟩ | ⟨_, hp⟩
    · rw [hxf, hf]
      simp
    · exact absurd hp hx
    · rw [hp] at hx
      exact hx

theorem moves_blocked {s s' : State TcbRef Nat} (h : Relation.ReflTransGen Move s s')
    (hx : s'.phase x ≠ .idle) : s.phase x ≠ .idle := by
  induction h with
  | refl => exact hx
  | tail _ hm ih => exact ih (move_blocked hm hx)

/-- A thread that is blocked after a call is the caller, or was blocked before. -/
theorem call_blocked {s s' : State TcbRef Nat} {dest old : Option Nat}
    {reply : Option (Option Nat)} (h : Call c dest reply old s s') (hx : s'.phase x ≠ .idle) :
    s.phase x ≠ .idle ∨ x = c := by
  have hset : ∀ p, ((s.called c dest).set c p).phase x ≠ .idle → s.phase x ≠ .idle ∨ x = c := by
    intro p hx
    rw [State.set_phase] at hx
    split at hx
    · exact .inr ‹_›
    · exact .inl hx
  cases h with
  | stay => exact .inl hx
  | receive _ _ => exact hset _ hx
  | lost _ _ => exact hset _ hx
  | blocked _ _ => exact hset _ hx
  | @direct d t _ _ =>
    rcases (s.called c dest).transfer_cases c t dest reply x with
      ⟨hxc, _⟩ | ⟨_, hp⟩ | ⟨_, hp⟩
    · exact .inr hxc
    · exact absurd hp hx
    · rw [hp] at hx
      exact .inl hx

theorem Moves.ready (h : Moves m.core s') (hr : m.Ready) (hcore : m'.core = s')
    (hirq : m'.syscallSoftirq = m.syscallSoftirq) : m'.Ready := by
  subst hcore
  refine ⟨h.identity.ownUtcbs hr.own, h.identity.blockedLive hr.blocked fun x hx =>
    .inl (moves_blocked h.moves hx), fun hp => ?_⟩
  rw [hirq] at hp
  obtain ⟨c, hc, hlive, hstate⟩ := hr.pending hp
  refine ⟨c, h.identity.caller.trans hc, (h.identity.live c).trans hlive, ?_⟩
  have hsend : (m.core.tcb c).state ≠ .sendBlocked := by
    rcases hstate with hst | hst
    · rw [hst]
      simp
    · rw [hst]
      simp
  rcases h.woken c hsend with he | he
  · rw [he]
    exact hstate
  · exact .inr he

theorem eventHandler_moves {k k' : Ktimer TimerHandler}
    (h : Ktimer.eventHandler (TimerHandler.run mm) s k = .ok (s', k')) : Moves s s' :=
  Ktimer.eventHandler_rule (I := fun _ st _ => Moves s st) (fun _ _ _ _ _ hI => hI)
    (fun _ _ _ _ _ _ hrun hI => have hm := hI.trans (timerHandler_moves hrun)
      ⟨fun _ => hm, fun _ => hm⟩) (fun _ _ _ _ _ hI => hI) h (.refl s)

theorem svcHandler_abs (user : UserState) (hstate : (m.core.tcb t).state = .runnable) :
    (svcHandler m t user).core.abs = m.core.abs ∧
      (∀ x, ((svcHandler m t user).core.tcb x).utcb = (m.core.tcb x).utcb) ∧
      (∀ x, (svcHandler m t user).core.live x = m.core.live x) ∧
      (svcHandler m t user).core.caller = some t ∧
      ((svcHandler m t user).core.tcb t).state = .svcBlocked := by
  unfold svcHandler
  dsimp only
  generalize hs1 : m.core.setTcb t _ = s1
  have htcb : (s1.tcb t).state = .svcBlocked := by
    rw [← hs1, Core.tcb_setTcb, if_pos rfl]
  have ha : s1.abs = m.core.abs := by
    rw [← hs1, setTcb_abs_idle (by rfl) (by simp) (by simp)]
    exact set_idle (Core.phase_of_idle (by rw [hstate]; simp) (by rw [hstate]; simp))
  have hid : Identity m.core s1 := by
    rw [← hs1]
    exact setTcb_identity rfl
  cases hu : (s1.tcb t).utcb with
  | none => exact ⟨ha, hid.utcb, hid.live, rfl, htcb⟩
  | some u =>
    have hc : Copied s1 (s1.setUtcb u fun utcb => { utcb with mr := user.mr }) :=
      setUtcb_copied rfl
    refine ⟨hc.abs.trans ha, fun x => (hc.utcbOf x).trans (hid.utcb x),
      fun x => (hc.live x).trans (hid.live x), rfl, (hc.state t).trans htcb⟩

/-- Steps without thread control, in the abstraction: a call of `sys_ipc`, or moves. -/
theorem Machine.Step.ipc (h : Machine.Step mm kip m e m') (hr : m.Ready)
    (hn : NotThreadControl m e) : m'.Ready ∧
    ((∃ c, e = .syscall ∧ m.core.caller = some c ∧ svcNum m.core c = SYS_IPC ∧
        m.core.phase c = .idle ∧ SysIpcCall m m' c) ∨
      Relation.ReflTransGen Move m.core.abs m'.core.abs) := by
  cases h with
  | @svc t user hirq _ hstate =>
    obtain ⟨ha, hutcb, hl, hcaller, hst⟩ := svcHandler_abs user hstate
    refine ⟨⟨hr.own.congr (fun x hx => (hl x).symm.trans hx) hutcb, fun x hx => ?_,
      fun _ => ⟨t, hcaller, (hl t).trans hn, .inl hst⟩⟩, .inr (by rw [ha])⟩
    rw [hl]
    refine hr.blocked x ?_
    rw [← abs_phase ha]
    exact hx
  | @syscall m1 hirq h =>
    obtain ⟨c, hc, hlive, hstate⟩ := hr.pending hirq
    have hidle : m.core.phase c = .idle := Core.phase_of_ready hstate
    have hnot := hn c hc
    obtain ⟨c', hc', h⟩ := syscallHandler_cases h
    obtain rfl := Option.some.inj (hc.symm.trans hc')
    rcases h with ⟨htc, _⟩ | ⟨hipc, h⟩ | ⟨_, _, rfl⟩
    · exact absurd htc hnot
    · obtain ⟨hcall, hid⟩ := sysIpc_call h hc hstate hlive hr.own hr.blocked
      refine ⟨⟨hid.ownUtcbs hr.own, hid.blockedLive hr.blocked fun x hx => ?_,
        fun hf => absurd hf (by simp)⟩, .inl ⟨c, rfl, hc, hipc, hidle, hcall⟩⟩
      rcases hcall with ⟨_, ha⟩ | ⟨_, hcall, _⟩
      · left
        have : m1.core.phase x = m.core.phase x := congrFun (congrArg State.phase ha) x
        rw [← this]
        exact hx
      · rcases call_blocked hcall hx with hx | rfl
        · exact .inl hx
        · exact .inr hlive
    · have ha : (m.core.setTcb c fun tcb => { tcb with state := .runnable }).abs =
          m.core.abs := by
        rw [setRunnable_abs]
        exact set_idle hidle
      have hid : Identity m.core (m.core.setTcb c fun tcb => { tcb with state := .runnable }) :=
        setTcb_identity rfl
      refine ⟨⟨hid.ownUtcbs hr.own, hid.blockedLive hr.blocked fun x hx => ?_,
        fun hf => absurd hf (by simp)⟩, .inr (by rw [ha])⟩
      left
      rw [← abs_phase ha]
      exact hx
  | tick => exact ⟨⟨hr.own, hr.blocked, hr.pending⟩, .inr .refl⟩
  | timer _ h =>
    have hm := eventHandler_moves h
    exact ⟨hm.ready hr rfl rfl, .inr hm.moves⟩
  | deliver h =>
    have hm := ipcDeliver_moves h
    exact ⟨hm.ready hr rfl rfl, .inr hm.moves⟩

/-! ## Execution -/

/-- Carry out an event, if it can happen. -/
def Machine.exec (mm : Memmap) (kip : Word) (m : Machine) : Event → Option Machine
  | .svc thr user =>
    if m.syscallSoftirq = false ∧ globalidToTid (m.core.tcb thr).tGlobalid ≠ THREAD_KERNEL ∧
        (m.core.tcb thr).state = .runnable then some (svcHandler m thr user)
    else none
  | .syscall =>
    if m.syscallSoftirq = true then
      match syscallHandler mm kip m with
      | .ok m' => some { m' with syscallSoftirq := false }
      | .error _ => none
    else none
  | .tick => some { m with timer := m.timer.tick }
  | .timer =>
    if m.timer.kteSoftirq = true then
      match Ktimer.eventHandler (TimerHandler.run mm) m.core
          { m.timer with kteSoftirq := false } with
      | .ok (core, timer) => some { m with core := core, timer := timer }
      | .error _ => none
    else none
  | .deliver =>
    match ipcDeliver mm m.core with
    | .ok (_, core) => some { m with core := core }
    | .error _ => none

theorem Machine.exec_step (h : m.exec mm kip e = some m') :
    Machine.Step mm kip m e m' := by
  cases e with
  | svc thr user =>
    simp only [Machine.exec] at h
    split at h
    · rename_i hg
      injection h with h
      rw [← h]
      exact .svc hg.1 hg.2.1 hg.2.2
    · simp at h
  | syscall =>
    simp only [Machine.exec] at h
    split at h
    · rename_i hirq
      split at h
      · rename_i m1 h1
        injection h with h
        rw [← h]
        exact .syscall hirq h1
      · simp at h
    · simp at h
  | tick =>
    injection h with h
    rw [← h]
    exact .tick
  | timer =>
    simp only [Machine.exec] at h
    split at h
    · rename_i hirq
      split at h
      · rename_i core timer h1
        injection h with h
        rw [← h]
        exact .timer hirq h1
      · simp at h
    · simp at h
  | deliver =>
    simp only [Machine.exec] at h
    split at h
    · rename_i n core h1
      injection h with h
      rw [← h]
      exact .deliver h1
    · simp at h

theorem Machine.run_reachable (hm : init m) (es : List Event)
    (h : TSys.runAll (Machine.exec mm kip) (fun _ _ => true) m es = some m') :
    (Machine.system mm kip init).Reachable (fun _ _ => True) m' :=
  .runAll (fun _ _ _ => Machine.exec_step) (fun _ _ _ => trivial) es (.init hm) h

/-- The test for `NotThreadControl`. -/
def notThreadControl? (m : Machine) : Event → Bool
  | .svc thr _ => m.core.live thr
  | .syscall => m.core.caller.all fun c => decide (svcNum m.core c ≠ SYS_THREAD_CONTROL)
  | _ => true

theorem notThreadControl_of_test (h : notThreadControl? m e = true) : NotThreadControl m e := by
  cases e with
  | svc thr user => exact h
  | syscall =>
    intro c hc
    unfold notThreadControl? at h
    rw [hc] at h
    simpa using h
  | tick => trivial
  | timer => trivial
  | deliver => trivial

/-! ## Six threads

The machine of the concrete runs: the idle thread, the kernel thread, the root thread and three
user threads. Every SVC instruction is a `sys_ipc`. -/

/-- Thread `i` of the table. -/
def userThread (i tid : Nat) : Tcb :=
  { (default : Tcb) with
    tGlobalid := tidToGlobalid tid
    state := .runnable
    utcb := some (BitVec.ofNat 32 (0x20008000 + 0x100 * i)) }

/-- The thread numbers in the order of the table, which is that of the map. -/
def sixNumbers : List Nat := [THREAD_IDLE, THREAD_KERNEL, THREAD_ROOT, 256, 257, 258]

def sixThreads : Machine where
  core :=
    { mem := emptyKernel fun _ => false
      threadTable :=
        { num := configMaxThreads
          bitmap := 0x3F
          data := fun i => if i < 6 then userThread i (sixNumbers.getD i 0) else default }
      threadMap := fun i => if i < 6 then some i else none
      threadCount := 6
      utcbs := fun _ => default
      slots := fun _ => none
      caller := none
      code := fun _ => SYS_IPC
      transfers := []
      calls := [] }
  timer := Ktimer.initial ⟨.ipcDeliver, 0#32⟩
  syscallSoftirq := false

theorem sixThreads_start : sixThreads.Start where
  unblocked t := by
    by_cases ht : t < 6
    · right
      show (if t < 6 then _ else default : Tcb).state = _
      rw [if_pos ht]
      rfl
    · left
      show (if t < 6 then _ else default : Tcb).state = _
      rw [if_neg ht]
      rfl
  own t t' u u' hl hl' hu hu' hne := by
    have hlt : ∀ (x : Nat) v, (sixThreads.core.tcb x).utcb = some v →
        x < 6 ∧ v = BitVec.ofNat 32 (0x20008000 + 0x100 * x) := by
      intro x v hx
      have hx' : (if x < 6 then userThread x (sixNumbers.getD x 0) else default : Tcb).utcb =
        some v := hx
      by_cases h6 : x < 6
      · rw [if_pos h6] at hx'
        injection hx' with hx'
        exact ⟨h6, hx'.symm⟩
      · rw [if_neg h6] at hx'
        simp [default] at hx'
    obtain ⟨h1, rfl⟩ := hlt t u hu
    obtain ⟨h2, rfl⟩ := hlt t' u' hu'
    have hne : ¬ @Eq Nat t t' := hne
    unfold UtcbsApart UTCB_SIZE
    simp only [BitVec.le_def, BitVec.toNat_sub, BitVec.toNat_ofNat]
    omega
  transfers := rfl
  calls := rfl
  syscallSoftirq := rfl

/-- A computed run of the six threads to a state with a property. -/
theorem exists_sixRun (h0 : init sixThreads) (es : List Event) (p : Machine → Bool)
    (h : (TSys.runAll (Machine.exec [] 0#32) (fun _ _ => true) sixThreads es).any p = true) :
    ∃ m, (Machine.system [] 0#32 init).Reachable (fun _ _ => True) m ∧ p m = true := by
  obtain ⟨m, hm, hp⟩ := (Option.any_eq_true _ _).mp h
  exact ⟨m, Machine.run_reachable h0 es hm, hp⟩

/-- The state of a thread that calls with this destination and this source. The message has no
words but this tag. -/
def ipcUser (dest source tag : Word) : UserState where
  sp := 0x2000C000#32
  frame := { (default : Frame) with r0 := dest, r1 := source }
  regs := fun i => if i = 0 then tag else 0#32
  mr := fun _ => 0#32

/-- The trap of a thread with an empty message. -/
def ipcTrap (thr : TcbRef) (dest source : Word) : Event := .svc thr (ipcUser dest source 0#32)

end F9
