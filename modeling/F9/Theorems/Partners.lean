import F9.Kernel.UserWrites
import F9.Logic.Dispatch
import F9.Logic.ThreadControl

/-!
# The partners of blocked threads

`ipc_deliver` looks up the partner of each blocked thread and reads its state. The ids come
from user registers, and nothing keeps a partner from being removed: `thread_by_globalid`
then returns `NULL`, or through the entry behind the end of the map a freed thread.

The theorem gives the condition on the calls under which every partner is an allocated
thread, in every run of system calls, passes of `ipc_deliver` and timer events, and at every
place of a pass.
-/

namespace F9

open Result Rendezvous

variable {m : Machine} {e : Event} {mm : Memmap} {kip : Word} {m' : Machine}

/-- Every thread that `ipc_deliver` examines has an allocated partner. -/
def PartnersLive (s : Core) : Prop :=
  ∀ i thr, 1 ≤ i → i < s.threadCount → s.threadMap i = some thr →
    ((s.tcb thr).state = .recvBlocked → PartnerLive s (s.tcb thr).ipcFrom) ∧
    ((s.tcb thr).state = .sendBlocked → ∀ u, (s.tcb thr).utcb = some u →
      PartnerLive s (s.utcbs u).intendedReceiver)

theorem PartnerInv.partnersLive {s : Core} (h : PartnerInv s) : PartnersLive s := by
  intro i thr _ hi hthr
  obtain ⟨t, ht, hl⟩ := h.map.entry i hi
  rw [hthr] at ht
  rw [← Option.some.inj ht] at hl
  constructor
  · intro hst
    exact h.lookup hl fun n hn => wants_iff.mpr (.inr ⟨hst, hn⟩)
  · intro hst u hu
    refine h.lookup hl fun n hn => wants_iff.mpr (.inl ⟨hst, .inr ?_⟩)
    unfold Core.remembered
    rw [hu]
    exact hn

/-! ## Steps -/

/-- What the threads must keep to: those that call are allocated, `sys_ipc` names partners that are
in the map and does not send to a freed entry, the UTCB of a new thread overlaps no other, and a
thread that is removed is in the map and nobody's partner. -/
def PartnerCall (m : Machine) : Event → Prop
  | .svc thr _ => m.core.live thr = true
  | .syscall => ∀ c, m.core.caller = some c →
      (svcNum m.core c = SYS_IPC → (∀ n, Asks m.core c n → Named m.core n) ∧
        ∀ t, threadByGlobalid m.core (m.core.tcb c).frame.r0 = .ok (some t) →
          m.core.live t = true) ∧
      (svcNum m.core c = SYS_THREAD_CONTROL →
        ((m.core.tcb c).frame.r1 ≠ L4_NILTHREAD → ∀ x u, m.core.live x = true →
          (m.core.tcb x).utcb = some u → UtcbsApart ((m.core.tcb c).ctx.regs 0) u) ∧
        ((m.core.tcb c).frame.r1 = L4_NILTHREAD →
          Named m.core (globalidToTid (m.core.tcb c).frame.r0) ∧
          ∀ x, m.core.live x = true → ¬ Wants m.core x (globalidToTid (m.core.tcb c).frame.r0)))
  | _ => True

/-- The frame of a thread that is started goes over a UTCB, or out of the memory of the user. -/
def Overwrites (mm : Memmap) (m : Machine) (e : Event) : Prop :=
  e = .syscall ∧ (StrayFrame mm m ∨ FrameInUtcb m)

theorem Machine.Step.partners (h : Machine.Step mm kip m e m') (hi : PartnerInv m.core)
    (hp : PartnerCall m e) : PartnerInv m'.core := by
  cases h with
  | @svc t user _ _ _ => exact Calms.inv (svcHandler_calms m t user) hi
  | @syscall m1 _ h =>
    obtain ⟨c, hc, h⟩ := syscallHandler_cases h
    obtain ⟨hipc, hcontrol⟩ := hp c hc
    rcases h with ⟨hnum, s1, h1, rfl⟩ | ⟨hnum, h⟩ | ⟨_, _, rfl⟩
    · exact Calms.inv (setRunnable_calms s1 c)
        (sysThreadControl_inv h1 hi (hcontrol hnum).2)
    · exact (sysIpc_gains h).inv hi (hipc hnum).1
    · exact Calms.inv (setRunnable_calms m.core c) hi
  | tick => exact hi
  | timer _ h => exact Calms.inv (eventHandler_moves h).calms hi
  | deliver h => exact Calms.inv (ipcDeliver_moves h).calms hi

theorem Machine.Step.ownUtcbs (h : Machine.Step mm kip m e m') (hown : OwnUtcbs m.core)
    (hp : PartnerCall m e) : OwnUtcbs m'.core := by
  cases h with
  | @svc t user _ _ _ => exact (svcHandler_effect m t user).1.ownUtcbs hown
  | @syscall m1 _ h =>
    obtain ⟨c, hc, ⟨hnum, s1, h1, rfl⟩ | ⟨_, h⟩ | ⟨_, _, rfl⟩⟩ := syscallHandler_cases h
    · have hown1 := sysThreadControl_ownUtcbs h1 hown ((hp c hc).2 hnum).1
      exact (setState_same s1 c .runnable).ownUtcbs hown1
    · have hd := sysIpc_dispatches (L := fun _ => True) h trivial fun _ _ _ _ => trivial
      exact hd.same.ownUtcbs hown
    · exact (setState_same m.core c .runnable).ownUtcbs hown
  | tick => exact hown
  | timer _ h => exact (eventHandler_moves h).identity.ownUtcbs hown
  | deliver h => exact (ipcDeliver_moves h).identity.ownUtcbs hown

/-- Threads that are not blocked, with UTCBs of their own, and their map. -/
structure Machine.Settled (m : Machine) : Prop where
  unblocked : ∀ t, (m.core.tcb t).state = .inactive ∨ (m.core.tcb t).state = .runnable
  own : OwnUtcbs m.core
  map : MapWf m.core

theorem Machine.Settled.inv (h : m.Settled) : PartnerInv m.core := by
  refine ⟨h.map, fun x n _ hw => ?_⟩
  rw [wants_iff] at hw
  rcases h.unblocked x with hst | hst
  · rw [hst] at hw
    simp at hw
  · rw [hst] at hw
    simp at hw

theorem sixThreads_settled : sixThreads.Settled where
  unblocked := sixThreads_start.unblocked
  own := sixThreads_start.own
  map :=
    { count := by decide
      entry := fun i hi => by
        have hlive : ∀ i, i < 6 → sixThreads.core.live i = true := by decide
        exact ⟨i, if_pos hi, hlive i hi⟩
      sorted := fun i j hij hj => by
        have hsorted : ∀ j, j < 6 → ∀ i, i < j + 1 →
            sixThreads.core.mapNo i ≤ sixThreads.core.mapNo j := by decide
        exact hsorted j hj i (by omega)
      once := fun i j t hi hj hti htj => by
        have hti' : (if i < 6 then some i else none) = some t := hti
        have htj' : (if j < 6 then some j else none) = some t := htj
        rw [if_pos (show i < 6 from hi)] at hti'
        rw [if_pos (show j < 6 from hj)] at htj'
        exact (Option.some.inj hti').trans (Option.some.inj htj').symm }

/-- A call of `sys_ipc` that names threads in the map only. -/
def partnered? (m : Machine) : Event → Bool
  | .svc thr _ => m.core.live thr
  | .syscall =>
    m.core.caller.all fun c =>
      decide (svcNum m.core c = SYS_IPC) &&
      ((m.core.tcb c).ctx.regs 0 != 0x00000003#32) &&
      (threadByGlobalid m.core (m.core.tcb c).frame.r0).toOption.join.all m.core.live &&
      [(m.core.tcb c).frame.r0, (m.core.tcb c).frame.r1, m.core.remembered c].all fun id =>
        (partner? id).all fun n =>
          (List.range m.core.threadCount).any fun i => decide (m.core.mapNo i = n)
  | _ => true

theorem partnered_call (h : partnered? m e = true) : PartnerCall m e := by
  cases e with
  | svc thr user => exact h
  | syscall =>
    intro c hc
    unfold partnered? at h
    rw [hc] at h
    simp only [Option.all_some, Bool.and_eq_true, decide_eq_true_eq] at h
    obtain ⟨⟨⟨hnum, _⟩, hto⟩, hall⟩ := h
    have hid : ∀ id ∈ [(m.core.tcb c).frame.r0, (m.core.tcb c).frame.r1, m.core.remembered c],
        ∀ n, partner? id = some n → Named m.core n := by
      intro id hmem n hn
      have := List.all_eq_true.mp hall id hmem
      rw [hn, Option.all_some] at this
      obtain ⟨i, hi, hno⟩ := List.any_eq_true.mp this
      exact ⟨i, List.mem_range.mp hi, of_decide_eq_true hno⟩
    constructor
    · refine fun _ => ⟨?_, fun t ht => by rw [ht] at hto; exact hto⟩
      rintro n ⟨_, hn | hn | hn⟩
      · exact hid _ (by simp) n hn
      · exact hid _ (by simp) n hn
      · exact hid _ (by simp) n hn.2.2
    · intro hcontrol
      rw [hnum] at hcontrol
      exact absurd hcontrol (by decide)
  | tick => trivial
  | timer => trivial
  | deliver => trivial

theorem partnered_keeps (h : partnered? m e = true) : ¬ Overwrites mm m e := by
  rintro ⟨rfl, hframe⟩
  obtain ⟨w, hw⟩ : ∃ w, FrameWord m w := hframe.elim (·.imp fun _ h => h.1) (·.imp fun _ h => h.1)
  refine not_frameWord (fun c hc => ?_) hw
  simp only [partnered?, hc, Option.all_some, Bool.and_eq_true, bne_iff_ne] at h
  exact h.1.1.2

end F9
