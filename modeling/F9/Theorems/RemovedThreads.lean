import F9.Logic.Running
import F9.Logic.ThreadControl

/-!
# Removed threads do not run

A removal takes a thread out of the map and the tree, but the slots of the scheduler, the timer
events and `caller` are pointers that it does not look at. The theorem gives the condition on the
calls under which all of these stay pointers to allocated threads, so that the scheduler only
returns such threads.
-/

namespace F9

open Result

variable {c : TcbRef} {mm : Memmap} {k k' : Ktimer TimerHandler} {m m' : Machine} {kip : Word}
  {r : Running} {s' : Core} {B : TcbRef → Prop}

/-- The pointers of the kernel to threads: those in the slots and `caller` are to allocated threads,
and so are the partners of blocked threads and the links of the tree. An allocated thread is a
system thread or in the tree; those without a space are not removed. -/
structure CleanCore (sys : SystemThreads) (s : Core) : Prop where
  partners : PartnerInv s
  tree : ThreadTree s sys.root
  kinds : ∀ t, s.live t = true →
    t = sys.idle ∨ t = sys.root ∨ t = sys.kernel ∨ THREAD_SYS ≤ s.number t
  spared : ∀ t, t = sys.idle ∨ t = sys.kernel → s.live t = true ∧ (s.tcb t).as = none
  slots : ∀ i t, s.slots i = some t → s.live t = true
  caller : ∀ c, s.caller = some c → s.live c = true ∧ c ≠ sys.idle ∧ c ≠ sys.kernel

/-- The threads with timer events. -/
structure CleanTimer (es : List KteRef) (k : Ktimer TimerHandler) (s : Core) : Prop where
  stored : Ktimer.Stored es k
  timeouts : ∀ e ∈ es ++ k.eventQueue, ∀ t, k.handlerOf e = .ipcTimeout t → s.live t = true

structure CleanInv (sys : SystemThreads) (r : Running) : Prop where
  core : CleanCore sys r.machine.core
  timer : CleanTimer [] r.machine.timer r.machine.core
  current : r.machine.core.live r.current = true

namespace CleanCore

variable {sys : SystemThreads} {s s' : Core}

/-- The same threads, with allocated ones as partners, in the slots and as caller. -/
theorem same (h : CleanCore sys s) (hs : SameThreads s s') (hp : PartnerInv s')
    (hslots : ∀ i t, s'.slots i = some t → s.live t = true)
    (hcaller : ∀ c, s'.caller = some c → s.live c = true ∧ c ≠ sys.idle ∧ c ≠ sys.kernel) :
    CleanCore sys s' := by
  refine ⟨hp, h.tree.same hs, fun t ht => ?_, fun t ht => ?_, fun i t ht => ?_, fun c hc => ?_⟩
  · rw [hs.live] at ht
    rw [hs.number]
    exact h.kinds t ht
  · rw [hs.live, hs.as]
    exact h.spared t ht
  · rw [hs.live]
    exact hslots i t ht
  · rw [hs.live]
    exact hcaller c hc

theorem dispatches (h : CleanCore sys s) (hd : Dispatches (fun t => s.live t = true) B s s')
    (hp : PartnerInv s') : CleanCore sys s' := by
  refine h.same hd.same hp (fun i t ht => ?_) fun c hc => h.caller c (hd.caller ▸ hc)
  rcases hd.slots i with heq | ⟨_, u, hu, hlive⟩
  · exact h.slots i t (heq ▸ ht)
  · rw [hu] at ht
    rw [← Option.some.inj ht]
    exact hlive

theorem caller_mem (h : CleanCore sys s) (hc : s.caller = some c) :
    c ∈ insert sys.root s.created := by
  obtain ⟨hlive, hidle, hkernel⟩ := h.caller c hc
  rcases h.kinds c hlive with heq | heq | heq | hsys
  · exact absurd heq hidle
  · exact .inl heq
  · exact absurd heq hkernel
  · exact .inr ⟨hlive, hsys⟩

theorem selected {t : TcbRef} (h : CleanCore sys s)
    (hsel : scheduleSelect sys.root s = .ok (t, s')) : s.live t = true := by
  obtain ⟨_, _, slot, _, _, _, ⟨hslot, _⟩ | ⟨hsel, _, _⟩⟩ := selectSlot_ok _ hsel
  · exact h.slots slot t hslot
  · obtain ⟨o, ho, hfound, _⟩ := threadSelect_tree h.tree
    have heq : o = some t := ok_ok.mp (ho.symm.trans hsel)
    exact (hfound t heq).1.1

end CleanCore

/-! ## Deliveries and timeouts -/

theorem PartnerInv.parties {s : Core} (h : PartnerInv s) {i : Nat} (hi : i < s.threadCount) :
    Parties (fun t => s.live t = true) s i := by
  have hentry : ∀ x, s.threadMap i = some x → s.live x = true := by
    intro x hx
    obtain ⟨t, ht, hl⟩ := h.map.entry i hi
    rw [hx] at ht
    rw [Option.some.inj ht]
    exact hl
  have hpartner : ∀ x id t, s.live x = true → LeadsTo s id t →
      (∀ n, partner? id = some n → Wants s x n) → s.live t = true := by
    intro x id t hx hlead hw
    obtain ⟨t', ht', hl⟩ := h.lookup hx hw hlead.specific.1 hlead.specific.2
    rw [hlead.found] at ht'
    rw [Option.some.inj (ok_ok.mp ht')]
    exact hl
  rintro f t hf ht (⟨hmap, hlead⟩ | ⟨hmap, hlead⟩)
  · exact ⟨hentry f hmap, hpartner f _ t (hentry f hmap) hlead
      fun n hn => wants_iff.mpr (.inl ⟨hf, .inr hn⟩)⟩
  · exact ⟨hpartner t _ f (hentry t hmap) hlead
      fun n hn => wants_iff.mpr (.inr ⟨ht, hn⟩), hentry t hmap⟩

theorem ipcDeliver_clean {s : Core} {n : Word} (h : ipcDeliver mm s = .ok (n, s'))
    (hi : PartnerInv s) : Dispatches (fun t => s.live t = true) B s s' := by
  obtain ⟨s1, h1, h⟩ := bind_ok.mp h
  have heq := pure_pair.mp h
  rw [← heq.2]
  refine deliverLoop_dispatches (I := fun n i st => n ≠ 0 → PartnerInv st ∧
    i + n ≤ st.threadCount ∧ ∀ t, st.live t = s.live t) ?_ ?_ _ _ _ _ ?_ h1
  · rintro n i st st' hst hat -
    obtain ⟨hp, hcount, hlive⟩ := hst (by omega)
    have hm := (deliverAt_moves hat).calms
    exact ⟨Calms.inv hm hp, by rw [hm.threadCount]; omega,
      fun t => (hm.live t).trans (hlive t)⟩
  · intro n i st hst f t hf ht hparties
    obtain ⟨hp, hcount, hlive⟩ := hst (by omega)
    obtain ⟨hlf, hlt⟩ := hp.parties (by omega : i < st.threadCount) f t hf ht hparties
    exact ⟨(hlive f).symm.trans hlf, (hlive t).symm.trans hlt⟩
  · exact fun hne => ⟨hi, by omega, fun _ => rfl⟩

variable {sys : SystemThreads}

theorem eventHandler_clean {s : Core}
    (h : Ktimer.eventHandler (TimerHandler.run mm) s k = .ok (s', k')) (hs : CleanCore sys s)
    (hk : CleanTimer [] k s) :
    CleanCore sys s' ∧ CleanTimer [] k' s' ∧ ∀ t, s'.live t = s.live t := by
  refine Ktimer.eventHandler_rule (I := fun es st k => CleanCore sys st ∧ CleanTimer es k st ∧
    ∀ t, st.live t = s.live t) ?_ ?_ ?_ h ⟨hs, hk, fun _ => rfl⟩
  · rintro es q st k happ ⟨hst, htimer, hlive⟩
    refine ⟨hst, ⟨htimer.stored.due happ, fun e he => ?_⟩, hlive⟩
    rw [show es ++ q = k.eventQueue from happ] at he
    exact htimer.timeouts e he
  · rintro e es st k r st' hrun ⟨hst, htimer, hlive⟩
    have hd : Dispatches (fun t => st.live t = true) (fun _ => False) st st' := by
      cases hhandler : k.handlerOf e with
      | ipcDeliver =>
        rw [hhandler] at hrun
        exact ipcDeliver_clean hrun hst.partners
      | ipcTimeout t =>
        have ht := htimer.timeouts e (by simp) t hhandler
        rw [hhandler] at hrun
        have heq := Prod.mk.inj (ok_ok.mp hrun)
        rw [← heq.2]
        exact ipcTimeout_dispatches ht
    have hst' := hst.dispatches hd (Calms.inv (timerHandler_moves hrun).calms hst.partners)
    have hlive' : ∀ t, st'.live t = s.live t := fun t => (hd.same.live t).trans (hlive t)
    have htimeouts : ∀ x ∈ e :: es ++ k.eventQueue, ∀ t, k.handlerOf x = .ipcTimeout t →
        st'.live t = true := by
      intro x hx t ht
      rw [hd.same.live]
      exact htimer.timeouts x hx t ht
    constructor
    · intro hr
      refine ⟨hst', ⟨htimer.stored.schedule hr, fun x hx t ht => ?_⟩, hlive'⟩
      rw [Ktimer.handlerOf_eventSchedule] at ht
      exact htimeouts x ((htimer.stored.scheduled hr).1.mem_iff.mp hx) t ht
    · intro _
      exact ⟨hst', ⟨htimer.stored.free, fun x hx t ht =>
        htimeouts x (List.mem_cons_of_mem e hx) t ht⟩, hlive'⟩
  · rintro st k k' hqueue htable ⟨hst, htimer, hlive⟩
    refine ⟨hst, ⟨htimer.stored.congr hqueue fun e => by rw [htable], fun e he t ht => ?_⟩, hlive⟩
    rw [List.nil_append, hqueue] at he
    unfold Ktimer.handlerOf at ht
    rw [htable] at ht
    exact htimer.timeouts e he t ht

/-! ## Calls -/

/-- A message call names threads in the map, and its destination leads to an allocated thread. -/
structure CleanIpc (s : Core) (c : TcbRef) : Prop where
  named : ∀ n, Asks s c n → Named s n
  dest : (s.tcb c).frame.r0 ≠ L4_NILTHREAD → (s.tcb c).frame.r0 ≠ tidToGlobalid THREAD_LOG →
    ∀ t, threadByGlobalid s (s.tcb c).frame.r0 = .ok (some t) → s.live t = true

/-- A removal is of a thread in the map that nobody waits for, that is in no slot and has no timer
event. It is not the caller, and not above it unless it has no children. -/
structure CleanRemoval (m : Machine) (c : TcbRef) : Prop where
  named : Named m.core (globalidToTid (m.core.tcb c).frame.r0)
  unwanted : ∀ x, m.core.live x = true →
    ¬ Wants m.core x (globalidToTid (m.core.tcb c).frame.r0)
  found : ∀ thr, threadByGlobalid m.core (m.core.tcb c).frame.r0 = .ok (some thr) →
    thr ≠ c ∧ Removable m.core c thr ∧ (∀ i, m.core.slots i ≠ some thr) ∧ ¬ Wakes m.timer thr

/-- The calls must keep to this. -/
def KeepsSlots (r : Running) (e : CpuEvent) : Prop :=
  e = .event .syscall → ∀ c, r.machine.core.caller = some c →
    (svcNum r.machine.core c = SYS_IPC → CleanIpc r.machine.core c) ∧
    (svcNum r.machine.core c = SYS_THREAD_CONTROL →
      (r.machine.core.tcb c).frame.r1 = L4_NILTHREAD → CleanRemoval r.machine c)

/-- A thread that can be removed is a created one. -/
theorem CleanCore.removed_created {s : Core} {thr : TcbRef} (h : CleanCore sys s)
    (hs : sysThreadControl mm s c = .ok s') (hnil : (s.tcb c).frame.r1 = L4_NILTHREAD)
    (hnamed : Named s (globalidToTid (s.tcb c).frame.r0))
    (hthr : threadByGlobalid s (s.tcb c).frame.r0 = .ok (some thr)) : thr ∈ s.created := by
  obtain ⟨has, hparent⟩ := sysThreadControl_removed hs hnil hthr
  obtain ⟨_, t, _, _, hlive, _, _, hfound⟩ := h.partners.map.lookup hnamed
  have heq : thr = t := Option.some.inj (ok_ok.mp (hthr.symm.trans hfound))
  rw [← heq] at hlive
  rcases h.kinds thr hlive with hidle | hroot | hkernel | hsys
  · exact absurd (h.spared thr (.inl hidle)).2 has
  · obtain ⟨kids, htree⟩ := h.tree.tree
    exact absurd (hroot ▸ htree.top) hparent
  · exact absurd (h.spared thr (.inr hkernel)).2 has
  · exact ⟨hlive, hsys⟩

theorem CleanCore.control (h : CleanCore sys m.core) (hc : m.core.caller = some c)
    (hs : sysThreadControl mm m.core c = .ok s')
    (hk : (m.core.tcb c).frame.r1 = L4_NILTHREAD → CleanRemoval m c) : CleanCore sys s' := by
  obtain ⟨hslots, hcaller, hspares⟩ := sysThreadControl_spares hs
  obtain ⟨hnew, hgone⟩ := sysThreadControl_live hs
  refine ⟨?_, ?_, fun t ht => ?_, fun t ht => ?_, fun i t ht => ?_, fun c' hc' => ?_⟩
  · exact sysThreadControl_inv hs h.partners fun hnil => ⟨(hk hnil).named, (hk hnil).unwanted⟩
  · refine sysThreadControl_tree hs hc ⟨h.caller_mem hc, fun hnil thr hthr => ?_⟩ h.tree
    exact ⟨h.removed_created hs hnil (hk hnil).named hthr, ((hk hnil).found thr hthr).2.1⟩
  · rcases hnew t ht with ⟨hold, hnumber⟩ | hsys
    · rw [hnumber]
      exact h.kinds t hold
    · exact .inr (.inr (.inr hsys))
  · obtain ⟨hlive, has⟩ := h.spared t ht
    obtain ⟨hlive', has', _⟩ := hspares t hlive has
    exact ⟨hlive', has'⟩
  · rw [hslots] at ht
    refine (hgone t (h.slots i t ht)).resolve_right ?_
    rintro ⟨hnil, hthr⟩
    exact ((hk hnil).found t hthr).2.2.1 i ht
  · rw [hcaller] at hc'
    have heq : c' = c := Option.some.inj (hc'.symm.trans hc)
    obtain ⟨hlive, hne⟩ := h.caller c' hc'
    refine ⟨(hgone c' hlive).resolve_right ?_, hne⟩
    rintro ⟨hnil, hthr⟩
    exact ((hk hnil).found c' hthr).1 heq

/-! ## Steps -/

theorem CleanTimer.congr {es : List KteRef} {s : Core} (h : CleanTimer es k s)
    (hlive : ∀ t, s.live t = true → s'.live t = true) : CleanTimer es k s' :=
  ⟨h.stored, fun e he t ht => hlive t (h.timeouts e he t ht)⟩

/-- A sleep adds an event for the caller. -/
theorem CleanTimer.create {s : Core} (h : CleanTimer [] k s) (ticks : Word) (hc : s.live c = true) :
    CleanTimer [] (k.eventCreate ticks (.ipcTimeout c)).2 s := by
  obtain ⟨hstored, hkept, hsame, hadd⟩ := h.stored.create ticks (.ipcTimeout c)
  refine ⟨hstored, fun e he t ht => ?_⟩
  have hold : e ∈ k.eventQueue → s.live t = true := by
    intro he
    rw [hkept e he] at ht
    exact h.timeouts e he t ht
  by_cases hno : ticks = 0#32 ∨ k.eventTable.alloc = none
  · rw [List.nil_append, hsame hno] at he
    exact hold he
  · rw [not_or] at hno
    obtain ⟨⟨x, table⟩, halloc⟩ := Option.ne_none_iff_exists'.mp hno.2
    obtain ⟨_, hx, hperm⟩ := hadd hno.1 x table halloc
    rcases List.mem_cons.mp (hperm.mem_iff.mp he) with rfl | he
    · have heq : TimerHandler.ipcTimeout c = .ipcTimeout t := hx.symm.trans ht
      injection heq with heq
      rw [← heq]
      exact hc
    · exact hold he

theorem syscallHandler_clean {sys : SystemThreads} (hcall : syscallHandler mm kip m = .ok m')
    (h : CleanCore sys m.core) (ht : CleanTimer [] m.timer m.core)
    (hk : ∀ c, m.core.caller = some c →
      (svcNum m.core c = SYS_IPC → CleanIpc m.core c) ∧
      (svcNum m.core c = SYS_THREAD_CONTROL →
        (m.core.tcb c).frame.r1 = L4_NILTHREAD → CleanRemoval m c)) :
    CleanCore sys m'.core ∧ CleanTimer [] m'.timer m'.core := by
  obtain ⟨c, hc, hcall⟩ := syscallHandler_cases hcall
  obtain ⟨hipc, hcontrol⟩ := hk c hc
  rcases hcall with ⟨hnum, s, hs, rfl⟩ | ⟨hnum, hs⟩ | ⟨_, _, rfl⟩
  · have h1 := h.control hc hs (hcontrol hnum)
    refine ⟨h1.dispatches (setState_dispatches s c .runnable)
      (Calms.inv (setRunnable_calms s c) h1.partners), ht.stored, fun e he t hwakes => ?_⟩
    -- what was removed had no event
    refine ((sysThreadControl_live hs).2 t (ht.timeouts e he t hwakes)).resolve_right ?_
    rintro ⟨hnil, hthr⟩
    exact ((hcontrol hnum hnil).found t hthr).2.2.2 ⟨e, he, hwakes⟩
  · have hlive := (h.caller c hc).1
    have hd := sysIpc_dispatches (L := fun t => m.core.live t = true) hs hlive (hipc hnum).dest
    have hsame : ∀ t, m.core.live t = true → m'.core.live t = true :=
      fun t ht => (hd.same.live t).trans ht
    refine ⟨h.dispatches hd ((sysIpc_gains hs).inv h.partners (hipc hnum).named), ?_⟩
    obtain ⟨_, _, ⟨_, _, _, htimer⟩ | ⟨htimer, _⟩⟩ := sysIpc_outcome hs
    · rw [htimer]
      exact (ht.create _ hlive).congr hsame
    · rw [htimer]
      exact ht.congr hsame
  · exact ⟨h.dispatches (setState_dispatches m.core c .runnable)
      (Calms.inv (setRunnable_calms m.core c) h.partners), ht.congr fun _ ht => ht⟩

theorem Running.Step.clean {r' : Running} {e : CpuEvent} (hstep : Running.Step mm kip sys r e r')
    (hk : KeepsSlots r e) (h : CleanInv sys r) : CleanInv sys r' := by
  cases hstep with
  | @svc user _ hkernel hidle _ =>
    obtain ⟨hsame, hcaller, hslots, _⟩ := svcHandler_effect r.machine r.current user
    refine ⟨h.core.same hsame ?_ (fun i t ht => ?_) fun c hc => ?_,
      h.timer.congr fun t ht => (hsame.live t).trans ht, (hsame.live _).trans h.current⟩
    · exact Calms.inv (svcHandler_calms r.machine r.current user) h.core.partners
    · rw [hslots] at ht
      exact h.core.slots i t ht
    · rw [← Option.some.inj hc]
      exact ⟨h.current, hidle, hkernel⟩
  | syscall hkernel _ hcall =>
    obtain ⟨hcore, htimer⟩ := syscallHandler_clean hcall h.core h.timer (hk rfl)
    refine ⟨hcore, htimer, (hcore.spared _ (.inr ?_)).1⟩
    exact hkernel
  | tick =>
    obtain ⟨hqueue, htable⟩ := Ktimer.tick_queue r.machine.timer
    refine ⟨h.core, ⟨h.timer.stored.congr hqueue fun e => by rw [htable], fun e he t ht => ?_⟩,
      h.current⟩
    refine h.timer.timeouts e ?_ t ?_
    · rw [← hqueue]
      exact he
    · rw [← ht]
      unfold Ktimer.handlerOf
      rw [htable]
  | timer _ _ hrun =>
    obtain ⟨hcore, htimer, hlive⟩ := eventHandler_clean hrun h.core
      ⟨h.timer.stored.congr rfl fun _ => rfl, h.timer.timeouts⟩
    exact ⟨hcore, htimer, (hlive _).trans h.current⟩
  | deliver _ hrun =>
    have hd := ipcDeliver_clean (B := fun _ => False) hrun h.core.partners
    exact ⟨h.core.dispatches hd (Calms.inv (ipcDeliver_moves hrun).calms h.core.partners),
      h.timer.congr fun t ht => (hd.same.live t).trans ht, (hd.same.live _).trans h.current⟩
  | @kernelState state hstate =>
    have hcalms : Calms r.machine.core
        (r.machine.core.setTcb sys.kernel fun tcb => { tcb with state := state }) := by
      refine setTcb_calms rfl (.inr ?_)
      rcases hstate with rfl | rfl <;> exact ⟨by simp, by simp⟩
    exact ⟨h.core.dispatches (setState_dispatches r.machine.core sys.kernel state)
      (Calms.inv hcalms h.core.partners), h.timer.congr fun _ ht => ht, h.current⟩
  | schedule hrun =>
    obtain ⟨s, mem, hsel, hmachine⟩ := scheduleInIrq_effect hrun
    obtain ⟨hs, hslots⟩ := scheduleSelect_same hsel
    have hlive := h.core.selected hsel
    rw [hs] at hmachine
    have hcalms : Calms r.machine.core { r.machine.core with slots := s.slots, mem := mem } :=
      calms_of_same rfl rfl rfl rfl
    refine ⟨?_, ?_, ?_⟩
    · rw [hmachine]
      refine h.core.same ⟨fun _ => rfl, rfl, rfl, rfl, rfl, rfl⟩
        (Calms.inv hcalms h.core.partners) (fun i t ht => ?_) h.core.caller
      rcases hslots i with heq | ⟨_, heq, _⟩
      · exact h.core.slots i t (heq ▸ ht)
      · rw [← Option.some.inj (heq.symm.trans ht)]
        exact hlive
    · rw [hmachine]
      exact h.timer.congr fun _ ht => ht
    · rw [hmachine]
      exact hlive

/-! ## Runs -/

theorem Running.Booted.clean (h : r.Booted sys) : CleanInv sys r := by
  have hlive : ∀ t, t = sys.idle ∨ t = sys.root ∨ t = sys.kernel → r.machine.core.live t = true :=
    fun t ht => (h.threads.live t).mpr ht
  refine ⟨⟨⟨h.map, fun x n hx hw => ?_⟩, h.threads.tree, fun t ht => ?_, fun t ht => ?_,
    fun i t ht => ?_, fun c hc => ?_⟩, ⟨h.stored, fun e _ t ht => ?_⟩, ?_⟩
  · rw [wants_iff, h.threads.runnable x hx] at hw
    simp at hw
  · exact ((h.threads.live t).mp ht).imp_right (.imp_right .inl)
  · rcases ht with rfl | rfl
    · exact ⟨hlive _ (.inl rfl), h.threads.idleAs⟩
    · exact ⟨hlive _ (.inr (.inr rfl)), h.threads.kernelAs⟩
  · rw [h.threads.slots] at ht
    refine hlive t ?_
    cases i with
    | softirq => exact .inr (.inr (Option.some.inj ht).symm)
    | rootThread => exact .inr (.inl (Option.some.inj ht).symm)
    | idle => exact .inl (Option.some.inj ht).symm
    | intrThread => simp [systemSlots] at ht
    | ipcThread => simp [systemSlots] at ht
    | normalThread => simp [systemSlots] at ht
  · rw [h.threads.caller] at hc
    simp at hc
  · exact absurd ht (h.timeouts e t)
  · rw [h.current]
    exact hlive _ (.inr (.inr rfl))

/-- A test for message calls: their partners are in the map. -/
def cleanIpc? (s : Core) (c : TcbRef) : Bool :=
  ([(s.tcb c).frame.r0, (s.tcb c).frame.r1, s.remembered c].all fun id =>
    (partner? id).all fun n => decide (Named s n)) &&
  okWith (fun p => p.all fun t => s.live t) (threadByGlobalid s (s.tcb c).frame.r0)

theorem cleanIpc_of_test {s : Core} (h : cleanIpc? s c = true) : CleanIpc s c := by
  unfold cleanIpc? at h
  rw [Bool.and_eq_true] at h
  obtain ⟨hall, hlook⟩ := h
  have hid : ∀ id ∈ [(s.tcb c).frame.r0, (s.tcb c).frame.r1, s.remembered c],
      ∀ n, partner? id = some n → Named s n := by
    intro id hmem n hn
    have hn' := List.all_eq_true.mp hall id hmem
    rw [hn, Option.all_some] at hn'
    exact of_decide_eq_true hn'
  constructor
  · rintro n ⟨_, hn | hn | hn⟩
    · exact hid _ (by simp) n hn
    · exact hid _ (by simp) n hn
    · exact hid _ (by simp) n hn.2.2
  · intro _ _ t ht
    obtain ⟨p, hp, hlive⟩ := okWith_iff.mp hlook
    rw [ok_ok.mp (hp.symm.trans ht)] at hlive
    exact hlive

/-- A test for removals: nobody is blocked, the thread has no children, and no timer event is
queued. -/
def cleanRemoval? (m : Machine) (c : TcbRef) : Bool :=
  decide (Named m.core (globalidToTid (m.core.tcb c).frame.r0)) &&
  ((List.range m.core.threadTable.num).all fun x =>
    decide ((m.core.tcb x).state ≠ .sendBlocked ∧ (m.core.tcb x).state ≠ .recvBlocked)) &&
  okWith (fun p => p.all fun thr => decide (thr ≠ c) && (m.core.tcb thr).tChild.isNone &&
    schedSlots.all fun i => decide (m.core.slots i ≠ some thr))
    (threadByGlobalid m.core (m.core.tcb c).frame.r0) &&
  m.timer.eventQueue.isEmpty

theorem cleanRemoval_of_test (h : cleanRemoval? m c = true) : CleanRemoval m c := by
  simp only [cleanRemoval?, Bool.and_eq_true, decide_eq_true_eq, List.isEmpty_iff] at h
  obtain ⟨⟨⟨hnamed, hall⟩, hlook⟩, hqueue⟩ := h
  refine ⟨hnamed, fun x hx hw => ?_, fun thr hthr => ?_⟩
  · have hx' := List.all_eq_true.mp hall x (List.mem_range.mpr (live_lt hx))
    rw [decide_eq_true_eq] at hx'
    rw [wants_iff] at hw
    rcases hw with hw | hw
    · exact hx'.1 hw.1
    · exact hx'.2 hw.1
  · obtain ⟨p, hp, hthr'⟩ := okWith_iff.mp hlook
    rw [ok_ok.mp (hp.symm.trans hthr)] at hthr'
    simp only [Option.all_some, Bool.and_eq_true, decide_eq_true_eq,
      Option.isNone_iff_eq_none, List.all_eq_true] at hthr'
    obtain ⟨⟨hne, hchild⟩, hslots⟩ := hthr'
    refine ⟨hne, .inl hchild, fun i => hslots i (by cases i <;> decide), ?_⟩
    rintro ⟨e, he, _⟩
    rw [hqueue] at he
    simp at he

def keepsSlots? (r : Running) : CpuEvent → Bool
  | .event .syscall => r.machine.core.caller.all fun c =>
    (svcNum r.machine.core c != SYS_IPC || cleanIpc? r.machine.core c) &&
    (svcNum r.machine.core c != SYS_THREAD_CONTROL ||
      ((r.machine.core.tcb c).frame.r1 != L4_NILTHREAD || cleanRemoval? r.machine c))
  | _ => true

theorem keepsSlots_of_test (r : Running) (e : CpuEvent) (h : keepsSlots? r e = true) :
    KeepsSlots r e := by
  rintro rfl c hc
  simp only [keepsSlots?, hc, Option.all_some, Bool.and_eq_true, Bool.or_eq_true, bne_iff_ne] at h
  obtain ⟨hipc, hcontrol⟩ := h
  refine ⟨fun hnum => cleanIpc_of_test (hipc.resolve_left (not_not.mpr hnum)), fun hnum hnil => ?_⟩
  exact cleanRemoval_of_test
    ((hcontrol.resolve_left (not_not.mpr hnum)).resolve_left (not_not.mpr hnil))

end F9
