import F9.Kernel.UserWrites
import F9.Logic.Boot
import F9.Logic.Cover
import F9.Logic.IpcRuns

/-!
# Where a system call writes

The kernel writes at two kinds of addresses that it takes from a call: into the UTCB of a new thread
and into the frame of a thread that its pager starts. The UTCB is checked against the memory map
only, the stack pointer against nothing. So the words lie in pages of the threads of the call
exactly if the caller has chosen them so.
-/

namespace F9

open Result Traced

variable {s s' s1 s2 : Core} {id utcb w kip space : Word} {thr c : TcbRef} {mm : Memmap}

/-! ## Pages of the threads of a call -/

/-- The page holds all four bytes of the word. -/
def Fpage.HasWord (f : Fpage) (w : Word) : Prop := f.lo ≤ w.toNat ∧ w.toNat + 4 ≤ f.hi

/-- A page of the thread's space holds the word. -/
def Core.SpaceHas (s : Core) (t : TcbRef) (w : Word) : Prop :=
  ∃ a ∈ (s.tcb t).as, ∃ r ∈ s.mem.pages a, (s.mem.fp r).HasWord w

/-- A page that every new space gets holds the word. -/
def Core.KipHas (s : Core) (w : Word) : Prop :=
  (∃ r ∈ s.mem.kipFpage, (s.mem.fp r).HasWord w) ∨
    ∃ r ∈ s.mem.kipExtraFpage, (s.mem.fp r).HasWord w

/-- A page of the space of the thread with this id holds the word. -/
def Core.NamedHas (s : Core) (id : Word) (w : Word) : Prop :=
  ∃ t ∈ (threadByGlobalid s id).toOption.join, s.SpaceHas t w

/-- A page of the target's space holds the word, when the call is made. The target is the new
thread, whose space is new or that of the thread it names, or the destination of a message. -/
def Machine.TargetHas (m : Machine) (c : TcbRef) (w : Word) : Prop :=
  let frame := (m.core.tcb c).frame
  if svcNum m.core c = SYS_THREAD_CONTROL then
    if globalidToTid frame.r0 = globalidToTid frame.r1 then m.core.KipHas w
    else m.core.NamedHas frame.r1 w
  else m.core.NamedHas frame.r0 w

/-- The word is inside a page of the caller's or the target's space. -/
def Machine.Inside (m : Machine) (c : TcbRef) (w : Word) : Prop :=
  m.core.SpaceHas c w ∨ m.TargetHas c w

/-! ## The words of a call -/

/-- The fields of a UTCB that are written. -/
def utcbWords (utcb : Word) : List Word := [utcb + utcbTGlobalid, utcb + utcbTPager]

/-- The UTCB of a creation that passes the check, and the frame of a thread that is started, are
where the caller or the target has pages. -/
structure CallConfined (mm : Memmap) (m : Machine) (c : TcbRef) : Prop where
  creation : svcNum m.core c = SYS_THREAD_CONTROL → (m.core.tcb c).frame.r1 ≠ L4_NILTHREAD →
    utcbAllowed mm ((m.core.tcb c).ctx.regs 0) = true →
    ∀ w ∈ utcbWords ((m.core.tcb c).ctx.regs 0), m.Inside c w
  start : svcNum m.core c = SYS_IPC → ∀ t, Starts m.core c t →
    ∀ w ∈ frameWords ((m.core.tcb c).ctx.regs 2 - RESERVED_STACK), m.Inside c w

/-! ## Thread control -/

namespace UserWrites

theorem threadInit_log_mem (hw : w ∈ (threadInit s id utcb).log) : w = utcb + utcbTGlobalid := by
  unfold threadInit at hw
  split at hw
  · rw [mem_log_lift] at hw
    simp at hw
  · rw [mem_log_lift] at hw
    obtain ⟨_, _, hw⟩ := hw
    simpa using hw

theorem threadInit_log (h : F9.threadInit s id (some utcb) = .ok (some thr, s')) :
    (threadInit s id utcb).log = [utcb + utcbTGlobalid] := by
  unfold F9.threadInit at h
  unfold threadInit
  cases halloc : s.threadTable.alloc with
  | none =>
    rw [halloc] at h
    obtain ⟨_, _, h⟩ := bind_ok.mp h
    exact absurd (pure_ok.mp h) (by simp)
  | some new =>
    rw [halloc] at h
    obtain ⟨s1, h1, _⟩ := bind_ok.mp h
    rw [log_lift_ok h1]
    rfl

theorem threadCreate_log_mem (hw : w ∈ (threadCreate s id utcb).log) :
    w = utcb + utcbTGlobalid := by
  unfold threadCreate at hw
  split at hw
  · simp at hw
  · split at hw
    · rw [mem_log_lift] at hw
      simp at hw
    · rcases mem_log_bind.mp hw with hw | ⟨new, _, hw⟩
      · exact threadInit_log_mem hw
      · rw [mem_log_lift] at hw
        obtain ⟨thr, _, hw⟩ := hw
        dsimp only at hw
        split at hw
        · rw [mem_log_lift] at hw
          simp at hw
        · simp at hw

theorem threadCreate_log (h : F9.threadCreate s id (some utcb) = .ok (some thr, s')) :
    utcb + utcbTGlobalid ∈ (threadCreate s id utcb).log := by
  unfold F9.threadCreate at h
  unfold threadCreate
  cases hcaller : s.caller with
  | none =>
    rw [hcaller] at h
    simp at h
  | some caller =>
    rw [hcaller] at h
    dsimp only at h ⊢
    split at h
    · obtain ⟨_, _, h⟩ := bind_ok.mp h
      exact absurd (pure_ok.mp h) (by simp)
    · rename_i hid
      rw [if_neg hid]
      obtain ⟨⟨p, s1⟩, hinit, h⟩ := bind_ok.mp h
      obtain ⟨t, ht, _⟩ := bind_ok.mp h
      have hp : p = some t := nonNull_ok.mp ht
      rw [hp] at hinit
      refine mem_log_bind.mpr (.inl ?_)
      rw [threadInit_log hinit]
      exact List.mem_singleton_self _

theorem newThread_utcb (hcreate : F9.threadCreate s id (some utcb) = .ok (some thr, s1))
    (hspace : threadSetSpace mm s1 thr space utcb = .ok s2) : (s2.tcb thr).utcb = some utcb := by
  obtain ⟨_, s0, hinit, hlink⟩ := threadCreate_effect hcreate
  obtain ⟨as, mem, rfl⟩ := threadSetSpace_effect hspace
  show ((s1.setTcb thr fun tcb => { tcb with as := some as }).tcb thr).utcb = _
  rw [Core.tcb_setTcb, if_pos rfl]
  show (s1.tcb thr).utcb = _
  rw [hlink.utcb, hinit.new]

theorem sysThreadControl_log_mem (hw : w ∈ (sysThreadControl mm s c).log) :
    (s.tcb c).frame.r1 ≠ L4_NILTHREAD ∧ utcbAllowed mm ((s.tcb c).ctx.regs 0) = true ∧
      w ∈ utcbWords ((s.tcb c).ctx.regs 0) := by
  unfold sysThreadControl at hw
  dsimp only at hw
  split at hw
  · rename_i hspace
    refine ⟨hspace, ?_⟩
    cases hsearch : mempoolSearch mm ((s.tcb c).ctx.regs 0) UTCB_SIZE with
    | none =>
      rw [hsearch] at hw
      simp at hw
    | some mpid =>
      rw [hsearch] at hw
      rw [utcbAllowed_some hsearch]
      dsimp only at hw
      split at hw
      · simp at hw
      · rename_i hflags
        refine ⟨decide_eq_true hflags, ?_⟩
        rcases mem_log_bind.mp hw with hw | ⟨⟨p, s1⟩, hcreate, hw⟩
        · rw [threadCreate_log_mem hw]
          exact List.mem_cons_self
        · obtain ⟨thr, hthr, hw⟩ := mem_log_lift.mp hw
          obtain ⟨s2, hsp, hw⟩ := mem_log_lift.mp hw
          obtain ⟨u, hu, hw⟩ := mem_log_lift.mp hw
          have hp : p = some thr := nonNull_ok.mp hthr
          rw [threadCreate_result, hp] at hcreate
          have hutcb := newThread_utcb hcreate hsp
          rw [nonNull_ok.mp hu] at hutcb
          rw [Option.some.inj hutcb] at hw
          rw [log_tell, log_pure, List.append_nil, List.mem_singleton] at hw
          rw [hw]
          exact List.mem_cons_of_mem _ (List.mem_singleton_self _)
  · obtain ⟨_, _, hw⟩ := mem_log_lift.mp hw
    obtain ⟨_, _, hw⟩ := mem_log_lift.mp hw
    obtain ⟨_, _, hw⟩ := mem_log_lift.mp hw
    simp at hw

/-- A creation that returns has written both fields. -/
theorem sysThreadControl_log (h : F9.sysThreadControl mm s c = .ok s')
    (hspace : (s.tcb c).frame.r1 ≠ L4_NILTHREAD)
    (hallowed : utcbAllowed mm ((s.tcb c).ctx.regs 0) = true) :
    ∀ w ∈ utcbWords ((s.tcb c).ctx.regs 0), w ∈ (sysThreadControl mm s c).log := by
  rcases sysThreadControl_cases h with ⟨_, ⟨hno, _⟩ | ⟨_, thr, s1, s2, u, hcreate, hsp, hu, _⟩⟩ |
    ⟨hnil, _⟩
  · exact absurd (hallowed.symm.trans hno) (by simp)
  · have hutcb := newThread_utcb hcreate hsp
    rw [hu] at hutcb
    unfold sysThreadControl
    dsimp only
    rw [if_pos hspace]
    cases hsearch : mempoolSearch mm ((s.tcb c).ctx.regs 0) UTCB_SIZE with
    | none => exact absurd (hallowed.symm.trans (utcbAllowed_none hsearch)) (by simp)
    | some mpid =>
      rw [utcbAllowed_some hsearch, decide_eq_true_eq] at hallowed
      dsimp only
      rw [if_neg hallowed, log_bind_ok ((threadCreate_result _ _ _).trans hcreate)]
      intro w hw
      rw [List.mem_append]
      rcases List.mem_cons.mp hw with rfl | hw
      · exact .inl (threadCreate_log hcreate)
      · refine .inr ?_
        rw [log_lift_ok (nonNull_ok.mpr rfl), log_lift_ok hsp, log_lift_ok (nonNull_ok.mpr hu),
          log_tell, Option.some.inj hutcb]
        exact List.mem_append_left _ hw
  · exact absurd hnil hspace

/-! ## IPC -/

/-- The first eight message registers are registers. -/
theorem ipcReadMr_register {i : Nat} (h : i < 8) :
    ipcReadMr s c i = .ok ((s.tcb c).ctx.regs i) := by
  unfold ipcReadMr
  rw [if_neg (by omega)]

theorem startThread_log (kip : Word) (s : Core) (c t : TcbRef) :
    (startThread kip s c t).log = frameWords ((s.tcb c).ctx.regs 2 - RESERVED_STACK) := by
  unfold startThread
  rw [log_lift_ok (ipcReadMr_register (by decide)), log_lift_ok (ipcReadMr_register (by decide))]
  rw [log_lift_ok (ipcReadMr_register (by decide)), log_tell, log_pure, List.append_nil]

theorem sysIpcSend_log (hdest : (s.tcb c).frame.r0 ≠ L4_NILTHREAD) :
    w ∈ (sysIpcSend mm kip s c (s.tcb c).frame.r0).log ↔
      ∃ t, Starts s c t ∧ w ∈ frameWords ((s.tcb c).ctx.regs 2 - RESERVED_STACK) := by
  unfold sysIpcSend
  rw [mem_log_lift]
  constructor
  · rintro ⟨found, hfound, hw⟩
    split at hw
    · simp at hw
    · rename_i hlog
      split at hw
      · obtain ⟨_, _, hw⟩ := mem_log_lift.mp hw
        simp at hw
      · rename_i hother
        obtain ⟨inactive, hpager, hw⟩ := mem_log_lift.mp hw
        cases found with
        | none =>
          obtain ⟨_, _, hw⟩ := mem_log_lift.mp hw
          simp at hw
        | some t =>
          cases inactive with
          | false =>
            obtain ⟨_, _, hw⟩ := mem_log_lift.mp hw
            simp at hw
          | true =>
            obtain ⟨tag, htag, hw⟩ := mem_log_lift.mp hw
            split at hw
            · rename_i htag3
              refine ⟨t, ⟨hdest, hfound, hlog, fun h => hother (.inr h), hpager, ?_⟩, hw⟩
              rw [← htag3]
              exact ok_ok.mp htag
            · obtain ⟨_, _, hw⟩ := mem_log_lift.mp hw
              simp at hw
  · rintro ⟨t, hstarts, hw⟩
    refine ⟨some t, hstarts.found, ?_⟩
    have hstate : (s.tcb t).state = .inactive := by
      have hpager := hstarts.pager
      dsimp only [inactiveOfPager] at hpager
      split at hpager
      · assumption
      · exact absurd (ok_ok.mp hpager) (by simp)
    have hother : ¬ (waitsInRecv s (some t) = true ∨
        (s.tcb c).frame.r0 = (s.tcb c).tGlobalid) := by
      rintro (hwait | hself)
      · simp [waitsInRecv, hstate] at hwait
      · exact hstarts.other hself
    rw [if_neg hstarts.log, if_neg hother, log_lift_ok hstarts.pager]
    rw [log_lift_ok (ipcReadMr_register (by decide)), if_pos hstarts.tag, startThread_log]
    exact hw

theorem Starts.congr_calls {t : TcbRef} (calls : List (TcbRef × Word)) :
    Starts { s with calls := calls } c t ↔ Starts s c t := by
  have hfound : ∀ id, threadByGlobalid { s with calls := calls } id = threadByGlobalid s id := by
    intro id
    refine threadByGlobalid_congr ?_ ?_ ?_ id
    · rfl
    · exact fun _ => rfl
    · rfl
  constructor
  · rintro ⟨h1, h2, h3, h4, h5, h6⟩
    rw [hfound] at h2
    exact ⟨h1, h2, h3, h4, h5, h6⟩
  · rintro ⟨h1, h2, h3, h4, h5, h6⟩
    refine ⟨h1, ?_, h3, h4, h5, h6⟩
    rw [hfound]
    exact h2

theorem sysIpc_log {m : Machine} :
    w ∈ (sysIpc mm kip m c).log ↔ ∃ t, Starts m.core c t ∧
      w ∈ frameWords ((m.core.tcb c).ctx.regs 2 - RESERVED_STACK) := by
  have hno : (m.core.tcb c).frame.r0 = L4_NILTHREAD → ¬ ∃ t, Starts m.core c t ∧
      w ∈ frameWords ((m.core.tcb c).ctx.regs 2 - RESERVED_STACK) :=
    fun hnil ⟨t, hstarts, _⟩ => hstarts.dest hnil
  unfold sysIpc
  dsimp only
  split
  · rename_i hsleep
    simpa using hno hsleep.1
  · split
    · rename_i hto
      rw [mem_log_bind]
      simp only [log_pure, List.not_mem_nil, and_false, exists_false, or_false]
      generalize hs : ({ m.core with calls := _ } : Core) = s
      have htcb : s.tcb c = m.core.tcb c := by rw [← hs]; rfl
      rw [← htcb] at hto ⊢
      rw [sysIpcSend_log hto, ← hs]
      simp only [Starts.congr_calls]
    · rename_i hto
      rw [not_not] at hto
      simpa using hno hto

end UserWrites

/-! ## Every call -/

theorem syscallHandler_log {m : Machine} (hc : m.core.caller = some c) :
    w ∈ (UserWrites.syscallHandler mm kip m).log ↔
      (svcNum m.core c = SYS_THREAD_CONTROL ∧ w ∈ (UserWrites.sysThreadControl mm m.core c).log) ∨
      (svcNum m.core c = SYS_IPC ∧ ∃ t, Starts m.core c t ∧
        w ∈ frameWords ((m.core.tcb c).ctx.regs 2 - RESERVED_STACK)) := by
  have hdiff : SYS_THREAD_CONTROL ≠ SYS_IPC := by decide
  unfold UserWrites.syscallHandler
  rw [log_lift_ok (nonNull_ok.mpr hc)]
  dsimp only
  split
  · rename_i hnum
    have hnum' : svcNum m.core c = SYS_THREAD_CONTROL := hnum
    rw [mem_log_bind]
    simp [hnum', hdiff]
  · rename_i hnum
    have hnum' : svcNum m.core c ≠ SYS_THREAD_CONTROL := hnum
    split
    · rename_i hipc
      have hipc' : svcNum m.core c = SYS_IPC := hipc
      rw [UserWrites.sysIpc_log]
      simp [hipc', hdiff.symm]
    · rename_i hipc
      have hipc' : svcNum m.core c ≠ SYS_IPC := hipc
      simp [hnum', hipc']

/-- What a call has written at addresses it was given is inside pages of the caller or the target if
the addresses are; and if the call returns, only then. -/
theorem call_writes_inside {mm : Memmap} {kip : Word} {m : Machine} {c : TcbRef}
    (hc : m.core.caller = some c) :
    (CallConfined mm m c → ∀ w ∈ (UserWrites.syscallHandler mm kip m).log, m.Inside c w) ∧
    ∀ m', syscallHandler mm kip m = .ok m' →
      (∀ w ∈ (UserWrites.syscallHandler mm kip m).log, m.Inside c w) → CallConfined mm m c := by
  constructor
  · intro hconf w hw
    rcases (syscallHandler_log hc).mp hw with ⟨hnum, hw⟩ | ⟨hnum, t, hstarts, hw⟩
    · obtain ⟨hspace, hallowed, hw⟩ := UserWrites.sysThreadControl_log_mem hw
      exact hconf.creation hnum hspace hallowed w hw
    · exact hconf.start hnum t hstarts w hw
  · intro m' hrun hinside
    refine ⟨fun hnum hspace hallowed w hw => ?_, fun hnum t hstarts w hw => ?_⟩
    · obtain ⟨c', hc', hcases⟩ := syscallHandler_cases hrun
      have hcc : c = c' := Option.some.inj (hc.symm.trans hc')
      rw [← hcc] at hcases
      rcases hcases with ⟨_, s', hcontrol, _⟩ | ⟨hipc, _⟩ | ⟨hno, _⟩
      · refine hinside w ((syscallHandler_log hc).mpr (.inl ⟨hnum, ?_⟩))
        exact UserWrites.sysThreadControl_log hcontrol hspace hallowed w hw
      · exact absurd (hnum.symm.trans hipc) (by decide)
      · exact absurd hnum hno
    · exact hinside w ((syscallHandler_log hc).mpr (.inr ⟨hnum, t, hstarts, hw⟩))

/-! ## Threads of a small board -/

instance (f : Fpage) (w : Word) : Decidable (f.HasWord w) :=
  inferInstanceAs (Decidable (f.lo ≤ w.toNat ∧ w.toNat + 4 ≤ f.hi))

instance (s : Core) (t : TcbRef) (w : Word) : Decidable (s.SpaceHas t w) :=
  inferInstanceAs (Decidable (∃ a ∈ (s.tcb t).as, ∃ r ∈ s.mem.pages a, (s.mem.fp r).HasWord w))

instance (s : Core) (w : Word) : Decidable (s.KipHas w) :=
  inferInstanceAs (Decidable ((∃ r ∈ s.mem.kipFpage, (s.mem.fp r).HasWord w) ∨
    ∃ r ∈ s.mem.kipExtraFpage, (s.mem.fp r).HasWord w))

instance (s : Core) (id w : Word) : Decidable (s.NamedHas id w) :=
  inferInstanceAs (Decidable (∃ t ∈ (threadByGlobalid s id).toOption.join, s.SpaceHas t w))

instance Machine.decidableInside (m : Machine) (c : TcbRef) (w : Word) :
    Decidable (m.Inside c w) := by
  unfold Machine.Inside Machine.TargetHas
  infer_instance

/-- The machines that have just been booted. -/
def SmallBooted (m : Machine) : Prop := smallMachine = some m

/-- Root makes thread 256 in a space of its own and starts it, and makes 258 likewise. -/
def twoSpaces : List Event :=
  [controlTrap 1 256 256 THREAD_ROOT 0x20008000#32, .syscall, startTrap 1 256 0x20009000#32,
    .syscall, controlTrap 1 258 258 THREAD_ROOT 0x20008200#32, .syscall]

theorem smallRun (es : List Event) (p : Machine → Bool)
    (h : (smallMachine.bind fun m =>
      TSys.runAll (Machine.exec twoPools 0x20000400#32) (fun _ _ => true) m es).any p = true) :
    ∃ m, (Machine.system twoPools 0x20000400#32 SmallBooted).Reachable (fun _ _ => True) m ∧
      p m = true := by
  obtain ⟨m', hrun, hp⟩ := (Option.any_eq_true _ _).mp h
  obtain ⟨m, hm, hrun⟩ := Option.bind_eq_some_iff.mp hrun
  exact ⟨m', Machine.run_reachable hm es hrun, hp⟩

/-- Thread 256 puts the UTCB of 257 behind its own. -/
theorem call_writes_inside_own : ∃ m : Machine, m.core.caller = some 3 ∧
    CallConfined twoPools m 3 ∧ ∃ w,
      w ∈ (UserWrites.syscallHandler twoPools 0x20000400#32 m).log ∧ m.Inside 3 w := by
  obtain ⟨m, _, h⟩ := smallRun (twoSpaces ++ [controlTrap 3 257 256 256 0x20008080#32]) (fun m =>
      decide (m.core.caller = some 3) &&
        okWith (fun _ => true) (syscallHandler twoPools 0x20000400#32 m) &&
        decide (0x20008080#32 ∈ (UserWrites.syscallHandler twoPools 0x20000400#32 m).log) &&
        (UserWrites.syscallHandler twoPools 0x20000400#32 m).log.all fun w =>
          decide (m.Inside 3 w)) (by decide +kernel)
  simp only [Bool.and_eq_true, decide_eq_true_eq, List.all_eq_true] at h
  obtain ⟨⟨⟨hc, hok⟩, hmem⟩, hall⟩ := h
  obtain ⟨m', hm', _⟩ := okWith_iff.mp hok
  have hthm := @call_writes_inside twoPools 0x20000400#32 m 3 hc
  have hconf := hthm.2 m' hm' hall
  exact ⟨m, hc, hconf, _, hmem, hthm.1 hconf _ hmem⟩

/-- Thread 256 creates 257 with the UTCB of 258, which has a space of its own: the kernel writes
there. Or it creates 257 properly and starts it with a stack in the kernel's memory: the kernel
writes the frame there. -/
theorem call_writes_outside : ∃ m m' : Machine,
    (Machine.system twoPools 0x20000400#32 SmallBooted).Reachable (fun _ _ => True) m ∧
    (m.core.caller = some 3 ∧ m.core.number 3 = 256 ∧
      0x20008200#32 ∈ (UserWrites.syscallHandler twoPools 0x20000400#32 m).log ∧
      ¬ m.Inside 3 0x20008200#32) ∧
    (Machine.system twoPools 0x20000400#32 SmallBooted).Reachable (fun _ _ => True) m' ∧
    m'.core.caller = some 3 ∧ m'.core.number 3 = 256 ∧
      0x200002e0#32 ∈ (UserWrites.syscallHandler twoPools 0x20000400#32 m').log ∧
      ¬ m'.Inside 3 0x200002e0#32 := by
  obtain ⟨m, hm, h⟩ := smallRun (twoSpaces ++ [controlTrap 3 257 257 256 0x20008200#32]) (fun m =>
      decide (m.core.caller = some 3 ∧ m.core.number 3 = 256 ∧
        0x20008200#32 ∈ (UserWrites.syscallHandler twoPools 0x20000400#32 m).log ∧
        ¬ m.Inside 3 0x20008200#32)) (by decide +kernel)
  obtain ⟨m', hm', h'⟩ := smallRun (twoSpaces ++ [controlTrap 3 257 256 256 0x20008080#32,
      .syscall, startTrap 3 257 0x20000300#32]) (fun m =>
      decide (m.core.caller = some 3 ∧ m.core.number 3 = 256 ∧
        0x200002e0#32 ∈ (UserWrites.syscallHandler twoPools 0x20000400#32 m).log ∧
        ¬ m.Inside 3 0x200002e0#32)) (by decide +kernel)
  exact ⟨m, m', hm, of_decide_eq_true h, hm', of_decide_eq_true h'⟩

end F9
