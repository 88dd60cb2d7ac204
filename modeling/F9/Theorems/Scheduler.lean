import F9.Kernel.UserWrites
import F9.Logic.Running

/-!
# The scheduler always finds a thread

Idle is runnable in its slot in every state of a run, so `schedule_select` does not panic, and
what it returns is runnable and comes from the first slot that has a runnable thread
(`SelectSafe`). This holds as long as nobody makes the kernel write over its own tables: the frame
that starts a thread goes wherever the message says. Whether `schedule_select` returns is another
question: `thread_select` walks through the thread tree, and on links that are no tree the walk may
go round. `scheduler_finds` says that it returns in every run in which the removals keep the tree.
-/

namespace F9

open Result Linked

variable {sys : SystemThreads} {s : Core} {r : Running} {mm : Memmap} {kip : Word} {r' : Running}

/-! ## One memory -/

/-- The running kernel, with its tables and the stacks in one memory: `thread_init_ctx` writes eight
words without a look at the address, and after a stray frame the state may be any. -/
def Running.memory (mm : Memmap) (kip : Word) (sys : SystemThreads) (init : Running → Prop) :
    TSys Running CpuEvent :=
  (Running.system mm kip sys init).wild fun r e => e = .event .syscall ∧
    r.current = sys.kernel ∧ r.machine.syscallSoftirq = true ∧ StrayFrame mm r.machine

/-- A thread is started with its frame in memory of the user. -/
def KeepsTables (mm : Memmap) (r : Running) (e : CpuEvent) : Prop :=
  e = .event .syscall → ¬ StrayFrame mm r.machine

/-! ## Idle -/

/-- Idle is allocated, has no space, and is runnable in its slot. It makes no calls. -/
structure IdleInv (sys : SystemThreads) (s : Core) : Prop where
  kernel : sys.kernel ≠ sys.idle
  live : s.live sys.idle = true
  as : (s.tcb sys.idle).as = none
  runnable : (s.tcb sys.idle).state = .runnable
  slot : s.slots .idle = some sys.idle
  caller : s.caller ≠ some sys.idle

theorem IdleInv.dispatches {L B : TcbRef → Prop} {s' : Core} (h : IdleInv sys s)
    (hd : Dispatches L B s s') (hB : ¬ B sys.idle) : IdleInv sys s' := by
  refine ⟨h.kernel, (hd.same.live _).trans h.live, (hd.same.as _).trans h.as,
    hd.runnable _ hB h.runnable, ?_, by rw [hd.caller]; exact h.caller⟩
  rcases hd.slots .idle with heq | ⟨hno, _⟩
  · exact heq.trans h.slot
  · exact absurd hno (by decide)

theorem Running.Booted.idle (h : r.Booted sys) :
    IdleInv sys r.machine.core where
  kernel := h.threads.distinct.2.1.symm
  live := (h.threads.live _).mpr (.inl rfl)
  as := h.threads.idleAs
  runnable := h.threads.runnable _ ((h.threads.live _).mpr (.inl rfl))
  slot := by rw [h.threads.slots]; rfl
  caller := by rw [h.threads.caller]; simp

/-- System calls, softirqs, deliveries and timeouts leave idle alone. -/
theorem Running.Step.idle {e : CpuEvent} (hstep : Running.Step mm kip sys r e r')
    (h : IdleInv sys r.machine.core) :
    IdleInv sys r'.machine.core := by
  cases hstep with
  | @svc user _ _ hidle _ =>
    obtain ⟨hsame, hcaller, hslots, htcb⟩ := svcHandler_effect r.machine r.current user
    refine ⟨h.kernel, (hsame.live _).trans h.live, (hsame.as _).trans h.as, ?_, ?_, ?_⟩
    · rw [htcb, if_neg hidle.symm]
      exact h.runnable
    · rw [hslots]
      exact h.slot
    · exact fun heq => hidle (Option.some.inj heq)
  | syscall _ _ hcall =>
    obtain ⟨c, hc, hcall⟩ := syscallHandler_cases hcall
    have hne : ¬ sys.idle = c := by
      rintro rfl
      exact h.caller hc
    rcases hcall with ⟨_, s, hs, rfl⟩ | ⟨_, hs⟩ | ⟨_, _, rfl⟩
    · -- thread control does not touch threads without a space
      obtain ⟨hslots, hcaller, hspares⟩ := sysThreadControl_spares hs
      obtain ⟨hlive, has, hstate⟩ := hspares sys.idle h.live h.as
      have hs' : IdleInv sys s := ⟨h.kernel, hlive, has, hstate.trans h.runnable,
        by rw [hslots]; exact h.slot, by rw [hcaller]; exact h.caller⟩
      exact hs'.dispatches (setState_dispatches (L := fun _ => True) s c .runnable) hne
    · have hd := sysIpc_dispatches (L := fun _ => True) hs trivial fun _ _ _ _ => trivial
      exact h.dispatches hd hne
    · exact h.dispatches (setState_dispatches (L := fun _ => True) r.machine.core c .runnable) hne
  | tick => exact h
  | timer _ _ hrun => exact h.dispatches (eventHandler_any (B := fun _ => False) hrun) id
  | deliver _ hrun => exact h.dispatches (ipcDeliver_any (B := fun _ => False) hrun) id
  | @kernelState state _ =>
    exact h.dispatches (setState_dispatches (L := fun _ => True) r.machine.core sys.kernel state)
      h.kernel.symm
  | schedule hrun =>
    obtain ⟨s, mem, hsel, hmachine⟩ := scheduleInIrq_effect hrun
    obtain ⟨hs, hslots⟩ := scheduleSelect_same hsel
    have hslot : s.slots .idle = some sys.idle := by
      rcases hslots .idle with heq | ⟨hno, _⟩
      · exact heq.trans h.slot
      · exact absurd hno (by decide)
    rw [hmachine, hs]
    exact ⟨h.kernel, h.live, h.as, h.runnable, hslot, h.caller⟩

/-! ## Selection -/

/-- What holds of every call of `schedule_select`: idle is there, it does not panic, and what it
returns may be switched to and is now in a slot such that no slot before it has a runnable thread. -/
structure SelectSafe (sys : SystemThreads) (s : Core) : Prop where
  idleRunnable : (s.tcb sys.idle).state = .runnable
  idleSlot : s.slots .idle = some sys.idle
  noPanic : scheduleSelect sys.root s ≠ .error .panic
  selected : ∀ t s', scheduleSelect sys.root s = .ok (t, s') → threadIsrunnable s' t = true ∧
    ∃ before slot after, schedSlots = before ++ slot :: after ∧ s'.slots slot = some t ∧
      NoneRunnable s' before

/-- With idle there, `schedule_select` fails only as `thread_select` does. -/
theorem IdleInv.fails (h : IdleInv sys s) :
    (∃ p, scheduleSelect sys.root s = .ok p) ∨
      ∃ f, threadSelect s sys.root = .error f ∧ scheduleSelect sys.root s = .error f :=
  selectSlot_idle h.slot h.runnable schedSlots (by decide)

theorem IdleInv.selectSafe (h : IdleInv sys s) : SelectSafe sys s := by
  refine ⟨h.runnable, h.slot, fun hpanic => ?_, fun t s' hsel => ?_⟩
  · rcases h.fails with ⟨p, hp⟩ | ⟨f, hf, hsel⟩
    · exact absurd (hp.symm.trans hpanic) (by simp)
    · have hpanic' : f = .panic := by
        have heq := hsel.symm.trans hpanic
        injection heq
      rw [hpanic'] at hf
      exact threadSelect_spec.1 hf
  · obtain ⟨hrun, before, slot, after, hsplit, hbefore, ⟨hslot, rfl⟩ | ⟨_, _, rfl⟩⟩ :=
      selectSlot_ok _ hsel
    · exact ⟨decide_eq_true hrun, before, slot, after, hsplit, hslot, hbefore⟩
    · refine ⟨decide_eq_true hrun, before, slot, after, hsplit, if_pos rfl, fun i hi u hu => ?_⟩
      -- the slots before this one are other slots
      have hnodup : (before ++ slot :: after).Nodup := by
        rw [← hsplit]
        decide
      have hne : i ≠ slot := by
        rintro rfl
        exact (List.nodup_append.mp hnodup).2.2 i hi i List.mem_cons_self rfl
      have hu' : (if i = slot then some t else s.slots i) = some u := hu
      rw [if_neg hne] at hu'
      exact hbefore i hi u hu'

/-- Thread control is called by root or a created thread, and a thread with children is not removed
by itself or a thread below it. -/
def KeepsWalk (sys : SystemThreads) (r : Running) (e : CpuEvent) : Prop :=
  e = .event .syscall → ∀ c, r.machine.core.caller = some c →
    svcNum r.machine.core c = SYS_THREAD_CONTROL → TreeControl sys.root r.machine.core c

theorem Running.Step.tree {e : CpuEvent} (hstep : Running.Step mm kip sys r e r')
    (hk : KeepsWalk sys r e) (h : ThreadTree r.machine.core sys.root) :
    ThreadTree r'.machine.core sys.root := by
  cases hstep with
  | @svc user _ _ _ _ => exact h.same (svcHandler_effect r.machine r.current user).1
  | syscall _ _ hcall =>
    obtain ⟨c, hc, ⟨hnum, s, hs, rfl⟩ | ⟨_, hs⟩ | ⟨_, _, rfl⟩⟩ := syscallHandler_cases hcall
    · exact (sysThreadControl_tree hs hc (hk rfl c hc hnum) h).same (setState_same s c .runnable)
    · have hd := sysIpc_dispatches (L := fun _ => True) hs trivial fun _ _ _ _ => trivial
      exact h.same hd.same
    · exact h.same (setState_same r.machine.core c .runnable)
  | tick => exact h
  | timer _ _ hrun => exact h.same (eventHandler_any (B := fun _ => False) hrun).same
  | deliver _ hrun => exact h.same (ipcDeliver_any (B := fun _ => False) hrun).same
  | @kernelState state _ => exact h.same (setState_same r.machine.core sys.kernel state)
  | schedule hrun =>
    obtain ⟨s, mem, hsel, hmachine⟩ := scheduleInIrq_effect hrun
    rw [hmachine, (scheduleSelect_same hsel).1]
    exact h.congr rfl (fun _ => rfl) fun _ => rfl

/-- On a tree `schedule_select` returns. -/
theorem IdleInv.selects (h : IdleInv sys s) (htree : ThreadTree s sys.root) :
    ∃ t s', scheduleSelect sys.root s = .ok (t, s') := by
  rcases h.fails with ⟨⟨t, s'⟩, hsel⟩ | ⟨f, hf, _⟩
  · exact ⟨t, s', hsel⟩
  · obtain ⟨o, ho, _⟩ := threadSelect_tree htree
    exact absurd (ho.symm.trans hf) (by simp)

theorem tree_kept
    (hr : (Running.system mm kip sys (Running.Booted sys)).Reachable (KeepsWalk sys) r) :
    ThreadTree r.machine.core sys.root := by
  refine TSys.Reachable.invariant (I := fun r => ThreadTree r.machine.core sys.root) ?_ ?_ hr
  · exact fun r hboot => hboot.threads.tree
  · exact fun r e r' htree hk hstep => hstep.tree hk htree

/-- In every state of a run after boot whose threads are started in memory of the user, idle is
runnable in its slot, `schedule_select` does not panic, and a thread that it returns is runnable and
of the first slot with a runnable thread. If the removals keep the thread tree as well, it
returns. -/
theorem scheduler_finds (mm : Memmap) (kip : Word) (sys : SystemThreads) :
    (∀ r, (Running.memory mm kip sys (Running.Booted sys)).Reachable (KeepsTables mm) r →
      SelectSafe sys r.machine.core) ∧
    ∀ r, (Running.memory mm kip sys (Running.Booted sys)).Reachable
      (fun r e => KeepsTables mm r e ∧ KeepsWalk sys r e) r →
      ∃ t s, scheduleSelect sys.root r.machine.core = .ok (t, s) := by
  have hidle : ∀ P r, (Running.system mm kip sys (Running.Booted sys)).Reachable P r →
      IdleInv sys r.machine.core := by
    intro P r hr
    refine TSys.Reachable.invariant (I := fun r => IdleInv sys r.machine.core) ?_ ?_ hr
    · exact fun r hboot => hboot.idle
    · exact fun r e r' hi _ hstep => hstep.idle hi
  refine ⟨fun r hr => ?_, fun r hr => ?_⟩
  · exact (hidle _ r (hr.tame fun _ _ hk hw => hk hw.1 hw.2.2.2)).selectSafe
  · have hrun := hr.tame fun _ _ hk hw => hk.1 hw.1 hw.2.2.2
    exact (hidle _ r hrun).selects (tree_kept (hrun.mono fun _ _ h => h.2))

/-- `thread_select` searches in preorder: from any thread of a tree of table entries it returns the
first runnable thread in the order of what is below it, and `NULL` if none of these is runnable. -/
theorem thread_select_first {root parent : TcbRef} {A : Set TcbRef} {kids : TcbRef → List TcbRef}
    (htree : IsTree s.links root A kids) (hlt : ∀ y ∈ insert root A, y < s.threadTable.num)
    (hp : parent ∈ insert root A) :
    ∃ l o, Preorder s.links (s.links.child parent) l ∧ l.Nodup ∧
      (∀ y, y ∈ l ↔ y ∈ A ∧ s.links.Below parent y) ∧ threadSelect s parent = .ok o ∧
      o = l.find? (threadIsrunnable s) ∧
      (o = none ↔ ∀ y ∈ A, s.links.Below parent y → (s.tcb y).state ≠ .runnable) := by
  obtain ⟨l, hl, hnd, hmem, hsel⟩ := threadSelect_preorder htree hlt hp
  refine ⟨l, _, hl, hnd, hmem, hsel, rfl, ?_⟩
  simp only [List.find?_eq_none, hmem, threadIsrunnable, decide_eq_true_eq, and_imp, ne_eq]

/-! ## Runs of a small board -/

def keepsWalk? (sys : SystemThreads) (r : Running) : CpuEvent → Bool
  | .event .syscall => r.machine.core.caller.all fun c =>
    svcNum r.machine.core c != SYS_THREAD_CONTROL || treeControl? sys.root r.machine.core c
  | _ => true

theorem keepsWalk_of_test (r : Running) (e : CpuEvent) (h : keepsWalk? sys r e = true) :
    KeepsWalk sys r e := by
  rintro rfl c hc hnum
  simp only [keepsWalk?, hc, Option.all_some, Bool.or_eq_true, bne_iff_ne] at h
  exact treeControl_of_test (h.resolve_left (not_not.mpr hnum))

/-- The test for `KeepsTables` looks at every message with the tag of a start. -/
def keepsTables? (mm : Memmap) (r : Running) : CpuEvent → Bool
  | .event .syscall => r.machine.core.caller.all fun c =>
    (r.machine.core.tcb c).ctx.regs 0 != 0x00000003#32 ||
      (frameWords ((r.machine.core.tcb c).ctx.regs 2 - RESERVED_STACK)).all fun w =>
        (mempoolSearch mm w 4#32).any fun q => (mempoolGetbyid mm q).flags &&& MP_UW != 0#32
  | _ => true

theorem keepsTables_of_test (r : Running) (e : CpuEvent) (h : keepsTables? mm r e = true) :
    KeepsTables mm r e := by
  rintro rfl ⟨w, ⟨c, t, hc, _, hstart, hw⟩, hno⟩
  simp only [keepsTables?, hc, Option.all_some, Bool.or_eq_true, bne_iff_ne, List.all_eq_true] at h
  obtain ⟨q, hq, huser⟩ := (Option.any_eq_true _ _).mp (h.resolve_left (not_not.mpr hstart.tag) w hw)
  exact bne_iff_ne.mp huser (hno q hq)

/-- Root creates 300 and 301, removes 300, starts 301 and waits for a message: 301 is selected. -/
theorem scheduler_finds_normal : ∃ (r : Running) (t : TcbRef) (s : Core),
    (Running.memory twoPools 0x20000400#32 smallThreads (Running.Booted smallThreads)).Reachable
      (fun r e => KeepsTables twoPools r e ∧ KeepsWalk smallThreads r e) r ∧ r.current = 4 ∧
    SelectSafe smallThreads r.machine.core ∧
    scheduleSelect smallThreads.root r.machine.core = .ok (t, s) := by
  obtain ⟨r, hr, hcurrent⟩ := exists_smallRun
    (P := fun r e => KeepsTables twoPools r e ∧ KeepsWalk smallThreads r e)
    (t := fun r e => keepsTables? twoPools r e && keepsWalk? smallThreads r e)
    (fun r e h => ⟨keepsTables_of_test r e (Bool.and_eq_true_iff.mp h).1,
      keepsWalk_of_test r e (Bool.and_eq_true_iff.mp h).2⟩)
    (toRoot ++ creationOf 1 300 0x20008000#32 ++ creationOf 1 301 0x20008100#32 ++
      removalOf 1 300 ++ callOf (startTrap 1 301 0x2000a000#32) ++
      callOf (ipcTrap 1 L4_NILTHREAD L4_ANYTHREAD))
    (fun r => decide (r.current = 4)) (by decide +kernel)
  have hr' : (Running.memory _ _ _ _).Reachable _ r := hr.wild
  obtain ⟨t, s, hsel⟩ := (scheduler_finds _ _ _).2 r hr'
  exact ⟨r, t, s, hr', of_decide_eq_true hcurrent,
    (scheduler_finds _ _ _).1 r (hr'.mono fun _ _ h => h.1), hsel⟩

/-- Root creates 300 and 301 and starts 301: it is the first runnable thread below root. -/
theorem thread_select_first_started : ∃ (s : Core) (l : List TcbRef),
    Preorder s.links (s.links.child 1) l ∧ threadSelect s 1 = .ok (l.find? (threadIsrunnable s)) ∧
    threadSelect s 1 = .ok (some 4) := by
  obtain ⟨r, hr, hfound⟩ := exists_smallRun (t := keepsWalk? smallThreads)
    keepsWalk_of_test
    (toRoot ++ creationOf 1 300 0x20008000#32 ++ creationOf 1 301 0x20008100#32 ++
      callOf (startTrap 1 301 0x2000a000#32))
    (fun r => okWith (fun o => o == some 4) (threadSelect r.machine.core 1)) (by decide +kernel)
  obtain ⟨o', hfound, ho'⟩ := okWith_iff.mp hfound
  rw [beq_iff_eq.mp ho'] at hfound
  have htree := tree_kept hr
  obtain ⟨kids, hkids⟩ := htree.tree
  obtain ⟨l, o, hl, _, _, hsel, rfl, _⟩ :=
    thread_select_first hkids htree.lt (.inl (Eq.refl smallThreads.root))
  exact ⟨_, l, hl, hsel, hfound⟩

/-- Thread 302 creates 304, removes itself and then 304, and runs on in its freed entry, where the
child is still the entry of 304. Root creates 305 in that entry, and 302 creates 306, which gets the
next sibling of 305 with 302 as its parent. When nobody is runnable the walk goes from 303 to 305
and 306, up to 302, and to the sibling that 302 had, 303. -/
theorem scheduler_hangs : ∃ r : Running,
    (Running.system twoPools 0x20000400#32 smallThreads
      (Running.Booted smallThreads)).Reachable (KeepsTables twoPools) r ∧
    scheduleSelect smallThreads.root r.machine.core = .error .hang := by
  obtain ⟨r, hr, hhang⟩ := exists_smallRun (t := keepsTables? twoPools) keepsTables_of_test
    (toRoot ++ creationOf 1 300 0x20008000#32 ++ creationOf 1 301 0x20008100#32 ++
      creationOf 1 302 0x20008200#32 ++ creationOf 1 303 0x20008300#32 ++
      removalOf 1 300 ++ removalOf 1 301 ++ callOf (startTrap 1 302 0x2000a000#32) ++
      callOf (ipcTrap 1 L4_NILTHREAD L4_ANYTHREAD) ++
      creationOf 5 304 0x20008000#32 ++ removalOf 5 302 ++ removalOf 5 304 ++
      callOf (ipcTrap 5 (tidToGlobalid 2) L4_NILTHREAD) ++
      creationOf 1 305 0x20008400#32 ++ callOf (ipcTrap 1 L4_NILTHREAD L4_ANYTHREAD) ++
      creationOf 5 306 0x20008500#32 ++ (callOf (ipcTrap 5 L4_NILTHREAD L4_ANYTHREAD)).dropLast)
    (fun r => failsWith .hang (scheduleSelect smallThreads.root r.machine.core))
    (by decide +kernel)
  exact ⟨r, hr, failsWith_iff.mp hhang⟩

end F9
