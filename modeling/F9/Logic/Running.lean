import F9.Logic.Boot
import F9.Logic.Dispatch
import F9.Logic.Select

/-!
# Steps of the running kernel

What thread control and the scheduler do in a step of the running kernel, and the states it starts
from.
-/

namespace F9

open Result

variable {mm : Memmap} {s s' : Core} {c root : TcbRef}

/-! ## Thread control -/

section

variable (h : sysThreadControl mm s c = .ok s')
include h

/-- Thread control does not touch the scheduler. A thread without a space, that is a thread of the
kernel, it does not touch either: such a thread cannot be removed. -/
theorem sysThreadControl_spares :
    s'.slots = s.slots ∧ s'.caller = s.caller ∧
    ∀ x, s.live x = true → (s.tcb x).as = none → s'.live x = true ∧
      (s'.tcb x).as = none ∧ (s'.tcb x).state = (s.tcb x).state := by
  rcases sysThreadControl_cases h with
    ⟨_, ⟨_, rfl⟩ | ⟨_, thr, s1, s2, u, hcreate, hspace, _, rfl⟩⟩ | ⟨_, thr, s1, _, hfree, h⟩
  · exact ⟨rfl, rfl, fun x hl has => ⟨hl, has, rfl⟩⟩
  · obtain ⟨_, s0, hinit, hlink⟩ := threadCreate_effect hcreate
    obtain ⟨as, mem, rfl⟩ := threadSetSpace_effect hspace
    refine ⟨hlink.slots.trans hinit.slots, hlink.caller.trans hinit.caller, fun x hl has => ?_⟩
    have hne : x ≠ thr := by
      rintro rfl
      exact ne_true_of_eq_false hinit.fresh hl
    -- the pager and the result are written last; `thr` alone gets a space
    have hlast : ∀ s2 : Core, s2.tcb x = s1.tcb x →
        (((s2.setUtcb u fun utcb => { utcb with tPager := (s.tcb c).frame.r3 }).setTcb c fun tcb =>
          { tcb with frame := { tcb.frame with r0 := 1#32 } }).tcb x).as = (s1.tcb x).as ∧
        (((s2.setUtcb u fun utcb => { utcb with tPager := (s.tcb c).frame.r3 }).setTcb c fun tcb =>
          { tcb with frame := { tcb.frame with r0 := 1#32 } }).tcb x).state =
            (s1.tcb x).state := by
      intro s2 hs2
      rw [Core.tcb_setTcb, ← hs2]
      split
      · rename_i hx
        rw [hx]
        exact ⟨rfl, rfl⟩
      · exact ⟨rfl, rfl⟩
    obtain ⟨has2, hst2⟩ := hlast
      { s1.setTcb thr (fun tcb => { tcb with as := some as }) with mem := mem } (by
        show (s1.setTcb thr fun tcb => { tcb with as := some as }).tcb x = _
        rw [Core.tcb_setTcb, if_neg hne])
    refine ⟨?_, has2.trans ?_, hst2.trans ?_⟩
    · show s1.live x = true
      rw [hlink.live, hinit.live, hl]
      rfl
    · rw [hlink.as, hinit.others x hne]
      exact has
    · rw [hlink.state, hinit.others x hne]
  · obtain ⟨as, mem, hthr, _, rfl⟩ := threadFreeSpace_effect hfree
    obtain ⟨s2, s3, hlink, _, rfl⟩ := threadDestroy_effect h
    refine ⟨hlink.slots, hlink.caller, fun x hl has => ?_⟩
    have hne : x ≠ thr := by
      rintro rfl
      rw [has] at hthr
      simp at hthr
    refine ⟨?_, (hlink.as x).trans has, hlink.state x⟩
    show (s2.threadTable.free thr).live x = true
    rw [KTable.free_live, decide_eq_true hne, Bool.and_true]
    exact (hlink.live x).trans hl

/-- A thread that is allocated after thread control was so before, or has been created. One that is
no longer allocated is the one that the call was to remove. -/
theorem sysThreadControl_live :
    (∀ t, s'.live t = true → (s.live t = true ∧ s'.number t = s.number t) ∨
      THREAD_SYS ≤ s'.number t) ∧
    ∀ t, s.live t = true → s'.live t = true ∨ ((s.tcb c).frame.r1 = L4_NILTHREAD ∧
      threadByGlobalid s (s.tcb c).frame.r0 = .ok (some t)) := by
  rcases sysThreadControl_cases h with
    ⟨_, ⟨_, rfl⟩ | ⟨_, thr, s1, s2, u, hcreate, hspace, _, rfl⟩⟩ | ⟨hnil, thr, s1, hlook, hfree, h⟩
  · exact ⟨fun t ht => .inl ⟨ht, rfl⟩, fun t ht => .inl ht⟩
  · obtain ⟨hsys, s0, hinit, hlink⟩ := threadCreate_effect hcreate
    have hrest : SameTable s0 ((s2.setUtcb u fun utcb =>
        { utcb with tPager := (s.tcb c).frame.r3 }).setTcb c fun tcb =>
          { tcb with frame := { tcb.frame with r0 := 1#32 } }) :=
      ((hlink.table.trans (threadSetSpace_table hspace)).trans
        (setUtcb_same s2 u _).table).trans (setTcb_table rfl)
    refine ⟨fun t ht => ?_, fun t ht => .inl ?_⟩
    · rw [hrest.live, hinit.live, Bool.or_eq_true, decide_eq_true_eq] at ht
      rw [hrest.number]
      by_cases hthr : t = thr
      · right
        unfold Core.number
        rw [hthr, hinit.new]
        exact hsys
      · refine .inl ⟨ht.resolve_right hthr, ?_⟩
        unfold Core.number
        rw [hinit.others t hthr]
    · rw [hrest.live, hinit.live, ht]
      rfl
  · obtain ⟨as, mem, _, _, rfl⟩ := threadFreeSpace_effect hfree
    obtain ⟨s2, s3, hlink, _, rfl⟩ := threadDestroy_effect h
    have hfreed : ∀ t, (s2.threadTable.free thr).live t = (s.live t && decide (t ≠ thr)) := by
      intro t
      rw [KTable.free_live]
      exact congrArg (· && _) (hlink.live t)
    refine ⟨fun t ht => .inl ⟨?_, hlink.number t⟩, fun t ht => ?_⟩
    · have ht' : (s2.threadTable.free thr).live t = true := ht
      rw [hfreed, Bool.and_eq_true] at ht'
      exact ht'.1
    · by_cases hthr : t = thr
      · exact .inr ⟨hnil, hthr ▸ hlook⟩
      · left
        show (s2.threadTable.free thr).live t = true
        rw [hfreed, ht, decide_eq_true hthr]
        rfl

theorem sysThreadControl_removed {thr : TcbRef} (hnil : (s.tcb c).frame.r1 = L4_NILTHREAD)
    (hthr : threadByGlobalid s (s.tcb c).frame.r0 = .ok (some thr)) :
    (s.tcb thr).as ≠ none ∧ (s.tcb thr).tParent ≠ none := by
  rcases sysThreadControl_cases h with ⟨hne, _⟩ | ⟨_, thr', s1, hlook, hfree, h⟩
  · exact absurd hnil hne
  · have heq : thr = thr' := Option.some.inj (ok_ok.mp (hthr.symm.trans hlook))
    obtain ⟨as, mem, has, _, rfl⟩ := threadFreeSpace_effect hfree
    obtain ⟨s1, hunlink, h⟩ := bind_ok.mp h
    obtain ⟨p, hp, _⟩ := bind_ok.mp hunlink
    rw [heq, has, show (s.tcb thr').tParent = some p from nonNull_ok.mp hp]
    exact ⟨by simp, by simp⟩

end

/-- The call is by root or a created thread, and what it removes is a created thread that may be
removed. -/
structure TreeControl (root : TcbRef) (s : Core) (c : TcbRef) : Prop where
  caller : c ∈ insert root s.created
  removal : (s.tcb c).frame.r1 = L4_NILTHREAD →
    ∀ thr, threadByGlobalid s (s.tcb c).frame.r0 = .ok (some thr) →
      thr ∈ s.created ∧ Removable s c thr

theorem sysThreadControl_tree (h : sysThreadControl mm s c = .ok s') (hcaller : s.caller = some c)
    (hk : TreeControl root s c) (htree : ThreadTree s root) : ThreadTree s' root := by
  rcases sysThreadControl_cases h with
    ⟨_, ⟨_, rfl⟩ | ⟨_, thr, s1, s2, u, hcreate, hspace, _, rfl⟩⟩ | ⟨hnil, thr, s1, hlook, hfree, h⟩
  · exact htree
  · have h1 := threadCreate_tree htree hk.caller hcaller hcreate
    obtain ⟨as, mem, rfl⟩ := threadSetSpace_effect hspace
    have htable : SameTable s1 (s1.setTcb thr fun tcb => { tcb with as := some as }) :=
      setTcb_table rfl
    have h2 : ThreadTree (s1.setTcb thr fun tcb => { tcb with as := some as }) root := by
      refine h1.congr ?_ htable.live htable.number
      show Linked.Links.mk _ _ _ = Linked.Links.mk _ _ _
      rw [Linked.Links.mk.injEq]
      exact ⟨child_setTcb_same rfl, sibling_setTcb_same rfl, parent_setTcb_same rfl⟩
    have h3 : ThreadTree { s1.setTcb thr (fun tcb => { tcb with as := some as }) with mem := mem }
        root := h2.congr rfl (fun _ => rfl) fun _ => rfl
    exact (h3.same (setUtcb_same _ u _)).same (setTcb_same rfl)
  · obtain ⟨hthr, hremovable⟩ := hk.removal hnil thr hlook
    obtain ⟨as, mem, _, _, rfl⟩ := threadFreeSpace_effect hfree
    have h1 : ThreadTree { s with mem := mem } root := htree.congr rfl (fun _ => rfl) fun _ => rfl
    exact (threadDestroy_tree h1 hthr hk.caller hcaller h).mpr hremovable

/-- A test for calls of thread control that keep the tree: what is removed has no children, or the
caller has no parent. -/
def treeControl? (root : TcbRef) (s : Core) (c : TcbRef) : Bool :=
  (c == root || s.live c && decide (THREAD_SYS ≤ s.number c)) &&
    ((s.tcb c).frame.r1 != L4_NILTHREAD ||
      match threadByGlobalid s (s.tcb c).frame.r0 with
      | .ok (some thr) => s.live thr && decide (THREAD_SYS ≤ s.number thr) &&
          ((s.tcb thr).tChild.isNone || c != thr && (s.tcb c).tParent.isNone)
      | _ => true)

theorem treeControl_of_test (h : treeControl? root s c = true) : TreeControl root s c := by
  simp only [treeControl?, Bool.and_eq_true, Bool.or_eq_true, beq_iff_eq, bne_iff_ne,
    decide_eq_true_eq] at h
  obtain ⟨hcaller, hremoval⟩ := h
  refine ⟨hcaller, fun hnil thr hthr => ?_⟩
  have hthr' := hremoval.resolve_left (not_not.mpr hnil)
  rw [hthr] at hthr'
  simp only [Bool.and_eq_true, Bool.or_eq_true, bne_iff_ne, decide_eq_true_eq,
    Option.isNone_iff_eq_none] at hthr'
  exact ⟨hthr'.1, hthr'.2.imp id fun h => ⟨h.1, fun hb => hb.parent_ne_none h.2⟩⟩

/-! ## The scheduler -/

/-- What the scheduler has selected is current. Besides the slot only the memory has changed. -/
theorem scheduleInIrq_effect {r r' : Running} (h : scheduleInIrq mm root r = .ok r') : ∃ s mem,
      scheduleSelect root r.machine.core = .ok (r'.current, s) ∧
      r'.machine = { r.machine with core := { s with mem := mem } } := by
  obtain ⟨⟨sel, s⟩, hsel, h⟩ := bind_ok.mp h
  dsimp only at h
  split at h
  · obtain ⟨s1, hswitch, h⟩ := bind_ok.mp h
    rw [← pure_ok.mp h]
    unfold threadSwitch at hswitch
    split at hswitch
    · split at hswitch
      · rw [← ok_ok.mp hswitch]
        exact ⟨s, s.mem, hsel, rfl⟩
      · obtain ⟨mem, _, hswitch⟩ := bind_ok.mp hswitch
        rw [← pure_ok.mp hswitch]
        exact ⟨s, mem, hsel, rfl⟩
    · simp at hswitch
  · rename_i hcurrent
    rw [← pure_ok.mp h, ← not_not.mp hcurrent]
    exact ⟨s, s.mem, hsel, rfl⟩

theorem scheduleSelect_same {t : TcbRef} (h : scheduleSelect root s = .ok (t, s')) :
    s' = { s with slots := s'.slots } ∧
      ∀ i, s'.slots i = s.slots i ∨ (i = .normalThread ∧ s'.slots i = some t ∧
        threadSelect s root = .ok (some t)) := by
  obtain ⟨_, _, slot, _, _, _, ⟨_, rfl⟩ | ⟨hsel, rfl, rfl⟩⟩ := selectSlot_ok _ h
  · exact ⟨rfl, fun _ => .inl rfl⟩
  · refine ⟨rfl, fun i => ?_⟩
    by_cases hi : i = .normalThread
    · exact .inr ⟨hi, if_pos hi, hsel⟩
    · exact .inl (if_neg hi)

/-! ## After boot -/

/-- The running kernel after boot: the system threads alone, no timer event for a thread, and the
kernel thread is current. -/
structure Running.Booted (sys : SystemThreads) (r : Running) : Prop where
  threads : ThreadsBooted r.machine.core sys.idle sys.root sys.kernel
  map : MapWf r.machine.core
  stored : Ktimer.Stored [] r.machine.timer
  timeouts : ∀ e t, r.machine.timer.handlerOf e ≠ .ipcTimeout t
  current : r.current = sys.kernel
  syscallSoftirq : r.machine.syscallSoftirq = false

/-- Boot ends in such a state, with a timer that has not been used. -/
theorem bootThreads_running {b : Board} {k : Stacks} {junk : Nat → Bool} {code : Word → BitVec 8}
    {sys : SystemThreads} (h : bootThreads mm b k junk code = .ok s)
    (hidle : s.slots .idle = some sys.idle) (hroot : s.slots .rootThread = some sys.root)
    (hkernel : s.slots .softirq = some sys.kernel) :
    Running.Booted sys ⟨⟨s, Ktimer.initial ⟨.ipcDeliver, 0#32⟩, false⟩, sys.kernel⟩ := by
  obtain ⟨idle, root, kernel, hboot⟩ := bootThreads_booted h
  rw [hboot.slots] at hidle hroot hkernel
  have hi : idle = sys.idle := Option.some.inj hidle
  have hr : root = sys.root := Option.some.inj hroot
  have hk : kernel = sys.kernel := Option.some.inj hkernel
  rw [hi, hr, hk] at hboot
  refine ⟨hboot, bootThreads_mapWf h, ⟨List.nodup_nil, ?_⟩, ?_, rfl, rfl⟩
  · intro e he
    simp [Ktimer.initial] at he
  · intro e t he
    simp [Ktimer.handlerOf, Ktimer.initial] at he

/-! The small board: idle is thread 0, root 1 and kernel 2. -/

def smallThreads : SystemThreads := ⟨0, 1, 2⟩

def smallRunning : Option Running := smallMachine.map fun m => ⟨m, 2⟩

theorem smallRunning_booted {r : Running} (h : smallRunning = some r) :
    Running.Booted smallThreads r := by
  have hslots : smallMachine.all (fun m => decide (m.core.slots .idle = some 0 ∧
      m.core.slots .rootThread = some 1 ∧ m.core.slots .softirq = some 2)) = true := by
    decide +kernel
  obtain ⟨m, hm, rfl⟩ := Option.map_eq_some_iff.mp h
  rw [hm, Option.all_some, decide_eq_true_eq] at hslots
  obtain ⟨s, hs, rfl⟩ := Option.map_eq_some_iff.mp hm
  exact bootThreads_running (toOption_some.mp hs) hslots.1 hslots.2.1 hslots.2.2

/-- A computed run of the small board to a state that passes a test. -/
theorem exists_smallRun {P : Running → CpuEvent → Prop} {t : Running → CpuEvent → Bool}
    (ht : ∀ r e, t r e = true → P r e) (es : List CpuEvent) (p : Running → Bool)
    (h : (smallRunning.any fun r =>
      (TSys.runAll (Running.exec twoPools 0x20000400#32 smallThreads) t r es).any p) = true) :
    ∃ r, (Running.system twoPools 0x20000400#32 smallThreads
      (Running.Booted smallThreads)).Reachable P r ∧ p r = true := by
  obtain ⟨r0, hboot, h⟩ := (Option.any_eq_true _ _).mp h
  obtain ⟨r, hrun, hp⟩ := (Option.any_eq_true _ _).mp h
  exact ⟨r, .runAll Running.exec_step ht es (.init (smallRunning_booted hboot)) hrun, hp⟩

/-- A system call of the current thread: the trap, the switch to the kernel thread, the call, and the
switch to the thread that runs next. -/
def callOf (trap : Event) : List CpuEvent :=
  [.event trap, .kernelState .runnable, .schedule, .event .syscall, .kernelState .inactive,
    .schedule]

/-- The kernel thread has nothing to do and goes to root. -/
def toRoot : List CpuEvent := [.kernelState .inactive, .schedule]

/-- A thread creates another in the space of root. -/
def creationOf (t tid : Nat) (utcb : Word) : List CpuEvent := callOf (controlTrap t tid 2 2 utcb)

def removalOf (t tid : Nat) : List CpuEvent := callOf (controlTrap t tid 0 0 0#32)

end F9
