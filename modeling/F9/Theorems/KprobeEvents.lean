import F9.Theorems.KprobeSharing

/-!
# Probes that are hit

When a probed instruction is reached, `arch_kprobe_handler` disables the breakpoints of the
probes there, and the processor executes the one instruction. At the step event after it the
handler enables the breakpoints of the probes whose `step_addr` is where the processor has come
to. That is the end of the instruction; after a branch it is somewhere else.
-/

namespace F9

variable {s1 s2 : Kprobes} {x bit k pc next w : Word}
  {op : Kprobes → Option Nat → Except Fault Kprobes} {on : Breakpoint → Prop}

namespace Kprobes

/-- Nothing is pending in `SCB_DFSR`. -/
def Idle (s : Kprobes) : Prop :=
  s.dfsr &&& scbDfsrHalted = 0#32 ∧ s.dfsr &&& scbDfsrBkpt = 0#32 ∧
    s.dfsr &&& scbDfsrDwttrap = 0#32

/-- The breakpoint event with the processor at `bk`, and the step event with it at `st`. -/
def hit (s : Kprobes) (bk st : ProbeContext) : Except Fault Kprobes := do
  let (_, s) ← s.debugEvent scbDfsrBkpt bk
  let (_, s) ← s.debugEvent scbDfsrHalted st
  return s

/-! ## Enabling and disabling -/

/-- Only comparators and code have changed. -/
structure Toggles (s s' : Kprobes) : Prop where
  breakpoints : s'.breakpoints = s.breakpoints
  hardBreakpoints : s'.hardBreakpoints = s.hardBreakpoints
  kpList : s'.kpList = s.kpList
  kprobe : s'.kprobe = s.kprobe
  dfsr : s'.dfsr = s.dfsr

theorem Toggles.refl (s : Kprobes) : s.Toggles s := ⟨rfl, rfl, rfl, rfl, rfl⟩

theorem Toggles.trans {s : Kprobes} (h1 : s.Toggles s1) (h2 : s1.Toggles s2) :
    s.Toggles s2 :=
  ⟨h2.breakpoints.trans h1.breakpoints, h2.hardBreakpoints.trans h1.hardBreakpoints,
    h2.kpList.trans h1.kpList, h2.kprobe.trans h1.kprobe, h2.dfsr.trans h1.dfsr⟩

/-- The breakpoint in slot `b` has been switched, and is now enabled exactly if `on` holds; the
other slots have kept theirs. -/
structure Switched (s s' : Kprobes) (b : Nat) (on : Prop) : Prop where
  toggles : s.Toggles s'
  wf : s'.Wf
  self : s'.Enabled b ↔ on
  other : ∀ b' < bkptMaxNum, (s.breakpoints b').type ≠ .none → b' ≠ b →
    (s'.Enabled b' ↔ s.Enabled b')

section Switch

variable {s s' : Kprobes} {b : Nat}

theorem enabled_congr (hb : s'.breakpoints = s.breakpoints)
    (hf : (s.breakpoints b).type = .hard → s'.fpbComp (s.breakpoints b).rawData.toNat =
      s.fpbComp (s.breakpoints b).rawData.toNat)
    (hc : (s.breakpoints b).type = .soft →
      s'.code (s.breakpoints b).addr = s.code (s.breakpoints b).addr) :
    s'.Enabled b ↔ s.Enabled b := by
  unfold Enabled
  rw [hb]
  cases ht : (s.breakpoints b).type with
  | none => rfl
  | hard =>
    show FpbMatches _ _ ↔ FpbMatches _ _
    rw [hf ht]
  | soft =>
    show s'.code _ = _ ↔ s.code _ = _
    rw [hc ht]

theorem Wf.switch_hard (h : s.Wf) (hlt : b < bkptMaxNum) (ht : (s.breakpoints b).type = .hard)
    (hw : w &&& fpbCompEnable = 0#32 ∨ w = fpbCompFor (s.breakpoints b).addr) :
    s.Switched (s.setFpbComp (s.breakpoints b).rawData.toNat w) b
      (FpbMatches w (s.breakpoints b).addr) := by
  refine ⟨⟨rfl, rfl, rfl, rfl, rfl⟩,
    ⟨h.toPlaced.congr rfl (fun _ _ => rfl) rfl, h.hard, h.comp, ?_⟩, ?_, ?_⟩
  · intro c hc
    show Function.update s.fpbComp _ w c &&& _ = _ ∨ ∃ b', s.hardBreakpoints c = some b' ∧
      Function.update s.fpbComp _ w c = fpbCompFor (s.breakpoints b').addr
    by_cases hcc : c = (s.breakpoints b).rawData.toNat
    · subst hcc
      rw [Function.update_self]
      exact hw.imp_right fun hw => ⟨b, (h.hard b hlt ht).2, hw⟩
    · rw [Function.update_of_ne hcc]
      exact h.value c hc
  · have hen : (s.setFpbComp (s.breakpoints b).rawData.toNat w).Enabled b ↔
        FpbMatches (Function.update s.fpbComp _ w (s.breakpoints b).rawData.toNat) _ :=
      enabled_hard ht
    rw [hen, Function.update_self]
    rfl
  · intro b' hlt' _ hne
    refine enabled_congr rfl (fun ht' => ?_) fun _ => rfl
    exact Function.update_of_ne (fun heq => hne (h.id_inj hlt' hlt ht' ht heq)) _ _

theorem Wf.switch_soft (h : s.Wf) (hlt : b < bkptMaxNum) (ht : (s.breakpoints b).type = .soft)
    (inst : Halfword) :
    s.Switched (s.setCode (s.breakpoints b).addr inst) b (inst = breakpointInstr) := by
  refine ⟨⟨rfl, rfl, rfl, rfl, rfl⟩,
    ⟨h.toPlaced.congr rfl (fun _ _ => rfl) rfl, h.hard, h.comp, h.value⟩, ?_, ?_⟩
  · have hen : (s.setCode (s.breakpoints b).addr inst).Enabled b ↔
        Function.update s.code _ inst (s.breakpoints b).addr = breakpointInstr :=
      enabled_soft ht
    rw [hen, Function.update_self]
  · intro b' hlt' ht' hne
    have haddr : (s.breakpoints b').addr ≠ (s.breakpoints b).addr := fun heq =>
      hne (h.addr_inj hlt' hlt ht' (by rw [ht]; simp) heq)
    exact enabled_congr rfl (fun _ => rfl) fun _ => Function.update_of_ne haddr _ _

/-- A call of `enable_breakpoint` or `disable_breakpoint` for a slot in use switches it. -/
def Switches (op : Kprobes → Option Nat → Except Fault Kprobes) (on : Breakpoint → Prop) : Prop :=
  ∀ (s : Kprobes) (a : Word) (b : Nat), s.Wf → s.Configured b a → a &&& 1#32 = 0#32 →
    ∃ s', op s (some b) = .ok s' ∧ s.Switched s' b (on (s.breakpoints b))

theorem Switched.congr {on on' : Prop} (h : s.Switched s' b on) (hon : on ↔ on') :
    s.Switched s' b on' :=
  ⟨h.toggles, h.wf, h.self.trans hon, h.other⟩

theorem enableBreakpoint_switches : Switches enableBreakpoint fun _ => True := by
  intro s a b h hc heven
  cases ht : breakpointTypeByAddr a with
  | none => exact absurd ht (breakpointTypeByAddr_ne_none a)
  | hard =>
    refine ⟨_, callOp_hard (hc.ops.trans ht), ?_⟩
    refine (h.switch_hard hc.lt (hc.type.trans ht) (.inr rfl)).congr (iff_true_intro ?_)
    rw [hc.addr]
    exact (fpbMatches_for (lt_of_hard ht) heven heven).mpr rfl
  | soft =>
    refine ⟨_, callOp_soft (hc.ops.trans ht), ?_⟩
    exact (h.switch_soft hc.lt (hc.type.trans ht) _).congr (iff_true_intro rfl)

/-- The instruction that the slot puts back is itself the BKPT instruction. -/
def SavedBkpt (bp : Breakpoint) : Prop := bp.type = .soft ∧ bp.rawData = breakpointInstr

theorem disableBreakpoint_switches : Switches disableBreakpoint SavedBkpt := by
  intro s a b h hc heven
  cases ht : breakpointTypeByAddr a with
  | none => exact absurd ht (breakpointTypeByAddr_ne_none a)
  | hard =>
    have ht' := hc.type.trans ht
    refine ⟨_, callOp_hard (hc.ops.trans ht), ?_⟩
    refine (h.switch_hard hc.lt ht' (.inl (disabled _))).congr ?_
    refine iff_of_false (not_fpbMatches (disabled _)) fun hs => ?_
    exact absurd (ht'.symm.trans hs.1) (by simp)
  | soft =>
    have ht' := hc.type.trans ht
    refine ⟨_, callOp_soft (hc.ops.trans ht), ?_⟩
    exact (h.switch_soft hc.lt ht' _).congr ⟨fun heq => ⟨ht', heq⟩, fun hs => hs.2⟩

end Switch

/-! ## The loops -/

/-- One of the probes `ps` with slot `b` is at `pc`. -/
def At (s : Kprobes) (addrOf : Kprobe → Word) (pc : Word) (ps : List KpRef) (b : Nat) : Prop :=
  ∃ p ∈ ps, addrOf (s.kprobe p) = pc ∧ (s.kprobe p).bkpt = some b

/-- A loop over probes switches the breakpoints of those at `pc`. -/
theorem breakpointLoop_switches (addrOf : Kprobe → Word) (hop : Switches op on) (pc : Word)
    (ps : List KpRef) :
    ∀ s : Kprobes, s.Wf → (∀ p ∈ ps, p ∈ s.kpList) →
      ∃ s', breakpointLoop addrOf op pc ps s = .ok s' ∧ s.Toggles s' ∧ s'.Wf ∧
        ∀ b < bkptMaxNum, (s.breakpoints b).type ≠ .none →
          (s.At addrOf pc ps b → (s'.Enabled b ↔ on (s.breakpoints b))) ∧
          (¬ s.At addrOf pc ps b → (s'.Enabled b ↔ s.Enabled b)) := by
  induction ps with
  | nil =>
    intro s h _
    exact ⟨s, rfl, .refl s, h, fun b _ _ => ⟨by simp [At], fun _ => .rfl⟩⟩
  | cons p ps ih =>
    intro s h hsub
    have hp := hsub p List.mem_cons_self
    have htail : ∀ q ∈ ps, q ∈ s.kpList := fun q hq => hsub q (List.mem_cons_of_mem _ hq)
    by_cases hpc : addrOf (s.kprobe p) = pc
    · obtain ⟨b0, hb0, hc⟩ := h.slot p hp
      obtain ⟨s1, hs1, hsw⟩ := hop s _ b0 h hc (h.even p hp)
      obtain ⟨s', hrun, htog, hwf, hiff⟩ :=
        ih s1 hsw.wf (by rw [hsw.toggles.kpList]; exact htail)
      refine ⟨s', ?_, hsw.toggles.trans htog, hwf, fun b hlt ht => ?_⟩
      · rw [breakpointLoop, if_pos hpc, hb0, hs1]
        exact hrun
      · obtain ⟨hat, hnot⟩ := hiff b hlt (by rw [hsw.toggles.breakpoints]; exact ht)
        have hsame : s1.At addrOf pc ps b ↔ s.At addrOf pc ps b := by
          unfold At
          rw [hsw.toggles.kprobe]
        rw [hsame] at hat hnot
        rw [hsw.toggles.breakpoints] at hat
        by_cases hbb : b = b0
        · -- switched here, and perhaps once more later
          subst hbb
          refine ⟨fun _ => ?_, fun hn => absurd ⟨p, List.mem_cons_self, hpc, hb0⟩ hn⟩
          by_cases hlater : s.At addrOf pc ps b
          · exact hat hlater
          · exact (hnot hlater).trans hsw.self
        · have hcons : s.At addrOf pc (p :: ps) b ↔ s.At addrOf pc ps b := by
            have hne : ¬ (s.kprobe p).bkpt = some b := by
              rw [hb0]
              exact fun heq => hbb (Option.some.inj heq).symm
            simp [At, hne]
          rw [hcons]
          exact ⟨hat, fun hn => (hnot hn).trans (hsw.other b hlt ht hbb)⟩
    · obtain ⟨s', hrun, htog, hwf, hiff⟩ := ih s h htail
      refine ⟨s', ?_, htog, hwf, fun b hlt ht => ?_⟩
      · rw [breakpointLoop, if_neg hpc]
        exact hrun
      · have hcons : s.At addrOf pc (p :: ps) b ↔ s.At addrOf pc ps b := by simp [At, hpc]
        rw [hcons]
        exact hiff b hlt ht

/-! ## The two events -/

section Events

variable {s : Kprobes}

theorem set_and (x bit : Word) (hbit : bit ≠ 0#32) : (x ||| bit) &&& bit ≠ 0#32 := by
  rw [BitVec.and_or_distrib_right, BitVec.and_self]
  intro h
  exact hbit (BitVec.or_eq_zero_iff.mp h).2

theorem set_and_other (hx : x &&& k = 0#32) (hk : bit &&& k = 0#32) :
    (x ||| bit) &&& k = 0#32 := by
  rw [BitVec.and_or_distrib_right, hx, hk]
  simp

/-- An event that has been handled leaves no trace. -/
theorem handled (hx : x &&& k = 0#32) :
    (x ||| bit) &&& ~~~bit &&& k = 0#32 := by
  have hclear : (x ||| bit) &&& ~~~bit = x &&& ~~~bit := by
    rw [BitVec.and_or_distrib_right, BitVec.and_not_self]
    exact BitVec.or_zero
  rw [hclear, BitVec.and_assoc, BitVec.and_comm (~~~bit), ← BitVec.and_assoc, hx]
  simp

/-- The state after an event at `pc`. -/
structure Handled (s s' : Kprobes) (addrOf : Kprobe → Word) (pc : Word) (on : Breakpoint → Prop) :
    Prop where
  wf : s'.Wf
  idle : s'.Idle
  breakpoints : s'.breakpoints = s.breakpoints
  kpList : s'.kpList = s.kpList
  kprobe : s'.kprobe = s.kprobe
  at_pc : ∀ b < bkptMaxNum, (s.breakpoints b).type ≠ .none → s.At addrOf pc s.kpList b →
    (s'.Enabled b ↔ on (s.breakpoints b))
  other : ∀ b < bkptMaxNum, (s.breakpoints b).type ≠ .none → ¬ s.At addrOf pc s.kpList b →
    (s'.Enabled b ↔ s.Enabled b)

theorem Wf.handles (h : s.Wf) (hidle : s.Idle) (bit : Word) (step : Bool) (addrOf : Kprobe → Word)
    (hop : Switches op on) (pc : Word) :
    ∃ s', breakpointLoop addrOf op pc s.kpList
        { { s with dfsr := s.dfsr ||| bit }.clearDfsr bit with monStep := step } = .ok s' ∧
      s.Handled s' addrOf pc on := by
  let s1 : Kprobes := { { s with dfsr := s.dfsr ||| bit }.clearDfsr bit with monStep := step }
  have h1 : s1.Wf := ⟨h.toPlaced.congr rfl (fun _ _ => rfl) rfl, h.hard, h.comp, h.value⟩
  obtain ⟨s', hrun, htog, hwf, hiff⟩ :=
    breakpointLoop_switches addrOf hop pc s.kpList s1 h1 fun _ hp => hp
  refine ⟨s', hrun, hwf, ?_, htog.breakpoints, htog.kpList, htog.kprobe,
    fun b hlt ht => (hiff b hlt ht).1, fun b hlt ht => (hiff b hlt ht).2⟩
  unfold Idle
  rw [htog.dfsr]
  exact ⟨handled hidle.1, handled hidle.2.1, handled hidle.2.2⟩

theorem Wf.bkptEvent (h : s.Wf) (hidle : s.Idle) (ctx : ProbeContext) :
    ∃ s', s.debugEvent scbDfsrBkpt ctx = .ok (s.kprobePrebreak ctx, s') ∧
      s.Handled s' (·.addr) (s.kprobePrebreak ctx).stack.pc SavedBkpt := by
  obtain ⟨s', hrun, hh⟩ := h.handles hidle scbDfsrBkpt true (·.addr) disableBreakpoint_switches
    (s.kprobePrebreak ctx).stack.pc
  refine ⟨s', ?_, hh⟩
  unfold debugEvent archKprobeHandler
  rw [if_neg (not_not_intro (set_and_other hidle.2.2 (by decide))),
    if_pos (set_and _ _ (by decide))]
  exact Result.bind_ok.mpr ⟨s', hrun, rfl⟩

theorem Wf.stepEvent (h : s.Wf) (hidle : s.Idle) (ctx : ProbeContext) :
    ∃ s', s.debugEvent scbDfsrHalted ctx = .ok (s.kprobePostbreak ctx, s') ∧
      s.Handled s' (·.stepAddr) (s.kprobePostbreak ctx).stack.pc fun _ => True := by
  obtain ⟨s', hrun, hh⟩ := h.handles hidle scbDfsrHalted false (·.stepAddr)
    enableBreakpoint_switches (s.kprobePostbreak ctx).stack.pc
  refine ⟨s', ?_, hh⟩
  unfold debugEvent archKprobeHandler
  rw [if_neg (not_not_intro (set_and_other hidle.2.2 (by decide))),
    if_neg (not_not_intro (set_and_other hidle.2.1 (by decide))),
    if_pos (set_and _ _ (by decide))]
  exact Result.bind_ok.mpr ⟨s', hrun, rfl⟩

/-- The processor comes to the step address of one of the probes that were disabled, or what
has been put back is the BKPT instruction. -/
def Rearms (s : Kprobes) (bk st : ProbeContext) : Prop :=
  ∀ p ∈ s.kpList, (s.kprobe p).addr = (s.kprobePrebreak bk).stack.pc →
    (∃ q ∈ s.kpList, (s.kprobe q).addr = (s.kprobe p).addr ∧
      (s.kprobe q).stepAddr = (s.kprobePostbreak st).stack.pc) ∨
    ∃ b, (s.kprobe p).bkpt = some b ∧ SavedBkpt (s.breakpoints b)

/-- A breakpoint is enabled after the two events if it was not disabled, or has been enabled
again. -/
theorem Handled.enabled_iff {b : Nat} (h1 : s.Handled s1 (·.addr) pc SavedBkpt)
    (h2 : s1.Handled s2 (·.stepAddr) next fun _ => True) (hlt : b < bkptMaxNum)
    (ht : (s.breakpoints b).type ≠ .none) (hen : s.Enabled b) :
    s2.Enabled b ↔ (s.At (·.addr) pc s.kpList b →
      s.At (·.stepAddr) next s.kpList b ∨ SavedBkpt (s.breakpoints b)) := by
  have hat : s1.At (·.stepAddr) next s1.kpList b ↔ s.At (·.stepAddr) next s.kpList b := by
    unfold At
    rw [h1.kpList, h1.kprobe]
  have ht1 : (s1.breakpoints b).type ≠ .none := by
    rw [h1.breakpoints]
    exact ht
  by_cases hstep : s.At (·.stepAddr) next s.kpList b
  · exact iff_of_true ((h2.at_pc b hlt ht1 (hat.mpr hstep)).mpr trivial) fun _ => .inl hstep
  · rw [h2.other b hlt ht1 (mt hat.mp hstep), or_iff_right hstep]
    by_cases hpc : s.At (·.addr) pc s.kpList b
    · rw [h1.at_pc b hlt ht hpc]
      exact ⟨fun hs _ => hs, fun hs => hs hpc⟩
    · rw [h1.other b hlt ht hpc]
      exact iff_of_true hen fun hp => absurd hp hpc

theorem Wf.hit (h : s.Wf) (hidle : s.Idle) (harmed : s.Armed) (bk st : ProbeContext) :
    ∃ s', s.hit bk st = .ok s' ∧ s'.Wf ∧ s'.Idle ∧ (s'.Armed ↔ s.Rearms bk st) := by
  obtain ⟨s1, hrun1, h1⟩ := h.bkptEvent hidle bk
  obtain ⟨s2, hrun2, h2⟩ := h1.wf.stepEvent h1.idle st
  have hpost : s1.kprobePostbreak st = s.kprobePostbreak st := by
    unfold kprobePostbreak callHandlers
    rw [h1.kpList, h1.kprobe]
  rw [hpost] at h2
  refine ⟨s2, ?_, h2.wf, h2.idle, ?_⟩
  · exact Result.bind_ok.mpr ⟨_, hrun1, Result.bind_ok.mpr ⟨_, hrun2, rfl⟩⟩
  rw [h.armed_iff] at harmed
  rw [h2.wf.armed_iff, h2.breakpoints, h1.breakpoints]
  constructor
  · intro hall p hp hpc
    obtain ⟨b, hb, hc⟩ := h.slot p hp
    have ht : (s.breakpoints b).type ≠ .none := by
      rw [hc.type]
      exact breakpointTypeByAddr_ne_none _
    have hiff := h1.enabled_iff h2 hc.lt ht (harmed b hc.lt ht)
    rcases hiff.mp (hall b hc.lt ht) ⟨p, hp, hpc, hb⟩ with ⟨q, hq, hstep, hqb⟩ | hsaved
    · exact .inl ⟨q, hq, (h.same_iff hq hp).mp (hqb.trans hb.symm), hstep⟩
    · exact .inr ⟨b, hb, hsaved⟩
  · intro hre b hlt ht
    rw [h1.enabled_iff h2 hlt ht (harmed b hlt ht)]
    rintro ⟨p, hp, hpc, hb⟩
    rcases hre p hp hpc with ⟨q, hq, haddr, hstep⟩ | ⟨b', hb', hsaved⟩
    · exact .inl ⟨q, hq, hstep, ((h.same_iff hq hp).mpr haddr).trans hb⟩
    · rw [hb] at hb'
      rw [Option.some.inj hb']
      exact .inr hsaved

end Events

/-- A call, or a probe that is hit: the breakpoint event and the step event after it. -/
inductive Activity
  | call (c : ProbeCall)
  | hit (bk st : ProbeContext)

/-- The calls are proper, and after a hit the processor comes to where the breakpoint is enabled
again. -/
def KeepsArmed (s : Kprobes) : Activity → Prop
  | .call c => s.Proper c
  | .hit bk st => s.Rearms bk st

/-- Calls and hits from `kprobe_init` on. -/
def live : TSys Kprobes Activity where
  init := system.init
  step := fun s a s' =>
    match a with
    | .call c => ∃ ret, s.call c = .ok (ret, s')
    | .hit bk st => s.hit bk st = .ok s'

theorem Does.dfsr {s s' : Kprobes} {ret : Int} {c : ProbeCall} (h : s.Does ret s' c) :
    s'.dfsr = s.dfsr := by
  cases c with
  | register kp addr pre post =>
    obtain ⟨k, _, hreg⟩ := h
    cases hreg <;> rfl
  | unregister kp => cases h.2 <;> rfl

theorem kprobeInit_idle (s : Kprobes) : s.kprobeInit.Idle := by
  have hclear : ∀ k : Word, ~~~scbDfsrBkpt &&& ~~~scbDfsrHalted &&& ~~~scbDfsrDwttrap &&& k = 0#32 →
      s.kprobeInit.dfsr &&& k = 0#32 := by
    intro k hk
    show s.dfsr &&& ~~~scbDfsrBkpt &&& ~~~scbDfsrHalted &&& ~~~scbDfsrDwttrap &&& k = 0#32
    rw [BitVec.and_assoc s.dfsr, BitVec.and_assoc s.dfsr, BitVec.and_assoc s.dfsr, hk]
    simp
  exact ⟨hclear _ (by decide), hclear _ (by decide), hclear _ (by decide)⟩

theorem live_of_system {s : Kprobes} (h : system.Reachable Proper s) :
    live.Reachable KeepsArmed s := by
  induction h with
  | init hi => exact .init hi
  | @step s c s' _ hc hstep ih =>
    have hok : s.KeepsArmed (.call c) := hc
    exact .step ih hok hstep

end Kprobes

open Kprobes in
/-- In every state reached by calls and hits that meet the condition, the breakpoints of all
registered probes are enabled; and the next hit, wherever the instruction leads and whatever
the handlers do to the context, leaves them enabled if and only if it meets it too. -/
theorem probes_stay_armed {s : Kprobes} (h : Kprobes.live.Reachable KeepsArmed s) :
    s.Armed ∧ ∀ bk st, ∃ s', s.hit bk st = .ok s' ∧ (s'.Armed ↔ s.Rearms bk st) := by
  have hinv : s.Wf ∧ s.Idle ∧ s.Armed := by
    refine TSys.Reachable.invariant (I := fun s => s.Wf ∧ s.Idle ∧ s.Armed) ?_ ?_ h
    · rintro s ⟨s0, h0, rfl⟩
      exact ⟨h0.wf, s0.kprobeInit_idle, s0.kprobeInit_armed⟩
    · rintro s a s' ⟨hwf, hidle, harmed⟩ hok hstep
      cases a with
      | call c =>
        obtain ⟨ret, hrun⟩ := hstep
        have hdoes := hwf.does hok hrun
        refine ⟨hwf.step hok hdoes, ?_, hwf.step_armed harmed hok hdoes⟩
        unfold Idle
        rw [hdoes.dfsr]
        exact hidle
      | hit bk st =>
        obtain ⟨s1, hrun, hwf', hidle', hiff⟩ := hwf.hit hidle harmed bk st
        obtain rfl := Result.ok_ok.mp (hrun.symm.trans hstep)
        exact ⟨hwf', hidle', hiff.mpr hok⟩
  obtain ⟨hwf, hidle, harmed⟩ := hinv
  refine ⟨harmed, fun bk st => ?_⟩
  obtain ⟨s', hrun, _, _, hiff⟩ := hwf.hit hidle harmed bk st
  exact ⟨s', hrun, hiff⟩

namespace Kprobes

instance (s : Kprobes) (b : Nat) : Decidable (s.Enabled b) :=
  decidable_of_iff
    (((s.breakpoints b).type = .hard ∧
        FpbMatches (s.fpbComp (s.breakpoints b).rawData.toNat) (s.breakpoints b).addr) ∨
      ((s.breakpoints b).type = .soft ∧ s.code (s.breakpoints b).addr = breakpointInstr))
    (by
      unfold Enabled
      cases (s.breakpoints b).type <;> simp)

/-- The processor at `pc`. -/
def contextAt (pc : Word) : ProbeContext := ⟨{ (default : Frame) with pc := pc }, fun _ => 0#32⟩

/-- After these calls a probe is hit at `pc`, the processor comes to `next`, and the first probe
in the list is left without its breakpoint. -/
def disarms (code : Word → Halfword) (cs : List ProbeCall) (pc next : Word) : Bool :=
  ((start code).kprobeInit.run cs).any fun s =>
    Result.okWith (fun s' =>
      decide (s'.kpList.head?.map (fun p => (s'.kprobe p).addr) = some pc ∧
        s'.kpList.head?.bind (fun p => (s'.kprobe p).bkpt) = some 0 ∧ ¬ s'.Enabled 0))
      (s.hit (contextAt pc) (contextAt next))

theorem not_armed_of_disarms {code : Word → Halfword} {cs : List ProbeCall}
    (h : disarms code cs pc next = true) :
    ∃ s s' : Kprobes, live.Reachable KeepsArmed s ∧ (start code).kprobeInit.run cs = some s ∧
      s.hit (contextAt pc) (contextAt next) = .ok s' ∧ ¬ s'.Armed := by
  obtain ⟨s, hrun, hs⟩ := (Option.any_eq_true _ _).mp h
  obtain ⟨s', hhit, hs'⟩ := Result.okWith_iff.mp hs
  obtain ⟨_, hb, hen⟩ := of_decide_eq_true hs'
  refine ⟨s, s', live_of_system (run_reachable (fun _ => rfl) hrun), hrun, hhit, fun ha => ?_⟩
  obtain ⟨p, hp, hb⟩ := Option.bind_eq_some_iff.mp hb
  obtain ⟨b, hpb, he⟩ := ha p (List.mem_of_head? hp)
  rw [hb] at hpb
  rw [← Option.some.inj hpb] at he
  exact hen he

end Kprobes

open Kprobes in
/-- An instruction of 16 bits that is followed by the next one. -/
theorem probes_stay_armed_next :
    ∃ s s' : Kprobes, Kprobes.live.Reachable KeepsArmed s ∧ s.kpList = [0] ∧
      s.hit (contextAt 0x08001000#32) (contextAt 0x08001002#32) = .ok s' ∧ s'.Armed := by
  obtain ⟨s, hrun, hs⟩ := (Option.any_eq_true _ _).mp
    (show (((start fun _ => 0x3001#16).kprobeInit.run
        [.register 0 0x08001000#32 none none]).any fun s =>
        decide (s.kpList = [0] ∧ (s.kprobe 0).stepAddr = 0x08001002#32 ∧
          (s.kprobePostbreak (contextAt 0x08001002#32)).stack.pc = 0x08001002#32)) = true by decide)
  obtain ⟨hl, hstep, hpost⟩ := of_decide_eq_true hs
  have hreach := live_of_system (run_reachable (fun _ => rfl) hrun)
  obtain ⟨s', hhit, hiff⟩ := (probes_stay_armed hreach).2 (contextAt 0x08001000#32)
    (contextAt 0x08001002#32)
  refine ⟨s, s', hreach, hl, hhit, hiff.mpr fun p hp _ => .inl ?_⟩
  rw [hl, List.mem_singleton] at hp
  subst hp
  exact ⟨0, by rw [hl]; simp, rfl, hstep.trans hpost.symm⟩

open Kprobes in
/-- A return instruction leaves its probe without a breakpoint. So does an instruction of 32
bits in RAM, when the probe has been registered while another one was there: it has been taken
for one of 16 bits. -/
theorem probe_disarmed :
    (∃ s s' : Kprobes, Kprobes.live.Reachable KeepsArmed s ∧
      (start fun _ => 0x4770#16).kprobeInit.run [.register 0 0x08001000#32 none none] = some s ∧
      s.hit (contextAt 0x08001000#32) (contextAt 0x08000200#32) = .ok s' ∧ ¬ s'.Armed) ∧
    ∃ s s' : Kprobes, Kprobes.live.Reachable KeepsArmed s ∧
      (start fun _ => 0xf8d0#16).kprobeInit.run [.register 0 0x20000100#32 none none,
        .register 1 0x20000100#32 none none, .unregister 0] = some s ∧
      s.hit (contextAt 0x20000100#32) (contextAt 0x20000104#32) = .ok s' ∧ ¬ s'.Armed :=
  ⟨not_armed_of_disarms (by decide), not_armed_of_disarms (by decide)⟩

end F9
