import F9.Logic.Kprobes

/-!
# Shared breakpoints

Probes at the same address share a breakpoint, which lives as long as one of them is registered.
Unregistering the last one gives the slot and the comparator back. It does not put the
instruction back that a breakpoint in RAM has replaced.
-/

namespace F9

namespace Kprobes

/-- Which probes, slots and comparators belong together. -/
structure Sharing (s : Kprobes) : Prop where
  even : ∀ p ∈ s.kpList, (s.kprobe p).addr &&& 1#32 = 0#32
  same_iff : ∀ p ∈ s.kpList, ∀ q ∈ s.kpList,
    (s.kprobe p).bkpt = (s.kprobe q).bkpt ↔ (s.kprobe p).addr = (s.kprobe q).addr
  slot_iff : ∀ b < bkptMaxNum, (s.breakpoints b).type ≠ .none ↔
    ∃ p ∈ s.kpList, (s.kprobe p).bkpt = some b ∧ (s.kprobe p).addr = (s.breakpoints b).addr
  addr_slot : ∀ p ∈ s.kpList, ∃ b < bkptMaxNum, (s.kprobe p).bkpt = some b ∧
    (s.breakpoints b).type ≠ .none ∧ (s.breakpoints b).addr = (s.kprobe p).addr
  comp_iff : ∀ c < fpbMaxComp, s.hardBreakpoints c ≠ none ↔
    ∃ p ∈ s.kpList, FpbMatches (s.fpbComp c) (s.kprobe p).addr
  addr_comp : ∀ p ∈ s.kpList, (s.kprobe p).addr < 0x20000000#32 →
    ∃ c < fpbMaxComp, s.hardBreakpoints c ≠ none ∧ FpbMatches (s.fpbComp c) (s.kprobe p).addr
  comp_inj : ∀ b < bkptMaxNum, ∀ b' < bkptMaxNum, (s.breakpoints b).type = .hard →
    (s.breakpoints b').type = .hard → (s.breakpoints b).rawData = (s.breakpoints b').rawData →
    b = b'

variable {s : Kprobes}

theorem Placed.same_iff (h : s.Placed) {p q : KpRef} (hp : p ∈ s.kpList) (hq : q ∈ s.kpList) :
    (s.kprobe p).bkpt = (s.kprobe q).bkpt ↔ (s.kprobe p).addr = (s.kprobe q).addr := by
  refine ⟨fun heq => ?_, h.same p hp q hq⟩
  obtain ⟨b, hb, hc⟩ := h.slot p hp
  exact hc.addr.symm.trans (h.addr hq (heq.symm.trans hb)).addr

theorem Wf.comp_of_enabled (h : s.Wf) {p : KpRef} {b : Nat} (hp : p ∈ s.kpList)
    (hb : (s.kprobe p).bkpt = some b) (ht : (s.breakpoints b).type = .hard) (he : s.Enabled b) :
    FpbMatches (s.fpbComp (s.breakpoints b).rawData.toNat) (s.kprobe p).addr := by
  rw [enabled_hard ht, (h.addr hp hb).addr] at he
  exact he

theorem Wf.sharing (h : s.Wf) (ha : s.Armed) : s.Sharing := by
  rw [h.armed_iff] at ha
  have hard_ne : ∀ {t : BkptType}, t = .hard → t ≠ .none := by
    rintro t rfl
    simp
  constructor
  · exact h.even
  · exact fun p hp q hq => h.toPlaced.same_iff hp hq
  · intro b hlt
    constructor
    · intro ht
      obtain ⟨p, hp, hb, hc⟩ := h.probed hlt ht
      exact ⟨p, hp, hb, hc.addr.symm⟩
    · rintro ⟨p, hp, hb, _⟩
      rw [(h.addr hp hb).type]
      exact breakpointTypeByAddr_ne_none _
  · intro p hp
    obtain ⟨b, hb, hc⟩ := h.slot p hp
    exact ⟨b, hc.lt, hb, by rw [hc.type]; exact breakpointTypeByAddr_ne_none _, hc.addr⟩
  · intro c hc
    constructor
    · intro hne
      obtain ⟨b, hcb⟩ := Option.ne_none_iff_exists'.mp hne
      obtain ⟨hlt, ht, hid⟩ := h.comp c hc b hcb
      obtain ⟨p, hp, hb⟩ := h.used b hlt (hard_ne ht)
      have hm := h.comp_of_enabled hp hb ht (ha b hlt (hard_ne ht))
      rw [hid] at hm
      exact ⟨p, hp, hm⟩
    · rintro ⟨p, _, hm⟩ hnone
      rcases h.value c hc with hoff | ⟨b, hcb, _⟩
      · exact hm.1 hoff
      · rw [hnone] at hcb
        simp at hcb
  · intro p hp hflash
    obtain ⟨b, hb, hc⟩ := h.slot p hp
    have ht : (s.breakpoints b).type = .hard := hc.type.trans (if_pos hflash)
    obtain ⟨hid, hcb⟩ := h.hard b hc.lt ht
    exact ⟨_, hid, by rw [hcb]; simp, h.comp_of_enabled hp hb ht (ha b hc.lt (hard_ne ht))⟩
  · intro b hlt b' hlt' ht ht' heq
    exact h.id_inj hlt hlt' ht ht' (congrArg BitVec.toNat heq)

/-- A call that returns -1 leaves the list and the tables alone. -/
theorem Does.refused {s' : Kprobes} {c : ProbeCall} (h : s.Does (-1) s' c) :
    s'.kpList = s.kpList ∧ s'.breakpoints = s.breakpoints ∧
      s'.hardBreakpoints = s.hardBreakpoints ∧ s'.fpbComp = s.fpbComp := by
  cases c with
  | register kp addr pre post =>
    obtain ⟨k, _, hreg⟩ := h
    cases hreg with
    | refused => exact ⟨rfl, rfl, rfl, rfl⟩
  | unregister kp => exact absurd h.1 (by decide)

end Kprobes

open Kprobes in
/-- After every sequence of calls probes share a breakpoint exactly if their addresses are
equal, and slots and comparators are in use exactly for the addresses of registered probes; the
next call returns, and if it returns -1 nothing has changed. -/
theorem kprobes_share_breakpoints {s : Kprobes} (h : Kprobes.system.Reachable Proper s) :
    s.Sharing ∧ ∀ c, s.Proper c → ∃ ret s', s.call c = .ok (ret, s') ∧
      (ret = -1 → s'.kpList = s.kpList ∧ s'.breakpoints = s.breakpoints ∧
        s'.hardBreakpoints = s.hardBreakpoints ∧ s'.fpbComp = s.fpbComp) := by
  obtain ⟨hwf, harmed⟩ := calls_wf h
  refine ⟨hwf.sharing harmed, fun c hc => ?_⟩
  obtain ⟨ret, s', hrun, hdoes⟩ := hwf.call hc
  refine ⟨ret, s', hrun, ?_⟩
  rintro rfl
  exact hdoes.refused

namespace Kprobes

/-- The state before `kprobe_init`, with this code. -/
def start (code : Word → Halfword) : Kprobes where
  breakpoints := fun _ => ⟨.none, 0#16, 0#32, .none⟩
  hardBreakpoints := fun _ => none
  fpbComp := fun _ => 0#32
  dfsr := 0#32
  monStep := false
  code := code
  kpList := []
  kprobe := fun _ => ⟨0#32, none, none, none, 0#32⟩

/-- Carry out a call that succeeds. -/
def callOk (s : Kprobes) (c : ProbeCall) : Option Kprobes :=
  match s.call c with
  | .ok (0, s') => some s'
  | _ => none

theorem callOk_some {s s' : Kprobes} {c : ProbeCall} (h : s.callOk c = some s') :
    s.call c = .ok (0, s') := by
  unfold callOk at h
  split at h
  · rename_i hrun
    rw [hrun, Option.some.inj h]
  · simp at h

/-- A sequence of successful calls. -/
def run (s : Kprobes) (cs : List ProbeCall) : Option Kprobes :=
  TSys.runAll callOk (fun s c => decide (s.Proper c)) s cs

theorem run_reachable {s0 s : Kprobes} (h0 : s0.Cleared) {cs : List ProbeCall}
    (h : s0.kprobeInit.run cs = some s) : system.Reachable Proper s :=
  TSys.Reachable.runAll (M := system) (fun _ _ _ h => ⟨0, callOk_some h⟩)
    (fun _ _ => of_decide_eq_true) cs (.init ⟨s0, h0, rfl⟩) h

end Kprobes

open Kprobes in
/-- Two probes in flash at the same address and one in RAM; the first one has left. -/
theorem kprobes_share_breakpoints_three :
    ∃ s : Kprobes, Kprobes.system.Reachable Proper s ∧ s.kpList = [2, 1] ∧
      (s.kprobe 1).bkpt = some 0 ∧ (s.kprobe 2).bkpt = some 1 ∧ s.Sharing := by
  obtain ⟨s, hrun, hs⟩ := (Option.any_eq_true _ _).mp
    (show (((start fun _ => 0x4770#16).kprobeInit.run
        [.register 0 0x08001001#32 none none, .register 1 0x08001000#32 none none,
          .register 2 0x20000100#32 none none, .unregister 0]).any fun s =>
        decide (s.kpList = [2, 1] ∧ (s.kprobe 1).bkpt = some 0 ∧ (s.kprobe 2).bkpt = some 1)) =
      true by decide)
  obtain ⟨hl, h1, h2⟩ := of_decide_eq_true hs
  have hreach := run_reachable (fun _ => rfl) hrun
  exact ⟨s, hreach, hl, h1, h2, (kprobes_share_breakpoints hreach).1⟩

/-! ## Patched instructions -/

/-- The call registers a probe at the halfword at `a`. -/
def ProbeCall.Probes (a : Word) : ProbeCall → Prop
  | .register _ addr _ _ => addr &&& ~~~1#32 = a
  | .unregister _ => False

instance (a : Word) : (c : ProbeCall) → Decidable (c.Probes a)
  | .register _ addr _ _ => inferInstanceAs (Decidable (addr &&& ~~~1#32 = a))
  | .unregister _ => inferInstanceAs (Decidable False)

namespace Kprobes

section Code

variable {s s' : Kprobes} {c : ProbeCall} {a : Word}

/-- A successful registration in RAM patches its instruction, or finds it patched. Nothing else
is written to the code. -/
theorem Wf.code_step (h : s.Wf) (ha : s.Armed) (hdoes : s.Does 0 s' c) :
    s'.code a = if ¬ a < 0x20000000#32 ∧ c.Probes a then breakpointInstr else s.code a := by
  cases c with
  | unregister kp =>
    rw [if_neg (fun hc => hc.2)]
    cases hdoes.2 <;> rfl
  | register kp addr pre post =>
    obtain ⟨k, hk, hreg⟩ := hdoes
    have hat : (ProbeCall.register kp addr pre post).Probes a ↔ k.addr = a := by rw [hk]; rfl
    simp only [hat]
    cases hreg with
    | @shared q hq hqa =>
      show s.code a = _
      split
      · -- the instruction has been patched for another probe
        rename_i hsoft
        obtain ⟨b, hb, he⟩ := ha q hq
        have hc := h.addr hq hb
        rw [hqa, hsoft.2] at hc
        rw [enabled_soft (hc.type.trans (if_neg hsoft.1)), hc.addr] at he
        exact he
      · rfl
    | hard hun ht =>
      rw [if_neg]
      rintro ⟨hsoft, rfl⟩
      exact hsoft (lt_of_hard ht)
    | soft hun ht =>
      have hsoft : ¬ k.addr < 0x20000000#32 := fun hlt =>
        absurd ((if_pos hlt).symm.trans ht) (by simp)
      show Function.update s.code k.addr breakpointInstr a = _
      by_cases hka : k.addr = a
      · subst hka
        rw [Function.update_self, if_pos ⟨hsoft, rfl⟩]
      · rw [Function.update_of_ne (Ne.symm hka), if_neg (fun hc => hka hc.2)]

/-- The code after a sequence of calls: all instructions in RAM that were ever probed are
patched. -/
theorem Wf.code_run (cs : List ProbeCall) (h : s.Wf) (ha : s.Armed) (hrun : s.run cs = some s') :
    s'.Wf ∧ s'.code a =
      if ¬ a < 0x20000000#32 ∧ ∃ c ∈ cs, c.Probes a then breakpointInstr else s.code a := by
  induction cs generalizing s with
  | nil =>
    have heq : s = s' := Option.some.inj hrun
    subst heq
    exact ⟨h, by simp⟩
  | cons c cs ih =>
    have hrun : (if decide (s.Proper c) then (s.callOk c).bind fun s => s.run cs else none) =
      some s' := hrun
    split at hrun
    · rename_i hc
      obtain ⟨s1, h1, hrun⟩ := Option.bind_eq_some_iff.mp hrun
      have hc := of_decide_eq_true hc
      have hdoes := h.does hc (callOk_some h1)
      obtain ⟨hwf, hcode⟩ := ih (h.step hc hdoes) (h.step_armed ha hc hdoes) hrun
      refine ⟨hwf, ?_⟩
      rw [hcode, h.code_step ha hdoes]
      by_cases hflash : a < 0x20000000#32
      · simp [hflash]
      · by_cases hp : c.Probes a <;> simp [hflash, hp]
    · simp at hrun

end Code

end Kprobes

open Kprobes in
/-- After a sequence of successful calls that leaves no probe at `a`, no comparator stops there,
and the instruction is what it was if it is in flash, or was never probed, or has been the BKPT
instruction all along; in RAM it is not put back otherwise. -/
theorem unregister_restores {s0 s : Kprobes} (h0 : s0.Cleared) {cs : List ProbeCall}
    (hrun : s0.kprobeInit.run cs = some s) {a : Word} (heven : a &&& 1#32 = 0#32)
    (hun : s.Unprobed a) :
    (s.code a = s0.code a ∧ ∀ c < fpbMaxComp, ¬ FpbMatches (s.fpbComp c) a) ↔
      a < 0x20000000#32 ∨ (∀ c ∈ cs, ¬ c.Probes a) ∨ s0.code a = breakpointInstr := by
  obtain ⟨hwf, hcode⟩ := h0.wf.code_run (a := a) cs s0.kprobeInit_armed hrun
  have hcomp : ∀ c < fpbMaxComp, ¬ FpbMatches (s.fpbComp c) a := by
    intro c hc hm
    obtain ⟨p, hp, hpa⟩ := hwf.fpbMatches hc heven hm
    exact hun p hp hpa
  rw [and_iff_left hcomp, hcode]
  split
  · rename_i hpatched
    obtain ⟨hsoft, c, hc, hca⟩ := hpatched
    constructor
    · exact fun heq => .inr (.inr heq.symm)
    · rintro (hflash | hnone | heq)
      · exact absurd hflash hsoft
      · exact absurd hca (hnone c hc)
      · exact heq.symm
  · rename_i hclean
    refine iff_of_true rfl ?_
    by_cases hflash : a < 0x20000000#32
    · exact .inl hflash
    · exact .inr (.inl fun c hc hca => hclean ⟨hflash, c, hc, hca⟩)

open Kprobes in
/-- Probes in flash: the instruction has not been touched, and the comparator is off. -/
theorem unregister_restores_flash :
    ∃ s : Kprobes, (start fun _ => 0x4770#16).kprobeInit.run
        [.register 0 0x08001000#32 none none, .register 1 0x08001000#32 none none,
          .unregister 0, .unregister 1] = some s ∧
      s.code 0x08001000#32 = 0x4770#16 ∧
      ∀ c < fpbMaxComp, ¬ FpbMatches (s.fpbComp c) 0x08001000#32 := by
  obtain ⟨s, hrun, hs⟩ := (Option.any_eq_true _ _).mp
    (show (((start fun _ => 0x4770#16).kprobeInit.run
        [.register 0 0x08001000#32 none none, .register 1 0x08001000#32 none none,
          .unregister 0, .unregister 1]).any fun s => decide (s.kpList = [])) = true by decide)
  have hl := of_decide_eq_true hs
  have hun : s.Unprobed 0x08001000#32 := by
    intro q hq
    rw [hl] at hq
    exact absurd hq List.not_mem_nil
  exact ⟨s, hrun, (unregister_restores (fun _ => rfl) hrun (by decide) hun).mpr
    (.inl (by decide))⟩

open Kprobes in
/-- A probe in RAM has come and gone, and its BKPT instruction is still there. The next probe at
the address saves it as the instruction to go back to. -/
theorem unregister_leaves_bkpt :
    ((start fun _ => 0x4770#16).kprobeInit.run
        [.register 0 0x20000100#32 none none, .unregister 0]).map
      (fun s => (s.kpList, s.code 0x20000100#32)) = some ([], 0xbe11#16) ∧
    ((start fun _ => 0x4770#16).kprobeInit.run
        [.register 0 0x20000100#32 none none, .unregister 0,
          .register 0 0x20000100#32 none none]).map
      (fun s => (s.breakpoints 0).rawData) = some 0xbe11#16 := by
  decide

end F9
