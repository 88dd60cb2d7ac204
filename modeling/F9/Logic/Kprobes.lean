import F9.Kernel.Kprobes
import F9.Lib.Result

/-!
# Probes, slots and comparators

What one call does to the three tables, and the relation between them that every call keeps:
probes at the same address share a slot, every slot in use has a probe at its address, and every
slot in flash has a comparator of its own.
-/

namespace F9

variable {a w : Word} {q : KpRef}

namespace Kprobes

/-! ## Comparators -/

theorem and_high (ha : a < 0x20000000#32) : a &&& 0xE0000000#32 = 0#32 := by
  have hlt : a.toNat < 2 ^ 29 := BitVec.lt_def.mp ha
  apply BitVec.eq_of_getLsbD_eq
  intro i hi
  rw [BitVec.getLsbD_and, BitVec.getLsbD_zero, Bool.and_eq_false_iff]
  by_cases h : i < 29
  · right
    have hlow : ∀ i < 29, (0xE0000000#32).getLsbD i = false := by decide
    exact hlow i h
  · left
    exact Nat.testBit_lt_two_pow (Nat.lt_of_lt_of_le hlt (Nat.pow_le_pow_right (by decide)
      (by omega)))

/-- An even address in the code region is its masked part and bit 1. -/
theorem eq_masked (ha : a < 0x20000000#32) (he : a &&& 1#32 = 0#32) :
    a = (a &&& fpbCompAddrMask) ||| (a &&& 2#32) := by
  have hall : fpbCompAddrMask ||| 2#32 ||| 1#32 ||| 0xE0000000#32 = BitVec.allOnes 32 := by decide
  calc a = a &&& BitVec.allOnes 32 := (BitVec.and_allOnes).symm
    _ = (a &&& fpbCompAddrMask) ||| (a &&& 2#32) ||| (a &&& 1#32) ||| (a &&& 0xE0000000#32) := by
        rw [← hall, BitVec.and_or_distrib_left, BitVec.and_or_distrib_left,
          BitVec.and_or_distrib_left]
    _ = _ := by rw [he, and_high ha]; simp

/-- The halves that `hard_breakpoint_enable` puts together do not overlap. -/
theorem comp_and (r a x : Word) (hx : fpbCompAddrMask &&& x = 0#32) :
    (r ||| (a &&& fpbCompAddrMask) ||| fpbCompEnable) &&& x = (r ||| fpbCompEnable) &&& x := by
  rw [BitVec.and_or_distrib_right, BitVec.and_or_distrib_right, BitVec.and_assoc, hx,
    BitVec.and_or_distrib_right]
  simp

theorem comp_mask (r a : Word) (hr : r &&& fpbCompAddrMask = 0#32) :
    (r ||| (a &&& fpbCompAddrMask) ||| fpbCompEnable) &&& fpbCompAddrMask =
      a &&& fpbCompAddrMask := by
  have he : fpbCompEnable &&& fpbCompAddrMask = 0#32 := by decide
  rw [BitVec.and_or_distrib_right, BitVec.and_or_distrib_right, hr, he, BitVec.and_assoc,
    BitVec.and_self]
  simp

theorem and_two (a : Word) : a &&& 2#32 = 0#32 ∨ a &&& 2#32 = 2#32 := by
  have h := BitVec.and_twoPow a 1
  rw [show BitVec.twoPow 32 1 = 2#32 from rfl] at h
  rw [h]
  split
  · exact .inr rfl
  · exact .inl rfl

/-- A comparator set for an even address in flash stops there and nowhere else. -/
theorem fpbMatches_for {b : Word} (ha : a < 0x20000000#32) (hae : a &&& 1#32 = 0#32)
    (hbe : b &&& 1#32 = 0#32) : FpbMatches (fpbCompFor a) b ↔ b = a := by
  have hmask : fpbCompFor a &&& fpbCompAddrMask = a &&& fpbCompAddrMask := by
    unfold fpbCompFor
    split <;> exact comp_mask _ _ (by decide)
  -- the bits outside of the address
  have hbits : ∀ x, fpbCompAddrMask &&& x = 0#32 → fpbCompFor a &&& x =
      ((if a &&& 2#32 ≠ 0#32 then fpbCompReplaceUpper else fpbCompReplaceLower) |||
        fpbCompEnable) &&& x := by
    intro x hx
    unfold fpbCompFor
    split <;> exact comp_and _ _ _ hx
  constructor
  · rintro ⟨_, hb, hm, hr⟩
    have h2 : b &&& 2#32 = a &&& 2#32 := by
      rcases and_two a with h2 | h2 <;> rcases and_two b with h2' | h2' <;>
        rw [h2, h2'] <;> rw [h2'] at hr <;>
        rw [hbits _ (by decide), h2] at hr <;> exact absurd hr (by decide)
    rw [eq_masked hb hbe, eq_masked ha hae, h2, ← hm, hmask]
  · rintro rfl
    refine ⟨?_, ha, hmask, ?_⟩
    · rw [hbits _ (by decide)]
      rcases and_two b with h2 | h2 <;> rw [h2] <;> decide
    · rcases and_two b with h2 | h2 <;> rw [hbits _ (by rw [h2]; decide), h2] <;> decide

theorem not_fpbMatches (h : w &&& fpbCompEnable = 0#32) : ¬ FpbMatches w a :=
  fun hm => hm.1 h

theorem disabled (w : Word) : w &&& ~~~fpbCompEnable &&& fpbCompEnable = 0#32 := by
  rw [BitVec.and_assoc, show ~~~fpbCompEnable &&& fpbCompEnable = 0#32 by decide]
  simp

/-! ## What a call does -/

@[simp] theorem setKprobe_kprobe (s : Kprobes) (p : KpRef) (k : Kprobe) :
    (s.setKprobe p k).kprobe = Function.update s.kprobe p k := rfl

@[simp] theorem setKprobe_kpList (s : Kprobes) (p : KpRef) (k : Kprobe) :
    (s.setKprobe p k).kpList = s.kpList := rfl

/-- Nobody has a breakpoint at `a`. -/
def Unprobed (s : Kprobes) (a : Word) : Prop := ∀ q ∈ s.kpList, (s.kprobe q).addr ≠ a

variable {s : Kprobes}

theorem kplistSearch_none : s.kplistSearch a = none ↔ s.Unprobed a := by
  unfold kplistSearch Unprobed
  simp

theorem kplistSearch_some (h : s.kplistSearch a = some q) : q ∈ s.kpList ∧ (s.kprobe q).addr = a :=
  ⟨List.mem_of_find?_eq_some h, by simpa using List.find?_some h⟩

/-- What a registration of `kp` does, when the probe has become `k` before the search. -/
inductive Registers (s : Kprobes) (kp : KpRef) (k : Kprobe) : Int → Kprobes → Prop
  /-- there is no slot, or no comparator for it -/
  | refused : s.Unprobed k.addr → Registers s kp k (-1) (s.setKprobe kp k)
  | shared {q : KpRef} : q ∈ s.kpList → (s.kprobe q).addr = k.addr →
      Registers s kp k 0
        ((s.setKprobe kp { k with bkpt := (s.kprobe q).bkpt }).kplistAdd kp)
  | hard {b c : Nat} : s.Unprobed k.addr → breakpointTypeByAddr k.addr = .hard →
      b < bkptMaxNum → (s.breakpoints b).type = .none →
      c < fpbMaxComp → s.hardBreakpoints c = none →
      Registers s kp k 0
        { s with
          breakpoints := Function.update s.breakpoints b
            ⟨.hard, BitVec.ofNat 16 c, k.addr, .hard⟩
          hardBreakpoints := Function.update s.hardBreakpoints c (some b)
          fpbComp := Function.update s.fpbComp c (fpbCompFor k.addr)
          kpList := kp :: s.kpList
          kprobe := Function.update s.kprobe kp { k with bkpt := some b } }
  | soft {b : Nat} : s.Unprobed k.addr → breakpointTypeByAddr k.addr = .soft →
      b < bkptMaxNum → (s.breakpoints b).type = .none →
      Registers s kp k 0
        { s with
          breakpoints := Function.update s.breakpoints b ⟨.soft, s.code k.addr, k.addr, .soft⟩
          code := Function.update s.code k.addr breakpointInstr
          kpList := kp :: s.kpList
          kprobe := Function.update s.kprobe kp { k with bkpt := some b } }

theorem find?_range {n i : Nat} {p : Nat → Bool} (h : (List.range n).find? p = some i) :
    i < n ∧ p i = true :=
  ⟨List.mem_range.mp (List.mem_of_find?_eq_some h), List.find?_some h⟩

/-- The slot that `breakpoint_install` finds, with its comparator. -/
theorem breakpointInstall_some {s s' : Kprobes} {b : Nat}
    (h : s.breakpointInstall a = some (b, s')) :
    b < bkptMaxNum ∧ (s.breakpoints b).type = .none ∧
      ((breakpointTypeByAddr a = .hard ∧ ∃ c < fpbMaxComp, s.hardBreakpoints c = none ∧
          s' = { s with
            breakpoints := Function.update s.breakpoints b ⟨.hard, BitVec.ofNat 16 c, a, .hard⟩
            hardBreakpoints := Function.update s.hardBreakpoints c (some b) }) ∨
        (breakpointTypeByAddr a = .soft ∧
          s' = s.setBreakpoint b ⟨.soft, s.code a, a, .soft⟩)) := by
  unfold breakpointInstall getAvailBreakpoint at h
  cases hf : (List.range bkptMaxNum).find? fun i => (s.breakpoints i).type = .none with
  | none => rw [hf] at h; simp at h
  | some i =>
    rw [hf] at h
    obtain ⟨s1, hs1, heq⟩ := Option.map_eq_some_iff.mp h
    obtain ⟨rfl, rfl⟩ := Prod.mk.inj heq
    obtain ⟨hi, hfree⟩ := find?_range hf
    refine ⟨hi, of_decide_eq_true hfree, ?_⟩
    unfold breakpointConfig at hs1
    cases ht : breakpointTypeByAddr a with
    | none => rw [ht] at hs1; simp at hs1
    | soft =>
      rw [ht] at hs1
      unfold softBreakpointConfig at hs1
      rw [if_pos ht] at hs1
      exact .inr ⟨rfl, (Option.some.inj hs1).symm⟩
    | hard =>
      rw [ht] at hs1
      unfold hardBreakpointConfig at hs1
      rw [if_pos ht] at hs1
      cases hc : s.getAvailHardBreakpoint with
      | none => rw [hc] at hs1; simp at hs1
      | some c =>
        rw [hc] at hs1
        obtain ⟨hlt, hnone⟩ := find?_range hc
        exact .inl ⟨rfl, c, hlt, of_decide_eq_true hnone, (Option.some.inj hs1).symm⟩

variable {c : Nat}

theorem toNat_compId (hc : c < fpbMaxComp) : (BitVec.ofNat 16 c).toNat = c := by
  exact Nat.mod_eq_of_lt (Nat.lt_trans hc (by decide))

variable {b : Nat} {hard : Nat → Kprobes}

theorem callOp_hard {soft : Nat → Kprobes} (h : (s.breakpoints b).ops = .hard) :
    s.callOp (some b) hard soft = .ok (hard b) := by
  simp [callOp, h]

theorem callOp_soft {soft : Nat → Kprobes} (h : (s.breakpoints b).ops = .soft) :
    s.callOp (some b) hard soft = .ok (soft b) := by
  simp [callOp, h]

variable {kp : KpRef} {k : Kprobe}

/-- The slot is enabled, and the probe is added to the list. -/
theorem breakpointInstall_registers {s1 : Kprobes} (hun : s.Unprobed k.addr)
    (h : (s.setKprobe kp k).breakpointInstall k.addr = some (b, s1)) :
    ∃ s2, (s1.setKprobe kp { s1.kprobe kp with bkpt := some b }).enableBreakpoint (some b) =
      .ok s2 ∧ s.Registers kp k 0 (s2.kplistAdd kp) := by
  obtain ⟨hlt, hfree, ⟨ht, c, hc, hnone, rfl⟩ | ⟨ht, rfl⟩⟩ := breakpointInstall_some h
  · refine ⟨_, callOp_hard (by simp [setKprobe]), ?_⟩
    convert Registers.hard hun ht hlt hfree hc hnone using 1
    simp [hardBreakpointEnable, kplistAdd, setFpbComp, setKprobe, toNat_compId hc]
  · refine ⟨_, callOp_soft (by simp [setKprobe, setBreakpoint]), ?_⟩
    convert Registers.soft hun ht hlt hfree using 1
    simp [softBreakpointEnable, kplistAdd, setCode, setBreakpoint, setKprobe]

theorem kplistSearch_setKprobe (hkp : kp ∉ s.kpList) (a : Word) :
    (s.setKprobe kp k).kplistSearch a = s.kplistSearch a := by
  unfold kplistSearch
  rw [← List.head?_filter, ← List.head?_filter]
  refine congrArg _ (List.filter_congr fun q hq => ?_)
  have hne : q ≠ kp := fun h => hkp (h ▸ hq)
  simp [Function.update_of_ne hne]

theorem kprobeArchAdd_registers (hkp : kp ∉ s.kpList) :
    ∃ ret s1, (s.setKprobe kp k).kprobeArchAdd kp = .ok (ret, s1) ∧
      ((ret = -1 ∧ s.Registers kp k (-1) s1) ∨
        (ret = 0 ∧ s.Registers kp k 0 (s1.kplistAdd kp))) := by
  have hk : (s.setKprobe kp k).kprobe kp = k := by simp
  unfold kprobeArchAdd
  rw [hk, kplistSearch_setKprobe hkp]
  cases hq : s.kplistSearch k.addr with
  | some q =>
    obtain ⟨hmem, ha⟩ := kplistSearch_some hq
    have hne : q ≠ kp := fun h => hkp (h ▸ hmem)
    refine ⟨0, _, rfl, .inr ⟨rfl, ?_⟩⟩
    have hreg : s.Registers kp k 0 _ := .shared hmem ha
    simpa [setKprobe, Function.update_of_ne hne] using hreg
  | none =>
    have hun := kplistSearch_none.mp hq
    cases hb : (s.setKprobe kp k).breakpointInstall k.addr with
    | none => exact ⟨-1, _, rfl, .inl ⟨rfl, .refused hun⟩⟩
    | some v =>
      obtain ⟨s2, hs2, hreg⟩ := breakpointInstall_registers hun hb
      refine ⟨0, s2, ?_, .inr ⟨rfl, hreg⟩⟩
      exact Result.bind_ok.mpr ⟨s2, hs2, rfl⟩

/-- `kprobe_register` returns, and does one of these. -/
theorem kprobeRegister_registers (k0 : Kprobe) (hkp : kp ∉ s.kpList) :
    ∃ k : Kprobe, k.addr = k0.addr &&& ~~~1#32 ∧
      ∃ ret s', (s.setKprobe kp k0).kprobeRegister kp = .ok (ret, s') ∧
        s.Registers kp k ret s' := by
  let addr := k0.addr &&& ~~~1#32
  let k : Kprobe := { k0 with
    addr := addr
    stepAddr := if isThumb32 (s.code addr) then addr + 4#32 else addr + 2#32 }
  refine ⟨k, rfl, ?_⟩
  obtain ⟨ret, s1, hadd, hreg⟩ := kprobeArchAdd_registers (k := k) hkp
  have hrun : (s.setKprobe kp k0).kprobeRegister kp = (s.setKprobe kp k).kprobeArchAdd kp >>=
      fun v => if v.1 < 0 then pure (-1, v.2) else pure (0, v.2.kplistAdd kp) := by
    simp only [kprobeRegister, setKprobe, Function.update_self, Function.update_idem]
    rfl
  rw [hrun, hadd]
  rcases hreg with ⟨rfl, hreg⟩ | ⟨rfl, hreg⟩
  · exact ⟨-1, s1, rfl, hreg⟩
  · exact ⟨0, s1.kplistAdd kp, rfl, hreg⟩

/-- What unregistering `kp` does: it leaves the breakpoint to another probe at the address, or
gives it back. -/
inductive Unregisters (s : Kprobes) (kp : KpRef) : Kprobes → Prop
  | kept {q : KpRef} : q ∈ s.kpList.erase kp → (s.kprobe q).addr = (s.kprobe kp).addr →
      Unregisters s kp (s.kplistDel kp)
  | hard {b : Nat} : (s.kplistDel kp).Unprobed (s.kprobe kp).addr →
      (s.kprobe kp).bkpt = some b → (s.breakpoints b).ops = .hard →
      Unregisters s kp ((s.kplistDel kp).hardBreakpointRelease b)
  | soft {b : Nat} : (s.kplistDel kp).Unprobed (s.kprobe kp).addr →
      (s.kprobe kp).bkpt = some b → (s.breakpoints b).ops = .soft →
      Unregisters s kp ((s.kplistDel kp).softBreakpointRelease b)

/-- `kprobe_unregister` returns for a probe whose breakpoint has been configured. -/
theorem kprobeUnregister_unregisters (hb : (s.kprobe kp).bkpt = some b)
    (hops : (s.breakpoints b).ops ≠ .none) :
    ∃ s', s.kprobeUnregister kp = .ok (0, s') ∧ s.Unregisters kp s' := by
  have hrun : s.kprobeUnregister kp = (s.kplistDel kp).kprobeArchDel kp >>=
      fun v => pure (0, v.2) := rfl
  rw [hrun]
  unfold kprobeArchDel
  have hk : (s.kplistDel kp).kprobe kp = s.kprobe kp := rfl
  rw [hk, hb]
  cases hq : (s.kplistDel kp).kplistSearch (s.kprobe kp).addr with
  | some q =>
    obtain ⟨hmem, ha⟩ := kplistSearch_some hq
    exact ⟨_, rfl, .kept hmem ha⟩
  | none =>
    have hun := kplistSearch_none.mp hq
    cases ho : (s.breakpoints b).ops with
    | none => exact absurd ho hops
    | hard =>
      have hun' : (s.kplistDel kp).breakpointUninstall (some b) = _ := callOp_hard ho
      exact ⟨_, by rw [hun']; rfl, .hard hun hb ho⟩
    | soft =>
      have hun' : (s.kplistDel kp).breakpointUninstall (some b) = _ := callOp_soft ho
      exact ⟨_, by rw [hun']; rfl, .soft hun hb ho⟩

/-! ## The relation between the tables -/

/-- Slot `b` is set up for a breakpoint at `a`. -/
structure Configured (s : Kprobes) (b : Nat) (a : Word) : Prop where
  lt : b < bkptMaxNum
  type : (s.breakpoints b).type = breakpointTypeByAddr a
  ops : (s.breakpoints b).ops = breakpointTypeByAddr a
  addr : (s.breakpoints b).addr = a

/-- Probes and slots. -/
structure Placed (s : Kprobes) : Prop where
  nodup : s.kpList.Nodup
  even : ∀ p ∈ s.kpList, (s.kprobe p).addr &&& 1#32 = 0#32
  slot : ∀ p ∈ s.kpList, ∃ b, (s.kprobe p).bkpt = some b ∧ s.Configured b (s.kprobe p).addr
  same : ∀ p ∈ s.kpList, ∀ q ∈ s.kpList, (s.kprobe p).addr = (s.kprobe q).addr →
    (s.kprobe p).bkpt = (s.kprobe q).bkpt
  /-- a slot in use has a probe -/
  used : ∀ b < bkptMaxNum, (s.breakpoints b).type ≠ .none →
    ∃ p ∈ s.kpList, (s.kprobe p).bkpt = some b

/-- Slots and comparators. -/
structure Served (s : Kprobes) : Prop where
  hard : ∀ b < bkptMaxNum, (s.breakpoints b).type = .hard →
    (s.breakpoints b).rawData.toNat < fpbMaxComp ∧
      s.hardBreakpoints (s.breakpoints b).rawData.toNat = some b
  comp : ∀ c < fpbMaxComp, ∀ b, s.hardBreakpoints c = some b →
    b < bkptMaxNum ∧ (s.breakpoints b).type = .hard ∧ (s.breakpoints b).rawData.toNat = c
  /-- a comparator is off, or set for the address of its slot -/
  value : ∀ c < fpbMaxComp, s.fpbComp c &&& fpbCompEnable = 0#32 ∨
    ∃ b, s.hardBreakpoints c = some b ∧ s.fpbComp c = fpbCompFor (s.breakpoints b).addr

structure Wf (s : Kprobes) : Prop extends s.Placed, s.Served

theorem breakpointTypeByAddr_ne_none (a : Word) : breakpointTypeByAddr a ≠ .none := by
  unfold breakpointTypeByAddr
  split <;> simp

theorem Placed.addr {s : Kprobes} (h : s.Placed) {p : KpRef} {b : Nat} (hp : p ∈ s.kpList)
    (hb : (s.kprobe p).bkpt = some b) : s.Configured b (s.kprobe p).addr := by
  obtain ⟨b', hb', hc⟩ := h.slot p hp
  rw [hb] at hb'
  rw [Option.some.inj hb']
  exact hc

theorem Placed.probed (h : s.Placed) (hb : b < bkptMaxNum) (ht : (s.breakpoints b).type ≠ .none) :
    ∃ p ∈ s.kpList, (s.kprobe p).bkpt = some b ∧ s.Configured b (s.kprobe p).addr := by
  obtain ⟨p, hp, hpb⟩ := h.used b hb ht
  exact ⟨p, hp, hpb, h.addr hp hpb⟩

variable {b' : Nat}

theorem Placed.addr_inj (h : s.Placed) (hlt : b < bkptMaxNum) (hlt' : b' < bkptMaxNum)
    (ht : (s.breakpoints b).type ≠ .none) (ht' : (s.breakpoints b').type ≠ .none)
    (heq : (s.breakpoints b).addr = (s.breakpoints b').addr) : b = b' := by
  obtain ⟨p, hp, hb, hc⟩ := h.probed hlt ht
  obtain ⟨p', hp', hb', hc'⟩ := h.probed hlt' ht'
  have hsame := h.same p hp p' hp' (hc.addr.symm.trans (heq.trans hc'.addr))
  rw [hb, hb'] at hsame
  exact Option.some.inj hsame

theorem Served.id_inj (h : s.Served) (hlt : b < bkptMaxNum) (hlt' : b' < bkptMaxNum)
    (ht : (s.breakpoints b).type = .hard) (ht' : (s.breakpoints b').type = .hard)
    (heq : (s.breakpoints b).rawData.toNat = (s.breakpoints b').rawData.toNat) : b = b' := by
  have h1 := (h.hard b hlt ht).2
  have h2 := (h.hard b' hlt' ht').2
  rw [heq, h2] at h1
  exact (Option.some.inj h1).symm

section Steps

variable {s s' : Kprobes} {kp : KpRef} {k : Kprobe} {b c : Nat} {bp : Breakpoint}

theorem update_of_mem {l : List KpRef} {f : KpRef → Kprobe} (hkp : kp ∉ l) (hq : q ∈ l) :
    Function.update f kp k q = f q := by
  apply Function.update_of_ne
  rintro rfl
  exact hkp hq

theorem Configured.congr (h : s.Configured b a) (hb : s'.breakpoints b = s.breakpoints b) :
    s'.Configured b a :=
  ⟨h.lt, hb ▸ h.type, hb ▸ h.ops, hb ▸ h.addr⟩

/-- The slots stay, every probe now looks like one before, and no slot loses all of its probes. -/
theorem Placed.relist (h : s.Placed) (hb : s'.breakpoints = s.breakpoints) (hnd : s'.kpList.Nodup)
    (hlook : ∀ p ∈ s'.kpList, ∃ q ∈ s.kpList, (s'.kprobe p).addr = (s.kprobe q).addr ∧
      (s'.kprobe p).bkpt = (s.kprobe q).bkpt)
    (hkeep : ∀ q ∈ s.kpList, ∃ p ∈ s'.kpList, (s'.kprobe p).bkpt = (s.kprobe q).bkpt) :
    s'.Placed := by
  refine ⟨hnd, fun p hp => ?_, fun p hp => ?_, fun p hp p' hp' heq => ?_, fun b hlt ht => ?_⟩
  · obtain ⟨q, hq, ha, _⟩ := hlook p hp
    rw [ha]
    exact h.even q hq
  · obtain ⟨q, hq, ha, hbkpt⟩ := hlook p hp
    obtain ⟨b, hqb, hc⟩ := h.slot q hq
    rw [ha, hbkpt]
    exact ⟨b, hqb, hc.congr (by rw [hb])⟩
  · obtain ⟨q, hq, ha, hbkpt⟩ := hlook p hp
    obtain ⟨q', hq', ha', hbkpt'⟩ := hlook p' hp'
    rw [ha, ha'] at heq
    rw [hbkpt, hbkpt']
    exact h.same q hq q' hq' heq
  · rw [hb] at ht
    obtain ⟨q, hq, hqb⟩ := h.used b hlt ht
    obtain ⟨p, hp, hpb⟩ := hkeep q hq
    exact ⟨p, hp, hpb.trans hqb⟩

theorem Placed.congr (h : s.Placed) (hl : s'.kpList = s.kpList)
    (hp : ∀ p ∈ s.kpList, s'.kprobe p = s.kprobe p) (hb : s'.breakpoints = s.breakpoints) :
    s'.Placed := by
  refine h.relist hb (hl ▸ h.nodup) (fun p hm => ?_) fun p hm => ⟨p, hl ▸ hm, by rw [hp p hm]⟩
  rw [hl] at hm
  rw [hp p hm]
  exact ⟨p, hm, rfl, rfl⟩

theorem Placed.share (h : s.Placed) (hkp : kp ∉ s.kpList) (hq : q ∈ s.kpList)
    (ha : (s.kprobe q).addr = k.addr) (hb : k.bkpt = (s.kprobe q).bkpt) :
    ((s.setKprobe kp k).kplistAdd kp).Placed := by
  have hold : ∀ p ∈ s.kpList, ((s.setKprobe kp k).kplistAdd kp).kprobe p = s.kprobe p :=
    fun p hp => update_of_mem hkp hp
  have hnew : ((s.setKprobe kp k).kplistAdd kp).kprobe kp = k := Function.update_self _ _ _
  refine h.relist rfl (List.nodup_cons.mpr ⟨hkp, h.nodup⟩) (fun p hp => ?_) fun p hp =>
    ⟨p, List.mem_cons_of_mem _ hp, by rw [hold p hp]⟩
  rcases List.mem_cons.mp hp with rfl | hp
  · rw [hnew]
    exact ⟨q, hq, ha.symm, hb⟩
  · rw [hold p hp]
    exact ⟨p, hp, rfl, rfl⟩

theorem Placed.install (h : s.Placed) (hkp : kp ∉ s.kpList) (hun : s.Unprobed k.addr)
    (heven : k.addr &&& 1#32 = 0#32) (hlt : b < bkptMaxNum) (hfree : (s.breakpoints b).type = .none)
    (hk : k.bkpt = some b) (ht : bp.type = breakpointTypeByAddr k.addr) (ho : bp.ops = bp.type)
    (ha : bp.addr = k.addr) (hl : s'.kpList = kp :: s.kpList)
    (hp : s'.kprobe = Function.update s.kprobe kp k)
    (hb : s'.breakpoints = Function.update s.breakpoints b bp) : s'.Placed := by
  have hnew : s'.kprobe kp = k := by rw [hp, Function.update_self]
  have hold : ∀ p ∈ s.kpList, s'.kprobe p = s.kprobe p := fun p hm => by
    rw [hp, update_of_mem hkp hm]
  have hmem : ∀ p, p ∈ s'.kpList ↔ p = kp ∨ p ∈ s.kpList := fun p => by rw [hl, List.mem_cons]
  -- the slot is new to all the other probes
  have hne : ∀ p ∈ s.kpList, ∀ b', (s.kprobe p).bkpt = some b' → b' ≠ b := by
    rintro p hm _ hpb rfl
    have := (h.addr hm hpb).type
    rw [hfree] at this
    exact breakpointTypeByAddr_ne_none _ this.symm
  constructor
  · rw [hl]
    exact List.nodup_cons.mpr ⟨hkp, h.nodup⟩
  · intro p hm
    rcases (hmem p).mp hm with rfl | hm
    · rw [hnew]
      exact heven
    · rw [hold p hm]
      exact h.even p hm
  · intro p hm
    rcases (hmem p).mp hm with rfl | hm
    · rw [hnew]
      refine ⟨b, hk, hlt, ?_, ?_, ?_⟩
      · rw [hb, Function.update_self, ht]
      · rw [hb, Function.update_self, ho, ht]
      · rw [hb, Function.update_self, ha]
    · obtain ⟨b', hpb, hc⟩ := h.slot p hm
      rw [hold p hm]
      exact ⟨b', hpb, hc.congr (by rw [hb, Function.update_of_ne (hne p hm b' hpb)])⟩
  · intro p hm q hm' heq
    rcases (hmem p).mp hm with rfl | hm <;> rcases (hmem q).mp hm' with rfl | hm'
    · rfl
    · rw [hnew, hold q hm'] at heq
      exact absurd heq.symm (hun q hm')
    · rw [hnew, hold p hm] at heq
      exact absurd heq (hun p hm)
    · rw [hold p hm, hold q hm'] at heq ⊢
      exact h.same p hm q hm' heq
  · intro b' hlt' ht'
    by_cases hbb : b' = b
    · subst hbb
      exact ⟨kp, (hmem kp).mpr (.inl rfl), by rw [hnew, hk]⟩
    · rw [hb, Function.update_of_ne hbb] at ht'
      obtain ⟨p, hm, hpb⟩ := h.used b' hlt' ht'
      exact ⟨p, (hmem p).mpr (.inr hm), by rw [hold p hm, hpb]⟩

theorem Placed.leave (h : s.Placed) (hkp : kp ∈ s.kpList) (hq : q ∈ s.kpList.erase kp)
    (ha : (s.kprobe q).addr = (s.kprobe kp).addr) : (s.kplistDel kp).Placed := by
  have hsub : ∀ p ∈ s.kpList.erase kp, p ∈ s.kpList := fun p => List.mem_of_mem_erase
  refine h.relist rfl (h.nodup.erase kp) (fun p hp => ⟨p, hsub p hp, rfl, rfl⟩) fun p hp => ?_
  by_cases hpk : p = kp
  · subst hpk
    exact ⟨q, hq, h.same q (hsub q hq) p hp ha⟩
  · exact ⟨p, (List.mem_erase_of_ne hpk).mpr hp, rfl⟩

theorem Placed.release (h : s.Placed) (hkp : kp ∈ s.kpList)
    (hun : (s.kplistDel kp).Unprobed (s.kprobe kp).addr) (hk : (s.kprobe kp).bkpt = some b)
    (hl : s'.kpList = s.kpList.erase kp) (hp : s'.kprobe = s.kprobe)
    (hb : s'.breakpoints = Function.update s.breakpoints b { s.breakpoints b with type := .none }) :
    s'.Placed := by
  have hsub : ∀ p ∈ s'.kpList, p ∈ s.kpList := fun p hm => List.mem_of_mem_erase (hl ▸ hm)
  -- no other probe has the slot
  have hne : ∀ p ∈ s'.kpList, ∀ b', (s.kprobe p).bkpt = some b' → b' ≠ b := by
    rintro p hm _ hpb rfl
    have h1 := (h.addr (hsub p hm) hpb).addr
    have h2 := (h.addr hkp hk).addr
    rw [hl] at hm
    exact hun p hm (h1.symm.trans h2)
  constructor
  · rw [hl]
    exact h.nodup.erase kp
  · intro p hm
    rw [hp]
    exact h.even p (hsub p hm)
  · intro p hm
    obtain ⟨b', hpb, hc⟩ := h.slot p (hsub p hm)
    rw [hp]
    exact ⟨b', hpb, hc.congr (by rw [hb, Function.update_of_ne (hne p hm b' hpb)])⟩
  · intro p hm q hm' heq
    rw [hp] at heq ⊢
    exact h.same p (hsub p hm) q (hsub q hm') heq
  · intro b' hlt ht
    have hbb : b' ≠ b := by
      rintro rfl
      rw [hb, Function.update_self] at ht
      exact ht rfl
    rw [hb, Function.update_of_ne hbb] at ht
    obtain ⟨p, hm, hpb⟩ := h.used b' hlt ht
    have hpk : p ≠ kp := by
      rintro rfl
      rw [hk] at hpb
      exact hbb (Option.some.inj hpb).symm
    refine ⟨p, ?_, by rw [hp, hpb]⟩
    rw [hl]
    exact (List.mem_erase_of_ne hpk).mpr hm

/-! Comparators -/

/-- Slot `b` and the comparators `D` are set up anew. The others keep serving each other. -/
theorem Served.update {D : Set Nat} (h : s.Served)
    (hb : s'.breakpoints = Function.update s.breakpoints b bp)
    (hkeep : ∀ c ∉ D, s'.hardBreakpoints c = s.hardBreakpoints c ∧ s'.fpbComp c = s.fpbComp c)
    (hmine : ∀ c < fpbMaxComp, s.hardBreakpoints c = some b → c ∈ D)
    (hother : ∀ c ∈ D, ∀ b', b' ≠ b → s.hardBreakpoints c ≠ some b')
    (hslot : bp.type = .hard → bp.rawData.toNat < fpbMaxComp ∧
      s'.hardBreakpoints bp.rawData.toNat = some b)
    (hcomp : ∀ c ∈ D, (∀ b', s'.hardBreakpoints c = some b' →
        b' < bkptMaxNum ∧ (s'.breakpoints b').type = .hard ∧
          (s'.breakpoints b').rawData.toNat = c) ∧
      (s'.fpbComp c &&& fpbCompEnable = 0#32 ∨ ∃ b', s'.hardBreakpoints c = some b' ∧
        s'.fpbComp c = fpbCompFor (s'.breakpoints b').addr)) : s'.Served := by
  -- the slot of a comparator that stays
  have hold : ∀ c < fpbMaxComp, c ∉ D → ∀ b', s.hardBreakpoints c = some b' →
      s'.breakpoints b' = s.breakpoints b' := by
    intro c hc hcD b' hcb
    rw [hb, Function.update_of_ne]
    rintro rfl
    exact hcD (hmine c hc hcb)
  constructor
  · intro b' hlt ht
    by_cases hbb : b' = b
    · subst hbb
      rw [hb, Function.update_self] at ht ⊢
      exact hslot ht
    · rw [hb, Function.update_of_ne hbb] at ht ⊢
      obtain ⟨hid, hcb⟩ := h.hard b' hlt ht
      rw [(hkeep _ fun hcD => hother _ hcD b' hbb hcb).1]
      exact ⟨hid, hcb⟩
  · intro c hc b' hcb
    by_cases hcD : c ∈ D
    · exact (hcomp c hcD).1 b' hcb
    · rw [(hkeep c hcD).1] at hcb
      rw [hold c hc hcD b' hcb]
      exact h.comp c hc b' hcb
  · intro c hc
    by_cases hcD : c ∈ D
    · exact (hcomp c hcD).2
    · rw [(hkeep c hcD).1, (hkeep c hcD).2]
      rcases h.value c hc with hoff | ⟨b', hcb, hv⟩
      · exact .inl hoff
      · exact .inr ⟨b', hcb, by rw [hold c hc hcD b' hcb, hv]⟩

theorem Served.soft (h : s.Served) (hfree : (s.breakpoints b).type ≠ .hard) (ht : bp.type ≠ .hard)
    (hb : s'.breakpoints = Function.update s.breakpoints b bp)
    (hh : s'.hardBreakpoints = s.hardBreakpoints) (hf : s'.fpbComp = s.fpbComp) : s'.Served := by
  refine h.update (D := ∅) hb (fun c _ => ⟨by rw [hh], by rw [hf]⟩) ?_ (by simp)
    (fun ht' => absurd ht' ht) (by simp)
  exact fun c hc hcb => absurd (h.comp c hc b hcb).2.1 hfree

theorem Served.install (h : s.Served) (hlt : b < bkptMaxNum)
    (hfree : (s.breakpoints b).type ≠ .hard) (hc : c < fpbMaxComp)
    (hnone : s.hardBreakpoints c = none) (ht : bp.type = .hard) (hid : bp.rawData.toNat = c)
    (hb : s'.breakpoints = Function.update s.breakpoints b bp)
    (hh : s'.hardBreakpoints = Function.update s.hardBreakpoints c (some b))
    (hf : s'.fpbComp = Function.update s.fpbComp c (fpbCompFor bp.addr)) : s'.Served := by
  have hmine : s'.hardBreakpoints c = some b := by rw [hh, Function.update_self]
  have hbp : s'.breakpoints b = bp := by rw [hb, Function.update_self]
  refine h.update (D := {c}) hb (fun c' hcc => ?_) ?_ ?_ (fun _ => hid ▸ ⟨hc, hmine⟩) ?_
  · rw [hh, hf, Function.update_of_ne hcc, Function.update_of_ne hcc]
    exact ⟨rfl, rfl⟩
  · exact fun c' hc' hcb => absurd (h.comp c' hc' b hcb).2.1 hfree
  · rintro _ rfl b' _ hcb
    rw [hnone] at hcb
    simp at hcb
  · rintro _ rfl
    refine ⟨fun b' hcb => ?_, .inr ⟨b, hmine, by rw [hf, hbp, Function.update_self]⟩⟩
    rw [hmine] at hcb
    rw [← Option.some.inj hcb, hbp]
    exact ⟨hlt, ht, hid⟩

theorem Served.release (h : s.Served) (hlt : b < bkptMaxNum)
    (ht : (s.breakpoints b).type = .hard) (hid : (s.breakpoints b).rawData.toNat = c)
    (hb : s'.breakpoints = Function.update s.breakpoints b { s.breakpoints b with type := .none })
    (hh : s'.hardBreakpoints = Function.update s.hardBreakpoints c none)
    (hf : s'.fpbComp = Function.update s.fpbComp c (s.fpbComp c &&& ~~~fpbCompEnable)) :
    s'.Served := by
  have hmine := (h.hard b hlt ht).2
  rw [hid] at hmine
  refine h.update (D := {c}) hb (fun c' hcc => ?_) ?_ ?_ (by simp) ?_
  · rw [hh, hf, Function.update_of_ne hcc, Function.update_of_ne hcc]
    exact ⟨rfl, rfl⟩
  · exact fun c' hc' hcb => (h.comp c' hc' b hcb).2.2.symm.trans hid
  · rintro _ rfl b' hbb hcb
    rw [hmine] at hcb
    exact hbb (Option.some.inj hcb).symm
  · rintro _ rfl
    rw [hh, hf, Function.update_self, Function.update_self]
    exact ⟨by simp, .inl (disabled _)⟩

end Steps

/-- The breakpoint in slot `b` is enabled. -/
def Enabled (s : Kprobes) (b : Nat) : Prop :=
  match (s.breakpoints b).type with
  | .hard => FpbMatches (s.fpbComp (s.breakpoints b).rawData.toNat) (s.breakpoints b).addr
  | .soft => s.code (s.breakpoints b).addr = breakpointInstr
  | .none => False

/-- The breakpoints of all registered probes are enabled. -/
def Armed (s : Kprobes) : Prop := ∀ p ∈ s.kpList, ∃ b, (s.kprobe p).bkpt = some b ∧ s.Enabled b

theorem enabled_hard (ht : (s.breakpoints b).type = .hard) :
    s.Enabled b ↔
      FpbMatches (s.fpbComp (s.breakpoints b).rawData.toNat) (s.breakpoints b).addr := by
  unfold Enabled
  rw [ht]

theorem enabled_soft (ht : (s.breakpoints b).type = .soft) :
    s.Enabled b ↔ s.code (s.breakpoints b).addr = breakpointInstr := by
  unfold Enabled
  rw [ht]

theorem Placed.armed_iff (h : s.Placed) :
    s.Armed ↔ ∀ b < bkptMaxNum, (s.breakpoints b).type ≠ .none → s.Enabled b := by
  constructor
  · intro ha b hlt ht
    obtain ⟨p, hp, hpb⟩ := h.used b hlt ht
    obtain ⟨b', hpb', he⟩ := ha p hp
    rw [hpb] at hpb'
    rw [Option.some.inj hpb']
    exact he
  · intro he p hp
    obtain ⟨b, hpb, hc⟩ := h.slot p hp
    exact ⟨b, hpb, he b hc.lt (by rw [hc.type]; exact breakpointTypeByAddr_ne_none _)⟩

theorem lt_of_hard (h : breakpointTypeByAddr a = .hard) : a < 0x20000000#32 := by
  unfold breakpointTypeByAddr at h
  split at h
  · assumption
  · simp at h

/-! ## Calls keep it -/

section Calls

variable {s s' : Kprobes} {kp : KpRef} {k : Kprobe} {ret : Int} {c : ProbeCall}

theorem Wf.registers (h : s.Wf) (hkp : kp ∉ s.kpList) (heven : k.addr &&& 1#32 = 0#32)
    (hreg : s.Registers kp k ret s') : s'.Wf := by
  have hne : ∀ {t : BkptType}, t = .none → t ≠ .hard := by
    rintro t rfl
    simp
  cases hreg with
  | refused hun =>
    exact ⟨h.congr rfl (fun p hp => update_of_mem hkp hp) rfl, ⟨h.hard, h.comp, h.value⟩⟩
  | shared hq ha => exact ⟨h.share hkp hq ha rfl, ⟨h.hard, h.comp, h.value⟩⟩
  | @hard b c hun ht hlt hfree hc hnone =>
    refine ⟨Placed.install (k := { k with bkpt := some b }) h.toPlaced hkp hun heven hlt hfree
      rfl ht.symm rfl rfl rfl rfl rfl, ?_⟩
    exact h.toServed.install hlt (hne hfree) hc hnone rfl (toNat_compId hc) rfl rfl rfl
  | @soft b hun ht hlt hfree =>
    refine ⟨Placed.install (k := { k with bkpt := some b }) h.toPlaced hkp hun heven hlt hfree
      rfl ht.symm rfl rfl rfl rfl rfl, ?_⟩
    exact h.toServed.soft (hne hfree) (by simp) rfl rfl rfl

theorem Wf.unregisters (h : s.Wf) (hkp : kp ∈ s.kpList) (hreg : s.Unregisters kp s') :
    s'.Wf := by
  cases hreg with
  | kept hq ha => exact ⟨h.leave hkp hq ha, ⟨h.hard, h.comp, h.value⟩⟩
  | hard hun hb ho =>
    have hc := h.addr hkp hb
    have ht := hc.type.trans (hc.ops.symm.trans ho)
    exact ⟨h.toPlaced.release hkp hun hb rfl rfl rfl,
      h.toServed.release hc.lt ht rfl rfl rfl rfl⟩
  | soft hun hb ho =>
    have hc := h.addr hkp hb
    have ht := hc.type.trans (hc.ops.symm.trans ho)
    exact ⟨h.toPlaced.release hkp hun hb rfl rfl rfl,
      h.toServed.soft (by rw [ht]; simp) (by simp) rfl rfl rfl⟩

/-- A slot that is left alone stays enabled, and so does a patched instruction when another is
patched. -/
theorem Enabled.congr (h : s.Enabled b) (hb : s'.breakpoints b = s.breakpoints b)
    (hf : (s.breakpoints b).type = .hard →
      s'.fpbComp (s.breakpoints b).rawData.toNat = s.fpbComp (s.breakpoints b).rawData.toNat)
    (hcode : ∀ a, s'.code a = s.code a ∨ s'.code a = breakpointInstr) : s'.Enabled b := by
  unfold Enabled at h ⊢
  rw [hb]
  cases ht : (s.breakpoints b).type with
  | none => rw [ht] at h; exact h
  | hard =>
    rw [ht] at h
    show FpbMatches _ _
    rw [hf ht]
    exact h
  | soft =>
    rw [ht] at h
    show s'.code _ = _
    rcases hcode (s.breakpoints b).addr with heq | heq
    · rw [heq]
      exact h
    · exact heq

theorem Wf.registers_armed (h : s.Wf) (ha : s.Armed) (hkp : kp ∉ s.kpList)
    (heven : k.addr &&& 1#32 = 0#32) (hreg : s.Registers kp k ret s') : s'.Armed := by
  have h' := h.registers hkp heven hreg
  rw [h'.armed_iff]
  rw [h.armed_iff] at ha
  intro b' hlt' ht'
  cases hreg with
  | refused => exact ha b' hlt' ht'
  | shared => exact ha b' hlt' ht'
  | @hard b c hun ht hlt hfree hc hnone =>
    by_cases hbb : b' = b
    · subst hbb
      rw [enabled_hard (by simp)]
      simp only [Function.update_self, toNat_compId hc]
      exact (fpbMatches_for (lt_of_hard ht) heven heven).mpr rfl
    · have heq := Function.update_of_ne hbb
        (⟨.hard, BitVec.ofNat 16 c, k.addr, .hard⟩ : Breakpoint) s.breakpoints
      refine (ha b' hlt' (heq ▸ ht')).congr heq (fun hh => ?_) fun _ => .inl rfl
      refine Function.update_of_ne (fun hid => ?_) _ _
      have hcb := (h.hard b' hlt' hh).2
      rw [hid, hnone] at hcb
      simp at hcb
  | @soft b hun ht hlt hfree =>
    have hcode : ∀ a, Function.update s.code k.addr breakpointInstr a = s.code a ∨
        Function.update s.code k.addr breakpointInstr a = breakpointInstr := by
      intro a
      by_cases haa : a = k.addr
      · subst haa
        exact .inr (Function.update_self _ _ _)
      · exact .inl (Function.update_of_ne haa _ _)
    by_cases hbb : b' = b
    · subst hbb
      rw [enabled_soft (by simp)]
      simp
    · have heq := Function.update_of_ne hbb
        (⟨.soft, s.code k.addr, k.addr, .soft⟩ : Breakpoint) s.breakpoints
      exact (ha b' hlt' (heq ▸ ht')).congr heq (fun _ => rfl) hcode

theorem Wf.unregisters_armed (h : s.Wf) (ha : s.Armed) (hkp : kp ∈ s.kpList)
    (hreg : s.Unregisters kp s') : s'.Armed := by
  have h' := h.unregisters hkp hreg
  rw [h'.armed_iff]
  rw [h.armed_iff] at ha
  intro b' hlt' ht'
  cases hreg with
  | kept => exact ha b' hlt' ht'
  | @hard b hun hb ho =>
    have hc := h.addr hkp hb
    have ht := hc.type.trans (hc.ops.symm.trans ho)
    have hbb : b' ≠ b := by
      rintro rfl
      exact ht' (by simp [hardBreakpointRelease, setBreakpoint])
    have heq := Function.update_of_ne hbb { s.breakpoints b with type := .none } s.breakpoints
    refine (ha b' hlt' (heq ▸ ht')).congr heq (fun hh => ?_) fun _ => .inl rfl
    exact Function.update_of_ne (fun hid => hbb (h.id_inj hlt' hc.lt hh ht hid)) _ _
  | @soft b hun hb ho =>
    have hbb : b' ≠ b := by
      rintro rfl
      exact ht' (by simp [softBreakpointRelease, setBreakpoint])
    have heq := Function.update_of_ne hbb { s.breakpoints b with type := .none } s.breakpoints
    exact (ha b' hlt' (heq ▸ ht')).congr heq (fun _ => rfl) fun _ => .inl rfl

/-- What a call does, and returns. -/
def Does (s : Kprobes) (ret : Int) (s' : Kprobes) : ProbeCall → Prop
  | .register kp addr _ _ => ∃ k : Kprobe, k.addr = addr &&& ~~~1#32 ∧ s.Registers kp k ret s'
  | .unregister kp => ret = 0 ∧ s.Unregisters kp s'

theorem Wf.call (h : s.Wf) (hc : s.Proper c) :
    ∃ ret s', s.call c = .ok (ret, s') ∧ s.Does ret s' c := by
  cases c with
  | register kp addr pre post =>
    obtain ⟨k, ha, ret, s', hrun, hreg⟩ := kprobeRegister_registers
      { s.kprobe kp with addr := addr, preHandler := pre, postHandler := post } hc
    exact ⟨ret, s', hrun, k, ha, hreg⟩
  | unregister kp =>
    obtain ⟨b, hb, hconf⟩ := h.slot kp hc
    have hops : (s.breakpoints b).ops ≠ .none := by
      rw [hconf.ops]
      exact breakpointTypeByAddr_ne_none _
    obtain ⟨s', hrun, hreg⟩ := kprobeUnregister_unregisters hb hops
    exact ⟨0, s', hrun, rfl, hreg⟩

theorem Wf.does (h : s.Wf) (hc : s.Proper c) (hrun : s.call c = .ok (ret, s')) :
    s.Does ret s' c := by
  obtain ⟨ret1, s1, hrun1, hdoes⟩ := h.call hc
  rw [hrun] at hrun1
  obtain ⟨rfl, rfl⟩ := Prod.mk.inj (Result.ok_ok.mp hrun1)
  exact hdoes

theorem even_masked (a : Word) : a &&& ~~~1#32 &&& 1#32 = 0#32 := disabled a

theorem Wf.step (h : s.Wf) (hc : s.Proper c) (hdoes : s.Does ret s' c) : s'.Wf := by
  cases c with
  | register kp addr pre post =>
    obtain ⟨k, ha, hreg⟩ := hdoes
    exact h.registers hc (ha ▸ even_masked addr) hreg
  | unregister kp => exact h.unregisters hc hdoes.2

theorem Wf.step_armed (h : s.Wf) (harmed : s.Armed) (hc : s.Proper c) (hdoes : s.Does ret s' c) :
    s'.Armed := by
  cases c with
  | register kp addr pre post =>
    obtain ⟨k, ha, hreg⟩ := hdoes
    exact h.registers_armed harmed hc (ha ▸ even_masked addr) hreg
  | unregister kp => exact h.unregisters_armed harmed hc hdoes.2

end Calls

theorem Cleared.wf (h : s.Cleared) : s.kprobeInit.Wf := by
  have hfree : ∀ b, (s.kprobeInit.breakpoints b).type = .none := by
    intro b
    show (if b < fpbMaxComp then _ else s.breakpoints b).type = _
    rw [h b]
    split <;> rfl
  have hnone : ∀ c < fpbMaxComp, s.kprobeInit.hardBreakpoints c = none := fun c hc => if_pos hc
  refine ⟨⟨List.nodup_nil, ?_, ?_, ?_, ?_⟩, ?_, ?_, ?_⟩
  · exact fun p hp => absurd hp List.not_mem_nil
  · exact fun p hp => absurd hp List.not_mem_nil
  · exact fun p hp => absurd hp List.not_mem_nil
  · exact fun b _ ht => absurd (hfree b) ht
  · intro b _ ht
    rw [hfree b] at ht
    simp at ht
  · intro c hc b hcb
    rw [hnone c hc] at hcb
    simp at hcb
  · intro c hc
    have hzero : s.kprobeInit.fpbComp c = 0#32 := if_pos hc
    rw [hzero]
    exact .inl (by decide)

theorem kprobeInit_armed (s : Kprobes) : s.kprobeInit.Armed :=
  fun _ hp => absurd hp List.not_mem_nil

/-- The tables fit together, and all breakpoints are enabled, after every sequence of calls. -/
theorem calls_wf (h : system.Reachable Proper s) : s.Wf ∧ s.Armed := by
  refine TSys.Reachable.invariant (I := fun s => s.Wf ∧ s.Armed) ?_ ?_ h
  · rintro s ⟨s0, h0, rfl⟩
    exact ⟨h0.wf, s0.kprobeInit_armed⟩
  · rintro s c s' ⟨hwf, harmed⟩ hc ⟨ret, hrun⟩
    have hdoes := hwf.does hc hrun
    exact ⟨hwf.step hc hdoes, hwf.step_armed harmed hc hdoes⟩

/-- A comparator stops at the address of a probe, or nowhere. -/
theorem Wf.fpbMatches (h : s.Wf) (hc : c < fpbMaxComp) (heven : a &&& 1#32 = 0#32)
    (hm : FpbMatches (s.fpbComp c) a) : ∃ p ∈ s.kpList, (s.kprobe p).addr = a := by
  rcases h.value c hc with hoff | ⟨b, hcb, hv⟩
  · exact absurd hoff hm.1
  · obtain ⟨hlt, ht, _⟩ := h.comp c hc b hcb
    obtain ⟨p, hp, _, hconf⟩ := h.probed hlt (by rw [ht]; simp)
    rw [hv, hconf.addr] at hm
    have hflash := lt_of_hard (hconf.type.symm.trans ht)
    exact ⟨p, hp, ((fpbMatches_for hflash (h.even p hp) heven).mp hm).symm⟩

end Kprobes

end F9
