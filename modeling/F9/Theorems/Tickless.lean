import F9.Kernel.Tickless

/-!
# Does tickless idle keep time?

The reload values are differences of `uint32_t`, and nothing corrects one that goes below 0. The
ticks are counted right, and the values are right for SysTick, exactly if neither of the two
differences does, nor is the second one 0 (`tickless_keeps_time`).
-/

namespace F9

namespace Ktimer

variable {α : Type} {cfg : TicklessConfig} {k k' : Ktimer α} {systickNow : Word}

/-- SysTick shows nothing above the reload value that is programmed, and less than a heartbeat if
none is. -/
def WakesAt (cfg : TicklessConfig) (reload : Word) (wake : Option Word) : Prop :=
  ∀ v, wake = some v → if 2#32 < reload then v ≤ reload else v < cfg.heartbeat

/-- The property: the deadline stays, it is not reached, the clock runs with the countdown, and
SysTick can count from every reload value. -/
structure KeepsTime (k k' : Ktimer α) (reloads : List Word) : Prop where
  deadline : k'.time + k'.delta.toNat = k.time + k.delta.toNat
  ahead : 1#32 ≤ k'.delta
  clock : ∃ n, k'.time = k.time + n ∧ k'.now = k.now + n
  reloads : ∀ r ∈ reloads, 1#32 ≤ r ∧ r ≤ systickMaxreload

/-- Neither difference goes below 0, and SysTick is not restarted with 0. The ticks to skip are one
less than the countdown has, or than SysTick can count. -/
def Compensated (cfg : TicklessConfig) (k : Ktimer α) (systickNow : Word) (wake : Option Word) :
    Prop :=
  (cfg.compensation.toNat ≤
    cfg.heartbeat.toNat * (min k.delta.toNat (maxticks cfg).toNat - 1) + systickNow.toNat) ∧
  ∀ v, wake = some v → cfg.heartbeat ≤ v → cfg.intCompensation < v % cfg.heartbeat

/-- The plan: fewer ticks than the countdown has, and a reload value that is below the maximum if
the compensation does not exceed it. -/
theorem ticklessPlan_spec (cfg : TicklessConfig) (hen : k.enabled = true) (hd : 1#32 ≤ k.delta)
    (hnow : systickNow < cfg.heartbeat) :
    let d := (ticklessPlan cfg k systickNow).1.toNat
    let r := (ticklessPlan cfg k systickNow).2.toNat
    d = min k.delta.toNat (maxticks cfg).toNat - 1 ∧ d < k.delta.toNat ∧
      cfg.heartbeat.toNat * (d + 1) ≤ systickMaxreload.toNat ∧
      (cfg.compensation.toNat ≤ cfg.heartbeat.toNat * d + systickNow.toNat →
        r + cfg.compensation.toNat = cfg.heartbeat.toNat * d + systickNow.toNat) ∧
      (¬ cfg.compensation.toNat ≤ cfg.heartbeat.toNat * d + systickNow.toNat →
        systickMaxreload.toNat < r) := by
  have hmax : systickMaxreload.toNat = 0xffffff := rfl
  have hpos := cfg.positive
  have hbelow := cfg.below
  have hcomp := cfg.compensates
  have hd : 1 ≤ k.delta.toNat := BitVec.le_def.mp hd
  rw [BitVec.le_def] at hpos hbelow
  rw [BitVec.lt_def] at hcomp hnow
  have hticks : (maxticks cfg).toNat = systickMaxreload.toNat / cfg.heartbeat.toNat :=
    BitVec.toNat_udiv
  have hone : 1 ≤ (maxticks cfg).toNat := by
    exact Nat.div_pos hbelow hpos
  have hle : cfg.heartbeat.toNat * (maxticks cfg).toNat ≤ systickMaxreload.toNat := by
    exact Nat.mul_div_le _ _
  generalize hd' : (ticklessPlan cfg k systickNow).1 = d'
  have hplan : d'.toNat = min k.delta.toNat (maxticks cfg).toNat - 1 := by
    rw [← hd']
    unfold ticklessPlan
    rw [hen, Bool.true_and]
    by_cases hk : k.delta ≤ maxticks cfg
    · rw [if_pos (decide_eq_true hk)]
      bv_omega
    · rw [if_neg (by simpa using hk)]
      bv_omega
  have hless : d'.toNat < k.delta.toNat := by omega
  have hmul : cfg.heartbeat.toNat * (d'.toNat + 1) ≤ cfg.heartbeat.toNat * (maxticks cfg).toNat :=
    Nat.mul_le_mul_left _ (by omega)
  have hr : (ticklessPlan cfg k systickNow).2 =
      cfg.heartbeat * d' + (systickNow - cfg.compensation) := by rw [← hd']; rfl
  have hprod : (cfg.heartbeat * d').toNat = cfg.heartbeat.toNat * d'.toNat := by
    rw [BitVec.toNat_mul, Nat.mod_eq_of_lt]
    rw [Nat.mul_add] at hmul
    omega
  intro d r
  have hrval : r = (cfg.heartbeat.toNat * d'.toNat +
      (2 ^ 32 - cfg.compensation.toNat + systickNow.toNat) % 2 ^ 32) % 2 ^ 32 := by
    show (ticklessPlan cfg k systickNow).2.toNat = _
    rw [hr, BitVec.toNat_add, BitVec.toNat_sub, hprod]
  rw [Nat.mul_add] at hmul ⊢
  generalize cfg.heartbeat.toNat * d'.toNat = p at *
  refine ⟨hplan, hless, by omega, by omega, by omega⟩

/-- What is left if no more ticks are skipped than the countdown has: the reload values. -/
theorem keepsTime_iff {n : Word} {reloads : List Word} (hn : n.toNat < k.delta.toNat) :
    KeepsTime k { k with
      time := k.time + n.toNat, delta := k.delta - n, now := k.now + n.toNat } reloads ↔
    ∀ r ∈ reloads, 1#32 ≤ r ∧ r ≤ systickMaxreload := by
  have hdelta : (k.delta - n).toNat = k.delta.toNat - n.toNat := by
    rw [BitVec.toNat_sub]
    omega
  refine ⟨fun h => h.reloads, fun h => ⟨?_, ?_, ⟨_, rfl, rfl⟩, h⟩⟩
  · show k.time + n.toNat + (k.delta - n).toNat = _
    omega
  · show 1#32 ≤ k.delta - n
    rw [BitVec.le_def, hdelta, show (1#32).toNat = 1 from rfl]
    omega

end Ktimer

open Ktimer

/-- For every heartbeat, compensation, countdown, value of SysTick and interrupt that ends the
sleep: `ktimer_enter_tickless` keeps the deadline, the clock and SysTick right if and only if the
reload values do not go below 0, and the second one is not 0. -/
theorem tickless_keeps_time {α : Type} (cfg : TicklessConfig) (k : Ktimer α) (systickNow : Word)
    (wake : Option Word) (hen : k.enabled = true) (hd : 1#32 ≤ k.delta)
    (hnow : systickNow < cfg.heartbeat)
    (hwake : WakesAt cfg (ticklessPlan cfg k systickNow).2 wake) :
    KeepsTime k (enterTickless cfg k systickNow wake).1 (enterTickless cfg k systickNow wake).2 ↔
      Compensated cfg k systickNow wake := by
  obtain ⟨hskip, hless, hfit, hright, hwrong⟩ := ticklessPlan_spec cfg hen hd hnow
  have hH := cfg.positive
  have hi := cfg.intCompensates
  have hmax : systickMaxreload.toNat = 0xffffff := rfl
  unfold Compensated enterTickless
  rw [← hskip]
  generalize hplan : ticklessPlan cfg k systickNow = plan at *
  obtain ⟨d, r⟩ := plan
  dsimp only at *
  rw [Nat.mul_add] at hfit
  generalize hp : cfg.heartbeat.toNat * d.toNat = p at *
  by_cases hcomp : cfg.compensation.toNat ≤ p + systickNow.toNat
  · rw [and_iff_right hcomp]
    have hfirst : ∀ x ∈ (if 2#32 < r then [r] else []), 1#32 ≤ x ∧ x ≤ systickMaxreload := by
      intro x hx
      split at hx
      · rw [List.mem_singleton.mp hx]
        bv_omega
      · simp at hx
    cases wake with
    | none =>
      rw [keepsTime_iff hless]
      exact iff_of_true hfirst fun v hv => absurd hv (by simp)
    | some v =>
      dsimp only
      have hv := hwake v rfl
      have hquot : (v / cfg.heartbeat).toNat = v.toNat / cfg.heartbeat.toNat := BitVec.toNat_udiv
      have hcond : 0#32 < v / cfg.heartbeat ↔ cfg.heartbeat ≤ v := by
        exact Nat.div_pos_iff.trans (and_iff_right hH)
      by_cases hle : cfg.heartbeat ≤ v
      · -- the second reload value is what the remainder leaves
        have hrest : v.toNat / cfg.heartbeat.toNat ≤ d.toNat := by
          rw [Nat.div_le_iff_le_mul_add_pred hH, hp]
          split at hv <;> bv_omega
        have hsub : (d - v / cfg.heartbeat).toNat < k.delta.toNat := by
          rw [BitVec.toNat_sub, hquot]
          omega
        rw [if_pos (hcond.mpr hle)]
        rw [keepsTime_iff hsub]
        have hmod : v % cfg.heartbeat < cfg.heartbeat := BitVec.umod_lt v hH
        simp only [List.forall_mem_append, List.forall_mem_singleton, Option.some.injEq, forall_eq']
        rw [and_iff_right hfirst]
        generalize v % cfg.heartbeat = m at *
        bv_omega
      · rw [if_neg (mt hcond.mp hle)]
        rw [keepsTime_iff hless]
        refine iff_of_true hfirst fun w hw hle' => absurd hle' ?_
        rw [← Option.some.inj hw]
        exact hle
  · refine iff_of_false (fun h => ?_) fun h => hcomp h.1
    have hr : 2#32 < r := by bv_omega
    rw [if_pos hr] at h
    have hreload : 1#32 ≤ r ∧ r ≤ systickMaxreload := by
      refine h.reloads r ?_
      cases wake with
      | none => simp
      | some v =>
        dsimp only
        split <;> simp
    bv_omega

/-- The heartbeat and the compensations of the board. -/
def stm32f4Tickless : TicklessConfig where
  heartbeat := 65536#32
  compensation := 0#32
  intCompensation := 0#32
  positive := by decide
  below := by decide
  compensates := by decide
  intCompensates := by decide

/-- A countdown of 10 ticks. -/
def tenTicks : Ktimer Unit := (Ktimer.initial ⟨(), 0#32⟩).enable 10#32

/-- An interrupt with four ticks and 7 cycles to go. -/
theorem tickless_keeps_time_interrupted :
    KeepsTime tenTicks (enterTickless stm32f4Tickless tenTicks 100#32 (some 0x40007#32)).1
      (enterTickless stm32f4Tickless tenTicks 100#32 (some 0x40007#32)).2 := by
  refine (tickless_keeps_time _ _ _ _ rfl (by decide) (by decide) fun v hv => ?_).mpr
    ⟨by decide, fun v hv => ?_⟩
  · rw [← Option.some.inj hv]
    decide
  · rw [← Option.some.inj hv]
    decide

/-- An interrupt with exactly four ticks to go: SysTick is restarted with the reload value 0. -/
theorem tickless_restarts_with_zero :
    WakesAt stm32f4Tickless (ticklessPlan stm32f4Tickless tenTicks 100#32).2 (some 0x40000#32) ∧
    (enterTickless stm32f4Tickless tenTicks 100#32 (some 0x40000#32)).2 = [0x90064#32, 0#32] ∧
    ¬ KeepsTime tenTicks (enterTickless stm32f4Tickless tenTicks 100#32 (some 0x40000#32)).1
      (enterTickless stm32f4Tickless tenTicks 100#32 (some 0x40000#32)).2 := by
  refine ⟨fun v hv => ?_, by decide, fun h => ?_⟩
  · rw [← Option.some.inj hv]
    decide
  · exact absurd (h.reloads 0#32 (by decide)).1 (by decide)

end F9
