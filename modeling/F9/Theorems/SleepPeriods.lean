import F9.Kernel.Ipc
import F9.Lib.Result

/-!
# Sleep periods

`L4_TimePeriod` encodes microseconds as a mantissa of 10 bits and an exponent of 5 bits, and
`sys_ipc` decodes them into ticks. `sleep_period_kept` says how much of a period is lost on the way.
-/

namespace F9

open Result

/-- The loop of `L4_TimePeriod`: exponent and mantissa. -/
def l4TimePeriodLoop : Nat → Word → Nat → Except Fault (Nat × Word)
  | 0, _, _ => .error .hang
  | n + 1, man, exp =>
    if 1024#32 ≤ man then l4TimePeriodLoop n (man >>> 1) (exp + 1) else .ok (exp, man)

def L4_Never : BitVec 16 := 0#16

/-- `L4_TimePeriod` of a number that is not constant. The loop works on a word; the fields are
`a`, `e` and `m`. -/
def l4TimePeriod (microseconds : BitVec 64) : Except Fault (BitVec 16) := do
  let (exp, man) ← l4TimePeriodLoop 33 (microseconds.setWidth 32) 0
  if exp ≤ 31 then return 0#1 ++ BitVec.ofNat 5 exp ++ man.setWidth 10
  else return L4_Never

/-- The loop drops the lower bits, and leaves a mantissa of 10 bits. -/
theorem l4TimePeriodLoop_spec (n : Nat) (man : Word) (exp : Nat) (h : man.toNat < 2 ^ (n + 10)) :
    ∃ k, l4TimePeriodLoop (n + 1) man exp = .ok (exp + k, man >>> k) ∧
      man.toNat / 2 ^ k < 2 ^ 10 ∧ (k = 0 ∨ 2 ^ 9 ≤ man.toNat / 2 ^ k) := by
  induction n generalizing man exp with
  | zero =>
    refine ⟨0, ?_, by omega, .inl rfl⟩
    rw [l4TimePeriodLoop, if_neg (by rw [BitVec.le_def]; exact Nat.not_le_of_lt h)]
    rfl
  | succ n ih =>
    rw [l4TimePeriodLoop]
    by_cases hman : 1024#32 ≤ man
    · have hhalf : (man >>> 1).toNat = man.toNat / 2 := by
        rw [BitVec.toNat_ushiftRight, Nat.shiftRight_eq_div_pow, Nat.pow_one]
      rw [Nat.add_right_comm, Nat.pow_succ] at h
      obtain ⟨k, hrun, hlt, hge⟩ := ih (man >>> 1) (exp + 1) (by omega)
      rw [hhalf, Nat.div_div_eq_div_mul, ← Nat.pow_succ'] at hlt hge
      refine ⟨k + 1, ?_, hlt, .inr (hge.elim (fun hk => ?_) id)⟩
      · rw [if_pos hman, hrun, Nat.add_assoc, Nat.add_comm 1, Nat.add_comm k,
          BitVec.shiftRight_add]
      · have hle : 1024 ≤ man.toNat := BitVec.le_def.mp hman
        rw [hk]
        omega
    · have hlt : man.toNat < 2 ^ 10 := Nat.lt_of_not_le fun hle => hman (BitVec.le_def.mpr hle)
      exact ⟨0, if_neg hman, by omega, .inl rfl⟩

theorem period_toNat {e : Nat} {m : Word} (he : e < 2 ^ 5) (hm : m.toNat < 2 ^ 10) :
    (0#1 ++ BitVec.ofNat 5 e ++ m.setWidth 10).toNat = e * 2 ^ 10 + m.toNat := by
  rw [BitVec.toNat_append, BitVec.toNat_append, BitVec.toNat_setWidth, Nat.mod_eq_of_lt hm,
    ← Nat.shiftLeft_add_eq_or_of_lt hm, BitVec.toNat_ofNat, BitVec.toNat_ofNat,
    Nat.mod_eq_of_lt he, Nat.shiftLeft_eq]
  simp

/-- A product below `2 ^ 31` is decoded as it was encoded. -/
theorem sleepTicks_period {e : Nat} {m : Word} (he : e < 2 ^ 5) (hm : m.toNat < 2 ^ 10)
    (hfit : m.toNat * 2 ^ e < 2 ^ 31) (snd : BitVec 16) :
    (sleepTicks (snd ++ (0#1 ++ BitVec.ofNat 5 e ++ m.setWidth 10))).toNat =
      m.toNat * 2 ^ e / usPerTick.toNat := by
  generalize hw : snd ++ (0#1 ++ BitVec.ofNat 5 e ++ m.setWidth 10) = w
  have hval : w.toNat = (snd.toNat * 2 ^ 6 + e) * 2 ^ 10 + m.toNat := by
    rw [← hw, BitVec.toNat_append, ← Nat.shiftLeft_add_eq_or_of_lt (BitVec.isLt _),
      period_toNat he hm, Nat.shiftLeft_eq]
    omega
  have hmask : w &&& 0x3FF#32 = m := by
    refine BitVec.eq_of_toNat_eq ((Nat.and_two_pow_sub_one_eq_mod w.toNat 10).trans ?_)
    omega
  have hexp : ((w >>> 10) &&& 0x1F#32).toNat = e := by
    refine (Nat.and_two_pow_sub_one_eq_mod (w >>> 10).toNat 5).trans ?_
    rw [BitVec.toNat_ushiftRight, Nat.shiftRight_eq_div_pow]
    omega
  have hshift : (m <<< e).toNat = m.toNat * 2 ^ e := by
    rw [BitVec.toNat_shiftLeft, Nat.shiftLeft_eq, Nat.mod_eq_of_lt (by omega)]
  have hmsb : (m <<< e).msb = false := by
    rw [BitVec.msb_eq_false_iff_two_mul_lt, hshift]
    omega
  unfold sleepTicks
  rw [hmask, hexp, BitVec.sdiv_eq, hmsb, show usPerTick.msb = false by decide, ← hshift]
  rfl

/-- The word, the fields and the `int` that is divided hold their values, and a period is lost as a
whole only if it is too long for the fields, else by less than a tick and one part in 512: for the
periods below `2 ^ 31` microseconds, and for no others. -/
theorem sleep_period_kept (us : BitVec 64) (hpos : 1 ≤ us.toNat) (snd : BitVec 16) :
    (∃ exp man raw, l4TimePeriodLoop 33 (us.setWidth 32) 0 = .ok (exp, man) ∧
      (us.setWidth 32).toNat = us.toNat ∧ man.toNat < 2 ^ 10 ∧ exp < 2 ^ 5 ∧
      man.toNat * 2 ^ exp < 2 ^ 31 ∧ l4TimePeriod us = .ok raw ∧
      (raw = L4_Never ∧ 2 ^ 41 ≤ us.toNat ∨ raw ≠ L4_Never ∧
        (sleepTicks (snd ++ raw)).toNat * usPerTick.toNat ≤ us.toNat ∧
        us.toNat - (sleepTicks (snd ++ raw)).toNat * usPerTick.toNat <
          usPerTick.toNat + us.toNat / 512)) ↔ us.toNat < 2 ^ 31 := by
  obtain ⟨k, hrun, hlt, hge⟩ := l4TimePeriodLoop_spec 32 (us.setWidth 32) 0 (by omega)
  rw [Nat.zero_add] at hrun
  have hman : (us.setWidth 32 >>> k).toNat = (us.setWidth 32).toNat / 2 ^ k := by
    rw [BitVec.toNat_ushiftRight, Nat.shiftRight_eq_div_pow]
  constructor
  · rintro ⟨exp, man, raw, hrun', hword, -, hexp, hfit, -⟩
    rw [hrun] at hrun'
    cases hrun'
    -- the exponent is at most 31, so the product has the upper bits of the number
    by_contra hbig
    have hpow : 2 ^ (31 - k) * 2 ^ k = 2 ^ 31 := by
      rw [← Nat.pow_add]
      congr 1
      omega
    have hle : 2 ^ (31 - k) ≤ us.toNat / 2 ^ k :=
      (Nat.le_div_iff_mul_le (Nat.two_pow_pos k)).mpr (by omega)
    have := Nat.mul_le_mul_right (2 ^ k) hle
    rw [hman, hword] at hfit
    omega
  intro h
  have hword : (us.setWidth 32).toNat = us.toNat := by
    rw [BitVec.toNat_setWidth, Nat.mod_eq_of_lt (by omega)]
  have hmod := Nat.mod_lt us.toNat (Nat.two_pow_pos k)
  have hrest := Nat.div_add_mod us.toNat (2 ^ k)
  rw [hword] at hman
  rw [Nat.mul_comm, ← hman] at hrest
  rw [hword, ← hman] at hlt hge
  have hone : 1 ≤ (us.setWidth 32 >>> k).toNat := by
    rcases hge with rfl | hge
    · rw [Nat.pow_zero] at hrest hmod
      omega
    · omega
  -- a mantissa that was shifted is at least 512
  have hcut : 2 ^ k ≤ us.toNat / 512 + 1 := by
    rcases hge with rfl | hge
    · exact Nat.le_add_left _ _
    · have := Nat.mul_le_mul_right (2 ^ k) hge
      omega
  have hk : k < 2 ^ 5 := by
    by_contra hk
    have := Nat.pow_le_pow_right (n := 2) (by decide) (Nat.le_of_not_lt hk)
    omega
  have hfit : (us.setWidth 32 >>> k).toNat * 2 ^ k < 2 ^ 31 := by omega
  have hticks := sleepTicks_period hk hlt hfit snd
  have hdiv := Nat.div_add_mod ((us.setWidth 32 >>> k).toNat * 2 ^ k) usPerTick.toNat
  have hlast := Nat.mod_lt ((us.setWidth 32 >>> k).toNat * 2 ^ k)
    (show 0 < usPerTick.toNat by decide)
  rw [← hticks, Nat.mul_comm] at hdiv
  refine ⟨k, us.setWidth 32 >>> k, _, hrun, hword, hlt, hk, hfit,
    bind_ok.mpr ⟨_, hrun, if_pos (by omega)⟩, .inr ⟨fun h0 => ?_, by omega, by omega⟩⟩
  have := congrArg BitVec.toNat h0
  rw [period_toNat hk hlt] at this
  simp only [L4_Never, BitVec.toNat_ofNat] at this
  omega

/-- A second. -/
theorem sleep_period_kept_second :
    l4TimePeriod 1000000#64 = .ok 0x2BD0#16 ∧ sleepTicks 0x2BD0#32 = 2562#32 ∧
    ∃ exp man raw, l4TimePeriodLoop 33 1000000#32 0 = .ok (exp, man) ∧
      (1000000#32).toNat = 1000000 ∧ man.toNat < 2 ^ 10 ∧ exp < 2 ^ 5 ∧
      man.toNat * 2 ^ exp < 2 ^ 31 ∧ l4TimePeriod 1000000#64 = .ok raw ∧
      (raw = L4_Never ∧ 2 ^ 41 ≤ 1000000 ∨ raw ≠ L4_Never ∧
        (sleepTicks (0#16 ++ raw)).toNat * usPerTick.toNat ≤ 1000000 ∧
        1000000 - (sleepTicks (0#16 ++ raw)).toNat * usPerTick.toNat <
          usPerTick.toNat + 1000000 / 512) :=
  ⟨by decide, by decide, (sleep_period_kept 1000000#64 (by decide) 0#16).mpr (by decide)⟩

/-- From `2 ^ 31` microseconds on the `int` that is divided is negative; from `2 ^ 32` on the word
has lost the upper half of the number. -/
theorem sleep_period_lost :
    (∃ raw, l4TimePeriod 0x80000000#64 = .ok raw ∧ raw ≠ L4_Never ∧
      0x80000000 < (sleepTicks (0#16 ++ raw)).toNat * usPerTick.toNat) ∧
    ∃ raw, l4TimePeriod 0x100000001#64 = .ok raw ∧ raw ≠ L4_Never ∧
      sleepTicks (0#16 ++ raw) = 0#32 := by
  refine ⟨⟨0x5A00#16, ?_⟩, 1#16, ?_⟩ <;> decide

end F9
