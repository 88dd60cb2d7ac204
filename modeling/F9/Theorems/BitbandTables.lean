import F9.Kernel.Bitmap
import F9.Lib.Result
import F9.Logic.Blocks
import Mathlib.Data.List.Nodup
import Mathlib.Data.List.Perm.Subperm

/-!
# Are bit-band tables plain tables?

Both implementations of the cursor are compared with the table of `KTable`. The plain one
always agrees with it (`plain_run`). The number of a bit-band cursor is five bits of an
address, so it starts again at 0 after bit 31: a table of 32 or more elements hands out an
element twice once 32 of them are in use, and `ktable_alloc` never finds it full
(`bitband_tables_agree`).
-/

namespace F9

open Result

variable {σ γ α : Type} {B : BitmapOps σ γ} {num w : Word} {lim n' : Nat} {j i k : Nat}

/-! ## Cursors -/

/-- Below `lim`, the cursor operations read and write the bits `bit`. -/
structure Faithful (B : BitmapOps σ γ) (bit : σ → Nat → Bool) (lim : Nat) : Prop where
  id : ∀ i < lim, B.cursorId (B.cursor i) = i
  next : ∀ i, B.cursorGotoNext (B.cursor i) = B.cursor (i + 1)
  taken : ∀ s, ∀ i < lim, bit s i = true → B.testAndSetBit s (B.cursor i) = .ok (false, s)
  free : ∀ s, ∀ i < lim, bit s i = false → ∃ s', B.testAndSetBit s (B.cursor i) = .ok (true, s') ∧
    ∀ j < lim, bit s' j = (bit s j || decide (j = i))
  clear : ∀ s, ∀ i < lim, ∃ s', B.clearBit s (B.cursor i) = .ok s' ∧
    ∀ j < lim, bit s' j = (bit s j && decide (j ≠ i))

/-- The memory has the bits of the table, below `lim`. -/
def Shows (bit : σ → Nat → Bool) (lim : Nat) (s : σ) (kt : KTable α) : Prop :=
  ∀ i < lim, bit s i = kt.bitmap.testBit i

section

variable {bit : σ → Nat → Bool} {s : σ} {kt : KTable α} {c : γ} {n : Nat}

/-- The loop goes on at a bit that is set ... -/
theorem ktableAllocLoop_taken (hid : B.cursorId c < num.toNat)
    (h : B.testAndSetBit s c = .ok (false, s)) :
    ktableAllocLoop B num (n + 1) s c = ktableAllocLoop B num n s (B.cursorGotoNext c) := by
  show (if _ then _ else _) = _
  rw [if_pos hid, h]
  rfl

/-- ... and stops at one that is clear. -/
theorem ktableAllocLoop_free {s' : σ} (hid : B.cursorId c < num.toNat)
    (h : B.testAndSetBit s c = .ok (true, s')) :
    ktableAllocLoop B num (n + 1) s c = .ok (some (B.cursorId c), s') := by
  show (if _ then _ else _) = _
  rw [if_pos hid, h]
  rfl

section

variable (hB : Faithful B bit lim) (hlim : lim ≤ num.toNat) (hs : Shows bit lim s kt)
include hB hlim hs

/-- The scan up to `lim`: it stops at the first clear bit, or goes on behind. -/
theorem Faithful.scan : ∀ (n fuel i : Nat), i + n = lim → n < fuel →
    (∀ j, kt.firstFree i n = some j → ∃ s', ktableAllocLoop B num fuel s (B.cursor i) =
      .ok (some j, s') ∧ ∀ k < lim, bit s' k = (bit s k || decide (k = j))) ∧
    (kt.firstFree i n = none → ktableAllocLoop B num fuel s (B.cursor i) =
      ktableAllocLoop B num (fuel - n) s (B.cursor lim)) := by
  intro n
  induction n with
  | zero =>
    intro fuel i hi _
    obtain rfl : i = lim := by omega
    exact ⟨fun j hj => absurd hj (by simp [KTable.firstFree]), fun _ => rfl⟩
  | succ n ih =>
    intro fuel i hi hfuel
    obtain ⟨fuel, rfl⟩ : ∃ m, fuel = m + 1 := ⟨fuel - 1, by omega⟩
    have hlt : i < lim := by omega
    have hid := hB.id i hlt
    have hin : B.cursorId (B.cursor i) < num.toNat := by omega
    rw [KTable.firstFree]
    by_cases hbit : kt.bitmap.testBit i = true
    · have hb : bit s i = true := by rw [hs i hlt, hbit]
      rw [if_pos hbit, ktableAllocLoop_taken hin (hB.taken s i hlt hb), hB.next i,
        show fuel + 1 - (n + 1) = fuel - n by omega]
      exact ih fuel (i + 1) (by omega) (by omega)
    · have hb : bit s i = false := by
        rw [hs i hlt]
        simpa using hbit
      obtain ⟨s', htest, hset⟩ := hB.free s i hlt hb
      rw [if_neg hbit, ktableAllocLoop_free hin htest, hid]
      refine ⟨fun j hj => ?_, fun h => absurd h (by simp)⟩
      injection hj with hj
      subst hj
      exact ⟨s', rfl, hset⟩

theorem Faithful.alloc (hj : kt.firstFree 0 lim = some j) :
    ∃ s', ktableAlloc B num s = .ok (some j, s') ∧
      Shows bit lim s' { kt with bitmap := kt.bitmap ||| 1 <<< j } := by
  obtain ⟨s', hrun, hset⟩ := (hB.scan hlim hs lim (2 ^ 32 + 1) 0 (by omega) (by omega)).1 j hj
  refine ⟨s', hrun, fun i hi => ?_⟩
  show bit s' i = (kt.bitmap ||| 1 <<< j).testBit i
  rw [hset i hi, hs i hi, Nat.testBit_or, KTable.testBit_mask]
  simp [eq_comm]

/-- `ktable_alloc` finds nothing in a full table, if the cursor stops at its end. -/
theorem Faithful.alloc_none (hstop : num.toNat ≤ B.cursorId (B.cursor lim))
    (hfree : kt.firstFree 0 lim = none) : ktableAlloc B num s = .ok (none, s) := by
  refine ((hB.scan hlim hs _ (2 ^ 32 + 1) 0 (Nat.zero_add _) (by omega)).2 hfree).trans ?_
  rw [show 2 ^ 32 + 1 - lim = 2 ^ 32 - lim + 1 by omega]
  exact if_neg (by omega)

theorem Faithful.dealloc (hi : i < lim) :
    ∃ s', ktableFree B num s i = .ok s' ∧ Shows bit lim s' (kt.free i) := by
  obtain ⟨s', hrun, hset⟩ := hB.clear s i hi
  refine ⟨s', ?_, fun j hj => ?_⟩
  · unfold ktableFree ktableGetid
    rw [if_neg (by omega)]
    exact hrun
  · show bit s' j = (kt.bitmap &&& (kt.bitmap ^^^ 1 <<< i)).testBit j
    rw [hset j hj, hs j hj, Nat.testBit_and, Nat.testBit_xor, KTable.testBit_mask]
    by_cases hij : j = i
    · simp [hij]
    · have hji : ¬ i = j := fun h => hij h.symm
      simp [hij, hji]

end

end

/-! ## The plain cursor -/

/-- Bit `i` of a bitmap. -/
def plainBit (bitmap : Nat → Word) (i : Nat) : Bool := (bitmap (i / 32)).getLsbD (i % 32)

theorem bitmask_getLsbD (hk : k < 32) : (bitmask i).getLsbD k = decide (k = i % 32) := by
  unfold bitmask
  by_cases h : k = i % 32
  · simp [h]
    omega
  · by_cases hlt : k < i % 32
    · simp [hlt, h]
    · have : k - i % 32 ≠ 0 := by omega
      simp [h, hk, hlt, this]

theorem and_bitmask_eq_zero (w : Word) (i : Nat) :
    w &&& bitmask i = 0#32 ↔ w.getLsbD (i % 32) = false := by
  have hlt : i % 32 < 32 := Nat.mod_lt _ (by decide)
  constructor
  · intro h
    have hb := congrArg (fun x : Word => x.getLsbD (i % 32)) h
    simpa [BitVec.getLsbD_and, bitmask_getLsbD hlt] using hb
  · intro h
    apply BitVec.eq_of_getLsbD_eq
    intro k hk
    rw [BitVec.getLsbD_and, bitmask_getLsbD hk]
    by_cases hki : k = i % 32
    · rw [hki, h]
      simp
    · simp [hki]

theorem plainBit_setWord {bitmap : Nat → Word} {b : Bool} (hself : w.getLsbD (i % 32) = b)
    (hother : ∀ k < 32, k ≠ i % 32 → w.getLsbD k = (bitmap (i / 32)).getLsbD k) :
    plainBit (setWord bitmap (i / 32) w) j = if j = i then b else plainBit bitmap j := by
  unfold plainBit setWord
  by_cases hij : j = i
  · rw [if_pos hij, hij, if_pos rfl, hself]
  · rw [if_neg hij]
    by_cases hw : j / 32 = i / 32
    · rw [if_pos hw, hother _ (Nat.mod_lt _ (by decide)) (by omega), hw]
    · rw [if_neg hw]

theorem plainBitmap_faithful (lim : Nat) : Faithful plainBitmap plainBit lim where
  id _ _ := rfl
  next _ := rfl
  taken s i _ hb := by
    show Except.ok (testAndSetBit s i) = _
    unfold testAndSetBit
    rw [if_neg]
    rw [and_bitmask_eq_zero]
    unfold plainBit at hb
    rw [hb]
    simp
  free s i _ hb := by
    refine ⟨setWord s (i / 32) (s (i / 32) ||| bitmask i), ?_, fun j _ => ?_⟩
    · show Except.ok (testAndSetBit s i) = _
      unfold testAndSetBit
      rw [if_pos ((and_bitmask_eq_zero _ i).mpr hb)]
    · rw [plainBit_setWord (b := true)]
      · by_cases hij : j = i <;> simp [hij]
      · rw [BitVec.getLsbD_or, bitmask_getLsbD (Nat.mod_lt _ (by decide))]
        simp
      · intro k hk hki
        rw [BitVec.getLsbD_or, bitmask_getLsbD hk]
        simp [hki]
  clear s i _ := by
    refine ⟨setWord s (i / 32) (s (i / 32) &&& ~~~bitmask i), rfl, fun j _ => ?_⟩
    rw [plainBit_setWord (b := false)]
    · by_cases hij : j = i <;> simp [hij]
    · rw [BitVec.getLsbD_and, BitVec.getLsbD_not, bitmask_getLsbD (Nat.mod_lt _ (by decide))]
      simp
    · intro k hk hki
      rw [BitVec.getLsbD_and, BitVec.getLsbD_not, bitmask_getLsbD hk]
      simp [hki, hk]

/-! ## The bit-band cursor -/

section

variable {bitmap : Word}

/-- The address of bit `i`, near the bitmap. -/
theorem bitbandCursor_toNat (hi : i < 2 ^ 20) :
    ((bitbandBitmap bitmap).cursor i).toNat =
      0x22000000 + bitmap.toNat % 2 ^ 20 * 32 + i * 4 := by
  have hmask : (bitmap &&& 0xFFFFF#32).toNat = bitmap.toNat % 2 ^ 20 := by
    exact Nat.and_two_pow_sub_one_eq_mod _ 20
  have hi32 : (BitVec.ofNat 32 i).toNat = i := by
    rw [BitVec.toNat_ofNat, Nat.mod_eq_of_lt (by omega)]
  have hbase : (0x22000000#32).toNat = 0x22000000 := rfl
  show (addrBitband bitmap + BitVec.ofNat 32 i <<< 2).toNat = _
  unfold addrBitband
  rw [BitVec.toNat_add, BitVec.toNat_add, BitVec.toNat_shiftLeft, BitVec.toNat_shiftLeft,
    Nat.shiftLeft_eq, Nat.shiftLeft_eq, hmask, hi32, hbase]
  omega

theorem bitbandCursorId (c : Word) : (bitbandBitmap bitmap).cursorId c = c.toNat % 128 / 4 := by
  show ((c &&& ((1#32 <<< (5 + 2)) - 1#32)) >>> 2).toNat = _
  have hmask : (c &&& ((1#32 <<< (5 + 2)) - 1#32)).toNat = c.toNat % 2 ^ 7 := by
    exact Nat.and_two_pow_sub_one_eq_mod _ 7
  rw [BitVec.toNat_ushiftRight, hmask, Nat.shiftRight_eq_div_pow]
  rfl

/-- The number of a cursor is that of its bit modulo 32. -/
theorem bitbandCursorId_cursor (hal : 4 ∣ bitmap.toNat) (hi : i < 2 ^ 20) :
    (bitbandBitmap bitmap).cursorId ((bitbandBitmap bitmap).cursor i) = i % 32 := by
  rw [bitbandCursorId, bitbandCursor_toNat hi]
  omega

theorem inBitband_cursor (hal : 4 ∣ bitmap.toNat) (hi : i < 32) :
    inBitband ((bitbandBitmap bitmap).cursor i) = true := by
  have h1 : (0x22000000#32).toNat = 0x22000000 := rfl
  have h2 : (0x24000000#32).toNat = 0x24000000 := rfl
  unfold inBitband
  rw [Bool.and_eq_true, decide_eq_true_eq, decide_eq_true_eq, BitVec.le_def, BitVec.lt_def,
    bitbandCursor_toNat (by omega), h1, h2]
  omega

/-- The word of bit `i`. -/
def bitbandBit (bitmap : Word) (m : BitbandMem) (i : Nat) : Bool :=
  m ((bitbandBitmap bitmap).cursor i)

theorem bitbandBit_write {m : BitbandMem} {b : Bool} (hi : i < 32) (hj : j < 32) :
    bitbandBit bitmap (m.write ((bitbandBitmap bitmap).cursor i) b) j =
      if j = i then b else bitbandBit bitmap m j := by
  unfold bitbandBit BitbandMem.write
  by_cases hij : j = i
  · rw [hij, if_pos rfl, if_pos rfl]
  · rw [if_neg hij, if_neg]
    intro heq
    have := congrArg BitVec.toNat heq
    rw [bitbandCursor_toNat (by omega), bitbandCursor_toNat (by omega)] at this
    omega

theorem bitbandBitmap_faithful (hal : 4 ∣ bitmap.toNat) (hlim : lim ≤ 32) :
    Faithful (bitbandBitmap bitmap) (bitbandBit bitmap) lim where
  id i hi := by
    rw [bitbandCursorId_cursor hal (by omega)]
    exact Nat.mod_eq_of_lt (by omega)
  next i := by
    show addrBitband bitmap + BitVec.ofNat 32 i <<< 2 + 1#32 <<< 2 = _ + _
    rw [BitVec.add_assoc]
    refine congrArg _ ?_
    apply BitVec.eq_of_toNat_eq
    simp only [BitVec.toNat_add, BitVec.toNat_shiftLeft, BitVec.toNat_ofNat, Nat.shiftLeft_eq]
    omega
  taken m i hi hb := by
    show testAndSetWord m _ = _
    unfold testAndSetWord
    unfold bitbandBit at hb
    rw [if_pos (inBitband_cursor hal (by omega)), if_pos hb]
  free m i hi hb := by
    refine ⟨m.write ((bitbandBitmap bitmap).cursor i) true, ?_, fun j hj => ?_⟩
    · show testAndSetWord m _ = _
      unfold testAndSetWord
      rw [if_pos (inBitband_cursor hal (by omega)), if_neg]
      unfold bitbandBit at hb
      rw [hb]
      simp
    · rw [bitbandBit_write (by omega) (by omega)]
      by_cases hij : j = i <;> simp [hij]
  clear m i hi := by
    refine ⟨_, if_pos (inBitband_cursor hal (by omega)), fun j hj => ?_⟩
    rw [bitbandBit_write (by omega) (by omega)]
    by_cases hij : j = i <;> simp [hij]

/-- For a table of 32 or more elements, what `ktable_alloc` returns is an element below 32. -/
theorem bitband_alloc_lt (hnum : 32 ≤ num.toNat) (n : Nat) (m m' : BitbandMem) (c : Word)
    (r : Option Nat) (h : ktableAllocLoop (bitbandBitmap bitmap) num n m c = .ok (r, m')) :
    ∃ j < 32, r = some j := by
  induction n generalizing m m' c r with
  | zero => simp [ktableAllocLoop] at h
  | succ n ih =>
    have hid : (bitbandBitmap bitmap).cursorId c < 32 := by
      rw [bitbandCursorId]
      omega
    unfold ktableAllocLoop at h
    rw [if_pos (by omega)] at h
    obtain ⟨⟨clear, m1⟩, _, h⟩ := bind_ok.mp h
    dsimp only at h
    split at h
    · have := pure_ok.mp h
      simp only [Prod.mk.injEq] at this
      exact ⟨_, hid, this.1.symm⟩
    · exact ih _ _ _ _ h

end

/-! ## Sequences of calls -/

/-- The calls on the table itself. -/
def KTable.run (kt : KTable α) : List Nat → List TableOp → List (Option Nat)
  | _, [] => []
  | held, .alloc :: ops =>
    match kt.alloc with
    | none => none :: KTable.run kt held ops
    | some (j, kt') => some j :: KTable.run kt' (held ++ [j]) ops
  | held, .free k :: ops =>
    match held[k]? with
    | none => KTable.run kt held ops
    | some i => KTable.run (kt.free i) (held.eraseIdx k) ops

section

variable (kt : KTable α) {held : List Nat} {ops : List TableOp} {s s' : σ}

theorem KTable.run_none {kt : KTable α} (h : kt.firstFree 0 kt.num = none) :
    kt.run held (.alloc :: ops) = none :: kt.run held ops := by
  have ha : kt.alloc = none := by
    unfold KTable.alloc
    rw [h]
  rw [KTable.run, ha]

theorem KTable.run_some {kt : KTable α} (h : kt.firstFree 0 kt.num = some j) :
    kt.run held (.alloc :: ops) =
      some j :: KTable.run { kt with bitmap := kt.bitmap ||| 1 <<< j } (held ++ [j]) ops := by
  have ha : kt.alloc = some (j, { kt with bitmap := kt.bitmap ||| 1 <<< j }) := by
    unfold KTable.alloc
    rw [h]
  rw [KTable.run, ha]

theorem tableRun_alloc {r : Option Nat} (h : ktableAlloc B num s = .ok (r, s')) :
    tableRun B num s held (.alloc :: ops) =
      (tableRun B num s' (held ++ r.toList) ops).map (r :: ·) := by
  rw [tableRun, h]
  rfl

theorem tableRun_free (hk : held[k]? = some i) (h : ktableFree B num s i = .ok s') :
    tableRun B num s held (.free k :: ops) = tableRun B num s' (held.eraseIdx k) ops ∧
      kt.run held (.free k :: ops) = (kt.free i).run (held.eraseIdx k) ops := by
  refine ⟨?_, by rw [KTable.run, hk]⟩
  rw [tableRun, hk]
  dsimp only
  rw [h]
  rfl

theorem tableRun_free_none (hk : held[k]? = none) :
    tableRun B num s held (.free k :: ops) = tableRun B num s held ops ∧
      kt.run held (.free k :: ops) = kt.run held ops :=
  ⟨by rw [tableRun, hk], by rw [KTable.run, hk]⟩

end

/-- A cursor that is faithful up to the end of the table, and stops there. -/
theorem Faithful.run {bit : σ → Nat → Bool} (hB : Faithful B bit num.toNat)
    (hstop : num.toNat ≤ B.cursorId (B.cursor num.toNat)) (ops : List TableOp) (s : σ)
    (held : List Nat) (kt : KTable α) (hkt : kt.num = num.toNat) (hs : Shows bit num.toNat s kt)
    (hheld : ∀ i ∈ held, i < num.toNat) : tableRun B num s held ops = .ok (kt.run held ops) := by
  induction ops generalizing s held kt with
  | nil => rw [tableRun, KTable.run]
  | cons op ops ih =>
    cases op with
    | alloc =>
      cases hfree : kt.firstFree 0 kt.num with
      | none =>
        have hrun := hB.alloc_none (Nat.le_refl _) hs hstop (hkt ▸ hfree)
        rw [KTable.run_none hfree, tableRun_alloc hrun, Option.toList_none, List.append_nil,
          ih s held kt hkt hs hheld]
        rfl
      | some j =>
        have hj := (kt.firstFree_spec _ _ _ hfree).2.1
        obtain ⟨s', hrun, hs'⟩ := hB.alloc (Nat.le_refl _) hs (hkt ▸ hfree)
        have hheld' : ∀ i ∈ held ++ [j], i < num.toNat := by
          intro i hi
          rcases List.mem_append.mp hi with hi | hi
          · exact hheld i hi
          · rw [List.mem_singleton.mp hi]
            omega
        rw [KTable.run_some hfree, tableRun_alloc hrun, Option.toList_some,
          ih s' _ { kt with bitmap := kt.bitmap ||| 1 <<< j } hkt hs' hheld']
        rfl
    | free k =>
      cases hk : held[k]? with
      | none =>
        obtain ⟨h1, h2⟩ := tableRun_free_none (B := B) (s := s) kt hk
        rw [h1, h2]
        exact ih s held kt hkt hs hheld
      | some i =>
        obtain ⟨s', hrun, hs'⟩ :=
          hB.dealloc (Nat.le_refl _) hs (hheld i (List.mem_of_getElem? hk))
        obtain ⟨h1, h2⟩ := tableRun_free kt hk hrun
        rw [h1, h2]
        exact ih s' _ _ hkt hs' fun x hx => hheld x (List.mem_of_mem_eraseIdx hx)

theorem plain_run {bitmap : Nat → Word} {kt : KTable α} (hkt : kt.num = num.toNat)
    (hs : Shows plainBit num.toNat bitmap kt) (ops : List TableOp) :
    tableRun plainBitmap num bitmap [] ops = .ok (kt.run [] ops) :=
  (plainBitmap_faithful _).run (Nat.le_refl _) ops bitmap [] kt hkt hs (by simp)

/-! ## Large bit-band tables -/

/-- Each call of `ktable_alloc` is made with fewer than 32 elements in use, `n` of them at the
start. -/
def Below : Nat → List TableOp → Prop
  | _, [] => True
  | n, .alloc :: ops => n < 32 ∧ Below (n + 1) ops
  | n, .free k :: ops => Below (if k < n then n - 1 else n) ops

/-- The elements in use are `held`, all of them below 32. -/
structure InUse (kt : KTable α) (held : List Nat) : Prop where
  nodup : held.Nodup
  low : ∀ i ∈ held, i < 32
  bits : ∀ i < kt.num, kt.bitmap.testBit i = decide (i ∈ held)

section

variable {kt : KTable α} {held : List Nat}

theorem firstFree_mono (n i : Nat) (hn : n ≤ n') (h : kt.firstFree i n = some j) :
    kt.firstFree i n' = some j := by
  induction n generalizing i n' j with
  | zero => simp [KTable.firstFree] at h
  | succ n ih =>
    obtain ⟨n', rfl⟩ : ∃ m, n' = m + 1 := ⟨n' - 1, by omega⟩
    rw [KTable.firstFree] at h ⊢
    split at h
    · rename_i hbit
      rw [if_pos hbit]
      exact ih (i + 1) (by omega) h
    · rename_i hbit
      rw [if_neg hbit]
      exact h

/-- With fewer than 32 elements in use, one of the first 32 is free. -/
theorem InUse.free_lt (h : InUse kt held) (hnum : 32 ≤ kt.num) (hlen : held.length < 32) :
    ∃ j < 32, kt.firstFree 0 32 = some j := by
  cases hfree : kt.firstFree 0 32 with
  | some j => exact ⟨j, by simpa using (kt.firstFree_spec _ _ _ hfree).2.1, rfl⟩
  | none =>
    exfalso
    have hall : List.range 32 ⊆ held := by
      intro i hi
      have hi := List.mem_range.mp hi
      have hbit := kt.firstFree_none _ _ hfree i (Nat.zero_le _) (by omega)
      rw [h.bits i (by omega)] at hbit
      exact of_decide_eq_true hbit
    have hle := (List.Nodup.subperm List.nodup_range hall).length_le
    rw [List.length_range] at hle
    omega

/-- With 32 elements in use, none of the first 32 is free. -/
theorem InUse.free_ge (h : InUse kt held) (hlen : 32 ≤ held.length)
    (hj : kt.firstFree 0 kt.num = some j) : 32 ≤ j := by
  by_contra hlt
  have hsub : held ⊆ List.range 32 := fun i hi => List.mem_range.mpr (h.low i hi)
  have hperm := (List.Nodup.subperm h.nodup hsub).perm_of_length_le
    (by rw [List.length_range]; exact hlen)
  have hmem : j ∈ held := hperm.mem_iff.mpr (List.mem_range.mpr (by omega))
  obtain ⟨_, hjn, hbit⟩ := kt.firstFree_spec _ _ _ hj
  rw [h.bits j (by omega), decide_eq_false_iff_not] at hbit
  exact hbit hmem

theorem InUse.alloc (h : InUse kt held) (hj : kt.firstFree 0 kt.num = some j) (hlt : j < 32) :
    InUse { kt with bitmap := kt.bitmap ||| 1 <<< j } (held ++ [j]) := by
  obtain ⟨_, hjn, hbit⟩ := kt.firstFree_spec _ _ _ hj
  have hnew : j ∉ held := by
    rw [h.bits j (by omega), decide_eq_false_iff_not] at hbit
    exact hbit
  refine ⟨?_, ?_, fun i hi => ?_⟩
  · exact List.nodup_append.mpr ⟨h.nodup, List.nodup_singleton j, fun a ha b hb hab =>
      hnew (by rw [← List.mem_singleton.mp hb, ← hab]; exact ha)⟩
  · intro i hi
    rcases List.mem_append.mp hi with hi | hi
    · exact h.low i hi
    · rw [List.mem_singleton.mp hi]
      exact hlt
  · show (kt.bitmap ||| 1 <<< j).testBit i = _
    rw [Nat.testBit_or, KTable.testBit_mask, h.bits i hi]
    simp [eq_comm]

theorem InUse.free (h : InUse kt held) (hk : held[k]? = some i) :
    InUse (kt.free i) (held.eraseIdx k) := by
  obtain ⟨hlt, heq⟩ := List.getElem?_eq_some_iff.mp hk
  have herase : held.eraseIdx k = held.erase i := by
    rw [← heq]
    exact (List.Nodup.erase_getElem h.nodup k hlt).symm
  rw [herase]
  refine ⟨h.nodup.erase i, fun x hx => h.low x (List.mem_of_mem_erase hx), fun x hx => ?_⟩
  show (kt.bitmap &&& (kt.bitmap ^^^ 1 <<< i)).testBit x = _
  rw [Nat.testBit_and, Nat.testBit_xor, KTable.testBit_mask, h.bits x hx]
  by_cases hxi : x = i
  · simp [hxi, h.nodup.not_mem_erase]
  · have hix : ¬ i = x := fun h => hxi h.symm
    simp [hix, List.mem_erase_of_ne hxi]

end

/-- A bit-band table of 32 or more elements: induction on the calls. -/
theorem bitband_run_large {bitmap : Word} (hal : 4 ∣ bitmap.toNat) (hnum : 32 ≤ num.toNat) :
    ∀ (ops : List TableOp) (m : BitbandMem) (held : List Nat) (kt : KTable α),
    kt.num = num.toNat → Shows (bitbandBit bitmap) 32 m kt → InUse kt held →
    (tableRun (bitbandBitmap bitmap) num m held ops = .ok (kt.run held ops) ↔
      Below held.length ops) := by
  have hB := bitbandBitmap_faithful hal (Nat.le_refl 32)
  intro ops
  induction ops with
  | nil =>
    intro m held kt _ _ _
    exact iff_of_true (by rw [tableRun, KTable.run]) (by unfold Below; trivial)
  | cons op ops ih =>
    intro m held kt hkt hs huse
    cases op with
    | alloc =>
      by_cases hlen : held.length < 32
      · obtain ⟨j, hj, hfree⟩ := huse.free_lt (by omega) hlen
        have hfull : kt.firstFree 0 kt.num = some j := firstFree_mono 32 0 (by omega) hfree
        obtain ⟨m', hrun, hs'⟩ := hB.alloc hnum hs hfree
        have ih' := ih m' (held ++ [j]) { kt with bitmap := kt.bitmap ||| 1 <<< j } hkt hs'
          (huse.alloc hfull hj)
        rw [List.length_append, List.length_singleton] at ih'
        rw [KTable.run_some hfull, tableRun_alloc hrun, Option.toList_some]
        constructor
        · intro h
          refine ⟨hlen, ih'.mp ?_⟩
          cases hrest : tableRun (bitbandBitmap bitmap) num m' (held ++ [j]) ops with
          | error e =>
            rw [hrest] at h
            simp [Except.map] at h
          | ok rs =>
            rw [hrest] at h
            have h := ok_ok.mp h
            injection h with _ h
            rw [h]
        · rintro ⟨_, h⟩
          rw [ih'.mpr h]
          rfl
      · refine iff_of_false (fun h => ?_) fun h => hlen h.1
        -- what is returned is below 32, and the table has nothing free there
        cases hrun : ktableAlloc (bitbandBitmap bitmap) num m with
        | error e =>
          rw [tableRun, hrun] at h
          simp [bind, Except.bind] at h
        | ok v =>
          obtain ⟨r, m'⟩ := v
          obtain ⟨j, hj, rfl⟩ := bitband_alloc_lt hnum _ _ _ _ _ hrun
          rw [tableRun_alloc hrun] at h
          cases hrest : tableRun (bitbandBitmap bitmap) num m' (held ++ (some j).toList)
              ops with
          | error e =>
            rw [hrest] at h
            simp [Except.map] at h
          | ok rs =>
            rw [hrest] at h
            have h := ok_ok.mp h
            cases hfree : kt.firstFree 0 kt.num with
            | none =>
              rw [KTable.run_none hfree] at h
              simp at h
            | some i =>
              have hi := huse.free_ge (by omega) hfree
              rw [KTable.run_some hfree] at h
              injection h with h _
              injection h with h
              omega
    | free k =>
      cases hk : held[k]? with
      | none =>
        obtain ⟨h1, h2⟩ := tableRun_free_none (B := bitbandBitmap bitmap) (s := m) kt hk
        have hge := List.getElem?_eq_none_iff.mp hk
        rw [h1, h2, Below, if_neg (by omega)]
        exact ih m held kt hkt hs huse
      | some i =>
        have hlt := (List.getElem?_eq_some_iff.mp hk).1
        obtain ⟨m', hrun, hs'⟩ :=
          hB.dealloc hnum hs (huse.low i (List.mem_of_getElem? hk))
        obtain ⟨h1, h2⟩ := tableRun_free kt hk hrun
        rw [h1, h2, Below, if_pos hlt, ← List.length_eraseIdx_of_lt hlt]
        exact ih m' _ _ hkt hs' (huse.free hk)

/-- Bit-band tables against plain tables, from tables without elements in use: every sequence of
calls returns the same in both, `NULL` included, if and only if the table has fewer than 32
elements or no element is asked for while 32 are in use. -/
theorem bitband_tables_agree (num : Word) {words : Nat → Word} {bitmap : Word} {m : BitbandMem}
    (hal : 4 ∣ bitmap.toNat) (hplain : ∀ i < num.toNat, plainBit words i = false)
    (hband : ∀ i < num.toNat, bitbandBit bitmap m i = false) (ops : List TableOp) :
    (∃ rs, tableRun plainBitmap num words [] ops = .ok rs ∧
      tableRun (bitbandBitmap bitmap) num m [] ops = .ok rs) ↔
      num.toNat < 32 ∨ Below 0 ops := by
  -- the table both are compared with
  let kt : KTable Unit := ⟨num.toNat, 0, fun _ => ()⟩
  have hp : tableRun plainBitmap num words [] ops = .ok (kt.run [] ops) :=
    plain_run rfl (fun i hi => by rw [hplain i hi]; simp [kt]) ops
  have hshow : ∀ lim ≤ num.toNat, Shows (bitbandBit bitmap) lim m kt := fun lim hlim i hi => by
    rw [hband i (by omega)]
    simp [kt]
  have hiff : (∃ rs, tableRun plainBitmap num words [] ops = .ok rs ∧
      tableRun (bitbandBitmap bitmap) num m [] ops = .ok rs) ↔
      tableRun (bitbandBitmap bitmap) num m [] ops = .ok (kt.run [] ops) := by
    constructor
    · rintro ⟨rs, h1, h2⟩
      rw [hp] at h1
      rw [h2, ← h1]
    · intro h
      exact ⟨_, hp, h⟩
  rw [hiff]
  by_cases hnum : num.toNat < 32
  · refine iff_of_true ?_ (.inl hnum)
    refine (bitbandBitmap_faithful hal (by omega)).run ?_ ops m [] kt rfl (hshow _ (Nat.le_refl _))
      (by simp)
    rw [bitbandCursorId_cursor hal (by omega), Nat.mod_eq_of_lt hnum]
  · have huse : InUse kt [] := ⟨List.nodup_nil, by simp, fun i _ => by simp [kt]⟩
    rw [bitband_run_large hal (by omega) ops m [] kt rfl (hshow 32 (by omega)) huse]
    exact (or_iff_right hnum).symm

/-- The table of address spaces, with 16 elements: it is filled, one element more is refused,
and one that is freed is handed out again. -/
theorem bitband_tables_agree_small :
    ∃ rs, tableRun plainBitmap 16#32 (fun _ => 0#32) []
        (List.replicate 17 .alloc ++ [.free 3, .alloc]) = .ok rs ∧
      tableRun (bitbandBitmap 0x20001000#32) 16#32 (fun _ => false) []
        (List.replicate 17 .alloc ++ [.free 3, .alloc]) = .ok rs :=
  (bitband_tables_agree 16#32 (by decide) (by decide) (by decide) _).mpr (.inl (by decide))

/-- The fpage table, with 256 elements: the 33rd is element 32, and with bit-band bitmaps
element 0 once more. -/
theorem bitband_table_repeats :
    (tableRun plainBitmap 256#32 (fun _ => 0#32) [] (List.replicate 33 .alloc)).map
      (·.getLast?) = .ok (some (some 32)) ∧
    (tableRun (bitbandBitmap 0x20001000#32) 256#32 (fun _ => false) []
      (List.replicate 33 .alloc)).map (fun rs => (rs.head?, rs.getLast?)) =
      .ok (some (some 0), some (some 0)) := by
  refine ⟨?_, ?_⟩
  · exact toOption_some.mp (by decide +kernel)
  · exact toOption_some.mp (by decide +kernel)

end F9
