import F9.Kernel.Ipc

/-!
# Messages in user space (`l4/message.h`, `l4/platform/vregs.h`)

A program keeps a message in an array of words, the first of which is the tag, and loads
it into the message registers before it sends. The first eight registers are r4 to r11,
the others are words of the UTCB. `L4_LoadMRs` and `L4_StoreMRs` are switches that fall
through: they go on from register to register and then to the UTCB.
-/

namespace F9

/-- `__L4_NUM_MRS`. -/
def L4_NUM_MRS : Int := 16

/-- The registers of a message: r4 to r11, which are `__L4_MR0` to `__L4_MR7`, and the words
`mr` of the UTCB. -/
structure Vregs where
  regs : Nat → Word
  mr : Nat → Word

/-- `L4_Msg_t`. The tag is the first word. -/
abbrev L4Msg := Nat → Word

/-! ## Loading -/

/-- The loop of `L4_LoadMRs` over the UTCB: `k` words, from `w[o]` to `mr[j]` and on. -/
def loadUtcb (w : Nat → Word) : Nat → Nat → Nat → Vregs → Vregs
  | 0, _, _, v => v
  | k + 1, j, o, v =>
    loadUtcb w k (j + 1) (o + 1) { v with mr := fun x => if x = j then w o else v.mr x }

/-- The cases of `L4_LoadMRs` from case `i` on: `n` registers before the UTCB, `k` words. -/
def loadCases (w : Nat → Word) : Nat → Nat → Nat → Nat → Vregs → Vregs
  | 0, _, k, o, v => loadUtcb w k 0 o v
  | n + 1, i, k, o, v =>
    let v := { v with regs := fun x => if x = i then w o else v.regs x }
    if k - 1 = 0 then v else loadCases w n (i + 1) (k - 1) (o + 1) v

/-- `L4_LoadMRs`. -/
def l4LoadMRs (i k : Int) (w : Nat → Word) (v : Vregs) : Vregs :=
  if i < 0 ∨ k ≤ 0 ∨ L4_NUM_MRS < i + k then v
  else loadCases w (8 - i.toNat) i.toNat k.toNat 0 v

/-- `L4_MsgLoad`. -/
def l4MsgLoad (msg : L4Msg) (v : Vregs) : Vregs :=
  l4LoadMRs 0 (nUntyped (msg 0) + nTyped (msg 0) + 1) msg v

/-! ## Storing -/

/-- The loop of `L4_StoreMRs` over the UTCB: `k` words, from `mr[j]` to `w[o]` and on. -/
def storeUtcb (v : Vregs) : Nat → Nat → Nat → (Nat → Word) → Nat → Word
  | 0, _, _, w => w
  | k + 1, j, o, w => storeUtcb v k (j + 1) (o + 1) fun x => if x = o then v.mr j else w x

/-- The cases of `L4_StoreMRs` from case `i` on. -/
def storeCases (v : Vregs) : Nat → Nat → Nat → Nat → (Nat → Word) → Nat → Word
  | 0, _, k, o, w => storeUtcb v k 0 o w
  | n + 1, i, k, o, w =>
    let w := fun x => if x = o then v.regs i else w x
    if k - 1 = 0 then w else storeCases v n (i + 1) (k - 1) (o + 1) w

/-- `L4_StoreMRs`. -/
def l4StoreMRs (i k : Int) (v : Vregs) (w : Nat → Word) : Nat → Word :=
  if i < 0 ∨ k ≤ 0 ∨ L4_NUM_MRS < i + k then w
  else storeCases v (8 - i.toNat) i.toNat k.toNat 0 w

/-- `L4_MsgStore`: the words from `msg[1]` on, and the tag. -/
def l4MsgStore (t : Word) (v : Vregs) (msg : L4Msg) : L4Msg :=
  let words := l4StoreMRs 1 (nUntyped t + nTyped t) v fun x => msg (x + 1)
  fun x => if x = 0 then t else words (x - 1)

/-! ## What they do -/

/-- Message register `i`. -/
def Vregs.get (v : Vregs) (i : Nat) : Word := if i < 8 then v.regs i else v.mr (i - 8)

variable {w : Nat → Word} {x : Nat}

theorem loadUtcb_get (k j o : Nat) (v : Vregs) :
    (loadUtcb w k j o v).get x = if 8 + j ≤ x ∧
      x < 8 + j + k then w (o + (x - (8 + j))) else v.get x := by
  induction k generalizing j o v with
  | zero =>
    rw [if_neg (by omega)]
    rfl
  | succ k ih =>
    unfold loadUtcb
    rw [ih]
    by_cases hx : x = 8 + j
    · rw [if_neg (by omega), if_pos (by omega)]
      unfold Vregs.get
      rw [if_neg (by omega)]
      dsimp only
      rw [if_pos (by omega)]
      congr 1
      omega
    · have hget : (Vregs.mk v.regs fun y => if y = j then w o else v.mr y).get x = v.get x := by
        unfold Vregs.get
        split
        · rfl
        · dsimp only
          rw [if_neg (by omega)]
      rw [hget]
      by_cases hin : 8 + j ≤ x ∧ x < 8 + j + (k + 1)
      · rw [if_pos (by omega), if_pos hin]
        congr 1
        omega
      · rw [if_neg (by omega), if_neg hin]

/-- From case `i` on, `k` words go to the registers from `i` on. -/
theorem loadCases_get (n i k o : Nat) (v : Vregs) (hi : i + n = 8) (hk : 0 < k) :
    (loadCases w n i k o v).get x = if i ≤ x ∧ x < i + k then w (o + (x - i)) else v.get x := by
  induction n generalizing i k o v with
  | zero =>
    unfold loadCases
    rw [loadUtcb_get]
    have hi : i = 8 := by omega
    rw [hi]
  | succ n ih =>
    have hget : ∀ y, (Vregs.mk (fun x => if x = i then w o else v.regs x) v.mr).get y =
        if y = i then w o else v.get y := by
      intro y
      unfold Vregs.get
      dsimp only
      by_cases hy : y = i
      · rw [if_pos hy, if_pos hy, if_pos (by omega)]
      · rw [if_neg hy, if_neg hy]
    unfold loadCases
    split
    · rw [hget]
      by_cases hx : x = i
      · rw [if_pos hx, if_pos (by omega)]
        congr 1
        omega
      · rw [if_neg hx, if_neg (by omega)]
    · rw [ih (i + 1) (k - 1) (o + 1) _ (by omega) (by omega), hget]
      by_cases hx : x = i
      · rw [if_neg (by omega), if_pos hx, if_pos (by omega)]
        congr 1
        omega
      · rw [if_neg hx]
        by_cases hin : i ≤ x ∧ x < i + k
        · rw [if_pos (by omega), if_pos hin]
          congr 1
          omega
        · rw [if_neg (by omega), if_neg hin]

variable {v : Vregs}

theorem storeUtcb_apply (k j o : Nat) (w : Nat → Word) :
    storeUtcb v k j o w x = if o ≤ x ∧ x < o + k then v.mr (j + (x - o)) else w x := by
  induction k generalizing j o w with
  | zero =>
    rw [if_neg (by omega)]
    rfl
  | succ k ih =>
    unfold storeUtcb
    rw [ih]
    by_cases hx : x = o
    · rw [if_neg (by omega), if_pos hx, if_pos (by omega)]
      congr 1
      omega
    · rw [if_neg hx]
      by_cases hin : o ≤ x ∧ x < o + (k + 1)
      · rw [if_pos (by omega), if_pos hin]
        congr 1
        omega
      · rw [if_neg (by omega), if_neg hin]

/-- From case `i` on, `k` words come from the registers from `i` on. -/
theorem storeCases_apply (n i k o : Nat) (w : Nat → Word) (hi : i + n = 8) (hk : 0 < k) :
    storeCases v n i k o w x = if o ≤ x ∧ x < o + k then v.get (i + (x - o)) else w x := by
  induction n generalizing i k o w with
  | zero =>
    unfold storeCases
    rw [storeUtcb_apply]
    unfold Vregs.get
    split
    · rw [if_neg (by omega)]
      congr 1
      omega
    · rfl
  | succ n ih =>
    have hreg : v.get i = v.regs i := if_pos (by omega)
    unfold storeCases
    split
    · dsimp only
      by_cases hx : x = o
      · rw [if_pos hx, if_pos (by omega), ← hreg]
        congr 1
        omega
      · rw [if_neg hx, if_neg (by omega)]
    · rw [ih (i + 1) (k - 1) (o + 1) _ (by omega) (by omega)]
      by_cases hx : x = o
      · rw [if_neg (by omega), if_pos hx, if_pos (by omega), ← hreg]
        congr 1
        omega
      · rw [if_neg hx]
        by_cases hin : o ≤ x ∧ x < o + k
        · rw [if_pos (by omega), if_pos hin]
          congr 1
          omega
        · rw [if_neg (by omega), if_neg hin]

/-- The words of a message with this tag, without the tag. -/
def msgWords (tag : Word) : Nat := nUntyped tag + nTyped tag

/-- `L4_MsgLoad` puts the message into the first registers. -/
theorem l4MsgLoad_get {msg : L4Msg} (h : msgWords (msg 0) ≤ 15) (v : Vregs) (x : Nat) :
    (l4MsgLoad msg v).get x = if x ≤ msgWords (msg 0) then msg x else v.get x := by
  unfold msgWords at h ⊢
  unfold l4MsgLoad l4LoadMRs L4_NUM_MRS
  rw [if_neg (by omega), loadCases_get _ _ _ _ _ rfl (by omega)]
  by_cases hx : x ≤ nUntyped (msg 0) + nTyped (msg 0)
  · rw [if_pos (by constructor <;> omega), if_pos hx]
    congr 1
    simp
  · rw [if_neg (by omega), if_neg hx]

/-- `L4_MsgStore` reads the message from the first registers. -/
theorem l4MsgStore_apply {tag : Word} (h : msgWords tag ≤ 15) (v : Vregs) (msg : L4Msg) (x : Nat) :
    l4MsgStore tag v msg x =
      if x = 0 then tag else if x ≤ msgWords tag then v.get x else msg x := by
  unfold msgWords at h ⊢
  unfold l4MsgStore
  by_cases hx0 : x = 0
  · rw [if_pos hx0, if_pos hx0]
  · rw [if_neg hx0, if_neg hx0]
    unfold l4StoreMRs L4_NUM_MRS
    by_cases hzero : nUntyped tag + nTyped tag = 0
    · rw [if_pos (by omega), if_neg (by omega)]
      congr 1
      omega
    · rw [if_neg (by omega), storeCases_apply _ _ _ _ _ rfl (by omega)]
      by_cases hx : x ≤ nUntyped tag + nTyped tag
      · rw [if_pos (by omega), if_pos hx]
        congr 1
        show 1 + (x - 1 - 0) = x
        omega
      · rw [if_neg (by omega), if_neg hx]
        congr 1
        omega

end F9
