import F9.Kernel.State

/-!
# Bitmap cursors and kernel tables (`lib/bitmap.h`, `lib/ktable.c`)

`ktable_alloc` and `ktable_free` are written over a bitmap cursor, which has two
implementations. The plain one is the bitmap and the number of a bit. With
`CONFIG_BITMAP_BITBAND` it is an address in the bit-band region, where each bit of the first
megabyte of SRAM has a word of its own, and the number of the bit is recovered from the
address. The routines are generic in the cursor; an element is its index.
-/

namespace F9

/-- The cursor operations: `σ` is the memory, `γ` the type of cursors. -/
structure BitmapOps (σ γ : Type) where
  cursor : Nat → γ
  cursorId : γ → Nat
  cursorGotoNext : γ → γ
  testAndSetBit : σ → γ → Except Fault (Bool × σ)
  clearBit : σ → γ → Except Fault σ

/-! ## Plain bitmaps -/

/-- `BITMASK`. -/
def bitmask (bit : Nat) : Word := 1#32 <<< (bit % 32)

/-- Update one word of the bitmap. -/
def setWord (bitmap : Nat → Word) (k : Nat) (w : Word) : Nat → Word :=
  fun j => if j = k then w else bitmap j

/-- `test_and_set_bit` on `BITWORD(cursor)`. -/
def testAndSetBit (bitmap : Nat → Word) (bit : Nat) : Bool × (Nat → Word) :=
  if bitmap (bit / 32) &&& bitmask bit = 0#32 then
    (true, setWord bitmap (bit / 32) (bitmap (bit / 32) ||| bitmask bit))
  else (false, bitmap)

/-- The plain cursor. The bitmap is an array of words, and does not have `2 ^ 31` bits. -/
def plainBitmap : BitmapOps (Nat → Word) Nat where
  cursor bit := bit
  cursorId bit := bit
  cursorGotoNext bit := bit + 1
  testAndSetBit bitmap bit := .ok (testAndSetBit bitmap bit)
  clearBit bitmap bit :=
    .ok (setWord bitmap (bit / 32) (bitmap (bit / 32) &&& ~~~bitmask bit))

/-! ## Bit-band bitmaps -/

/-- `ADDR_BITBAND`. -/
def addrBitband (addr : Word) : Word := 0x22000000#32 + ((addr &&& 0xFFFFF#32) <<< 5)

/-- The words of the bit-band region, by address: each one reads as the bit behind it. -/
abbrev BitbandMem := Word → Bool

/-- The address is in the bit-band region; other addresses are not memory. -/
def inBitband (c : Word) : Bool := decide (0x22000000#32 ≤ c) && decide (c < 0x24000000#32)

/-- Write one word of the region. -/
def BitbandMem.write (m : BitbandMem) (c : Word) (b : Bool) : BitbandMem :=
  fun x => if x = c then b else m x

def testAndSetWord (m : BitbandMem) (word : Word) : Except Fault (Bool × BitbandMem) :=
  if inBitband word then
    if m word then .ok (false, m) else .ok (true, m.write word true)
  else .error .outOfBounds

/-- The bit-band cursor for the bitmap at address `bitmap`. -/
def bitbandBitmap (bitmap : Word) : BitmapOps BitbandMem Word where
  cursor bit := addrBitband bitmap + (BitVec.ofNat 32 bit <<< 2)
  cursorId c := ((c &&& ((1#32 <<< (5 + 2)) - 1#32)) >>> 2).toNat
  cursorGotoNext c := c + 1#32 <<< 2
  testAndSetBit := testAndSetWord
  clearBit m c := if inBitband c then .ok (m.write c false) else .error .outOfBounds

/-! ## Tables -/

section

variable {σ γ : Type} (B : BitmapOps σ γ) (num : Word)

/-- The loop of `ktable_alloc`, `for_each_in_bitmap`. -/
def ktableAllocLoop : Nat → σ → γ → Except Fault (Option Nat × σ)
  | 0, _, _ => .error .hang
  | n + 1, s, c =>
    if B.cursorId c < num.toNat then do
      let (clear, s) ← B.testAndSetBit s c
      if clear then return (some (B.cursorId c), s)
      else ktableAllocLoop n s (B.cursorGotoNext c)
    else .ok (none, s)

/-- `ktable_alloc`: the index of the element, `none` for `NULL`. A cursor of 32 bits that is
moved more than `2 ^ 32` times goes round. -/
def ktableAlloc (s : σ) : Except Fault (Option Nat × σ) :=
  ktableAllocLoop B num (2 ^ 32 + 1) s (B.cursor 0)

def ktableGetid (i : Nat) : Option Nat := if num.toNat < i then none else some i

/-- `ktable_free` of element `i`. -/
def ktableFree (s : σ) (i : Nat) : Except Fault σ :=
  match ktableGetid num i with
  | none => .ok s
  | some i => B.clearBit s (B.cursor i)

/-- A call of `ktable_alloc`, or of `ktable_free` on the `k`th of the elements that were
handed out and not freed. -/
inductive TableOp
  | alloc
  | free (k : Nat)
  deriving DecidableEq, Repr

/-- A sequence of calls: what the calls of `ktable_alloc` return. `held` are the elements that
are handed out. -/
def tableRun : σ → List Nat → List TableOp → Except Fault (List (Option Nat))
  | _, _, [] => .ok []
  | s, held, .alloc :: ops => do
    let (r, s) ← ktableAlloc B num s
    let rs ← tableRun s (held ++ r.toList) ops
    return r :: rs
  | s, held, .free k :: ops =>
    match held[k]? with
    | none => tableRun s held ops
    | some i => do
      let s ← ktableFree B num s i
      tableRun s (held.eraseIdx k) ops

end

end F9
