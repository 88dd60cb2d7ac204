import F9.User.Message

/-!
# Typed items in user space (`l4/types.h`, `l4/message.h`, `user/root_thread.c`)

An fpage is a word: three bits of rights, one bit more, six bits for the logarithm of the size and
the base from bit 10 on. A map or grant item is a word with a type and the send base, and the word
of the fpage. `L4_Map` of the root thread makes an item of its own kind: base and size, and the
type in the low bits of the base.
-/

namespace F9

variable {label : Word} {u t : Nat}

/-- `L4_Fpage_t`. -/
abbrev L4Fpage := Word

/-- `L4_FpageLog2`: `s` is bits 4 to 9, `rwx` bits 0 to 2. -/
def l4FpageLog2 (baseAddress : Word) (fpageSize : Nat) : L4Fpage :=
  BitVec.ofNat 32 (baseAddress.toNat / 2 ^ 10 * 2 ^ 10 + fpageSize % 64 * 2 ^ 4 +
    baseAddress.toNat / 2 ^ 3 % 2 * 2 ^ 3)

/-- `L4_FpageAddRights`. -/
def l4FpageAddRights (f : L4Fpage) (rwx : Word) : L4Fpage := f ||| (rwx &&& 0x7#32)

/-- The two words of a map or grant item: `snd_base` is bits 10 to 31, `__type` bits 1 to 3. -/
def sendItem (type : Nat) (f : L4Fpage) (sndBase : Word) : Word × Word :=
  (BitVec.ofNat 32 ((sndBase >>> 10).toNat * 2 ^ 10 + type * 2 ^ 1), f)

/-- `L4_MapItem`. -/
def l4MapItem (f : L4Fpage) (sndBase : Word) : Word × Word := sendItem 0x04 f sndBase

/-- `L4_GrantItem`. -/
def l4GrantItem (f : L4Fpage) (sndBase : Word) : Word × Word := sendItem 0x05 f sndBase

/-- `page` in `L4_Map`. -/
def l4MapPage (base size : Word) : Word × Word :=
  ((base &&& 0xFFFFFFC0#32) ||| 0xA#32, size &&& 0xFFFFFFC0#32)

/-- A tag with this label and these numbers of words: `u` is bits 0 to 5, `t` bits 6 to 11. -/
def l4MsgTag (label : Word) (u t : Nat) : Word :=
  BitVec.ofNat 32 (label.toNat % 2 ^ 16 * 2 ^ 16 + t % 64 * 2 ^ 6 + u % 64)

/-- The loops of `L4_MsgPut`: words from `msg[i]` on. -/
def putWords : L4Msg → Nat → List Word → L4Msg
  | msg, _, [] => msg
  | msg, i, w :: ws => putWords (fun x => if x = i then w else msg x) (i + 1) ws

/-- `L4_MsgPut`. -/
def l4MsgPut (msg : L4Msg) (label : Word) (untyped items : List Word) : L4Msg :=
  let msg := putWords msg 1 untyped
  let msg := putWords msg (untyped.length + 1) items
  fun x => if x = 0 then l4MsgTag label untyped.length items.length else msg x

/-- A typed item: of an fpage of `2 ^ s` bytes with these rights, with a send base, or of the root
thread. -/
inductive UserItem
  | map (base : Word) (s : Nat) (rwx sndBase : Word)
  | grant (base : Word) (s : Nat) (rwx sndBase : Word)
  | l4Map (base size : Word)
  deriving DecidableEq, Repr

/-- The two words of the item. -/
def UserItem.words : UserItem → Word × Word
  | .map base s rwx sndBase => l4MapItem (l4FpageAddRights (l4FpageLog2 base s) rwx) sndBase
  | .grant base s rwx sndBase => l4GrantItem (l4FpageAddRights (l4FpageLog2 base s) rwx) sndBase
  | .l4Map base size => l4MapPage base size

/-- The words of a list of items, one item after the other. -/
def itemWords : List UserItem → List Word
  | [] => []
  | item :: items => item.words.1 :: item.words.2 :: itemWords items

/-! ## The words of a message -/

theorem putWords_apply (x : Nat) (ws : List Word) (msg : L4Msg) (i : Nat) :
    putWords msg i ws x = if i ≤ x then ws.getD (x - i) (msg x) else msg x := by
  induction ws generalizing msg i with
  | nil =>
    unfold putWords
    simp
  | cons w ws ih =>
    rw [putWords, ih]
    by_cases hx : x = i
    · subst hx
      simp
    · by_cases hle : i ≤ x
      · have hsub : x - i = (x - (i + 1)) + 1 := by omega
        rw [if_pos (by omega), if_pos hle, if_neg hx, hsub, List.getD_cons_succ]
      · rw [if_neg (by omega), if_neg hle, if_neg hx]

theorem l4MsgTag_nUntyped (hu : u < 64) :
    nUntyped (l4MsgTag label u t) = u := by
  unfold nUntyped l4MsgTag
  rw [BitVec.toNat_and, BitVec.toNat_ofNat]
  have hmask : (0x3F#32).toNat = 2 ^ 6 - 1 := rfl
  rw [hmask, Nat.and_two_pow_sub_one_eq_mod]
  omega

theorem l4MsgTag_nTyped (ht : t < 64) :
    nTyped (l4MsgTag label u t) = t := by
  unfold nTyped l4MsgTag
  rw [BitVec.toNat_and, BitVec.toNat_ushiftRight, BitVec.toNat_ofNat, Nat.shiftRight_eq_div_pow]
  have hmask : (0x3F#32).toNat = 2 ^ 6 - 1 := rfl
  rw [hmask, Nat.and_two_pow_sub_one_eq_mod]
  omega

theorem l4MsgPut_item {msg : L4Msg} {untyped items : List Word} {j : Nat} {w : Word}
    (hj : items[j]? = some w) : l4MsgPut msg label untyped items (untyped.length + 1 + j) = w := by
  unfold l4MsgPut
  rw [if_neg (by omega), putWords_apply, if_pos (by omega), Nat.add_sub_cancel_left,
    List.getD_eq_getElem?_getD, hj]
  rfl

theorem itemWords_length (items : List UserItem) : (itemWords items).length = 2 * items.length := by
  induction items with
  | nil => rfl
  | cons item items ih =>
    unfold itemWords
    rw [List.length_cons, List.length_cons, ih, List.length_cons]
    omega

end F9
