import F9.Kernel.MapCalls
import F9.Logic.Blocks
import F9.Logic.Words
import F9.User.Items
import Mathlib.Tactic.IntervalCases

/-!
# Are map and grant items decoded as they were encoded?

`do_ipc` makes one call of `map_area` for each item, in order. It takes the first word of an item
for a base and the second for a size. The words of `L4_MapItem` and `L4_GrantItem` are a send base
and an fpage with its own base in the upper bits, and the type that `L4_Map` writes is that of a
grant item. So the calls are what was asked for in a degenerate case only.
-/

namespace F9

open Result Traced

variable {s : Core} {f t : TcbRef} {type : Nat} {mm : Memmap}

/-! ## Decoding -/

/-- What `do_ipc` makes of the two words of an item. -/
def mapCallOf (w : Word × Word) : MapCall where
  base := w.1 &&& 0xFFFFFFC0#32
  size := w.2 &&& 0xFFFFFFC0#32
  action := if w.1 &&& IPC_TI_GRANT ≠ 0#32 then .grant else .map

/-- The items are in the registers of the thread, from register `i` on. -/
def Holds (s : Core) (f : TcbRef) : Nat → List UserItem → Prop
  | _, [] => True
  | i, item :: items =>
    s.mr f i = item.words.1 ∧ s.mr f (i + 1) = item.words.2 ∧ Holds s f (i + 2) items

theorem Holds.congr {s' : Core} (h : ∀ i, s'.mr f i = s.mr f i) :
    ∀ (items : List UserItem) (i : Nat), Holds s f i items → Holds s' f i items := by
  intro items
  induction items with
  | nil => exact fun _ _ => trivial
  | cons item items ih =>
    rintro i ⟨h1, h2, hrest⟩
    exact ⟨(h i).trans h1, (h (i + 1)).trans h2, ih (i + 2) hrest⟩

theorem holds_of_words (items : List UserItem) (i : Nat)
    (h : ∀ (j : Nat) (w : Word), (itemWords items)[j]? = some w → s.mr f (i + j) = w) :
    Holds s f i items := by
  induction items generalizing i with
  | nil => trivial
  | cons item items ih =>
    refine ⟨h 0 _ rfl, h 1 _ rfl, ih (i + 2) fun j w hj => ?_⟩
    have hnext := h (j + 2) w hj
    rw [Nat.add_comm j, ← Nat.add_assoc] at hnext
    exact hnext

/-! ## Fields -/

theorem and_mask (x : Word) : (x &&& 0xFFFFFFC0#32).toNat = x.toNat / 64 * 64 :=
  and_not_low (k := 6) (by decide) x

theorem and_bit (x : Word) {k : Nat} (hk : k < 32) :
    x &&& BitVec.twoPow 32 k ≠ 0#32 ↔ x.toNat / 2 ^ k % 2 = 1 := by
  have hbit : x.getLsbD k = decide (x.toNat / 2 ^ k % 2 = 1) := Nat.testBit_eq_decide_div_mod_eq
  have hpos : BitVec.twoPow 32 k ≠ 0#32 := by
    intro h
    have hnat := congrArg BitVec.toNat h
    rw [BitVec.toNat_twoPow, Nat.mod_eq_of_lt (Nat.pow_lt_pow_right (by decide) hk)] at hnat
    exact absurd hnat (Nat.two_pow_pos k).ne'
  rw [BitVec.and_twoPow, hbit]
  by_cases h : x.toNat / 2 ^ k % 2 = 1 <;> simp [h, hpos]

theorem sendItem_toNat (ht : type < 8) (f : L4Fpage) (sndBase : Word) :
    (sendItem type f sndBase).1.toNat = sndBase.toNat / 1024 * 1024 + type * 2 := by
  have hshift : (sndBase >>> 10).toNat = sndBase.toNat / 1024 := by
    rw [BitVec.toNat_ushiftRight, Nat.shiftRight_eq_div_pow]
  unfold sendItem
  rw [BitVec.toNat_ofNat, hshift]
  omega

theorem fpage_size (base : Word) (s : Nat) (rwx : Word) :
    (l4FpageAddRights (l4FpageLog2 base s) rwx &&& 0xFFFFFFC0#32).toNat =
      base.toNat / 1024 * 1024 + s % 64 / 4 * 64 := by
  have hrights : l4FpageAddRights (l4FpageLog2 base s) rwx &&& 0xFFFFFFC0#32 =
      l4FpageLog2 base s &&& 0xFFFFFFC0#32 := by
    unfold l4FpageAddRights
    rw [BitVec.and_or_distrib_right, BitVec.and_assoc rwx,
      show 0x7#32 &&& 0xFFFFFFC0#32 = 0#32 by decide]
    simp
  rw [hrights, and_mask]
  unfold l4FpageLog2
  rw [BitVec.toNat_ofNat]
  omega

/-- The call that a map or grant item leads to: the base is the send base, and the base of the
fpage and the upper bits of the logarithm are the size. -/
structure SentAs (base : Word) (s : Nat) (sndBase : Word) (action : MapAction) (call : MapCall) :
    Prop where
  base_eq : call.base.toNat = sndBase.toNat / 1024 * 1024
  size_eq : call.size.toNat = base.toNat / 1024 * 1024 + s % 64 / 4 * 64
  action_eq : call.action = action

theorem sendItem_sent (ht : type < 8) (base : Word) (s : Nat) (rwx sndBase : Word) :
    SentAs base s sndBase (if type % 2 = 1 then .grant else .map)
      (mapCallOf (sendItem type (l4FpageAddRights (l4FpageLog2 base s) rwx) sndBase)) := by
  have hword := sendItem_toNat ht (l4FpageAddRights (l4FpageLog2 base s) rwx) sndBase
  refine ⟨?_, fpage_size base s rwx, ?_⟩
  · refine (and_mask _).trans ?_
    omega
  · have hbit : (sendItem type (l4FpageAddRights (l4FpageLog2 base s) rwx) sndBase).1 &&&
        IPC_TI_GRANT ≠ 0#32 ↔ type % 2 = 1 := by
      rw [show IPC_TI_GRANT = BitVec.twoPow 32 1 from rfl, and_bit _ (by decide), hword]
      omega
    show (if _ then _ else _) = _
    simp only [hbit]

theorem l4Map_granted (base size : Word) :
    (mapCallOf (UserItem.l4Map base size).words).action = .grant := by
  refine if_pos ?_
  show ((base &&& 0xFFFFFFC0#32) ||| 0xA#32) &&& IPC_TI_GRANT ≠ 0#32
  rw [BitVec.and_or_distrib_right, BitVec.and_assoc,
    show 0xFFFFFFC0#32 &&& IPC_TI_GRANT = 0#32 by decide]
  simp [IPC_TI_GRANT]

/-- Every item has the bit of map and grant items in its header. -/
theorem UserItem.header (item : UserItem) : item.words.1 &&& IPC_TI_MAP_GRANT ≠ 0#32 := by
  have hsend : ∀ type f sndBase, type < 8 → 4 ≤ type →
      (sendItem type f sndBase).1 &&& IPC_TI_MAP_GRANT ≠ 0#32 := by
    intro type f sndBase hlt hge
    rw [show IPC_TI_MAP_GRANT = BitVec.twoPow 32 3 from rfl, and_bit _ (by decide),
      sendItem_toNat hlt]
    omega
  cases item with
  | map base s rwx sndBase => exact hsend 4 _ _ (by decide) (by decide)
  | grant base s rwx sndBase => exact hsend 5 _ _ (by decide) (by decide)
  | l4Map base size =>
    show ((base &&& 0xFFFFFFC0#32) ||| 0xA#32) &&& IPC_TI_MAP_GRANT ≠ 0#32
    rw [BitVec.and_or_distrib_right, BitVec.and_assoc,
      show 0xFFFFFFC0#32 &&& IPC_TI_MAP_GRANT = 0#32 by decide]
    simp [IPC_TI_MAP_GRANT]

/-- The loop over the typed words asks for each item once. -/
theorem copyTyped_logs : ∀ (items : List UserItem) (i : Nat)
    (s : Core), Holds s f i items →
    (MapCalls.copyTyped mm f t (2 * items.length) i none s).Logs
      (items.map fun item => mapCallOf item.words) := by
  intro items
  induction items with
  | nil => exact fun _ s _ => Logs.pure s
  | cons item items ih =>
    rintro i s ⟨h1, h2, hrest⟩
    -- the first word
    refine Logs.lift_bind fun data hr => Logs.lift_bind fun s1 hw => ?_
    have hm := copyWord_moved hr hw
    rw [ipcReadMr_mr hr, h1]
    -- the second word
    refine Logs.lift_bind fun data' hr' => Logs.lift_bind fun s2 hw' => ?_
    have hm' := copyWord_moved hr' hw'
    dsimp only
    rw [if_pos item.header, ipcReadMr_mr hr', hm.sender, h2]
    refine Logs.lift_bind fun src _ => Logs.lift_bind fun dst _ => ?_
    refine Logs.tell [_] (Logs.lift_bind fun mem _ => ?_)
    refine ih (i + 2) _ (Holds.congr (fun j => ?_) items (i + 2) hrest)
    exact (hm'.sender j).trans (hm.sender j)

/-- `do_ipc` asks for each item of a message once, in order. -/
theorem doIpc_logs {items : List UserItem} (hfit : msgWords (s.mr f 0) ≤ 15)
    (ht : nTyped (s.mr f 0) = 2 * items.length)
    (hitems : Holds s f (nUntyped (s.mr f 0) + 1) items) :
    (MapCalls.doIpc mm s f t).Logs (items.map fun item => mapCallOf item.words) := by
  refine Logs.lift_bind fun tag htag => ?_
  have htag' := ipcReadMr_mr htag
  subst htag'
  unfold msgWords at hfit
  unfold IPC_MR_COUNT
  rw [if_neg (by omega), ht]
  refine Logs.lift_bind fun s1 h1 => Logs.lift_bind fun s2 h2 => ?_
  have hm1 := copyWord_moved htag h1
  have hm2 := copyUntyped_moved _ _ _ _ h2
  refine Logs.bind (copyTyped_logs items _ _ (Holds.congr (fun j => ?_) items _ hitems)) ?_
  · exact (hm2.sender j).trans (hm1.sender j)
  · intro s3 _
    split
    · exact Logs.lift_bind fun _ _ => Logs.pure _
    · exact Logs.lift _

/-! ## What was asked for -/

/-- The call is what the item asks for. -/
def UserItem.MetBy : UserItem → MapCall → Prop
  | .map base s _ _, call => call.base = base ∧ call.size.toNat = 2 ^ s ∧ call.action = .map
  | .grant base s _ _, call => call.base = base ∧ call.size.toNat = 2 ^ s ∧ call.action = .grant
  | .l4Map base size, call => call.base = base ∧ call.size = size ∧ call.action = .map

/-- The item is of the fpage of 64 bytes at address 0, and sent to the first 1024 bytes. -/
def UserItem.Degenerate : UserItem → Prop
  | .map base s _ sndBase => base = 0#32 ∧ s = 6 ∧ sndBase < 1024#32
  | .grant base s _ sndBase => base = 0#32 ∧ s = 6 ∧ sndBase < 1024#32
  | .l4Map _ _ => False

/-- A base that is a multiple of 1024, with the upper bits of a logarithm behind it, is the power
of two in one case only. -/
theorem size_power {q s : Nat} (hq : q < 2 ^ 22) :
    q * 1024 + s % 64 / 4 * 64 = 2 ^ s ↔ q = 0 ∧ s = 6 := by
  constructor
  · intro h
    have hs : s < 32 := by
      by_contra hs
      have hpow := Nat.pow_le_pow_right (n := 2) (by decide) (Nat.not_lt.mp hs)
      omega
    interval_cases s <;> omega
  · rintro ⟨rfl, rfl⟩
    rfl

theorem SentAs.met_iff {base : Word} {s : Nat} {sndBase : Word} {action : MapAction}
    {call : MapCall} (h : SentAs base s sndBase action call) :
    (call.base = base ∧ call.size.toNat = 2 ^ s ∧ call.action = action) ↔
      base = 0#32 ∧ s = 6 ∧ sndBase < 1024#32 := by
  have hzero : base = 0#32 ↔ base.toNat = 0 := by
    rw [← BitVec.toNat_inj]
    rfl
  have hsnd : sndBase < 1024#32 ↔ sndBase.toNat < 1024 := BitVec.lt_def
  rw [← BitVec.toNat_inj, h.base_eq, h.size_eq, size_power (by omega), hzero, hsnd,
    and_iff_left h.action_eq]
  omega

theorem UserItem.met_iff (item : UserItem) :
    item.MetBy (mapCallOf item.words) ↔ item.Degenerate := by
  cases item with
  | map base s rwx sndBase =>
    exact SentAs.met_iff (@sendItem_sent 4 (by decide) base s rwx sndBase)
  | grant base s rwx sndBase =>
    exact SentAs.met_iff (@sendItem_sent 5 (by decide) base s rwx sndBase)
  | l4Map base size =>
    refine iff_of_false (fun h => ?_) id
    have haction := h.2.2
    rw [l4Map_granted] at haction
    simp at haction

/-- A message of untyped words and items is loaded and sent: `do_ipc` makes one call of `map_area`
for each item, in order, as far as it gets. If it returns, the calls are what the items ask for if
and only if all the items are degenerate. -/
theorem typed_items_decoded {mm : Memmap} {s : Core} {f t : TcbRef} {msg : L4Msg} {label : Word}
    {untyped : List Word} {items : List UserItem} {v : Vregs}
    (hfit : untyped.length + 2 * items.length ≤ 15)
    (hload : s.vregs f = l4MsgLoad (l4MsgPut msg label untyped (itemWords items)) v) :
    (MapCalls.doIpc mm s f t).log <+: items.map (fun item => mapCallOf item.words) ∧
    ∀ s', doIpc mm s f t = .ok s' →
      (MapCalls.doIpc mm s f t).log = items.map (fun item => mapCallOf item.words) ∧
      (List.Forall₂ UserItem.MetBy items (MapCalls.doIpc mm s f t).log ↔
        ∀ item ∈ items, item.Degenerate) := by
  have hlen := itemWords_length items
  -- the message is in the registers
  have htag : l4MsgPut msg label untyped (itemWords items) 0 =
      l4MsgTag label untyped.length (itemWords items).length := rfl
  have hu : nUntyped (l4MsgPut msg label untyped (itemWords items) 0) = untyped.length := by
    rw [htag, l4MsgTag_nUntyped (by omega)]
  have ht : nTyped (l4MsgPut msg label untyped (itemWords items) 0) = 2 * items.length := by
    rw [htag, l4MsgTag_nTyped (by omega), hlen]
  have hwords : msgWords (l4MsgPut msg label untyped (itemWords items) 0) =
      untyped.length + 2 * items.length := by
    unfold msgWords
    rw [hu, ht]
  have hmr : ∀ i, i ≤ untyped.length + 2 * items.length →
      s.mr f i = l4MsgPut msg label untyped (itemWords items) i := by
    intro i hi
    unfold Core.mr
    rw [hload, l4MsgLoad_get (by omega), if_pos (by omega)]
  have hmr0 := hmr 0 (Nat.zero_le _)
  have hholds : Holds s f (untyped.length + 1) items := by
    refine holds_of_words items _ fun j w hj => ?_
    obtain ⟨hlt, _⟩ := List.getElem?_eq_some_iff.mp hj
    rw [hmr _ (by omega), l4MsgPut_item hj]
  have hlogs : (MapCalls.doIpc mm s f t).Logs (items.map fun item => mapCallOf item.words) := by
    apply doIpc_logs
    · rw [hmr0, hwords]
      exact hfit
    · rw [hmr0, ht]
    · rw [hmr0, hu]
      exact hholds
  refine ⟨hlogs.1, fun s' hrun => ?_⟩
  have hlog := hlogs.2 s' ((MapCalls.doIpc_result mm s f t).trans hrun)
  refine ⟨hlog, ?_⟩
  rw [hlog, List.forall₂_map_right_iff, List.forall₂_same]
  exact forall₂_congr fun item _ => item.met_iff

/-- A message of these items, in the registers of a thread. -/
def itemRegs (items : List UserItem) : Vregs :=
  l4MsgLoad (l4MsgPut (fun _ => 0#32) 0#32 [] (itemWords items)) ⟨fun _ => 0#32, fun _ => 0#32⟩

/-- Threads 3 and 4 are in spaces of their own, and 4 has loaded the message and calls. -/
def itemCore (items : List UserItem) : Core :=
  let s := sixThreads.core.setTcb 3 fun tcb => { tcb with as := some 1 }
  let s := s.setTcb 4 fun tcb =>
    { tcb with as := some 0, ctx := { tcb.ctx with regs := (itemRegs items).regs } }
  { s with caller := some 4 }

/-- The two degenerate items. -/
theorem typed_items_decoded_zero :
    okWith (fun _ => true) (doIpc [] (itemCore [.map 0#32 6 7#32 0#32, .grant 0#32 6 7#32 512#32])
      4 3) = true ∧
    List.Forall₂ UserItem.MetBy [.map 0#32 6 7#32 0#32, .grant 0#32 6 7#32 512#32]
      (MapCalls.doIpc [] (itemCore [.map 0#32 6 7#32 0#32, .grant 0#32 6 7#32 512#32]) 4 3).log := by
  have hok : okWith (fun _ => true) (doIpc []
      (itemCore [.map 0#32 6 7#32 0#32, .grant 0#32 6 7#32 512#32]) 4 3) = true := by decide +kernel
  obtain ⟨s', hrun, _⟩ := okWith_iff.mp hok
  have hload : (itemCore [.map 0#32 6 7#32 0#32, .grant 0#32 6 7#32 512#32]).vregs 4 =
      itemRegs [.map 0#32 6 7#32 0#32, .grant 0#32 6 7#32 512#32] := rfl
  have hfit : ([] : List Word).length +
      2 * [UserItem.map 0#32 6 7#32 0#32, .grant 0#32 6 7#32 512#32].length ≤ 15 := by decide
  refine ⟨hok, ((typed_items_decoded hfit hload).2 s' hrun).2.mpr ?_⟩
  intro item hitem
  rcases List.mem_cons.mp hitem with rfl | hitem
  · exact ⟨rfl, rfl, by decide⟩
  · rw [List.mem_singleton.mp hitem]
    exact ⟨rfl, rfl, by decide⟩

/-- `L4_Map` of the root thread grants instead of mapping. A page of 4096 bytes is sent as its
base and taken for more than 512 MiB. -/
theorem typed_items_misread :
    (okWith (fun _ => true) (doIpc [] (itemCore [.l4Map 0x20001000#32 0x200#32]) 4 3) = true ∧
      (MapCalls.doIpc [] (itemCore [.l4Map 0x20001000#32 0x200#32]) 4 3).log =
        [⟨0x20001000#32, 0x200#32, .grant⟩]) ∧
    (okWith (fun _ => true) (doIpc []
        (itemCore [.map 0x20001000#32 12 7#32 0x20001000#32]) 4 3) = true ∧
      (MapCalls.doIpc [] (itemCore [.map 0x20001000#32 12 7#32 0x20001000#32]) 4 3).log =
        [⟨0x20001000#32, 0x200010C0#32, .map⟩]) ∧
    ¬ (UserItem.l4Map 0x20001000#32 0x200#32).MetBy ⟨0x20001000#32, 0x200#32, .grant⟩ ∧
    ¬ (UserItem.map 0x20001000#32 12 7#32 0x20001000#32).MetBy
      ⟨0x20001000#32, 0x200010C0#32, .map⟩ := by
  refine ⟨⟨by decide +kernel, by decide +kernel⟩, ⟨by decide +kernel, by decide +kernel⟩, ?_, ?_⟩
  · exact fun h => absurd h.2.2 (by decide)
  · exact fun h => absurd h.2.1 (by decide)

end F9
