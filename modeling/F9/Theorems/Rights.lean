import F9.Kernel.System
import F9.Logic.Sweeps
import F9.Logic.Frames

/-!
# Access rights

The rights of an fpage are those of its memory pool. A page keeps its pool
through splits and clones (`MadeFrom.pool`), and `mpu_setup_region` takes the
execute permission from the pool. The write permission it does not look at: every
region is set up with full access, so a page of a pool that user code may not
write becomes writable as soon as it is programmed into the MPU.
-/

namespace F9

open Result

/-! ## The attribute word -/

/-- The AP field of an attribute word. -/
def attrAP (attr : Word) : Word := (attr >>> 24) &&& 7#32

/-- Unprivileged code may write to the region: it is enabled with AP = 3. -/
def userMayWrite (attr : Word) : Bool :=
  decide (attr &&& 1#32 ≠ 0#32) && decide (attrAP attr = 3#32)

/-- Unprivileged code may execute from the region: it is enabled, XN is clear,
and the AP field lets unprivileged code read. -/
def userMayExecute (attr : Word) : Bool :=
  decide (attr &&& 1#32 ≠ 0#32) && decide (attr &&& (1#32 <<< 28) = 0#32) &&
    decide (attrAP attr = 2#32 ∨ attrAP attr = 3#32 ∨ attrAP attr = 6#32 ∨ attrAP attr = 7#32)

/-- The pool lets unprivileged code write. -/
def Mempool.userWrite (mp : Mempool) : Bool := decide (mp.flags &&& MP_UW ≠ 0#32)

/-- The pool lets unprivileged code execute. -/
def Mempool.userExecute (mp : Mempool) : Bool := decide (mp.flags &&& MP_UX ≠ 0#32)

/-- The region that is set up for the page grants no right that the pool `q`
does not have. -/
def RightsKept (mm : Memmap) (q : Nat) (fp : Fpage) : Prop :=
  (userMayWrite (mpuAttr mm fp) = true → (mempoolGetbyid mm q).userWrite = true) ∧
  (userMayExecute (mpuAttr mm fp) = true → (mempoolGetbyid mm q).userExecute = true)

/-- The attribute word, by the execute permission and the shift. -/
def attrWord (ux : Bool) (shift : Nat) : Word :=
  (if ux then 0#32 else 1#32 <<< 28) ||| (0x3#32 <<< 24) |||
    ((BitVec.ofNat 32 shift - 1#32) <<< 1) ||| 1#32

theorem mpuAttr_eq (mm : Memmap) (fp : Fpage) :
    mpuAttr mm fp = attrWord (mempoolGetbyid mm fp.mpid).userExecute fp.shift := by
  unfold mpuAttr attrWord Mempool.userExecute
  by_cases h : (mempoolGetbyid mm fp.mpid).flags &&& MP_UX ≠ 0#32
  · rw [if_pos h, decide_eq_true h, if_pos rfl]
  · rw [if_neg h, decide_eq_false h, if_neg Bool.false_ne_true]

/-- Every page but one of a single byte is set up for full access. -/
theorem userMayWrite_attrWord : ∀ ux : Bool, ∀ shift < 64,
    userMayWrite (attrWord ux shift) = decide (shift ≠ 0) := by
  decide

theorem userMayExecute_attrWord : ∀ ux : Bool, ∀ shift < 64,
    userMayExecute (attrWord ux shift) = true → ux = true := by
  decide

/-! ## The pool of a page -/

/-- The page records that the kernel makes from pool `q`: by `create_fpage` (with a shift of at most
63, of the field's 16 bits), by `split_fpage` of such a page, or by `map_fpage` of one. -/
inductive MadeFrom (mm : Memmap) (q : Nat) : Fpage → Prop
  | created {s s' base shift r} : shift < 64 → createFpage mm s base shift q = .ok (r, s') →
      MadeFrom mm q (s'.fp r)
  | split {s s' a r split rl res x} : MadeFrom mm q (s.fp r) →
      splitFpage mm s (some a) r split rl = .ok (res, s') →
      s.liveFp x = false → s'.liveFp x = true → MadeFrom mm q (s'.fp x)
  | cloned {s s' d r action x} : MadeFrom mm q (s.fp r) →
      mapFpage s d (some r) action = .ok s' →
      s.liveFp x = false → s'.liveFp x = true → MadeFrom mm q (s'.fp x)

/-- Every page is as it was, or one of pool `q` with a legal shift. -/
def Adds (q : Nat) (s s' : Kernel) : Prop :=
  ∀ x, ((s'.fp x).mpid = (s.fp x).mpid ∧ (s'.fp x).shift = (s.fp x).shift ∧
      (s'.liveFp x = true → s.liveFp x = true)) ∨
    ((s'.fp x).mpid = q ∧ (s'.fp x).shift < 64)

variable {mm : Memmap} {q shift : Nat} {s s' t : Kernel} {base size split : Word} {r x : FpRef}

theorem Adds.refl (q : Nat) (s : Kernel) : Adds q s s := fun _ => .inl ⟨rfl, rfl, id⟩

theorem Adds.trans (h1 : Adds q s s') (h2 : Adds q s' t) : Adds q s t := by
  intro x
  rcases h2 x with ⟨m2, k2, l2⟩ | h2
  · rcases h1 x with ⟨m1, k1, l1⟩ | h1
    · exact .inl ⟨m2.trans m1, k2.trans k1, fun h => l1 (l2 h)⟩
    · exact .inr ⟨m2.trans h1.1, by rw [k2]; exact h1.2⟩
  · exact .inr h2

theorem Relinked.adds (h : Relinked s s') (q : Nat) : Adds q s s' := by
  intro x
  left
  rw [h.page x, h.live x]
  exact ⟨rfl, rfl, id⟩

theorem Adds.freeFp (q : Nat) (s : Kernel) (r : FpRef) : Adds q s (s.freeFp r) := by
  intro x
  refine .inl ⟨rfl, rfl, fun h => ?_⟩
  rw [Kernel.freeFp_liveFp, Bool.and_eq_true] at h
  exact h.1

theorem Built.adds {c : List FpRef} (h : Built mm q s s' (chainBlocks size.toNat base size) c) :
    Adds q s s' := by
  intro x
  by_cases hx : x ∈ c
  · right
    obtain ⟨b, hb, _, hp⟩ := h.aligned x hx
    rw [hp]
    exact ⟨rfl, hb.trans (by decide)⟩
  · left
    rw [h.frame_none hx, h.live x, decide_eq_false hx, Bool.or_false]
    exact ⟨rfl, rfl, id⟩

theorem splitFpage_adds {a : AsRef} {rl : Bool} {res : Option FpRef} (hr : (s.fp r).mpid = q)
    (h : splitFpage mm s (some a) r split rl = .ok (res, s')) : Adds q s s' := by
  rcases splitFpage_parts h with rfl | ⟨s1, s2, s3, cl, cr, bl, br, hL, _, hR, _, hu, hi⟩
  · exact .refl q s'
  · rw [hr] at hL
    have h1 : Adds q s s1 := hL.adds
    have hr1 : (s1.fp r).mpid = q := (h1 r).elim (fun h => h.1.trans hr) fun h => h.1
    rw [hr1] at hR
    exact (((h1.trans hR.adds).trans (hu.adds q)).trans (.freeFp q s3 r)).trans (hi.adds q)

theorem mapFpage_adds {d : AsRef} {action : MapAction} (hr : (s.fp r).mpid = q)
    (hk : (s.fp r).shift < 64) (h : mapFpage s d (some r) action = .ok s') : Adds q s s' := by
  obtain ⟨r', f, s1, hr', ha, hi⟩ := mapFpage_parts h
  injection hr' with hr'
  subst hr'
  refine Adds.trans (fun x => ?_) (hi.adds q)
  by_cases hf : x = f
  · subst hf
    right
    rw [cloneInto_clone]
    rw [ha.fp]
    exact ⟨hr, hk⟩
  · left
    rw [cloneInto_live, ha.live]
    simp only [hf, decide_false, Bool.or_false]
    by_cases hxr : x = r
    · subst hxr
      rw [cloneInto_source _ _ hf]
      rw [ha.fp]
      exact ⟨rfl, rfl, id⟩
    · rw [cloneInto_frame _ _ hf hxr, ha.fp]
      exact ⟨rfl, rfl, id⟩

theorem Adds.new (h : Adds q s s') (hs : s.liveFp x = false) (hs' : s'.liveFp x = true) :
    (s'.fp x).mpid = q ∧ (s'.fp x).shift < 64 := by
  rcases h x with ⟨_, _, hl⟩ | h
  · rw [hl hs'] at hs
    simp at hs
  · exact h

/-- A page keeps its pool, however often it is split and cloned. -/
theorem MadeFrom.pool {fp : Fpage} (h : MadeFrom mm q fp) : fp.mpid = q ∧ fp.shift < 64 := by
  induction h with
  | created hk hc =>
    rw [(createFpage_spec hc).page]
    exact ⟨rfl, hk⟩
  | split _ hsplit hs hs' ih => exact (splitFpage_adds ih.1 hsplit).new hs hs'
  | cloned _ hmap hs hs' ih => exact (mapFpage_adds ih.1 ih.2 hmap).new hs hs'

/-- The region of a page keeps to the rights of the pool it was made from exactly
when user code may write to the pool anyway, or the page is a single byte. -/
theorem region_rights_kept {fp : Fpage} (h : MadeFrom mm q fp) :
    RightsKept mm q fp ↔ (mempoolGetbyid mm q).userWrite = true ∨ fp.shift = 0 := by
  obtain ⟨hq, hk⟩ := h.pool
  unfold RightsKept
  rw [mpuAttr_eq, hq, userMayWrite_attrWord _ _ hk]
  have hx := userMayExecute_attrWord (mempoolGetbyid mm q).userExecute fp.shift hk
  constructor
  · intro hkept
    by_cases hz : fp.shift = 0
    · exact .inr hz
    · exact .inl (hkept.1 (decide_eq_true hz))
  · rintro (hw | hz)
    · exact ⟨fun _ => hw, hx⟩
    · exact ⟨fun hw => absurd hz (of_decide_eq_true hw), hx⟩

/-- The first page after boot, whatever its pool. -/
theorem madeFrom_first (mm : Memmap) (q : Nat) (base : Word) (hk : shift < 64) :
    MadeFrom mm q (freshFpage mm 0 base shift q) := by
  have hc : ∃ s', createFpage mm (emptyKernel fun _ => false) base shift q = .ok (0, s') :=
    ⟨_, rfl⟩
  obtain ⟨s', hc⟩ := hc
  have hm := MadeFrom.created hk hc
  rw [(createFpage_spec hc).page] at hm
  exact hm

/-- A page of the user data. -/
theorem region_rights_kept_userData :
    RightsKept (memmap stm32f4Board) 5 (freshFpage (memmap stm32f4Board) 0 0x20006000#32 12 5) :=
  (region_rights_kept (madeFrom_first _ 5 0x20006000#32 (by decide))).mpr (.inl (by decide))

/-- The pages of the user text and of the KIP are writable from user code, which
neither pool allows. -/
theorem region_rights_text_kip_writable :
    MadeFrom (memmap stm32f4Board) 1 (freshFpage (memmap stm32f4Board) 0 0x20004000#32 13 1) ∧
    MadeFrom (memmap stm32f4Board) 2 (freshFpage (memmap stm32f4Board) 0 0x20000400#32 8 2) ∧
    ¬ RightsKept (memmap stm32f4Board) 1
      (freshFpage (memmap stm32f4Board) 0 0x20004000#32 13 1) ∧
    ¬ RightsKept (memmap stm32f4Board) 2
      (freshFpage (memmap stm32f4Board) 0 0x20000400#32 8 2) := by
  refine ⟨madeFrom_first _ 1 _ (by decide), madeFrom_first _ 2 _ (by decide), ?_, ?_⟩
  · rintro ⟨hw, -⟩
    exact absurd (hw (by decide)) (by decide)
  · rintro ⟨hw, -⟩
    exact absurd (hw (by decide)) (by decide)

end F9
