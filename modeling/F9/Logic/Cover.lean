import F9.Logic.Count
import F9.Logic.Span

/-!
# The addresses of an address space

`Kernel.Covers s a addr`: some page of the address space holds the address. A
chain of pages covers exactly the range it was built for, a cut inside a page leaves
the addresses of the space as they are, and a clone adds those of its source.
-/

namespace F9

open Arc Linked

variable {g : Fpage} {addr base size split : Word} {mpid : Nat} {c l : List FpRef} {x : FpRef}
  {b : AsRef} {blocks : List (Word × Nat)}

/-! ## Pages as intervals -/

/-- The address after a page, `2 ^ 32` for a page at the end of memory. -/
def Fpage.hi (f : Fpage) : Nat := f.base.toNat + 2 ^ f.shift

/-- The base of the page is a multiple of its size. -/
structure Fpage.Aligned (f : Fpage) : Prop where
  shift : f.shift < 32
  aligned : 2 ^ f.shift ∣ f.base.toNat

/-- An aligned page of at least the smallest size. -/
structure Fpage.Sized (f : Fpage) : Prop extends f.Aligned where
  grain : 8 ≤ f.shift

instance (f : Fpage) : Decidable f.Sized :=
  decidable_of_iff (f.shift < 32 ∧ 2 ^ f.shift ∣ f.base.toNat ∧ 8 ≤ f.shift)
    ⟨fun h => ⟨⟨h.1, h.2.1⟩, h.2.2⟩, fun h => ⟨h.shift, h.aligned, h.grain⟩⟩

/-- The page holds the address. -/
def Fpage.Holds (f : Fpage) (addr : Word) : Prop := OnArc f.base f.size addr

instance (f : Fpage) (addr : Word) : Decidable (f.Holds addr) :=
  inferInstanceAs (Decidable (OnArc f.base f.size addr))

theorem Fpage.holds_congr {f : Fpage} (h : f.block = g.block) (addr : Word) :
    f.Holds addr ↔ g.Holds addr := by
  injection h with hb hk
  unfold Fpage.Holds Fpage.size
  rw [hb, hk]

theorem addrInFpage_congr {f : Fpage} (h : f.block = g.block) (addr : Word) (inclEnd : Bool) :
    addrInFpage addr f inclEnd = addrInFpage addr g inclEnd := by
  injection h with hb hk
  unfold addrInFpage Fpage.stop Fpage.size
  rw [hb, hk]

section

variable {f : Fpage}

theorem Fpage.Aligned.congr (h : f.Aligned) (hb : g.block = f.block) : g.Aligned := by
  injection hb with hb hk
  exact ⟨by rw [hk]; exact h.shift, by rw [hb, hk]; exact h.aligned⟩

theorem Fpage.Sized.congr (h : f.Sized) (hb : g.block = f.block) : g.Sized := by
  refine ⟨h.toAligned.congr hb, ?_⟩
  injection hb with _ hk
  rw [hk]
  exact h.grain

theorem Fpage.Aligned.holds_iff (h : f.Aligned) :
    f.Holds addr ↔ f.lo ≤ addr.toNat ∧ addr.toNat < f.hi :=
  onArc_block h.shift h.aligned

theorem Fpage.Aligned.hi_le (h : f.Aligned) : f.hi ≤ 2 ^ 32 := block_le h.shift h.aligned

theorem Fpage.Aligned.hi_lt_of_zero (h : f.Aligned) (hz : f.lo = 0) : f.hi < 2 ^ 32 := by
  have : 2 ^ f.shift < 2 ^ 32 := Nat.pow_lt_pow_right (by omega) h.shift
  unfold Fpage.hi
  unfold Fpage.lo at hz
  omega

theorem Fpage.lo_lt_hi (f : Fpage) : f.lo < f.hi := Nat.lt_add_of_pos_right (Nat.two_pow_pos _)

theorem Fpage.Sized.lo_lt (h : f.Sized) : f.lo + 256 ≤ f.hi := by
  have : 2 ^ 8 ≤ 2 ^ f.shift := Nat.pow_le_pow_right (by omega) h.grain
  unfold Fpage.lo Fpage.hi
  omega

theorem Fpage.Sized.dvd_size (h : f.Sized) : 256 ∣ 2 ^ f.shift :=
  Nat.pow_dvd_pow 2 h.grain

theorem Fpage.Sized.dvd_lo (h : f.Sized) : 256 ∣ f.lo := h.dvd_size.trans h.aligned

theorem Fpage.Sized.dvd_hi (h : f.Sized) : 256 ∣ f.hi := Nat.dvd_add h.dvd_lo h.dvd_size

section

variable (h : f.Aligned) {sp : Word}
include h

theorem Fpage.Aligned.size_toNat : f.size.toNat = 2 ^ f.shift :=
  toNat_one_shiftLeft h.shift

theorem Fpage.Aligned.stop_toNat : f.stop.toNat = f.hi % 2 ^ 32 := by
  unfold Fpage.stop
  rw [BitVec.toNat_add, h.size_toNat]
  rfl

theorem Fpage.Aligned.stop_eq (hlt : f.hi < 2 ^ 32) : f.stop.toNat = f.hi := by
  rw [h.stop_toNat, Nat.mod_eq_of_lt hlt]

theorem Fpage.Aligned.sub_base_le (h1 : f.lo ≤ sp.toNat) (h2 : sp.toNat ≤ f.hi) :
    sp - f.base ≤ f.size := by
  have hbase : f.base.toNat = f.lo := rfl
  have hsize : f.lo + f.size.toNat = f.hi := by
    rw [h.size_toNat]
    rfl
  rw [BitVec.le_def, toNat_sub_eq, hbase, if_pos h1]
  omega

/-- The sizes of the two sides of a cut inside the page. -/
theorem Fpage.Aligned.cut_sizes (h1 : f.lo < sp.toNat) (h2 : sp.toNat < f.hi) :
    (sp - f.base).toNat = sp.toNat - f.lo ∧ (f.stop - sp).toNat = f.hi - sp.toNat := by
  have hbase : f.base.toNat = f.lo := rfl
  have hle := h.hi_le
  refine ⟨by rw [toNat_sub_eq, hbase, if_pos (by omega)], ?_⟩
  rw [toNat_sub_eq, h.stop_toNat]
  rcases Nat.lt_or_ge f.hi (2 ^ 32) with hlt | hge
  · rw [Nat.mod_eq_of_lt hlt, if_pos (by omega)]
  · have heq := Nat.le_antisymm hle hge
    rw [heq, Nat.mod_self, if_neg (by omega)]
    omega

/-- `addr_in_fpage` without the end. A page at the end of memory has none. -/
theorem Fpage.Aligned.addrIn_iff :
    addrInFpage addr f false = true ↔ f.lo ≤ addr.toNat ∧ addr.toNat < f.hi ∧ f.hi < 2 ^ 32 := by
  have hle := h.hi_le
  unfold addrInFpage
  rw [Bool.false_and, Bool.or_false, Bool.and_eq_true, decide_eq_true_eq, decide_eq_true_eq,
    BitVec.le_def, BitVec.lt_def, h.stop_toNat]
  show f.lo ≤ addr.toNat ∧ addr.toNat < f.hi % 2 ^ 32 ↔ _
  rcases Nat.lt_or_ge f.hi (2 ^ 32) with hlt | hge
  · omega
  · omega

end

theorem addrInFpage_end (h : addrInFpage addr f false = true) : addrInFpage addr f true = true := by
  unfold addrInFpage at h ⊢
  rw [Bool.false_and, Bool.or_false] at h
  rw [h, Bool.true_or]

theorem Fpage.Sized.addrIn_end_iff (h : f.Sized) :
    addrInFpage addr f true = true ↔
      (f.lo ≤ addr.toNat ∧ addr.toNat ≤ f.hi ∧ f.hi < 2 ^ 32) ∨
      (addr = 0#32 ∧ f.hi = 2 ^ 32) := by
  have hle := h.hi_le
  have hsplit : addrInFpage addr f true = true ↔
      addrInFpage addr f false = true ∨ addr = f.stop := by
    unfold addrInFpage
    simp
  have hstop : addr = f.stop ↔ addr.toNat = f.hi % 2 ^ 32 := by
    rw [← h.stop_toNat]
    exact ⟨fun h => by rw [h], BitVec.eq_of_toNat_eq⟩
  have hzero : addr = 0#32 ↔ addr.toNat = 0 :=
    ⟨fun h => by rw [h]; rfl, fun h => BitVec.eq_of_toNat_eq (by simpa using h)⟩
  have hlo := h.lo_lt
  rw [hsplit, h.addrIn_iff, hstop, hzero]
  rcases Nat.lt_or_ge f.hi (2 ^ 32) with hlt | hge
  · omega
  · omega

end

/-! ## Coverage -/

/-- Some page of the address space holds the address. -/
def Kernel.Covers (s : Kernel) (a : AsRef) (addr : Word) : Prop :=
  ∃ r ∈ s.pages a, (s.fp r).Holds addr

instance (s : Kernel) (a : AsRef) (addr : Word) : Decidable (s.Covers a addr) :=
  inferInstanceAs (Decidable (∃ r ∈ s.pages a, (s.fp r).Holds addr))

/-- All pages of the address space are aligned, and none is too small. -/
def Kernel.Sized (s : Kernel) (a : AsRef) : Prop := ∀ x ∈ s.pages a, (s.fp x).Sized

instance (s : Kernel) (a : AsRef) : Decidable (s.Sized a) :=
  inferInstanceAs (Decidable (∀ x ∈ s.pages a, (s.fp x).Sized))

variable {mm : Memmap} {s s' t : Kernel}

theorem covers_congr {a : AsRef} (hp : s'.pages a = s.pages a)
    (hb : ∀ x ∈ s.pages a, (s'.fp x).block = (s.fp x).block) (addr : Word) :
    s'.Covers a addr ↔ s.Covers a addr := by
  unfold Kernel.Covers
  rw [hp]
  constructor
  · rintro ⟨x, hx, h⟩
    exact ⟨x, hx, (Fpage.holds_congr (hb x hx) addr).mp h⟩
  · rintro ⟨x, hx, h⟩
    exact ⟨x, hx, (Fpage.holds_congr (hb x hx) addr).mpr h⟩

theorem PagesFor.holds (h : PagesFor mm mpid s c blocks) (addr : Word) :
    (∃ x ∈ c, (s.fp x).Holds addr) ↔ Arc.Covers blocks addr := by
  rw [← h.blocks]
  constructor
  · rintro ⟨x, hx, ha⟩
    exact ⟨_, List.mem_map_of_mem hx, ha⟩
  · rintro ⟨b, hb, ha⟩
    obtain ⟨x, hx, rfl⟩ := List.mem_map.mp hb
    exact ⟨x, hx, ha⟩

theorem PagesFor.holds_chain (h : PagesFor mm mpid s c (chainBlocks size.toNat base size))
    (addr : Word) : (∃ x ∈ c, (s.fp x).Holds addr) ↔ OnArc base size addr := by
  rw [h.holds, (chainBlocks_tiles _ base size (Nat.le_refl _)).covers_iff]

theorem PagesFor.mem_block (h : PagesFor mm mpid s c blocks) (hx : x ∈ c) :
    (s.fp x).block ∈ blocks := by
  rw [← h.blocks]
  exact List.mem_map_of_mem hx

theorem PagesFor.aligned (h : PagesFor mm mpid s c (chainBlocks size.toNat base size)) :
    ∀ x ∈ c, (s.fp x).Aligned := by
  intro x hx
  obtain ⟨hk, hd⟩ :=
    (chainBlocks_tiles _ base size (Nat.le_refl _)).aligned _ (h.mem_block hx)
  exact ⟨hk, hd⟩

/-- The pages of a chain for a multiple of the smallest size. -/
theorem PagesFor.sized (h : PagesFor mm mpid s c (chainBlocks size.toNat base size))
    (hb : 256 ∣ base.toNat) (hs : 256 ∣ size.toNat) : ∀ x ∈ c, (s.fp x).Sized := by
  intro x hx
  exact ⟨h.aligned x hx, chainBlocks_grain (by decide) _ _ _ hb hs _ (h.mem_block hx)⟩

/-! ## Other spaces -/

/-- The address space and its pages are as they were, up to the links that
`as_setup_mpu` sets. -/
structure Unchanged (s s' : Kernel) (b : AsRef) : Prop where
  as : s'.as b = s.as b
  pages : s'.pages b = s.pages b
  page : ∀ x ∈ s.pages b, s'.fp x = { s.fp x with mpuNext := s'.mpuNext x }

theorem Unchanged.refl (s : Kernel) (b : AsRef) : Unchanged s s b := ⟨rfl, rfl, fun _ _ => rfl⟩

theorem Unchanged.trans (h1 : Unchanged s s' b) (h2 : Unchanged s' t b) : Unchanged s t b := by
  refine ⟨h2.as.trans h1.as, h2.pages.trans h1.pages, fun x hx => ?_⟩
  rw [h2.page x (by rw [h1.pages]; exact hx), h1.page x hx]

theorem Unchanged.covers (h : Unchanged s s' b) (addr : Word) :
    s'.Covers b addr ↔ s.Covers b addr := by
  refine covers_congr h.pages (fun x hx => ?_) addr
  rw [h.page x hx]
  rfl

/-! ## Cuts -/

section

variable {a : AsRef} {r : FpRef} {sp : Word} {cl cr k : List FpRef}

theorem Cut.holds (h : Cut mm s s' a r l sp cl cr) (hin : sp - (s.fp r).base ≤ (s.fp r).size)
    (addr : Word) : (∃ x ∈ cl ++ cr, (s'.fp x).Holds addr) ↔ (s.fp r).Holds addr := by
  have hsp : (s.fp r).base + (sp - (s.fp r).base) = sp := by
    rw [BitVec.add_comm, BitVec.sub_add_cancel]
  have hrest : (s.fp r).size - (sp - (s.fp r).base) = (s.fp r).stop - sp := by
    unfold Fpage.stop
    bv_omega
  have hsplit := onArc_split (b := (s.fp r).base) (a := addr) hin
  rw [hsp, hrest, ← h.left.holds_chain, ← h.right.holds_chain] at hsplit
  unfold Fpage.Holds at hsplit ⊢
  rw [hsplit]
  simp only [List.mem_append]
  constructor
  · rintro ⟨x, hx | hx, ha⟩
    · exact .inl ⟨x, hx, ha⟩
    · exact .inr ⟨x, hx, ha⟩
  · rintro (⟨x, hx, ha⟩ | ⟨x, hx, ha⟩)
    · exact ⟨x, .inl hx, ha⟩
    · exact ⟨x, .inr hx, ha⟩

theorem Cut.block (h : Cut mm s s' a r l sp cl cr) (hx : x ∉ cl ++ cr) :
    (s'.fp x).block = (s.fp x).block := by
  rw [h.frame x hx]
  rfl

theorem Cut.old (h : Cut mm s s' a r l sp cl cr) (hlive : ∀ x ∈ k, s.liveFp x = true) (hx : x ∈ k) :
    x ∉ cl ++ cr := by
  intro hxc
  have := hlive x hx
  rw [h.fresh x hxc] at this
  exact Bool.false_ne_true this

/-- A cut inside the page leaves the addresses of the space as they are. -/
theorem Cut.covers (hwf : Wf s) (ha : s.liveAs a = true) (hr : r ∈ s.pages a)
    (h : Cut mm s s' a r (s.pages a) sp cl cr) (hin : sp - (s.fp r).base ≤ (s.fp r).size)
    (addr : Word) : s'.Covers a addr ↔ s.Covers a addr := by
  have hold : ∀ x ∈ s.pages a, x ∉ cl ++ cr := fun x hx hxc =>
    hwf.not_mem (h.fresh x hxc) ha hx
  constructor
  · rintro ⟨x, hx, hh⟩
    rcases (h.mem_pages hwf ha hr).mp hx with hxc | ⟨hxa, _⟩
    · exact ⟨r, hr, (h.holds hin addr).mp ⟨x, hxc, hh⟩⟩
    · exact ⟨x, hxa, (Fpage.holds_congr (h.block (hold x hxa)) addr).mp hh⟩
  · rintro ⟨x, hx, hh⟩
    by_cases hxr : x = r
    · subst hxr
      obtain ⟨y, hy, hyh⟩ := (h.holds hin addr).mpr hh
      exact ⟨y, (h.mem_pages hwf ha hr).mpr (.inl hy), hyh⟩
    · refine ⟨x, (h.mem_pages hwf ha hr).mpr (.inr ⟨hx, hxr⟩), ?_⟩
      exact (Fpage.holds_congr (h.block (hold x hx)) addr).mpr hh

theorem Cut.unchanged (hwf : Wf s) (ha : s.liveAs a = true) (hr : r ∈ s.pages a)
    (h : Cut mm s s' a r (s.pages a) sp cl cr) (hb : s.liveAs b = true) (hba : b ≠ a) :
    Unchanged s s' b := by
  have hmpu : (s'.as b).mpuFirst = (s.as b).mpuFirst := by
    rcases h.mpuLinks with ⟨_, _, hm, _⟩ | ⟨_, hm, _⟩
    · exact hm b hba
    · exact hm b
  refine ⟨?_, ?_, ?_⟩
  · rw [h.as b, h.first b hba, hmpu]
  · exact ((h.lists hwf ha hr).pages_update h.out.liveAs ha).2 b hb hba
  · intro x hx
    have hxc : x ∉ cl ++ cr := fun hxc => hwf.not_mem (h.fresh x hxc) hb hx
    have hxa : x ∉ (s.pages a).erase r := fun hxe =>
      hwf.disj b a hb ha hba x hx (List.mem_of_mem_erase hxe)
    have hnext : s'.asNext x = (s.fp x).asNext := h.links x hxa hxc
    rw [h.frame x hxc, hnext]

theorem Cut.room (hr : s.liveFp r = true) (h : Cut mm s s' a r l sp cl cr) :
    cl.length + cr.length < s.fpageTable.num := by
  have hnd : (r :: (cl ++ cr)).Nodup := by
    refine List.nodup_cons.mpr ⟨fun hrc => ?_, h.nodup⟩
    exact ne_true_of_eq_false (h.fresh r hrc) hr
  have hlen := length_le_of_nodup_lt (n := s.fpageTable.num) hnd fun x hx => ?_
  · simp only [List.length_cons, List.length_append] at hlen
    omega
  · rcases List.mem_cons.mp hx with rfl | hx
    · exact liveFp_lt hr
    · rw [← h.out.num]
      refine liveFp_lt ?_
      rw [h.live, decide_eq_true hx, Bool.or_true]

/-- A page below the end of memory is cut only if its pool has an fpage type: the cut at
`INVALID_FPAGE_REGION` takes too many pages. -/
theorem Cut.typed (hnum : s.fpageTable.num = configMaxFpages) (hr : s.liveFp r = true)
    (hsz : (s.fp r).Sized) (hhi : (s.fp r).hi < 2 ^ 32)
    (h : Cut mm s s' a r l (mempoolAlign mm (s.fp r).mpid split) cl cr) :
    (mempoolGetbyid mm (s.fp r).mpid).mappable = true := by
  by_contra hno
  have hal : mempoolAlign mm (s.fp r).mpid split = INVALID_FPAGE_REGION := by
    unfold mempoolAlign
    rw [if_neg hno]
  rw [hal] at h
  obtain ⟨c1, c2, h1, h2, hsum⟩ := cut_invalid_length hsz.grain hsz.aligned hhi
  have hroom := h.room hr
  have hlen : ∀ {c : List FpRef} {b n : Nat} {base size : Word} {k : Nat},
      PagesFor mm (s.fp r).mpid s' c (chainBlocks size.toNat base size) → AtLeast k b n →
      base = BitVec.ofNat 32 b → size = BitVec.ofNat 32 n → n < 2 ^ 32 → k ≤ c.length := by
    intro c b n base size k hp hk hb hs hn
    rw [List.Forall₂.length_eq hp, hb, hs, toNat_ofNat32 hn]
    exact hk n (Nat.le_refl n)
  have hk := hsz.lo_lt
  have hd := hsz.dvd_hi
  have htop : (s.fp r).hi + 256 ≤ 2 ^ 32 := by omega
  unfold Fpage.lo Fpage.hi at hk
  unfold Fpage.hi at hhi htop
  have hl : c1 ≤ cl.length := by
    refine hlen h.left h1 (BitVec.eq_of_toNat_eq (by simp)) ?_ (by omega)
    apply BitVec.eq_of_toNat_eq
    rw [toNat_sub_eq, toNat_ofNat32 (by omega)]
    have : INVALID_FPAGE_REGION.toNat = 2 ^ 32 - 1 := rfl
    rw [this, if_pos (by omega)]
  have hr' : c2 ≤ cr.length := by
    refine hlen h.right h2 rfl ?_ (by omega)
    apply BitVec.eq_of_toNat_eq
    rw [toNat_sub_eq, toNat_ofNat32 (by omega), hsz.stop_toNat]
    have : INVALID_FPAGE_REGION.toNat = 2 ^ 32 - 1 := rfl
    unfold Fpage.hi
    rw [this, Nat.mod_eq_of_lt hhi, if_neg (by omega)]
    omega
  have : configMaxFpages = 256 := rfl
  omega

section

variable (hnum : s.fpageTable.num = configMaxFpages) (hr : s.liveFp r = true) (hsz : (s.fp r).Sized)
  (hin : addrInFpage split (s.fp r) true = true)
  (hlo : mempoolAlign mm (s.fp r).mpid split ≠ (s.fp r).base)
  (hhi : mempoolAlign mm (s.fp r).mpid split ≠ (s.fp r).stop)
  (h : Cut mm s s' a r l (mempoolAlign mm (s.fp r).mpid split) cl cr)
include hnum hr hsz hin hlo hhi h

/-- Where a page is cut whose addresses, or whose end, the split point is one of: at the
next multiple of 256 inside the page. A page at the end of memory, in a pool without a
type, is cut at its last byte. -/
theorem Cut.place :
    ((s.fp r).hi < 2 ^ 32 ∧ (mempoolGetbyid mm (s.fp r).mpid).mappable = true ∧
      (mempoolAlign mm (s.fp r).mpid split).toNat = roundUp split.toNat ∧
      (s.fp r).lo < roundUp split.toNat ∧ roundUp split.toNat < (s.fp r).hi) ∨
    ((s.fp r).hi = 2 ^ 32 ∧ split = 0#32 ∧
      mempoolAlign mm (s.fp r).mpid split = INVALID_FPAGE_REGION) := by
  have hne : ∀ {x y : Word}, x ≠ y → x.toNat ≠ y.toNat := fun hxy h => hxy (BitVec.eq_of_toNat_eq h)
  have hlo' := hne hlo
  have hhi' := hne hhi
  rw [hsz.stop_toNat] at hhi'
  have hbase : (s.fp r).base.toNat = (s.fp r).lo := rfl
  have hdh := hsz.dvd_hi
  rcases hsz.addrIn_end_iff.mp hin with ⟨h1, h2, h3⟩ | ⟨h1, h2⟩
  · left
    have hmap := h.typed hnum hr hsz h3
    have hval : (mempoolAlign mm (s.fp r).mpid split).toNat = roundUp split.toNat := by
      unfold mempoolAlign roundUp
      rw [if_pos hmap, addrAlign_toNat]
      omega
    unfold roundUp at hval ⊢
    refine ⟨h3, hmap, hval, ?_, ?_⟩
    · omega
    · omega
  · right
    refine ⟨h2, h1, ?_⟩
    unfold mempoolAlign
    split
    · rename_i hmap
      -- the split point is rounded up to the end of the page
      exfalso
      apply hhi'
      unfold mempoolAlign
      rw [if_pos hmap, h1, h2]
      decide
    · rfl

theorem Cut.inside : mempoolAlign mm (s.fp r).mpid split - (s.fp r).base ≤ (s.fp r).size := by
  rcases h.place hnum hr hsz hin hlo hhi with ⟨_, _, hval, h1, h2⟩ | ⟨h1, _, hval⟩
  · exact hsz.sub_base_le (by omega) (by omega)
  · have hinv : INVALID_FPAGE_REGION.toNat = 2 ^ 32 - 1 := rfl
    have hlt : (s.fp r).lo < 2 ^ 32 := (s.fp r).base.isLt
    rw [hval]
    exact hsz.sub_base_le (by omega) (by omega)

end

theorem Cut.sized (hsz : (s.fp r).Sized) (hd : 256 ∣ sp.toNat) (h1 : (s.fp r).lo < sp.toNat)
    (h2 : sp.toNat < (s.fp r).hi) (h : Cut mm s s' a r l sp cl cr) :
    ∀ x ∈ cl ++ cr, (s'.fp x).Sized := by
  have hlo := hsz.dvd_lo
  have hdh := hsz.dvd_hi
  obtain ⟨hleft, hright⟩ := hsz.cut_sizes h1 h2
  intro x hx
  rcases List.mem_append.mp hx with hx | hx
  · refine h.left.sized hlo ?_ x hx
    rw [hleft]
    exact Nat.dvd_sub hd hlo
  · refine h.right.sized hd ?_ x hx
    rw [hright]
    exact Nat.dvd_sub hdh hd

end

/-! ## Clones -/

section

variable {d : AsRef} {r f : FpRef} {action : MapAction}

theorem Cloned.unchanged (hwf : Wf s) (hd : s.liveAs d = true)
    (h : Cloned s s' d r f action (s.pages d)) (hb : s.liveAs b = true) (hbd : b ≠ d)
    (hr : r ∉ s.pages b) : Unchanged s s' b := by
  refine ⟨?_, h.pages_ne hwf hd hb hbd, ?_⟩
  · rw [h.as b, h.first b hbd]
  · intro x hx
    have hxf : x ≠ f := fun hxf => hwf.not_mem h.fresh hb (hxf ▸ hx)
    have hxr : x ≠ r := fun hxr => hr (hxr ▸ hx)
    have hnext : s'.asNext x = (s.fp x).asNext := h.links x (hwf.disj b d hb hd hbd x hx) hxf
    have hfp := h.frame x hxf hxr
    rw [hnext] at hfp
    have hmpu : s'.mpuNext x = (s.fp x).mpuNext := by
      unfold Kernel.mpuNext
      rw [hfp]
    rw [hfp, hmpu]

theorem Cloned.covers (hwf : Wf s) (hd : s.liveAs d = true)
    (h : Cloned s s' d r f action (s.pages d)) (addr : Word) :
    s'.Covers d addr ↔ s.Covers d addr ∨ (s.fp r).Holds addr := by
  have hmem : ∀ x, x ∈ s'.pages d ↔ x = f ∨ x ∈ s.pages d := by
    intro x
    rw [h.pages_eq hwf hd, mem_spliceAt, List.mem_singleton]
  have hblock : ∀ x ∈ s.pages d, (s'.fp x).block = (s.fp x).block := by
    intro x hx
    have hxf : x ≠ f := fun hxf => hwf.not_mem h.fresh hd (hxf ▸ hx)
    rw [h.block, if_neg hxf]
  have hclone : (s'.fp f).block = (s.fp r).block := by
    rw [h.block, if_pos rfl]
  constructor
  · rintro ⟨x, hx, hh⟩
    rcases (hmem x).mp hx with rfl | hx
    · exact .inr ((Fpage.holds_congr hclone addr).mp hh)
    · exact .inl ⟨x, hx, (Fpage.holds_congr (hblock x hx) addr).mp hh⟩
  · rintro (⟨x, hx, hh⟩ | hh)
    · exact ⟨x, (hmem x).mpr (.inr hx), (Fpage.holds_congr (hblock x hx) addr).mpr hh⟩
    · exact ⟨f, (hmem f).mpr (.inl rfl), (Fpage.holds_congr hclone addr).mpr hh⟩

end

end F9
