import F9.Logic.Handed
import F9.Logic.Sweeps

/-!
# The chains of `assign_fpages_ext`

A chain for a gap `[b, e)` begins at `b` rounded up and takes `e - b` rounded up (`chainEnd`), so
it ends one unit too far when `b` is not a multiple of 256. In a space with its list in order and
pages of multiples of 256 (`GrainedSpace`) only the first chain of a run can do so, and the walk
goes on at the end of each page, unless that is the end of memory (`straight_or_top`).
-/

namespace F9

open Arc Linked Result Sweep

variable {mm : Memmap} {s0 s s' : Kernel} {a : AsRef} {l c l0 N : List FpRef} {m e' lo hi : Nat}
  {n k : Nat} {x z : FpRef}

/-! ## Rounding -/

theorem le_roundUp (n : Nat) : n ≤ roundUp n := by
  unfold roundUp
  omega

theorem roundUp_lt (n : Nat) : roundUp n < n + 256 := by
  unfold roundUp
  omega

theorem roundUp_mono (h : n ≤ k) : roundUp n ≤ roundUp k := by
  unfold roundUp
  omega

theorem dvd_roundUp (n : Nat) : 256 ∣ roundUp n := Nat.dvd_mul_left 256 _

theorem roundUp_of_dvd (h : 256 ∣ n) : roundUp n = n := by
  unfold roundUp
  omega

/-- A multiple of 256 is no less than `n` rounded up if it is no less than `n`. -/
theorem roundUp_le (h : 256 ∣ k) (hn : n ≤ k) : roundUp n ≤ k := by
  rw [← roundUp_of_dvd h]
  exact roundUp_mono hn

theorem roundUp_add (n k : Nat) : roundUp (n + k) ≤ roundUp n + roundUp k ∧
    roundUp n + roundUp k ≤ roundUp (n + k) + 256 := by
  unfold roundUp
  omega

/-- Where the chain for the gap `[b, e)` ends. -/
def chainEnd (b e : Nat) : Nat := roundUp b + roundUp (e - b)

variable {b e : Nat}

theorem chainEnd_le (h : b ≤ e) : chainEnd b e ≤ roundUp e + 256 := by
  unfold chainEnd roundUp
  omega

theorem chainEnd_aligned (hb : 256 ∣ b) (h : b ≤ e) : chainEnd b e = roundUp e := by
  unfold chainEnd roundUp
  omega

theorem chainEnd_mono (h : e ≤ e') : chainEnd b e ≤ chainEnd b e' :=
  Nat.add_le_add_left (roundUp_mono (Nat.sub_le_sub_right h b)) _

/-! ## One gap -/

/-- The chain for `INVALID_FPAGE_REGION` has at least 467 pages. -/
theorem chainBlocks_invalid_length : 467 ≤ (chainBlocks INVALID_FPAGE_REGION.toNat
    INVALID_FPAGE_REGION INVALID_FPAGE_REGION).length := by
  have h := atLeast_right (j := 1) (y := 2) (v := 1) (by omega) (by omega) (by omega) (by omega)
    (by omega) (by omega)
  exact h (2 ^ 32 - 1) (by omega)

theorem gapBlocks_untyped (hno : (mempoolGetbyid mm m).mappable = false)
    (base stop : Word) : gapBlocks mm m base stop =
      chainBlocks INVALID_FPAGE_REGION.toNat INVALID_FPAGE_REGION INVALID_FPAGE_REGION := by
  have hal : ∀ x, mempoolAlign mm m x = INVALID_FPAGE_REGION := by
    intro x
    unfold mempoolAlign
    rw [hno, if_neg Bool.false_ne_true]
  rw [gapBlocks_eq, hal, hal]

/-- Only the blocks of a pool with an fpage type fit into a table of 256 pages. -/
theorem gapBlocks_typed {b e : Word}
    (h : (gapBlocks mm m b e).length ≤ configMaxFpages) :
    (mempoolGetbyid mm m).mappable = true := by
  by_contra hno
  rw [Bool.not_eq_true] at hno
  rw [gapBlocks_untyped hno] at h
  have hmany := chainBlocks_invalid_length
  have : configMaxFpages = 256 := rfl
  omega

/-- A gap is filled only from a pool with an fpage type. -/
theorem Built.typed {b e : Word} (hnum : s.fpageTable.num = configMaxFpages)
    (h : Built mm m s s' (gapBlocks mm m b e) c) : (mempoolGetbyid mm m).mappable = true := by
  have hroom := h.room
  rw [hnum] at hroom
  exact gapBlocks_typed hroom

theorem mempoolAlign_toNat (hm : (mempoolGetbyid mm m).mappable = true) {x : Word}
    (hx : roundUp x.toNat < 2 ^ 32) : (mempoolAlign mm m x).toNat = roundUp x.toNat := by
  unfold mempoolAlign
  unfold roundUp at hx ⊢
  rw [if_pos hm, addrAlign_toNat]
  omega

/-- The pages for the gap `[b, e)`. -/
theorem gap_pages {b e : Word} (hm : (mempoolGetbyid mm m).mappable = true)
    (hp : PagesFor mm m s c (gapBlocks mm m b e)) (hlt : b < e) (hb : roundUp b.toNat < 2 ^ 32)
    (hz : roundUp (e.toNat - b.toNat) < 2 ^ 32)
    (hfit : roundUp b.toNat + roundUp (e.toNat - b.toNat) ≤ 2 ^ 32) :
    Fills s c (roundUp b.toNat) (roundUp b.toNat + roundUp (e.toNat - b.toNat)) ∧
      ∀ x ∈ c, (s.fp x).Sized := by
  have hsub : (e - b).toNat = e.toNat - b.toNat := by
    rw [toNat_sub_eq, if_pos hlt.le]
  have hbase := mempoolAlign_toNat (x := b) hm hb
  have hsize := mempoolAlign_toNat (x := e - b) hm (by rw [hsub]; exact hz)
  rw [hsub] at hsize
  have hfills := hp.fills (by rw [hbase, hsize]; exact hfit)
  rw [hbase, hsize] at hfills
  refine ⟨hfills, hp.sized ?_ ?_⟩
  · rw [hbase]
    exact Nat.dvd_mul_left 256 _
  · rw [hsize]
    exact Nat.dvd_mul_left 256 _

theorem Fills.before_last (h : Fills s c lo hi) (hz : c.getLast? = some z) (hx : x ∈ c)
    (hne : x ≠ z) : (s.fp x).hi ≤ (s.fp z).lo := by
  obtain ⟨ini, rfl⟩ := List.getLast?_eq_some_iff.mp hz
  rcases List.mem_append.mp hx with hx | hx
  · exact (List.pairwise_append.mp h.ordered).2.2 x hx z (by simp)
  · exact absurd (List.mem_singleton.mp hx) hne

/-! ## Chains -/

section

variable {b e : Nat} {c : List FpRef}

section

variable (h : GapChain mm m s0 s b e c) (hnum : s0.fpageTable.num = configMaxFpages)
include h hnum

theorem GapChain.typed : (mempoolGetbyid mm m).mappable = true := by
  have hroom := h.room
  rw [hnum] at hroom
  exact gapBlocks_typed hroom

theorem GapChain.fills_from (hlt : b < e) (he : e < 2 ^ 32) (hb : roundUp b < 2 ^ 32)
    (hz : roundUp (e - b) < 2 ^ 32) (hfit : chainEnd b e ≤ 2 ^ 32) :
    Fills s c (roundUp b) (chainEnd b e) ∧ ∀ x ∈ c, (s.fp x).Sized := by
  have hbn : (BitVec.ofNat 32 b).toNat = b := toNat_ofNat32 (by omega)
  have hen : (BitVec.ofNat 32 e).toNat = e := toNat_ofNat32 he
  have := gap_pages (b := BitVec.ofNat 32 b) (e := BitVec.ofNat 32 e) (h.typed hnum) h.pages
    (by rw [BitVec.lt_def, hbn, hen]; exact hlt) (by rw [hbn]; exact hb)
    (by rw [hbn, hen]; exact hz) (by rw [hbn, hen]; exact hfit)
  rw [hbn, hen] at this
  exact this

theorem GapChain.fills (hb : 256 ∣ b) (hlt : b < e) (he : e < 2 ^ 32)
    (hz : roundUp e - b < 2 ^ 32) : Fills s c b (roundUp e) ∧ ∀ x ∈ c, (s.fp x).Sized := by
  have hend := chainEnd_aligned hb hlt.le
  have hround := roundUp_of_dvd hb
  have htop : roundUp e ≤ 2 ^ 32 := roundUp_le (by decide) he.le
  have hsum : roundUp b + roundUp (e - b) = roundUp e := hend
  have := h.fills_from hnum hlt he (by omega) (by omega) (by omega)
  rw [hend, hround] at this
  exact this

/-- Base and size of the chain as words. -/
theorem GapChain.rounded (hlt : b < e) (he : e < 2 ^ 32) :
    (mempoolAlign mm m (BitVec.ofNat 32 b)).toNat = roundUp b % 2 ^ 32 ∧
      (mempoolAlign mm m (BitVec.ofNat 32 e - BitVec.ofNat 32 b)).toNat =
        roundUp (e - b) % 2 ^ 32 := by
  have hbn : (BitVec.ofNat 32 b).toNat = b := toNat_ofNat32 (by omega)
  have hen : (BitVec.ofNat 32 e).toNat = e := toNat_ofNat32 he
  have hround : ∀ x : Word, (mempoolAlign mm m x).toNat = roundUp x.toNat % 2 ^ 32 := by
    intro x
    unfold mempoolAlign
    rw [if_pos (h.typed hnum), addrAlign_toNat]
    unfold roundUp
    omega
  refine ⟨by rw [hround, hbn], ?_⟩
  rw [hround, toNat_sub_eq, hbn, hen, if_pos hlt.le]

/-- A chain has no pages only if its size goes round to 0. -/
theorem GapChain.eq_nil_iff (hlt : b < e) (he : e < 2 ^ 32) : c = [] ↔ 2 ^ 32 - 256 < e - b := by
  have hsize := (h.rounded hnum hlt he).2
  have hlen := h.pages.length_eq
  rw [gapBlocks_eq] at hlen
  have hzero : c = [] ↔
      mempoolAlign mm m (BitVec.ofNat 32 e - BitVec.ofNat 32 b) = 0#32 := by
    constructor
    · rintro rfl
      by_contra hne
      exact chainBlocks_ne_nil hne (Nat.le_refl _) (List.length_eq_zero_iff.mp hlen.symm)
    · intro h0
      rw [h0, chainBlocks_zero] at hlen
      exact List.length_eq_zero_iff.mp hlen
  rw [hzero, ← BitVec.toNat_inj, hsize]
  unfold roundUp
  simp only [BitVec.toNat_ofNat]
  omega

end

/-- An address before the gap that is not a multiple of 256 is in no page of the chain. -/
theorem GapChain.not_holds (h : GapChain mm m s0 s b e c)
    (hnum : s0.fpageTable.num = configMaxFpages) (hlt : b < e) (he : e < 2 ^ 32) (hn : ¬ 256 ∣ n)
    (hle : n ≤ b) (hb : b = n ∨ 256 ∣ b) :
    ∀ x ∈ c, ¬ ((s.fp x).lo ≤ n ∧ n < (s.fp x).hi) := by
  intro x hx hhold
  obtain ⟨hbase, hsize⟩ := h.rounded hnum hlt he
  have hp := h.pages
  have hnn : (BitVec.ofNat 32 n).toNat = n := toNat_ofNat32 (by omega)
  have harc := (hp.holds_chain (BitVec.ofNat 32 n)).mp
    ⟨x, hx, (hp.aligned x hx).holds_iff.mpr (by rw [hnn]; exact hhold)⟩
  unfold OnArc at harc
  rw [BitVec.lt_def, toNat_sub_eq, hnn, hbase, hsize] at harc
  unfold roundUp at harc
  rcases hb with rfl | hb <;> split at harc <;> omega

end

/-! ## Spaces in order -/

theorem Extended.block_eq (h : Extended mm m s s' a l0 N l) (hx : s.liveFp x = true) :
    (s'.fp x).block = (s.fp x).block := by
  have hxN : x ∉ N := fun hxN => ne_true_of_eq_false (h.fresh x hxN) hx
  rw [h.frame x hxN]
  rfl

/-- Base and size of the page are multiples of the smallest size, and it ends in the address
space. -/
structure Fpage.Grained (f : Fpage) : Prop where
  shift : f.shift < 32
  grain : 8 ≤ f.shift
  base : 256 ∣ f.base.toNat
  top : f.hi ≤ 2 ^ 32

instance (f : Fpage) : Decidable f.Grained :=
  decidable_of_iff (f.shift < 32 ∧ 8 ≤ f.shift ∧ 256 ∣ f.base.toNat ∧ f.hi ≤ 2 ^ 32)
    ⟨fun h => ⟨h.1, h.2.1, h.2.2.1, h.2.2.2⟩, fun h => ⟨h.shift, h.grain, h.base, h.top⟩⟩

namespace Fpage.Grained

variable {f g : Fpage}

section

variable (h : f.Grained)
include h

theorem congr (hb : g.block = f.block) : g.Grained := by
  injection hb with hb hk
  have hhi : g.hi = f.hi := by
    unfold Fpage.hi
    rw [hb, hk]
  exact ⟨hk ▸ h.shift, hk ▸ h.grain, hb ▸ h.base, hhi ▸ h.top⟩

theorem dvd_lo : 256 ∣ f.lo := h.base

theorem dvd_hi : 256 ∣ f.hi :=
  Nat.dvd_add h.base (Nat.pow_dvd_pow 2 h.grain)

theorem stop_toNat : f.stop.toNat = f.hi % 2 ^ 32 := by
  unfold Fpage.stop Fpage.size
  rw [BitVec.toNat_add, toNat_one_shiftLeft h.shift]
  rfl

theorem stop_eq (hlt : f.hi < 2 ^ 32) : f.stop.toNat = f.hi := by
  rw [h.stop_toNat, Nat.mod_eq_of_lt hlt]

theorem stop_top (htop : f.hi = 2 ^ 32) : f.stop.toNat = 0 := by
  rw [h.stop_toNat, htop, Nat.mod_self]

theorem dvd_stop : 256 ∣ f.stop.toNat := by
  rw [h.stop_toNat]
  exact (Nat.dvd_mod_iff (by decide)).mpr h.dvd_hi

/-- The last page of memory does not begin at 0. -/
theorem lo_pos (htop : f.hi = 2 ^ 32) : 256 ≤ f.lo := by
  have hpow : 2 ^ f.shift ≤ 2 ^ 31 := Nat.pow_le_pow_right (by decide) (by have := h.shift; omega)
  unfold Fpage.hi at htop
  unfold Fpage.lo
  omega

end

end Fpage.Grained

/-- An address space whose list is in order, with pages of multiples of the smallest size. -/
structure GrainedSpace (s : Kernel) (a : AsRef) : Prop where
  live : s.liveAs a = true
  grained : ∀ x ∈ s.pages a, (s.fp x).Grained
  ordered : s.Ordered (s.pages a)

theorem GrainedSpace.kept (h : GrainedSpace s a)
    (hblock : ∀ x ∈ s.pages a, (s'.fp x).block = (s.fp x).block) :
    (∀ x ∈ s.pages a, (s'.fp x).Grained) ∧ s'.Ordered (s.pages a) :=
  ⟨fun x hx => (h.grained x hx).congr (hblock x hx), h.ordered.congr hblock⟩

theorem GrainedSpace.single (ha : s.liveAs a = true) (hpages : s.pages a = [x])
    (hgr : (s.fp x).Grained) : GrainedSpace s a := by
  refine ⟨ha, ?_, ?_⟩
  · rw [hpages]
    simpa using hgr
  · rw [hpages]
    exact List.pairwise_singleton _ _

section

variable {p rest : List FpRef} {w : State FpRef} {b e : Nat}

/-- The cursor goes on at the end of every page of the list. -/
abbrev StraightIn (s : Kernel) (l : List FpRef) : Prop :=
  Straight (fun x => (s.fp x).lo) (fun x => (s.fp x).stop.toNat) (fun x => (s.fp x).hi) l

/-- A list in order with at most its last page at the end of memory. -/
theorem straight_or_top (hgr : ∀ x ∈ l, (s.fp x).Grained) (hord : s.Ordered l) :
    StraightIn s l ∨ ∃ p T, l = p ++ [T] ∧ (s.fp T).hi = 2 ^ 32 ∧ StraightIn s p := by
  have hbelow : ∀ p : List FpRef, (∀ x ∈ p, (s.fp x).Grained) → (∀ x ∈ p, (s.fp x).hi < 2 ^ 32) →
      StraightIn s p := fun p hg hlt x hx => ⟨(hg x hx).stop_eq (hlt x hx), (s.fp x).lo_lt_hi⟩
  by_cases htop : ∃ T ∈ l, (s.fp T).hi = 2 ^ 32
  · obtain ⟨T, hT, htop⟩ := htop
    obtain ⟨p, q, rfl⟩ := List.append_of_mem hT
    obtain ⟨hpre, hpost⟩ := hord.around
    have hq : q = [] := by
      refine List.eq_nil_iff_forall_not_mem.mpr fun y hy => ?_
      have h1 := hpost y hy
      have h2 := (s.fp y).lo_lt_hi
      have h3 := (hgr y (by simp [hy])).top
      omega
    subst hq
    refine .inr ⟨p, T, rfl, htop, hbelow p (fun x hx => hgr x (by simp [hx])) fun x hx => ?_⟩
    have h1 := hpre x hx
    have h2 := (s.fp T).lo_lt_hi
    omega
  · refine .inl (hbelow l hgr fun x hx => ?_)
    have h1 := (hgr x hx).top
    have h2 : (s.fp x).hi ≠ 2 ^ 32 := fun h => htop ⟨x, hx, h⟩
    omega

theorem passed_grained (hgr : ∀ x ∈ l, (s.fp x).Grained) (hord : s.Ordered l)
    (hl : l = w.passed ++ rest) : (∀ x ∈ w.passed, (s.fp x).Grained) ∧ s.Ordered w.passed := by
  rw [hl] at hgr hord
  exact ⟨fun x hx => hgr x (List.mem_append_left _ hx), (List.pairwise_append.mp hord).1⟩

/-- A sweep that is behind the request has not passed the end of memory. -/
theorem SweptIn.straight (h : SweptIn mm m s0 s b e w) (hgr : ∀ x ∈ w.passed, (s.fp x).Grained)
    (hord : s.Ordered w.passed) (he : 0 < e) (hdone : e ≤ w.cursor) :
    StraightIn s w.passed := by
  rcases straight_or_top hgr hord with hs | ⟨p, T, hp, htop, _⟩
  · exact hs
  · have hstop := (hgr T (by rw [hp]; simp)).stop_top htop
    obtain ⟨v, _, _, hlt, ⟨_, c, _, _, rfl⟩ | ⟨_, _, rfl⟩ | ⟨_, _, rfl⟩⟩ := h.last_step hp
    · dsimp only at hdone
      omega
    · omega
    · dsimp only at hdone
      omega

/-- The step of a sweep that ended behind the request: the page `x` is held, or the gap in front
of it is filled. -/
structure LastStep (mm : Memmap) (m : Nat) (s0 s : Kernel) (b e : Nat) (w v : State FpRef)
    (x : FpRef) : Prop where
  passed : w.passed = v.passed ++ [x]
  before : v.cursor < e
  start : b ≤ v.cursor
  past : ∀ y ∈ v.passed, (s.fp y).hi ≤ v.cursor
  cursor : v.cursor = b ∨ ∃ y ∈ v.passed, v.cursor = (s.fp y).hi
  below : (s.fp x).hi < 2 ^ 32
  behind : e ≤ (s.fp x).hi
  last : ((s.fp x).lo ≤ v.cursor ∧ w.last = some x) ∨
    (v.cursor < (s.fp x).lo ∧ ∃ c, GapChain mm m s0 s v.cursor (min e (s.fp x).lo) c ∧
      w.last = c.getLast? ∧ ∀ y ∈ c, y ∈ w.out)

theorem SweptIn.lastStep (h : SweptIn mm m s0 s b e w)
    (hgr : ∀ x ∈ w.passed, (s.fp x).Grained) (hord : s.Ordered w.passed) (hlt : b < e)
    (hdone : e ≤ w.cursor) : ∃ v x, LastStep mm m s0 s b e w v x := by
  have hs := h.straight hgr hord (by omega) hdone
  rcases List.eq_nil_or_concat' w.passed with hp | ⟨p, x, hp⟩
  · rw [h.eq_start hp] at hdone
    exact absurd hdone (Nat.not_le.mpr hlt)
  · rw [hp] at hs
    obtain ⟨hsp, hstop, _⟩ := hs.init
    obtain ⟨v, hv, rfl, hvlt, hlast⟩ := h.last_step hp
    have hbelow : (s.fp x).hi < 2 ^ 32 := by
      rw [← hstop]
      exact (s.fp x).stop.isLt
    have hbehind : e ≤ (s.fp x).hi := by
      rcases hlast with ⟨_, c, _, _, hw⟩ | ⟨_, _, hw⟩ | ⟨_, _, hw⟩
      · rw [hw] at hdone
        exact hdone.trans_eq hstop
      · rw [hw] at hdone
        exact hdone.trans_eq hstop
      · rw [hw] at hdone
        exact absurd hvlt (Nat.not_lt.mpr hdone)
    refine ⟨v, x, hp, hvlt, hv.le_cursor hsp, hv.passed_le hsp hvlt, hv.cursor_eq hsp, hbelow,
      hbehind, ?_⟩
    rcases hlast with ⟨hgap, c, hc, _, rfl⟩ | ⟨h1, _, rfl⟩ | ⟨_, _, rfl⟩
    · exact .inr ⟨hgap, c, hc, rfl, fun y hy => by simp [hy]⟩
    · exact .inl ⟨h1, rfl⟩
    · exact absurd hvlt (Nat.not_lt.mpr hdone)

theorem SweptIn.dvd_cursor (h : SweptIn mm m s0 s b e w)
    (hgr : ∀ x ∈ w.passed, (s.fp x).Grained) (hb : 256 ∣ b) : 256 ∣ w.cursor := by
  rcases h.cursor_stop with hc | ⟨x, hx, hc⟩
  · rw [hc]
    exact hb
  · rw [hc]
    exact (hgr x hx).dvd_stop

end

/-- A run on a space in order that returned 0. -/
theorem assignFpagesExt_grained {base size : Word} {pf pl : Option FpRef} (hwf : Wf s)
    (ha : GrainedSpace s a)
    (h : assignFpagesExt mm s none (some a) base size none none = .ok (0, pf, pl, s')) :
    ∃ m w, SweptIn mm m s s' base.toNat (base + size).toNat w ∧
      SweepEnds mm m s s' (base + size).toNat (s.pages a) (s'.pages a) w none none pf pl ∧
      (∀ x ∈ s.pages a, x ∈ s'.pages a ∧ (s'.fp x).block = (s.fp x).block) := by
  have hlive := hwf.live a ha.live
  rcases assignFpagesExt_swept (hwf.chain a ha.live) hlive h with
    ⟨hret, _⟩ | ⟨_, _, m, N, l', w, _, hN, hw, hend⟩
  · exact absurd hret (by decide)
  · have hlists := hN.lists hwf ha.live
    have hpages : s'.pages a = l' := by
      rw [hlists.pages_eq (hN.out.live ha.live), Function.update_self]
    rw [hpages]
    exact ⟨m, w, hw, hend, fun x hx => ⟨(hN.mem x).mpr (.inl hx), hN.block_eq (hlive x hx)⟩⟩

end F9
