import F9.Logic.Privileged
import F9.Logic.Steps

/-!
# What a request may hand out

A successful `map_area` should give the destination no address outside of the request,
rounded outwards to multiples of 256, and nothing for a request of size 0. There are four
ways in which it does (`Excess`):

* the page of `base` ends at the next multiple of 256, and `split_fpage` returns it whole;
* the request ends where the page of `base` is cut, and the search for `last` finds the
  piece that begins there;
* no page ends where the request does, and one begins there (unprivileged calls);
* the chain for a request that lies in a gap is one unit too long (privileged calls).

`map_area_confined`: these are all.
-/

namespace F9

open Arc Linked Result

variable {mm : Memmap} {s s' t : Kernel} {src dst : AsRef} {base size addr : Word} {priv : Bool}
  {rs : List FpRef}

/-- The address lies in the request, rounded outwards. -/
def Inside (base size addr : Word) : Prop :=
  size ≠ 0#32 ∧ roundDown base.toNat ≤ addr.toNat ∧
    addr.toNat < roundUp (base.toNat + size.toNat)

instance (base size addr : Word) : Decidable (Inside base size addr) :=
  inferInstanceAs (Decidable (_ ∧ _))

/-- The page `x` of `base` ends at the next multiple of 256, and `addr` is an address of it
in front of the request. -/
structure ExcessWhole (s : Kernel) (src : AsRef) (base size addr : Word) (x : FpRef) : Prop where
  page : x ∈ s.pages src
  base_in : addrInFpage base (s.fp x) false = true
  stop : (s.fp x).hi = roundUp base.toNat
  lo : (s.fp x).lo ≤ addr.toNat
  hi : addr.toNat < roundDown base.toNat ∨ (size = 0#32 ∧ addr.toNat < (s.fp x).hi)

/-- The request ends where the page `x` of `base` is cut, and `addr` is in the piece that
begins there. -/
structure ExcessCut (s : Kernel) (src : AsRef) (base size addr : Word) (x : FpRef) : Prop where
  page : x ∈ s.pages src
  base_in : addrInFpage base (s.fp x) false = true
  cut : base.toNat + size.toNat = roundUp base.toNat
  left : (s.fp x).lo < base.toNat + size.toNat
  right : base.toNat + size.toNat < (s.fp x).hi
  lo : base.toNat + size.toNat ≤ addr.toNat
  hi : addr.toNat < base.toNat + size.toNat +
    2 ^ chainShift (base + size) ((s.fp x).stop - (base + size))

/-- The page `y` begins where the request ends, and no page ends there. -/
structure ExcessNext (s : Kernel) (src : AsRef) (base size addr : Word) (y : FpRef) : Prop where
  page : y ∈ s.pages src
  start : (s.fp y).lo = base.toNat + size.toNat
  alone : ∀ x ∈ s.pages src, (s.fp x).hi ≠ base.toNat + size.toNat
  lo : base.toNat + size.toNat ≤ addr.toNat
  hi : addr.toNat < (s.fp y).hi

/-- The request lies in a gap, and the chain for it is too long. -/
structure ExcessChain (s : Kernel) (src : AsRef) (base size addr : Word) : Prop where
  gap : ∀ x ∈ s.pages src, (s.fp x).hi ≤ base.toNat ∨ base.toNat + size.toNat ≤ (s.fp x).lo
  long : roundUp base.toNat + roundUp size.toNat ≠ roundUp (base.toNat + size.toNat)
  lo : roundUp (base.toNat + size.toNat) ≤ addr.toNat
  hi : addr.toNat < roundUp (base.toNat + size.toNat) + 256

/-- An address outside of the request that a successful call hands out. -/
inductive Excess (s : Kernel) (src : AsRef) (base size addr : Word) : Bool → Prop
  | whole {priv : Bool} {x : FpRef} : ExcessWhole s src base size addr x →
      Excess s src base size addr priv
  | cut {priv : Bool} {x : FpRef} : ExcessCut s src base size addr x →
      Excess s src base size addr priv
  | next {y : FpRef} : ExcessNext s src base size addr y → Excess s src base size addr false
  | chain : ExcessChain s src base size addr → Excess s src base size addr true

theorem Excess.not_inside (ha : SortedSpace s src) (h : Excess s src base size addr priv) :
    ¬ Inside base size addr := by
  rintro ⟨hpos, h1, h2⟩
  cases h with
  | whole h =>
    rcases h.hi with h3 | ⟨h3, _⟩
    · omega
    · exact hpos h3
  | cut h =>
    have hd := dvd_roundUp base.toNat
    rw [← h.cut] at hd
    rw [roundUp_of_dvd hd] at h2
    have := h.lo
    omega
  | next h =>
    have hd := (ha.sized _ h.page).dvd_lo
    rw [h.start] at hd
    rw [roundUp_of_dvd hd] at h2
    have := h.lo
    omega
  | chain h =>
    have := h.lo
    omega

/-- If a call hands out the addresses of `H`, and outside of the request these are the ones
of `X`, then it stays inside if and only if `dst` had the addresses of `X`. -/
theorem confined_iff {H X : Word → Prop}
    (hcov : ∀ addr, s'.Covers dst addr ↔ s.Covers dst addr ∨ H addr)
    (hX : ∀ addr, X addr → ¬ Inside base size addr)
    (hH : ∀ addr, ¬ Inside base size addr → (H addr ↔ X addr)) :
    (∀ addr, s'.Covers dst addr → ¬ s.Covers dst addr → Inside base size addr) ↔
      ∀ addr, X addr → s.Covers dst addr := by
  constructor
  · intro hin addr hx
    by_contra hn
    have hout := hX addr hx
    exact hout (hin addr ((hcov addr).mpr (.inr ((hH addr hout).mpr hx))) hn)
  · intro hall addr hc hn
    by_contra hout
    rcases (hcov addr).mp hc with hd | hh
    · exact hn hd
    · exact hn (hall addr ((hH addr hout).mp hh))

/-! ## Requests that begin in a page -/

section

variable {P Q x : FpRef} {lo hi : Nat} {stop : Word}

theorem SpanAt.first_unique (h : SpanAt s src base stop P Q) (ha : SortedSpace s src)
    (hx : x ∈ s.pages src) (hin : addrInFpage base (s.fp x) false = true) : x = P := by
  obtain ⟨h1, h2, _⟩ := (ha.sized P h.first).addrIn_iff.mp h.base_in
  obtain ⟨h3, h4, _⟩ := (ha.sized x hx).addrIn_iff.mp hin
  rcases ha.ordered.apart hx h.first with heq | h5 | h5
  · exact heq
  · omega
  · omega

/-- A page that holds `stop`, and not only as its end, is the last one, unless another page
ends there. -/
theorem SpanAt.last_unique (h : SpanAt s src base stop P Q) (ha : SortedSpace s src)
    (hx : x ∈ s.pages src) (h1 : (s.fp x).lo ≤ stop.toNat) (h2 : stop.toNat < (s.fp x).hi)
    (h3 : (s.fp x).hi < 2 ^ 32) :
    Q = x ∨ ((s.fp Q).hi = stop.toNat ∧ (s.fp x).lo = stop.toNat) := by
  have hlow := h.lowest x hx ((ha.sized x hx).addrIn_end_iff.mpr (.inl ⟨h1, h2.le, h3⟩))
  rcases ha.ordered.apart h.last hx with heq | h4 | h4
  · exact .inl heq
  · rcases (ha.sized Q h.last).addrIn_end_iff.mp h.stop_in with h5 | ⟨_, h5⟩
    · exact .inr (by omega)
    · omega
  · omega

theorem HandsOut.whole_handed (h : HandsOut s src base (base + size) P Q lo hi)
    (ha : SortedSpace s src) (hx : ExcessWhole s src base size addr x) :
    s.Covers src addr ∧ lo ≤ addr.toNat ∧ addr.toNat < hi := by
  obtain rfl := h.first_unique ha hx.page hx.base_in
  obtain ⟨h1, h2, _⟩ := (ha.sized x h.first).addrIn_iff.mp h.base_in
  have hlt : addr.toNat < (s.fp x).hi := by
    rcases hx.hi with h3 | ⟨_, h3⟩
    · unfold roundDown at h3
      omega
    · exact h3
  refine ⟨⟨x, h.first, (ha.sized x h.first).holds_iff.mpr ⟨hx.lo, hlt⟩⟩, ?_⟩
  have hstop := hx.stop
  have hlo := hx.lo
  rcases h.from_base with ⟨_, h4, h5⟩ | ⟨h4, _⟩ <;> omega

theorem toNat_add_of_lt_hi (hx : (s.fp x).Sized) (h : base.toNat + size.toNat < (s.fp x).hi) :
    (base + size).toNat = base.toNat + size.toNat := by
  have := hx.hi_le
  rw [BitVec.toNat_add, Nat.mod_eq_of_lt (by omega)]

section

variable (h : HandsOut s src base (base + size) P Q lo hi) (ha : SortedSpace s src)
include h ha

theorem HandsOut.cut_handed (hx : ExcessCut s src base size addr x) :
    s.Covers src addr ∧ lo ≤ addr.toNat ∧ addr.toNat < hi := by
  obtain rfl := h.first_unique ha hx.page hx.base_in
  have hsz := ha.sized x h.first
  obtain ⟨_, _, hhi⟩ := hsz.addrIn_iff.mp h.base_in
  have hE := toNat_add_of_lt_hi hsz hx.right
  have hcut := hx.cut
  have hleft := hx.left
  have hright := hx.right
  have h1 := hx.lo
  have h2 := hx.hi
  have hQ : Q = x := by
    rcases h.last_unique ha h.first (by omega) (by omega) hhi with hQ | ⟨_, hQ⟩
    · exact hQ
    · omega
  -- the piece fits into what is left of the page
  have hfit : base.toNat + size.toNat +
      2 ^ chainShift (base + size) ((s.fp x).stop - (base + size)) ≤ (s.fp x).hi := by
    have hval : ((s.fp x).stop - (base + size)).toNat = (s.fp x).hi - (base + size).toNat := by
      rw [toNat_sub_eq, hsz.stop_eq hhi, if_pos (by omega)]
    have hne : (s.fp x).stop - (base + size) ≠ 0#32 := by
      intro h0
      rw [h0] at hval
      have : (0#32).toNat = 0 := rfl
      omega
    have hle : 2 ^ chainShift (base + size) ((s.fp x).stop - (base + size)) ≤ _ :=
      chainShift_fits hne
    omega
  refine ⟨⟨x, h.first, hsz.holds_iff.mpr ⟨by omega, by omega⟩⟩, ?_⟩
  have hlo : lo = base.toNat + size.toNat := by
    rcases h.from_base with ⟨h3, _⟩ | ⟨_, h3⟩ <;> omega
  rcases h.to_stop with ⟨_, _, h3⟩ | ⟨h3, _⟩ | ⟨_, _, _, _, h3⟩ | ⟨h3, _⟩
  · have := h3 hQ (by omega)
    omega
  · rw [hQ] at h3
    omega
  · omega
  · omega

/-- The page that begins where the request ends is the last one. -/
theorem HandsOut.next_last (hx : ExcessNext s src base size addr x) :
    Q = x ∧ (base + size).toNat = (s.fp x).lo := by
  have hstart := hx.start
  have hlt := (s.fp x).lo_lt_hi
  have hE : (base + size).toNat = base.toNat + size.toNat :=
    toNat_add_of_lt_hi (ha.sized x hx.page) (by omega)
  refine ⟨?_, by omega⟩
  rcases (ha.sized Q h.last).addrIn_end_iff.mp h.stop_in with h1 | ⟨h1, h2⟩
  · rcases ha.ordered.apart h.last hx.page with heq | h3 | h3
    · exact heq
    · exact absurd (by omega) (hx.alone Q h.last)
    · omega
  · -- `base` is 0 too, and its page is no other than `x`
    rw [h1] at hE
    have h0 : (0#32).toNat = 0 := rfl
    obtain ⟨h4, h5, h6⟩ := (ha.sized P h.first).addrIn_iff.mp h.base_in
    have hlow := h.lowest P h.first
      ((ha.sized P h.first).addrIn_end_iff.mpr (.inl (by rw [h1]; omega)))
    rcases ha.ordered.apart h.last h.first with rfl | h7 | h7 <;> omega

theorem HandsOut.next_handed (hx : ExcessNext s src base size addr x) :
    s.Covers src addr ∧ lo ≤ addr.toNat ∧ addr.toNat < hi := by
  obtain ⟨rfl, hE⟩ := h.next_last ha hx
  have hstart := hx.start
  have h1 := hx.lo
  have h2 := hx.hi
  refine ⟨⟨Q, hx.page, (ha.sized Q hx.page).holds_iff.mpr ⟨by omega, h2⟩⟩, ?_⟩
  rcases h.to_stop with ⟨_, h3, _⟩ | ⟨_, h3, h4⟩ | ⟨h3, _, h4, _⟩ | ⟨h3, _, _, h4⟩
  · omega
  · omega
  · rw [h3] at hE
    omega
  · rw [h3] at hE
    have : (0#32).toNat = 0 := rfl
    omega

theorem HandsOut.excess (hout : ¬ Inside base size addr) (h1 : lo ≤ addr.toNat)
    (h2 : addr.toNat < hi) : Excess s src base size addr false := by
  have hdown : roundDown base.toNat ≤ base.toNat := by
    unfold roundDown
    omega
  have hup := le_roundUp base.toNat
  -- in front of the request: the page of `base` is handed out whole
  by_cases hfront : addr.toNat < roundDown base.toNat
  · rcases h.from_base with ⟨h3, h4, _⟩ | ⟨_, h4⟩
    · exact .whole ⟨h.first, h.base_in, h3.symm, by omega, .inl hfront⟩
    · omega
  have hcase : size = 0#32 ∨ roundUp (base.toNat + size.toNat) ≤ addr.toNat := by
    by_contra hn
    rw [not_or] at hn
    exact hout ⟨hn.1, by omega, by omega⟩
  have hE : (base + size).toNat = base.toNat + size.toNat := by
    refine Nat.mod_eq_of_lt ?_
    rcases hcase with rfl | hcase
    · exact base.isLt
    · have := le_roundUp (base.toNat + size.toNat)
      omega
  have hzero : size = 0#32 → addr.toNat < roundUp base.toNat →
      Excess s src base size addr false := by
    intro h0 h3
    rcases h.from_base with ⟨h4, h5, _⟩ | ⟨_, h5⟩
    · exact .whole ⟨h.first, h.base_in, h4.symm, by omega, .inr ⟨h0, by omega⟩⟩
    · omega
  have hsize : size = 0#32 → size.toNat = 0 := by
    rintro rfl
    rfl
  rcases h.to_stop with ⟨h3, _⟩ | ⟨h3, h4, _⟩ | ⟨_, h3, h4, h5, h6⟩ | ⟨h3, _, _, h4⟩
  · -- only a request of size 0 is left
    rw [hE] at h3
    rcases hcase with h0 | hcase
    · rw [hsize h0, Nat.add_zero] at h3
      exact hzero h0 (by omega)
    · omega
  · by_cases hend : base.toNat + size.toNat ≤ addr.toNat
    · refine .next ⟨h.last, by omega, fun x hx hxe => ?_, hend, by omega⟩
      have hlt := (s.fp x).lo_lt_hi
      have hin : addrInFpage (base + size) (s.fp x) true = true := by
        exact (ha.sized x hx).addrIn_end_iff.mpr (.inl (by omega))
      have := h.lowest x hx hin
      omega
    · rcases hcase with h0 | hcase
      · have := hsize h0
        exact hzero h0 (by omega)
      · have := le_roundUp (base.toNat + size.toNat)
        omega
  · refine .cut ⟨h.first, h.base_in, by omega, by omega, by omega, ?_, by omega⟩
    rcases h.from_base with ⟨h7, _⟩ | ⟨_, h7⟩ <;> omega
  · rw [h3] at hE
    have : (0#32).toNat = 0 := rfl
    omega

theorem HandsOut.excess_iff (hout : ¬ Inside base size addr) :
    (s.Covers src addr ∧ lo ≤ addr.toNat ∧ addr.toNat < hi) ↔
      Excess s src base size addr false := by
  constructor
  · rintro ⟨_, h1, h2⟩
    exact h.excess ha hout h1 h2
  · intro hx
    cases hx with
    | whole hx => exact h.whole_handed ha hx
    | cut hx => exact h.cut_handed ha hx
    | next hx => exact h.next_handed ha hx

end

end

/-! ## Privileged calls -/

section

variable {m lo hi : Nat} {N pre seg post : List FpRef} {f z x : FpRef}

theorem ExcessWhole.congr (h : ExcessWhole s src base size addr x) (hx : x ∈ t.pages src)
    (hb : (t.fp x).block = (s.fp x).block) : ExcessWhole t src base size addr x := by
  have hlo := Fpage.lo_congr hb
  have hhi := Fpage.hi_congr hb
  refine ⟨hx, ?_, by rw [hhi]; exact h.stop, by rw [hlo]; exact h.lo, by rw [hhi]; exact h.hi⟩
  rw [addrInFpage_congr hb]
  exact h.base_in

theorem ExcessCut.congr (h : ExcessCut s src base size addr x) (hx : x ∈ t.pages src)
    (hb : (t.fp x).block = (s.fp x).block) : ExcessCut t src base size addr x := by
  have hlo := Fpage.lo_congr hb
  have hhi := Fpage.hi_congr hb
  have hstop : (t.fp x).stop = (s.fp x).stop := by
    injection hb with hbase hshift
    unfold Fpage.stop Fpage.size
    rw [hbase, hshift]
  refine ⟨hx, ?_, h.cut, by rw [hlo]; exact h.left, by rw [hhi]; exact h.right, h.lo, ?_⟩
  · rw [addrInFpage_congr hb]
    exact h.base_in
  · rw [hstop]
    exact h.hi

/-- If the request begins in an old page, the new pages do not change what is handed out in
excess. -/
theorem Extended.excess_iff (hr : Ready s) (ha : SortedSpace s src)
    (hext : Extended mm m s t src (s.pages src) N (t.pages src)) (hf : f ∈ s.pages src)
    (ht : SortedSpace t src) (hout : HandsOut t src base (base + size) f z lo hi)
    (hz : (t.fp z).lo < (base + size).toNat) :
    Excess t src base size addr false ↔ Excess s src base size addr true := by
  have hold : ∀ x ∈ s.pages src, (t.fp x).block = (s.fp x).block := fun x hx =>
    hext.block_eq (hr.wf.live src ha.live x hx)
  have hmem : ∀ x ∈ s.pages src, x ∈ t.pages src := fun x hx => (hext.mem x).mpr (.inl hx)
  constructor
  · intro h
    cases h with
    | whole h =>
      have hx := hout.first_unique ht h.page h.base_in
      exact .whole (h.congr (by rw [hx]; exact hf) (hold _ (by rw [hx]; exact hf)).symm)
    | cut h =>
      have hx := hout.first_unique ht h.page h.base_in
      exact .cut (h.congr (by rw [hx]; exact hf) (hold _ (by rw [hx]; exact hf)).symm)
    | next h =>
      obtain ⟨rfl, hE⟩ := hout.next_last ht h
      omega
  · intro h
    cases h with
    | whole h => exact .whole (h.congr (hmem _ h.page) (hold _ h.page))
    | cut h => exact .cut (h.congr (hmem _ h.page) (hold _ h.page))
    | chain h =>
      -- the page of `base` leaves only a request of size 0, whose chain is empty
      exfalso
      obtain ⟨h1, h2, _⟩ := (ht.sized f hout.first).addrIn_iff.mp hout.base_in
      have hgap := h.gap f hf
      rw [← Fpage.lo_congr (hold f hf), ← Fpage.hi_congr (hold f hf)] at hgap
      have h0 : size.toNat = 0 := by omega
      have hr0 : roundUp 0 = 0 := by decide
      refine h.long ?_
      rw [h0, hr0, Nat.add_zero, Nat.add_zero]

/-- If no page holds `base`, only a chain can be in excess. -/
theorem Excess.of_gap (ha : SortedSpace s src)
    (hnone : ∀ x ∈ s.pages src, (s.fp x).hi ≤ base.toNat ∨ base.toNat < (s.fp x).lo)
    (h : Excess s src base size addr true) : ExcessChain s src base size addr := by
  cases h with
  | whole h =>
    obtain ⟨h1, h2, _⟩ := (ha.sized _ h.page).addrIn_iff.mp h.base_in
    have := hnone _ h.page
    omega
  | cut h =>
    obtain ⟨h1, h2, _⟩ := (ha.sized _ h.page).addrIn_iff.mp h.base_in
    have := hnone _ h.page
    omega
  | chain h => exact h

/-- If the whole request is one chain, it lies in a gap of the old list. -/
theorem Assigned.gap (hr : Ready s) (ha : SortedSpace s src) (hroom : Roomy s src base size)
    (hext : Extended mm m s t src (s.pages src) N (t.pages src))
    (has : Assigned s t src base size pre seg post f z) (hflo : (t.fp f).lo = roundUp base.toNat)
    (hnone : ∀ x ∈ s.pages src, (s.fp x).hi ≤ base.toNat ∨ base.toNat < (s.fp x).lo)
    (hnew : ∀ x ∈ seg, x ∉ s.pages src)
    (hpost : ∀ x ∈ post, (base + size).toNat ≤ (t.fp x).lo) :
    ∀ x ∈ s.pages src, (s.fp x).hi ≤ base.toNat ∨ base.toNat + size.toNat ≤ (s.fp x).lo := by
  intro x hx
  have hb := hext.block_eq (hr.wf.live src ha.live x hx)
  have hxt : x ∈ pre ++ seg ++ post := by
    rw [← has.pages]
    exact (hext.mem x).mpr (.inl hx)
  rcases hnone x hx with h1 | h1
  · exact .inl h1
  · right
    rcases List.mem_append.mp hxt with hxt | hxt
    · rcases List.mem_append.mp hxt with hxp | hxs
      · -- a page before the chain ends before it
        exfalso
        have hord := has.order
        rw [has.pages, List.append_assoc] at hord
        have hfol := (List.pairwise_append.mp hord).2.2 x hxp f
          (by simp [List.mem_of_mem_head? has.head])
        have hle := hfol.2 (.inl hx)
        rw [Fpage.hi_congr hb, hflo] at hle
        have hup := roundUp_le (ha.sized x hx).dvd_lo h1.le
        have := (s.fp x).lo_lt_hi
        omega
      · exact absurd hx (hnew x hxs)
    · rw [← Fpage.lo_congr hb, ← hroom.stop_toNat]
      exact hpost x hxt

theorem Between.inside (h : Between t rs (roundUp base.toNat) (roundUp (base + size).toNat))
    (hE : (base + size).toNat = base.toNat + size.toNat) (hx : x ∈ rs) (hal : (t.fp x).Aligned)
    (hh : (t.fp x).Holds addr) : Inside base size addr := by
  obtain ⟨h1, h2⟩ := h x hx
  obtain ⟨h3, h4⟩ := hal.holds_iff.mp hh
  have hup := le_roundUp base.toNat
  rw [hE] at h2
  refine ⟨?_, ?_, by omega⟩
  · rintro rfl
    have h0 : (0#32).toNat = 0 := rfl
    rw [h0, Nat.add_zero] at h2
    omega
  · unfold roundDown
    omega

theorem Fills.excess_iff (ha : SortedSpace s src)
    (hgap : ∀ x ∈ s.pages src, (s.fp x).hi ≤ base.toNat ∨ base.toNat + size.toNat ≤ (s.fp x).lo)
    (hnone : ∀ x ∈ s.pages src, (s.fp x).hi ≤ base.toNat ∨ base.toNat < (s.fp x).lo)
    (hal : ∀ r ∈ rs, (t.fp r).Aligned)
    (h : Fills t rs (roundUp base.toNat) (roundUp base.toNat + roundUp size.toNat))
    (hout : ¬ Inside base size addr) :
    (∃ r ∈ rs, (t.fp r).Holds addr) ↔ Excess s src base size addr true := by
  obtain ⟨hsum1, hsum2⟩ := roundUp_add base.toNat size.toNat
  constructor
  · rintro ⟨r, hr, hh⟩
    have hin := (hal r hr).holds_iff.mp hh
    have hbd := h.bounds r hr
    have hup := le_roundUp base.toNat
    have hpos : size ≠ 0#32 := by
      rintro rfl
      have : roundUp (0#32).toNat = 0 := by decide
      omega
    have hend : roundUp (base.toNat + size.toNat) ≤ addr.toNat := by
      by_contra hlt
      refine hout ⟨hpos, ?_, by omega⟩
      unfold roundDown
      omega
    exact .chain ⟨hgap, by omega, hend, by omega⟩
  · intro hx
    have hc := hx.of_gap ha hnone
    have h1 := hc.lo
    have h2 := hc.hi
    have h3 := hc.long
    have hd1 := dvd_roundUp base.toNat
    have hd2 := dvd_roundUp size.toNat
    have hd3 := dvd_roundUp (base.toNat + size.toNat)
    have hup : roundUp base.toNat ≤ roundUp (base.toNat + size.toNat) :=
      roundUp_mono (Nat.le_add_right _ _)
    obtain ⟨r, hr, hh⟩ := h.full addr.toNat (by omega) (by omega)
    exact ⟨r, hr, (hal r hr).holds_iff.mpr hh⟩

end

/-- A privileged call that returns 0 has passed the splits and the mapping loop. -/
theorem mapArea_privileged {action : MapAction} (hr : Ready s) (ha : SortedSpace s src)
    (hroom : Roomy s src base size) (hne : src ≠ dst)
    (h : mapArea mm s src dst base size action true = .ok (0, s')) :
    ∃ t m N pre seg post f z g w s2, Extended mm m s t src (s.pages src) N (t.pages src) ∧
      Assigned s t src base size pre seg post f z ∧
      SplitStage mm t s2 src base (base + size) f z (some g) (some w) ∧
      mapChain dst action w s2.walkBound s2 (some g) = .ok s' := by
  obtain ⟨f, z, g, w, t, s2, hspan, hstage, hmap⟩ := (mapArea_zero hne).mp h
  obtain ⟨r, pf, pl, hassign, hres⟩ := mapAreaSpan_true hspan
  rw [if_neg hne] at hres
  injection hres with h1 h2
  subst h1 h2
  rcases assignFpagesExt_assigned hr ha hroom hassign with
    ⟨_, h1, _⟩ | ⟨_, m, N, pre, seg, post, f', z', hext, h1, h2, has⟩
  · simp at h1
  · injection h1 with h1
    injection h2 with h2
    subst h1 h2
    exact ⟨t, m, N, pre, seg, post, f, z, g, w, s2, hext, has, hstage, hmap⟩

/-- A successful `map_area` stays inside the request if and only if the destination has
every address in excess already. -/
theorem map_area_confined {action : MapAction} {priv : Bool} (hr : Ready s)
    (ha : SortedSpace s src) (hd : s.liveAs dst = true) (hne : src ≠ dst)
    (hpriv : priv = true → MpuOwn s src ∧ Roomy s src base size)
    (h : mapArea mm s src dst base size action priv = .ok (0, s')) :
    (∀ addr, s'.Covers dst addr → ¬ s.Covers dst addr → Inside base size addr) ↔
      ∀ addr, Excess s src base size addr priv → s.Covers dst addr := by
  cases priv with
  | false =>
    obtain ⟨P, Q, lo, hi, _, hout, hcov⟩ := mapArea_handsOut hr ha hd hne h
    exact confined_iff hcov (fun addr hx => hx.not_inside ha)
      fun addr hn => hout.excess_iff ha hn
  | true =>
    obtain ⟨hown, hroom⟩ := hpriv rfl
    obtain ⟨t, m, N, pre, seg, post, f, z, g, w, s2, hext, has, hstage, hmap⟩ :=
      mapArea_privileged hr ha hroom hne h
    have hst : t.liveAs src = true := hext.out.live ha.live
    have hdt : t.liveAs dst = true := hext.out.live hd
    have hrt := hext.ready hr ha.live
    have hun := hext.unchanged hr.wf ha.live hd (Ne.symm hne)
    have hout2 := hstage.sameOut hrt hst
    have hst2 : s2.liveAs src = true := hout2.live hst
    have hdt2 : s2.liveAs dst = true := hout2.live hdt
    by_cases hf : f ∈ s.pages src
    · obtain ⟨hsorted, hat, hz⟩ := has.hands_old hr ha hroom hown hext hf hstage
      obtain ⟨lo, hi, rs, hout, hwf, hun2, hcs, hsub, _, hcov⟩ :=
        hstage.hands hrt hsorted hdt hne hat hmap
      refine confined_iff (fun addr => ?_) (fun addr hx => hx.not_inside ha)
        fun addr hn => (hout.excess_iff hsorted hn).trans
          (hext.excess_iff hr ha hf hsorted hout hz)
      rw [hcs.hands hwf hst2 hdt2 hun2 hsub hcov, hun.covers]
    · obtain ⟨hflo, hnone⟩ := (has.first.resolve_left fun h1 => hf h1.1).2
      have hcov : ∀ {rs : List FpRef}, Cloning t s2 s' src dst action rs → ∀ addr,
          s'.Covers dst addr ↔ s.Covers dst addr ∨ ∃ r ∈ rs, (s2.fp r).Holds addr := by
        intro rs hc addr
        rw [hc.clones.covers hc.wf hdt2 fun r hrm => hc.wf.live src hst2 r (hc.sub.subset hrm),
          hc.dest.covers, hun.covers]
      rcases has.hands_new hr ha hroom hown hd hne hext hf hstage hmap with
        ⟨hcross, rs, hc, hbetween⟩ | ⟨hc, rfl, hnew, hpost, hfills⟩
      · refine confined_iff (hcov hc) (fun addr hx => hx.not_inside ha) fun addr hn => ?_
        refine iff_of_false ?_ ?_
        · rintro ⟨r, hrm, hh⟩
          exact hn (hbetween.inside hroom.stop_toNat hrm (hc.aligned r hrm) hh)
        · intro hx
          have hgap := (hx.of_gap ha hnone).gap
          rcases hcross with h1 | ⟨x, hx1, hx2, hx3⟩
          · exact hf h1
          · have := hgap x hx1
            have := (s.fp x).lo_lt_hi
            rw [hroom.stop_toNat] at hx3
            omega
      · exact confined_iff (hcov hc) (fun addr hx => hx.not_inside ha) fun addr hn =>
          hfills.excess_iff ha (has.gap hr ha hroom hext hflo hnone hnew hpost) hnone
            hc.aligned hn

/-- A request that begins in a page and ends behind it, by the privileged thread. -/
theorem map_area_confined_growing : ∃ s s',
    (system (memmap stm32f4Board) stm32f4Board).Reachable (fun _ _ => True) s ∧
    mapArea (memmap stm32f4Board) s 0 1 0x20008100#32 0x500#32 .map true = .ok (0, s') ∧
    s'.Covers 1 0x20008500#32 ∧
    ∀ addr, s'.Covers 1 addr → ¬ s.Covers 1 addr → Inside 0x20008100#32 0x500#32 addr := by
  obtain ⟨s, s', hreach, hr, hs, h1, hrun, hp⟩ := exists_mapRun
    [.assignFpages 0 0x20008000#32 0x400#32, .asSetupMpu 0 0#32 0#32 0#32 0#32] 0x20008100#32
    0x500#32 true
    (fun s s' => decide (s'.Covers 1 0x20008500#32 ∧ (∀ r ∈ (s.as 0).mpuFirst, r ∈ s.pages 0) ∧
      (∀ x ∈ s.pages 0, ∀ r ∈ s.mpuNext x, r ∈ s.pages 0) ∧
      ∀ x ∈ s.pages 0, (s.fp x).hi = 0x20008400)) (by decide +kernel)
  obtain ⟨hcov, hhead, hnext, hhi⟩ := of_decide_eq_true hp
  refine ⟨s, s', hreach, hrun, hcov, ?_⟩
  have hroom : Roomy s 0 0x20008100#32 0x500#32 :=
    ⟨fun x hx => by rw [hhi x hx]; decide, by decide⟩
  refine (map_area_confined hr hs h1 (by decide)
    (fun _ => ⟨⟨hhead, hnext⟩, hroom⟩) hrun).mpr fun addr hx => ?_
  cases hx with
  | whole hx =>
    have h2 := hx.stop
    rw [hhi _ hx.page] at h2
    exact absurd h2 (by decide)
  | cut hx => exact absurd hx.cut (by decide)
  | chain hx => exact absurd hx.long (by decide)

/-- From a reachable state, a call for the request `base`, `size` returns 0 and hands out
`addr`, which lies outside of it. -/
def Escapes (base size addr : Word) (priv : Bool) : Prop :=
  ∃ s s', (system (memmap stm32f4Board) stm32f4Board).Reachable (fun _ _ => True) s ∧
    Ready s ∧ SortedSpace s 0 ∧ s.liveAs 1 = true ∧
    mapArea (memmap stm32f4Board) s 0 1 base size .map priv = .ok (0, s') ∧
    s'.Covers 1 addr ∧ ¬ s.Covers 1 addr ∧ ¬ Inside base size addr

theorem escapes_of_run (ops : List MemOp)
    (h : (bootRun (memmap stm32f4Board) stm32f4Board (fun _ _ => true)
      (.asCreate 1#32 :: .asCreate 2#32 :: ops)).map (fun s => spacesOrdered s &&
        okWith (fun v : Int × Kernel => decide (v.1 = 0) && decide (v.2.Covers 1 addr ∧
          ¬ s.Covers 1 addr ∧ ¬ Inside base size addr))
          (mapArea (memmap stm32f4Board) s 0 1 base size .map priv)) = some true) :
    Escapes base size addr priv := by
  obtain ⟨s, s', hreach, hr, hs, h1, hrun, hp⟩ := exists_mapRun ops base size priv
    (fun s s' => decide (s'.Covers 1 addr ∧ ¬ s.Covers 1 addr ∧ ¬ Inside base size addr)) h
  exact ⟨s, s', hreach, hr, hs, h1, hrun, of_decide_eq_true hp⟩

/-- The last 64 bytes of a page hand out its first byte; 128 bytes before a multiple of 256
hand out the address there; a request of size 0 hands out a page; and a privileged request in
a gap hands out the unit behind it. -/
theorem map_area_not_confined :
    Escapes 0x20008fc0#32 0x40#32 0x20008000#32 false ∧
    Escapes 0x20008080#32 0x80#32 0x20008100#32 false ∧
    Escapes 0x20008000#32 0#32 0x20008fff#32 false ∧
    Escapes 0x20008040#32 0x140#32 0x20008200#32 true := by
  refine ⟨?_, ?_, ?_, ?_⟩
  · exact escapes_of_run [.assignFpages 0 0x20008000#32 0x1000#32] (by decide +kernel)
  · exact escapes_of_run [.assignFpages 0 0x20008000#32 0x1000#32,
      .asSetupMpu 0 0#32 0#32 0#32 0#32] (by decide +kernel)
  · exact escapes_of_run [.assignFpages 0 0x20008000#32 0x1000#32] (by decide +kernel)
  · exact escapes_of_run [] (by decide +kernel)

end F9
