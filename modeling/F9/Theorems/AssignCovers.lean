import F9.Logic.Gaps
import F9.Logic.Steps

/-!
# `assign_fpages_ext` covers the request

The gaps of a space in order are filled exactly, up to the next multiple of 256, as long as the
walk begins at a multiple of 256 or in a page and does not meet the end of memory: the end of the
last page of memory is 0, and the walk begins anew there. `assign_fpages_covers` says for which
spaces and requests the request is covered and the list is in order afterwards; for
`assign_fpages_uncovered` the request begins between two multiples of 256.
-/

namespace F9

open Arc Linked Result Sweep

variable {mm : Memmap} {s s' : Kernel} {a : AsRef} {l rest : List FpRef} {m : Nat}
  {b e : Nat} {w : State FpRef} {stop : FpRef → Nat} {n : Nat} {c p : List FpRef} {T : FpRef}

/-! ## The statement -/

/-- The list holds the address. -/
def Kernel.HoldsAddr (s : Kernel) (l : List FpRef) (n : Nat) : Prop :=
  ∃ x ∈ l, (s.fp x).lo ≤ n ∧ n < (s.fp x).hi

/-- The request is covered, the addresses of the space are kept, and the list is in order. -/
structure Filled (s s' : Kernel) (a : AsRef) (base size : Word) : Prop where
  covered : ∀ n, base.toNat ≤ n → n < base.toNat + size.toNat → s'.HoldsAddr (s'.pages a) n
  kept : ∀ n, s.HoldsAddr (s.pages a) n → s'.HoldsAddr (s'.pages a) n
  ordered : s'.Ordered (s'.pages a)

/-- The request `[b, e)` begins at a multiple of 256 or in a page; it is not the whole memory; and
if there is a page at the end of memory, the walk ends before it, or it finds a gap in front of
it and the request ends in the last 256 bytes. -/
structure FillsClean (s : Kernel) (l : List FpRef) (b e : Nat) : Prop where
  start : 256 ∣ b ∨ s.HoldsAddr l b
  part : l = [] → b = 0 → e ≤ 2 ^ 32 - 256
  top : ∀ T ∈ l, (s.fp T).hi = 2 ^ 32 →
    (∃ x ∈ l, e ≤ (s.fp x).hi ∧ (s.fp x).hi < 2 ^ 32) ∨
      (b < (s.fp T).lo ∧ (∀ y ∈ l, (s.fp y).hi ≠ (s.fp T).lo) ∧ 2 ^ 32 - 256 < e)

theorem Kernel.HoldsAddr.congr (h : s.HoldsAddr l n)
    (hb : ∀ x ∈ l, (s'.fp x).block = (s.fp x).block) : s'.HoldsAddr l n := by
  obtain ⟨x, hx, h⟩ := h
  rw [← Fpage.lo_congr (hb x hx), ← Fpage.hi_congr (hb x hx)] at h
  exact ⟨x, hx, h⟩

theorem Kernel.HoldsAddr.mono {l' : List FpRef} (h : s.HoldsAddr l n) (hsub : ∀ x ∈ l, x ∈ l') :
    s.HoldsAddr l' n := by
  obtain ⟨x, hx, h⟩ := h
  exact ⟨x, hsub x hx, h⟩

theorem FillsClean.congr (h : FillsClean s l b e)
    (hb : ∀ x ∈ l, (s'.fp x).block = (s.fp x).block) : FillsClean s' l b e := by
  refine ⟨h.start.imp_right fun hold => hold.congr hb, h.part, fun T hT htop => ?_⟩
  rw [Fpage.hi_congr (hb T hT)] at htop
  rw [Fpage.lo_congr (hb T hT)]
  rcases h.top T hT htop with ⟨x, hx, h⟩ | ⟨h1, h2, h3⟩
  · exact .inl ⟨x, hx, by rw [Fpage.hi_congr (hb x hx)]; exact h⟩
  · exact .inr ⟨h1, fun y hy => by rw [Fpage.hi_congr (hb y hy)]; exact h2 y hy, h3⟩

/-! ## Gaps from multiples of 256 -/

section

variable (hnum : s.fpageTable.num = configMaxFpages) (he : e < 2 ^ 32)
  (hgr : ∀ x ∈ l, (s'.fp x).Grained) (hord : s'.Ordered l)
  (hstart : 256 ∣ b ∨ s'.HoldsAddr l b)
  (hw : Swept (fun x => (s'.fp x).lo) stop (GapChain mm m s s') b e w)
  (hs : Straight (fun x => (s'.fp x).lo) stop (fun x => (s'.fp x).hi) w.passed)
  (hl : l = w.passed ++ rest)

include hgr hord hstart hw hs hl in
theorem gap_aligned : ∀ q ∈ w.gaps, 256 ∣ q.1 := by
  intro q hq
  obtain ⟨_, hfrom, z, hz, hqz⟩ := hw.gap_bounds hs q hq
  rcases hfrom with hqb | ⟨x, hx, hqx⟩
  · rcases hstart with hb | ⟨y, hy, h1, h2⟩
    · rw [hqb]
      exact hb
    · -- the page that holds `b` leaves no gap there
      have hqlt := (hw.gap_lt q hq).1
      have hzlt := (s'.fp z).lo_lt_hi
      rw [hl] at hy hord
      obtain ⟨hordp, _, hdis⟩ := List.pairwise_append.mp hord
      rcases List.mem_append.mp hy with hy | hy
      · have := hw.gap_clear hs hordp q hq y hy
        omega
      · have := hdis z hz y hy
        omega
  · rw [hqx]
    exact (hgr x (by rw [hl]; simp [hx])).dvd_hi

include hnum he hgr hord hstart hw hs hl in
/-- The chain of a gap fills it up to a multiple of 256 that is not behind the next page. -/
theorem gap_filled : ∀ q ∈ w.gaps, ∀ c, GapChain mm m s s' q.1 q.2 c →
    Fills s' c q.1 (roundUp q.2) := by
  intro q hq c hc
  obtain ⟨hlt, hle⟩ := hw.gap_lt q hq
  obtain ⟨_, _, z, hz, hqz⟩ := hw.gap_bounds hs q hq
  have hzg := hgr z (by rw [hl]; simp [hz])
  have hround : roundUp q.2 ≤ (s'.fp z).lo := roundUp_le hzg.dvd_lo hqz
  have hzlt := (s'.fp z).lo_lt_hi
  have hztop := hzg.top
  exact (hc.fills hnum (gap_aligned hgr hord hstart hw hs hl q hq) hlt (by omega) (by omega)).1

include hnum he hgr hord hstart hw hs hl in
theorem sweep_fit :
    Swept.Fit (fun x => (s'.fp x).lo) (fun x => (s'.fp x).hi) (GapChain mm m s s')
      (fun x y => (s'.fp x).hi ≤ (s'.fp y).lo) w rest := by
  have hfill := gap_filled hnum he hgr hord hstart hw hs hl
  have hbefore : ∀ q ∈ w.gaps, ∀ c, GapChain mm m s s' q.1 q.2 c → ∀ x ∈ c,
      ∀ y ∈ w.passed ++ rest, q.2 ≤ (s'.fp y).lo → (s'.fp x).hi ≤ (s'.fp y).lo :=
    fun q hq c hc x hx y hy hle =>
      ((hfill q hq c hc).bounds x hx).2.trans (roundUp_le (hgr y (hl ▸ hy)).dvd_lo hle)
  refine ⟨fun q hq c hc => (hfill q hq c hc).ordered, fun q hq c hc x hx y hle =>
    hle.trans ((hfill q hq c hc).bounds x hx).1, hbefore, fun q hq c hc x hx y hy hle => ?_⟩
  exact (hbefore q hq c hc x hx y (List.mem_append_left _ hy) hle).trans (s'.fp y).lo_lt_hi.le

include hnum he hgr hord hstart hw hs hl in
/-- The list is in order up to where the sweep stands. -/
theorem sweep_ordered : s'.Ordered (w.out ++ rest) := by
  have hfit := sweep_fit hnum he hgr hord hstart hw hs hl
  rw [hl] at hord
  exact hw.pairwise hs hord hfit hord

include hnum he hgr hord hstart hw hs hl in
theorem sweep_covers (h1 : b ≤ n) (h2 : n < e) (h3 : n < w.cursor) :
    s'.HoldsAddr w.out n := by
  rcases hw.covered h1 h2 hs h3 with ⟨x, hx, h⟩ | ⟨q, hq, hq1, hq2⟩
  · exact ⟨x, hw.passed_mem x hx, h⟩
  · obtain ⟨c, hc, _, hmem⟩ := hw.chain_of_gap q hq
    have hfill := gap_filled hnum he hgr hord hstart hw hs hl q hq c hc
    have := le_roundUp q.2
    obtain ⟨x, hx, h⟩ := hfill.full n hq1 (by omega)
    exact ⟨x, hmem x hx, h⟩

end

/-! ## Runs that cover the request -/

section

variable {l' : List FpRef} {pf pl : Option FpRef}
  (hnum : s.fpageTable.num = configMaxFpages) (hlt : b < e) (he : e < 2 ^ 32)
  (hgr : ∀ x ∈ l, (s'.fp x).Grained) (hord : s'.Ordered l)
  (hw : SweptIn mm m s s' b e w) (hend : SweepEnds mm m s s' e l l' w none none pf pl)

include hnum he hgr hw in
theorem tail_filled (hclean : FillsClean s' l b e) (hl : l = w.passed) (hs : StraightIn s' w.passed)
    (hcur : w.cursor < e) (hc : GapChain mm m s s' w.cursor e c) :
    Fills s' c w.cursor (roundUp e) := by
  have hdvd : 256 ∣ w.cursor := by
    rcases hw.cursor_eq hs with h | ⟨x, hx, h⟩
    · rcases hclean.start with hb | ⟨y, hy, h1, h2⟩
      · rw [h]
        exact hb
      · have := hw.passed_le hs hcur y (hl ▸ hy)
        omega
    · rw [h]
      exact (hgr x (hl ▸ hx)).dvd_hi
  have htop : roundUp e ≤ 2 ^ 32 := roundUp_le (by decide) he.le
  refine (hc.fills hnum hdvd hcur he ?_).1
  -- a chain for the whole memory would have size 0
  by_contra hfull
  have hb := hw.le_cursor hs
  have hnil : l = [] := by
    refine List.eq_nil_iff_forall_not_mem.mpr fun x hx => ?_
    have h1 := hw.passed_le hs hcur x (hl ▸ hx)
    have h2 := (s'.fp x).lo_lt_hi
    omega
  have := roundUp_le (show 256 ∣ 2 ^ 32 - 256 by decide) (hclean.part hnil (by omega))
  omega

include hnum he hgr hord hw in
/-- In front of the last page of memory the last gap is filled, and the walk does not begin anew. -/
theorem top_filled (hclean : FillsClean s' l b e) (hl : l = w.passed) (hp : l = p ++ [T])
    (htop : (s'.fp T).hi = 2 ^ 32) (hs : StraightIn s' p) (hc : GapChain mm m s s' w.cursor e c) :
    (∀ n, b ≤ n → n < e → s'.HoldsAddr (w.out ++ c) n) ∧ s'.Ordered (w.out ++ c) := by
  have hTg := hgr T (by rw [hp]; simp)
  obtain ⟨v, hv, rfl, hvlt, hlast⟩ := hw.last_step (hl.symm.trans hp)
  have hpast := hv.passed_le hs hvlt
  have hTlo : v.cursor < (s'.fp T).lo ∧ 2 ^ 32 - 256 < e := by
    rcases hclean.top T (by rw [hp]; simp) htop with ⟨x, hx, h1, h2⟩ | ⟨h1, h2, h3⟩
    · rw [hp] at hx
      rcases List.mem_append.mp hx with hx | hx
      · have := hpast x hx
        omega
      · rw [List.mem_singleton.mp hx] at h2
        omega
    · refine ⟨?_, h3⟩
      rcases hv.cursor_eq hs with h | ⟨y, hy, h⟩
      · omega
      · rw [hp] at hord
        have hle := (List.pairwise_append.mp hord).2.2 y hy T (by simp)
        have hne := h2 y (by rw [hp]; simp [hy])
        omega
  obtain ⟨hgap, hE⟩ := hTlo
  have hstop := hTg.stop_top htop
  rcases hlast with ⟨_, c0, hc0, hne, hweq⟩ | ⟨hle, _⟩ | ⟨hle, _⟩
  · -- the chain from 0 has no pages
    have hnil : c = [] := by
      rw [hweq] at hc
      dsimp only at hc
      exact (hc.eq_nil_iff hnum (by omega) he).mpr (by omega)
    -- the same sweep, with the page ending where it does
    have hv' : Swept (fun x => (s'.fp x).lo) (fun x => (s'.fp x).hi) (GapChain mm m s s') b e v :=
      Swept.mono hv (fun x hx => ⟨rfl, (hs x hx).1.symm⟩) fun _ _ _ _ h => h
    have hw' := Swept.gap (x := T) hv' hvlt hgap hc0 hne
    have hs' : Straight (fun x => (s'.fp x).lo) (fun x => (s'.fp x).hi) (fun x => (s'.fp x).hi)
        (v.passed ++ [T]) := fun x _ => ⟨rfl, (s'.fp x).lo_lt_hi⟩
    have hl' : l = v.passed ++ [T] ++ [] := by rw [hp, List.append_nil]
    have hout := sweep_ordered hnum he hgr hord hclean.start hw' hs' hl'
    rw [hnil, hweq]
    refine ⟨fun n h1 h2 => ?_, hout⟩
    have hcov := sweep_covers hnum he hgr hord hclean.start hw' hs' hl' h1 h2
      (show n < (s'.fp T).hi by omega)
    rw [List.append_nil]
    exact hcov
  · omega
  · omega

include hnum hlt he hgr hord hw hend in
/-- A clean request is covered, and the list is in order. -/
theorem SweepEnds.filled (hclean : FillsClean s' l b e) :
    (∀ n, b ≤ n → n < e → s'.HoldsAddr l' n) ∧ s'.Ordered l' := by
  rcases hend with ⟨hdone, ⟨rest, hl, rfl⟩, _⟩ | ⟨hcur, hl, c, hc, rfl, _⟩
  · obtain ⟨hgrp, hordp⟩ := passed_grained hgr hord hl
    have hs := hw.straight hgrp hordp (by omega) hdone
    refine ⟨fun n h1 h2 => ?_, sweep_ordered hnum he hgr hord hclean.start hw hs hl⟩
    refine (sweep_covers hnum he hgr hord hclean.start hw hs hl h1 h2 (by omega)).mono ?_
    exact fun x hx => List.mem_append_left _ hx
  · rcases straight_or_top hgr hord with hs | ⟨p, T, hp, htop, hs⟩
    · have hs' : StraightIn s' w.passed := hl ▸ hs
      have hl' : l = w.passed ++ [] := by rw [hl, List.append_nil]
      have hfill := tail_filled hnum he hgr hw hclean hl hs' hcur hc
      have hfit := sweep_fit hnum he hgr hord hclean.start hw hs' hl'
      constructor
      · intro n h1 h2
        by_cases hn : n < w.cursor
        · exact (sweep_covers hnum he hgr hord hclean.start hw hs' hl' h1 h2 hn).mono
            fun x hx => List.mem_append_left _ hx
        · have := le_roundUp e
          obtain ⟨x, hx, h⟩ := hfill.full n (by omega) (by omega)
          exact ⟨x, List.mem_append_right _ hx, h⟩
      · have hout := sweep_ordered hnum he hgr hord hclean.start hw hs' hl'
        rw [List.append_nil] at hout
        refine List.pairwise_append.mpr ⟨hout, hfill.ordered, fun x hx y hy => ?_⟩
        exact (hw.out_le hs' hfit hcur x hx).trans (hfill.bounds y hy).1
    · exact top_filled hnum he hgr hord hw hclean hl hp htop hs hc

/-! ## Runs that do not -/

include hgr hord hw in
theorem gap_from (hl : l = w.passed ++ rest) :
    ∀ q ∈ w.gaps, b ≤ q.1 ∧ (q.1 = b ∨ 256 ∣ q.1) := by
  obtain ⟨hgrp, hordp⟩ := passed_grained hgr hord hl
  have hstraight : ∀ {v : State FpRef}, SweptIn mm m s s' b e v → StraightIn s' v.passed →
      (∀ x ∈ v.passed, x ∈ w.passed) → ∀ q ∈ v.gaps, b ≤ q.1 ∧ (q.1 = b ∨ 256 ∣ q.1) := by
    intro v hv hs hsub q hq
    obtain ⟨hb, hfrom, _⟩ := hv.gap_bounds hs q hq
    refine ⟨hb, hfrom.imp_right ?_⟩
    rintro ⟨x, hx, h⟩
    rw [h]
    exact (hgrp x (hsub x hx)).dvd_hi
  rcases straight_or_top hgrp hordp with hs | ⟨p, T, hp, _, hs⟩
  · exact hstraight hw hs fun x hx => hx
  · obtain ⟨v, hv, rfl, _, hlast⟩ := hw.last_step hp
    have hsub : ∀ x ∈ v.passed, x ∈ w.passed := fun x hx => by rw [hp]; simp [hx]
    have hold := hstraight hv hs hsub
    rcases hlast with ⟨_, c, _, _, rfl⟩ | ⟨_, _, rfl⟩ | ⟨_, _, rfl⟩
    · intro q hq
      rcases List.mem_append.mp hq with hq | hq
      · exact hold q hq
      · obtain rfl := List.mem_singleton.mp hq
        refine ⟨hv.le_cursor hs, (hv.cursor_eq hs).imp_right ?_⟩
        rintro ⟨x, hx, h⟩
        rw [h]
        exact (hgrp x (hsub x hx)).dvd_hi
    · exact hold
    · exact hold

theorem top_empty (hT : T ∈ p) (htop : (s'.fp T).hi = 2 ^ 32) (hord' : s'.Ordered (p ++ c)) :
    c = [] := by
  refine List.eq_nil_iff_forall_not_mem.mpr fun x hx => ?_
  have h1 := (List.pairwise_append.mp hord').2.2 T hT x hx
  have h2 : (s'.fp x).lo < 2 ^ 32 := (s'.fp x).base.isLt
  omega

include hnum he hgr hord hw hend in
/-- A request that is covered begins at a multiple of 256 or in a page. -/
theorem SweepEnds.start_clean (hcov : s'.HoldsAddr l' b) (hord' : s'.Ordered l') :
    256 ∣ b ∨ s'.HoldsAddr l b := by
  by_contra hno
  rw [not_or] at hno
  obtain ⟨hb, hnot⟩ := hno
  have hout : ∀ {rest : List FpRef}, l = w.passed ++ rest → ¬ s'.HoldsAddr w.out b := by
    rintro rest hl ⟨x, hx, hhold⟩
    rcases hw.mem_out x hx with hx | ⟨q, hq, c, hc, hx⟩
    · exact hnot ⟨x, by rw [hl]; simp [hx], hhold⟩
    · obtain ⟨h1, h2⟩ := gap_from hgr hord hw hl q hq
      obtain ⟨h3, h4⟩ := hw.gap_lt q hq
      exact hc.not_holds hnum h3 (by omega) hb h1 h2 x hx hhold
  rcases hend with ⟨_, ⟨rest, hl, rfl⟩, _⟩ | ⟨hcur, hl, c, hc, rfl, _⟩
  · obtain ⟨x, hx, hhold⟩ := hcov
    rcases List.mem_append.mp hx with hx | hx
    · exact hout hl ⟨x, hx, hhold⟩
    · exact hnot ⟨x, by rw [hl]; simp [hx], hhold⟩
  · have hl' : l = w.passed ++ [] := by rw [hl, List.append_nil]
    obtain ⟨x, hx, hhold⟩ := hcov
    rcases List.mem_append.mp hx with hx | hx
    · exact hout hl' ⟨x, hx, hhold⟩
    · rcases straight_or_top hgr hord with hs | ⟨p, T, hp, htop, _⟩
      · rw [hl] at hs hgr
        have hcursor := (hw.cursor_eq hs).imp_right fun ⟨y, hy, h⟩ =>
          h ▸ (hgr y hy).dvd_hi
        exact hc.not_holds hnum hcur he hb (hw.le_cursor hs) hcursor x hx hhold
      · have hT : T ∈ w.out := hw.passed_mem T (by rw [← hl, hp]; simp)
        rw [top_empty hT htop hord'] at hx
        simp at hx

include hnum hlt he hgr hord hw hend in
/-- The walk that leaves the list in order does not begin anew at the end of memory. -/
theorem SweepEnds.top_clean (hord' : s'.Ordered l') (T : FpRef) (hT : T ∈ l)
    (htop : (s'.fp T).hi = 2 ^ 32) :
    (∃ x ∈ l, e ≤ (s'.fp x).hi ∧ (s'.fp x).hi < 2 ^ 32) ∨
      (b < (s'.fp T).lo ∧ (∀ y ∈ l, (s'.fp y).hi ≠ (s'.fp T).lo) ∧ 2 ^ 32 - 256 < e) := by
  rcases hend with ⟨hdone, ⟨rest, hl, _⟩, _⟩ | ⟨hcur, hl, c, hc, rfl, _⟩
  · obtain ⟨hgrp, hordp⟩ := passed_grained hgr hord hl
    obtain ⟨v, x, hv⟩ := hw.lastStep hgrp hordp hlt hdone
    exact .inl ⟨x, by rw [hl, hv.passed]; simp, hv.behind, hv.below⟩
  · right
    have hTg := hgr T hT
    have hcnil : c = [] := top_empty (hw.passed_mem T (hl ▸ hT)) htop hord'
    rcases straight_or_top hgr hord with hs | ⟨p, T', hp, htop', hs⟩
    · have := (hs T hT).1
      dsimp only at this
      omega
    · have hTT : T = T' := by
        rw [hp] at hT
        rcases List.mem_append.mp hT with hT | hT
        · have := (hs T hT).1
          dsimp only at this
          omega
        · exact List.mem_singleton.mp hT
      subst hTT
      obtain ⟨v, hv, rfl, hvlt, hlast⟩ := hw.last_step (hl.symm.trans hp)
      have hpos := hTg.lo_pos htop
      have hstop := hTg.stop_top htop
      rcases hlast with ⟨hgap, _, _, _, hweq⟩ | ⟨_, hlt', _⟩ | ⟨hle, _, hweq⟩
      · refine ⟨Nat.lt_of_le_of_lt (hv.le_cursor hs) hgap, fun y hy hye => ?_, ?_⟩
        · rw [hp] at hy
          rcases List.mem_append.mp hy with hy | hy
          · have := hv.passed_le hs hvlt y hy
            omega
          · rw [List.mem_singleton.mp hy] at hye
            have := (s'.fp T).lo_lt_hi
            omega
        · rw [hweq] at hc
          dsimp only at hc
          have := (hc.eq_nil_iff hnum (by omega) he).mp hcnil
          omega
      · omega
      · -- the rest of the request lies in the page, and a chain is put behind it
        rw [hweq] at hc
        have := (hc.eq_nil_iff hnum hvlt he).mp hcnil
        dsimp only at this
        omega

include hnum hlt he hgr hord hw hend in
theorem SweepEnds.clean (hcov : s'.HoldsAddr l' b) (hord' : s'.Ordered l') :
    FillsClean s' l b e := by
  refine ⟨hend.start_clean hnum he hgr hord hw hcov hord', fun hnil hb0 => ?_,
    hend.top_clean hnum hlt he hgr hord hw hord'⟩
  have hpassed : w.passed = [] := by
    rcases hend with ⟨_, ⟨rest, hl, _⟩, _⟩ | ⟨_, hl, _⟩
    · exact (List.append_eq_nil_iff.mp (hl.symm.trans hnil)).1
    · exact hl.symm.trans hnil
  rw [hw.eq_start hpassed] at hend
  rcases hend with ⟨hdone, _⟩ | ⟨_, _, c, hc, rfl, _⟩
  · exact absurd hdone (Nat.not_le.mpr hlt)
  · by_contra hbig
    have hcnil := (hc.eq_nil_iff hnum hlt he).mpr (by dsimp only; omega)
    obtain ⟨x, hx, _⟩ := hcov
    rw [hcnil] at hx
    simp at hx

end

/-! ## Every request -/

/-- A request inside a pool is covered, with the list in order afterwards, exactly if it is
clean. -/
theorem assign_fpages_covers (mm : Memmap) (s s' : Kernel) (a : AsRef) (base size : Word)
    (pf pl : Option FpRef) (hwf : Wf s) (hnum : s.fpageTable.num = configMaxFpages)
    (ha : GrainedSpace s a) (hsize : size ≠ 0#32)
    (hpool : ∃ mp ∈ mm, mp.mappable = true ∧ mp.start.toNat ≤ base.toNat ∧
      base.toNat + size.toNat ≤ mp.stop.toNat)
    (h : assignFpagesExt mm s none (some a) base size none none = .ok (0, pf, pl, s')) :
    Filled s s' a base size ↔
      FillsClean s (s.pages a) base.toNat (base.toNat + size.toNat) := by
  obtain ⟨mp, _, _, _, hstop⟩ := hpool
  have hfit : base.toNat + size.toNat < 2 ^ 32 := Nat.lt_of_le_of_lt hstop mp.stop.isLt
  have hpos : 0 < size.toNat :=
    Nat.pos_of_ne_zero fun h0 => hsize (BitVec.eq_of_toNat_eq (by simpa using h0))
  obtain ⟨m, w, hw, hend, hold⟩ := assignFpagesExt_grained hwf ha h
  have hsum : (base + size).toNat = base.toNat + size.toNat := by
    rw [BitVec.toNat_add, Nat.mod_eq_of_lt hfit]
  rw [hsum] at hw hend
  have hblock : ∀ x ∈ s.pages a, (s'.fp x).block = (s.fp x).block := fun x hx => (hold x hx).2
  obtain ⟨hgr, hord⟩ := ha.kept hblock
  constructor
  · intro hfilled
    refine (hend.clean hnum (by omega) hfit hgr hord hw
      (hfilled.covered _ (Nat.le_refl _) (by omega)) hfilled.ordered).congr ?_
    exact fun x hx => (hblock x hx).symm
  · intro hclean
    obtain ⟨hcov, hordered⟩ :=
      hend.filled hnum (by omega) hfit hgr hord hw (hclean.congr hblock)
    exact ⟨hcov, fun n hn => (hn.congr hblock).mono fun x hx => (hold x hx).1, hordered⟩

/-- A request that begins in a page and goes on into the gap behind it. -/
theorem assign_fpages_covers_page : ∃ s s' pf pl,
    (system (memmap stm32f4Board) stm32f4Board).Reachable (fun _ _ => True) s ∧
    assignFpagesExt (memmap stm32f4Board) s none (some 0) 0x20008180#32 0x300#32 none none =
      .ok (0, pf, pl, s') ∧ Filled s s' 0 0x20008180#32 0x300#32 := by
  obtain ⟨s, s', pf, pl, hreach, hwf, hrun, hp⟩ := exists_assignRun
    [.asCreate 1#32, .assignFpages 0 0x20008000#32 0x200#32] 0x20008180#32 0x300#32
    (fun s _ _ => decide (s.fpageTable.num = configMaxFpages ∧ s.liveAs 0 = true ∧
      s.pages 0 = [2] ∧ (s.fp 2).Grained ∧ (s.fp 2).lo = 0x20008000 ∧ (s.fp 2).hi = 0x20008200))
    (by decide +kernel)
  obtain ⟨hnum, hlive, hpages, hgr, hlo, hhi⟩ := of_decide_eq_true hp
  have hspace : GrainedSpace s 0 := .single hlive hpages hgr
  refine ⟨s, s', pf, pl, hreach, hrun, (assign_fpages_covers (memmap stm32f4Board) s s' 0
    0x20008180#32 0x300#32 pf pl hwf hnum hspace (by decide)
    ⟨(memmap stm32f4Board).get ⟨7, by decide⟩, List.get_mem _ _, by decide, by decide, by decide⟩
    hrun).mpr ⟨.inr ⟨2, by rw [hpages]; simp, ?_⟩, fun _ h0 => ?_, fun T hT htop => ?_⟩⟩
  · rw [hlo, hhi]
    decide
  · exact absurd h0 (by decide)
  · rw [hpages, List.mem_singleton] at hT
    rw [hT, hhi] at htop
    exact absurd htop (by decide)

/-- A request in a new space that begins between two multiples of 256: its first bytes have no
page. -/
theorem assign_fpages_uncovered : ∃ s s' pf pl,
    (system (memmap stm32f4Board) stm32f4Board).Reachable (fun _ _ => True) s ∧
    GrainedSpace s 0 ∧
    assignFpagesExt (memmap stm32f4Board) s none (some 0) 0x20008080#32 0x100#32 none none =
      .ok (0, pf, pl, s') ∧ ¬ Filled s s' 0 0x20008080#32 0x100#32 := by
  obtain ⟨s, s', pf, pl, hreach, _, hrun, hp⟩ := exists_assignRun
    [.asCreate 1#32] 0x20008080#32 0x100#32
    (fun s _ s' => decide (s.liveAs 0 = true ∧ s.pages 0 = [] ∧ s'.pages 0 = [2] ∧
      (s'.fp 2).lo = 0x20008100))
    (by decide +kernel)
  obtain ⟨hlive, hpages, hpages', hlo⟩ := of_decide_eq_true hp
  refine ⟨s, s', pf, pl, hreach, ⟨hlive, ?_, ?_⟩, hrun, fun hfilled => ?_⟩
  · rw [hpages]
    simp
  · rw [hpages]
    exact List.Pairwise.nil
  · obtain ⟨x, hx, hle, _⟩ := hfilled.covered 0x20008080 (by decide) (by decide)
    rw [hpages', List.mem_singleton] at hx
    rw [hx, hlo] at hle
    exact absurd hle (by decide)

end F9
