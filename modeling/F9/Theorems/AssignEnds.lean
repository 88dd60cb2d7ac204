import F9.Logic.Gaps
import F9.Logic.Steps

/-!
# The first and the last page that `assign_fpages_ext` reports

After it has filled a gap in front of a page, `assign_fpages_ext` goes on behind the page with
`*plast` at the end of the chain. If the request ends in that page, `*plast` stays there.
`assign_fpages_ends`: the two results are the pages of the first and the last byte of the request
exactly if the request does not go round and no page holds its last byte behind a gap.
-/

namespace F9

open Arc Linked Result Sweep

variable {mm : Memmap} {s s' : Kernel} {a : AsRef} {l c : List FpRef} {m : Nat} {b e : Nat}
  {w : State FpRef} {l' : List FpRef} {pf pl : Option FpRef}

/-- `*pfirst` and `*plast` are the pages of the first and of the last byte. -/
structure RightEnds (s : Kernel) (a : AsRef) (base size : Word) (pf pl : Option FpRef) :
    Prop where
  first : ∃ x ∈ s.pages a, pf = some x ∧ (s.fp x).lo ≤ base.toNat ∧ base.toNat < (s.fp x).hi
  last : ∃ x ∈ s.pages a, pl = some x ∧ (s.fp x).lo < base.toNat + size.toNat ∧
    base.toNat + size.toNat ≤ (s.fp x).hi

/-- A page of the list that holds the last byte of `[b, e)` begins no later than `b`, or where
another page ends. The walk does not see the end of a page at the end of memory. -/
def LastReached (s : Kernel) (l : List FpRef) (b e : Nat) : Prop :=
  ∀ x ∈ l, (s.fp x).hi < 2 ^ 32 → (s.fp x).lo < e → e ≤ (s.fp x).hi →
    (s.fp x).lo ≤ b ∨ ∃ y ∈ l, (s.fp y).hi = (s.fp x).lo

theorem LastReached.congr (h : LastReached s l b e)
    (hb : ∀ x ∈ l, (s'.fp x).block = (s.fp x).block) : LastReached s' l b e := by
  intro x hx
  rw [Fpage.lo_congr (hb x hx), Fpage.hi_congr (hb x hx)]
  intro h1 h2 h3
  rcases h x hx h1 h2 h3 with h | ⟨y, hy, h⟩
  · exact .inl h
  · exact .inr ⟨y, hy, by rw [Fpage.hi_congr (hb y hy)]; exact h⟩

/-- A chain for a gap inside a request of whole units. -/
theorem GapChain.fills_units {q : Nat × Nat} (h : GapChain mm m s s' q.1 q.2 c)
    (hnum : s.fpageTable.num = configMaxFpages) (hq : 256 ∣ q.1) (hlt : q.1 < q.2) (hle : q.2 ≤ e)
    (hd : 256 ∣ e) (he : e < 2 ^ 32) : Fills s' c q.1 (roundUp q.2) ∧ c ≠ [] := by
  have hround := roundUp_le hd hle
  refine ⟨(h.fills hnum hq hlt (by omega) (by omega)).1, fun hc => ?_⟩
  have := (h.eq_nil_iff hnum hlt (by omega)).mp hc
  omega

section

variable (hnum : s.fpageTable.num = configMaxFpages) (hb : 256 ∣ b) (hd : 256 ∣ e) (hlt : b < e)
  (he : e < 2 ^ 32) (hgr : ∀ x ∈ l, (s'.fp x).Grained) (hord : s'.Ordered l)
  (hw : SweptIn mm m s s' b e w)

include hnum hb hd hlt he hgr hw

theorem SweepEnds.first_holds (hsub : ∀ x ∈ l, x ∈ l')
    (hend : SweepEnds mm m s s' e l l' w none none pf pl) :
    ∃ x ∈ l', pf = some x ∧ (s'.fp x).lo ≤ b ∧ b < (s'.fp x).hi := by
  have hpassed : ∀ x ∈ w.passed, x ∈ l := by
    intro x hx
    rcases hend with ⟨_, ⟨rest, hl, _⟩, _⟩ | ⟨_, hl, _⟩
    · rw [hl]
      simp [hx]
    · rw [hl]
      exact hx
  have hout : ∀ x ∈ w.out, x ∈ l' := by
    intro x hx
    rcases hend with ⟨_, ⟨rest, _, hl⟩, _⟩ | ⟨_, _, c, _, hl, _⟩
    · rw [hl]
      simp [hx]
    · rw [hl]
      simp [hx]
  cases hf : w.first with
  | some y =>
    have hpf : pf = some y := by
      rcases hend with ⟨_, _, hpf, _⟩ | ⟨_, _, c, _, _, hpf, _⟩
      · rw [hpf, hf]
        rfl
      · rw [hpf, hf]
        rfl
    rcases hw.first_some hf with ⟨hy, h1, h2⟩ | ⟨hy', q, hq, hqb, c, hc, hy⟩
    · have hstop := (hgr y (hpassed y hy)).stop_toNat
      exact ⟨y, hsub y (hpassed y hy), hpf, h1, by omega⟩
    · obtain ⟨hq1, hq2⟩ := hw.gap_lt q hq
      have hlo := (hc.fills_units hnum (by rw [hqb]; exact hb) hq1 hq2 hd he).1.head y hy
      have := (s'.fp y).lo_lt_hi
      exact ⟨y, hout y hy', hpf, by omega, by omega⟩
  | none =>
    obtain ⟨hcur, _⟩ := hw.first_none hf
    rcases hend with ⟨hdone, _⟩ | ⟨_, _, c, hc, hl', hpf, _⟩
    · omega
    · rw [hcur] at hc
      obtain ⟨hfill, hne⟩ := GapChain.fills_units (q := (b, e)) hc hnum hb hlt (Nat.le_refl _) hd he
      obtain ⟨y, c', rfl⟩ := List.exists_cons_of_ne_nil hne
      have hlo := hfill.head y rfl
      have := (s'.fp y).lo_lt_hi
      refine ⟨y, by rw [hl']; simp, by rw [hpf, hf]; rfl, hlo.le, ?_⟩
      omega

include hord

/-- `*plast` holds the last byte if no page holds it behind a gap. -/
theorem SweepEnds.last_holds (hreach : LastReached s' l b e) (hsub : ∀ x ∈ l, x ∈ l')
    (hend : SweepEnds mm m s s' e l l' w none none pf pl) :
    ∃ x ∈ l', pl = some x ∧ (s'.fp x).lo < e ∧ e ≤ (s'.fp x).hi := by
  -- the last page of a chain up to `e`
  have hlast : ∀ k c, 256 ∣ k → k < e → GapChain mm m s s' k e c →
      ∃ z ∈ c, c.getLast? = some z ∧ (s'.fp z).lo < e ∧ e ≤ (s'.fp z).hi := by
    intro k c hk hke hc
    obtain ⟨hfill, hne⟩ := GapChain.fills_units (q := (k, e)) hc hnum hk hke (Nat.le_refl _) hd he
    have hz := List.getLast?_eq_getLast_of_ne_nil hne
    have hhi := hfill.last _ hz
    rw [roundUp_of_dvd hd] at hhi
    have := (s'.fp (c.getLast hne)).lo_lt_hi
    exact ⟨_, List.getLast_mem hne, hz, by omega, by omega⟩
  rcases hend with ⟨hdone, ⟨rest, hl, hl'⟩, _, hpl⟩ | ⟨hcur, hl, c, hc, hl', _, hpl⟩
  · obtain ⟨hgrp, hordp⟩ := passed_grained hgr hord hl
    obtain ⟨v, x, hv⟩ := hw.lastStep hgrp hordp hlt hdone
    have hxl : x ∈ l := by
      rw [hl, hv.passed]
      simp
    rcases hv.last with ⟨hle, hlast'⟩ | ⟨hgap, c, hc, hlast', hmem⟩
    · have hbefore := hv.before
      exact ⟨x, hsub x hxl, by rw [hpl, hlast']; rfl, by omega, hv.behind⟩
    · -- a gap was filled last, so the request ends in it
      have hle : e ≤ (s'.fp x).lo := by
        by_contra hin
        have hstart := hv.start
        rcases hreach x hxl hv.below (by omega) hv.behind with h | ⟨y, hy, h⟩
        · omega
        · rw [hl, hv.passed, List.append_assoc, List.singleton_append] at hord hy
          obtain ⟨_, hpost⟩ := hord.around
          have hylt := (s'.fp y).lo_lt_hi
          have hxlt := (s'.fp x).lo_lt_hi
          rcases List.mem_append.mp hy with hy | hy
          · have := hv.past y hy
            omega
          · rcases List.mem_cons.mp hy with rfl | hy
            · omega
            · have := hpost y hy
              omega
      rw [Nat.min_eq_left hle] at hc
      have hdvd : 256 ∣ v.cursor := by
        rcases hv.cursor with h | ⟨y, hy, h⟩
        · rw [h]
          exact hb
        · rw [h]
          exact (hgrp y (by rw [hv.passed]; simp [hy])).dvd_hi
      obtain ⟨z, hz, hzl, h1, h2⟩ := hlast v.cursor c hdvd hv.before hc
      exact ⟨z, by rw [hl']; simp [hmem z hz], by rw [hpl, hlast', hzl]; rfl, h1, h2⟩
  · obtain ⟨z, hz, hzl, h1, h2⟩ := hlast w.cursor c
      (hw.dvd_cursor (fun x hx => hgr x (by rw [hl]; exact hx)) hb) hcur hc
    exact ⟨z, by rw [hl']; simp [hz], by rw [hpl, hzl], h1, h2⟩

/-- A page that holds the last byte behind a gap is not reported. -/
theorem SweepEnds.last_reached {z : FpRef} (hend : SweepEnds mm m s s' e l l' w none none pf pl)
    (hpl : pl = some z) (hz : e ≤ (s'.fp z).hi) : LastReached s' l b e := by
  intro x hx hbelow hlo hhi
  by_contra hno
  rw [not_or] at hno
  obtain ⟨hxb, hxend⟩ := hno
  rcases hend with ⟨hdone, ⟨rest, hl, _⟩, _, hpl'⟩ | ⟨hcur, hl, _⟩
  · obtain ⟨hgrp, hordp⟩ := passed_grained hgr hord hl
    obtain ⟨v, y, hv⟩ := hw.lastStep hgrp hordp hlt hdone
    have hbefore := hv.before
    have hbehind := hv.behind
    -- the sweep ended at `x`
    have hxy : x = y := by
      rw [hl, hv.passed, List.append_assoc, List.singleton_append] at hord hx
      obtain ⟨_, hpost⟩ := hord.around
      rcases List.mem_append.mp hx with hx | hx
      · have := hv.past x hx
        omega
      · rcases List.mem_cons.mp hx with hx | hx
        · exact hx
        · have := hpost x hx
          omega
    subst hxy
    rcases hv.last with ⟨hle, _⟩ | ⟨hgap, c, hc, hlast, _⟩
    · rcases hv.cursor with h | ⟨y, hy, h⟩
      · omega
      · refine hxend ⟨y, by rw [hl, hv.passed]; simp [hy], ?_⟩
        rw [hl, hv.passed, List.append_assoc, List.singleton_append] at hord
        have := hord.around.1 y hy
        omega
    · rw [Nat.min_eq_right hlo.le] at hc
      have hdvd : 256 ∣ v.cursor := by
        rcases hv.cursor with h | ⟨y, hy, h⟩
        · rw [h]
          exact hb
        · rw [h]
          exact (hgrp y (by rw [hv.passed]; simp [hy])).dvd_hi
      have hfill := (GapChain.fills_units (q := (v.cursor, (s'.fp x).lo)) hc hnum hdvd hgap hlo.le
        hd he).1
      have hzc : c.getLast? = some z := by
        rw [← hlast, ← hpl, hpl']
        simp
      have hzhi := hfill.last z hzc
      rw [roundUp_of_dvd (hgr x hx).dvd_lo] at hzhi
      omega
  · -- the sweep never reached the end of `x`
    rw [hl] at hgr hord hx
    rcases straight_or_top hgr hord with hs | ⟨p, T, hp, htop, hs⟩
    · have := hw.passed_le hs hcur x hx
      omega
    · obtain ⟨v, hv, rfl, hvlt, _⟩ := hw.last_step hp
      rw [hp] at hx
      rcases List.mem_append.mp hx with hx | hx
      · have := hv.passed_le hs hvlt x hx
        omega
      · rw [List.mem_singleton.mp hx] at hbelow
        omega

end

/-- `*pfirst` and `*plast` are the pages of the first and the last byte of the request exactly if
the request does not go round and no page holds its last byte behind a gap. -/
theorem assign_fpages_ends (mm : Memmap) (s s' : Kernel) (a : AsRef) (base size : Word)
    (pf pl : Option FpRef) (hwf : Wf s) (hnum : s.fpageTable.num = configMaxFpages)
    (ha : GrainedSpace s a) (hsize : size ≠ 0#32) (hb : 256 ∣ base.toNat) (hd : 256 ∣ size.toNat)
    (h : assignFpagesExt mm s none (some a) base size none none = .ok (0, pf, pl, s')) :
    RightEnds s' a base size pf pl ↔ base.toNat + size.toNat < 2 ^ 32 ∧
      LastReached s (s.pages a) base.toNat (base.toNat + size.toNat) := by
  obtain ⟨m, w, hw, hend, hold⟩ := assignFpagesExt_grained hwf ha h
  have hpos : 0 < size.toNat :=
    Nat.pos_of_ne_zero fun h0 => hsize (BitVec.eq_of_toNat_eq (by simpa using h0))
  have hblock : ∀ x ∈ s.pages a, (s'.fp x).block = (s.fp x).block := fun x hx => (hold x hx).2
  obtain ⟨hgr, hord⟩ := ha.kept hblock
  have hsum : (base + size).toNat = (base.toNat + size.toNat) % 2 ^ 32 := BitVec.toNat_add _ _
  by_cases hfit : base.toNat + size.toNat < 2 ^ 32
  · rw [hsum, Nat.mod_eq_of_lt hfit] at hw hend
    have hde : 256 ∣ base.toNat + size.toNat := Nat.dvd_add hb hd
    constructor
    · rintro ⟨_, x, _, hpl, _, hx⟩
      have hreach := hend.last_reached hnum hb hde (by omega) hfit hgr hord hw hpl hx
      exact ⟨hfit, hreach.congr fun y hy => (hblock y hy).symm⟩
    · rintro ⟨_, hreach⟩
      have hsub : ∀ x ∈ s.pages a, x ∈ s'.pages a := fun x hx => (hold x hx).1
      exact ⟨hend.first_holds hnum hb hde (by omega) hfit hgr hw hsub,
        hend.last_holds hnum hb hde (by omega) hfit hgr hord hw (hreach.congr hblock) hsub⟩
  · -- the end of the request is before its base: the loop is not entered
    refine iff_of_false (fun hright => ?_) fun hcond => hfit hcond.1
    have hle : (base + size).toNat ≤ base.toNat := by
      omega
    rw [hw.idle hle] at hend
    obtain ⟨x, _, hpf, _⟩ := hright.first
    rcases hend with ⟨_, _, hnone, _⟩ | ⟨hcur, _⟩
    · rw [hpf] at hnone
      simp at hnone
    · exact absurd hcur (Nat.not_lt.mpr hle)

/-- A request that begins in a page and ends in the gap behind it. -/
theorem assign_fpages_ends_page : ∃ s s' pf pl,
    (system (memmap stm32f4Board) stm32f4Board).Reachable (fun _ _ => True) s ∧
    assignFpagesExt (memmap stm32f4Board) s none (some 0) 0x20008100#32 0x300#32 none none =
      .ok (0, pf, pl, s') ∧ RightEnds s' 0 0x20008100#32 0x300#32 pf pl := by
  obtain ⟨s, s', pf, pl, hreach, hwf, hrun, hp⟩ := exists_assignRun
    [.asCreate 1#32, .assignFpages 0 0x20008000#32 0x200#32] 0x20008100#32 0x300#32
    (fun s _ _ => decide (s.fpageTable.num = configMaxFpages ∧ s.liveAs 0 = true ∧
      s.pages 0 = [2] ∧ (s.fp 2).Grained ∧ (s.fp 2).hi = 0x20008200))
    (by decide +kernel)
  obtain ⟨hnum, hlive, hpages, hgr, hhi⟩ := of_decide_eq_true hp
  have hspace : GrainedSpace s 0 := .single hlive hpages hgr
  refine ⟨s, s', pf, pl, hreach, hrun, (assign_fpages_ends (memmap stm32f4Board) s s' 0
    0x20008100#32 0x300#32 pf pl hwf hnum hspace (by decide) (by decide) (by decide) hrun).mpr
    ⟨by decide, ?_⟩⟩
  intro x hx _ _ hle
  rw [hpages, List.mem_singleton] at hx
  rw [hx, hhi] at hle
  exact absurd hle (by decide)

/-- The second half of the request is there already: the last page that is reported is the new one
in front of it. -/
theorem assign_fpages_ends_short : ∃ s s' pf pl,
    (system (memmap stm32f4Board) stm32f4Board).Reachable (fun _ _ => True) s ∧
    GrainedSpace s 0 ∧
    assignFpagesExt (memmap stm32f4Board) s none (some 0) 0x20008000#32 0x200#32 none none =
      .ok (0, pf, pl, s') ∧ ¬ RightEnds s' 0 0x20008000#32 0x200#32 pf pl := by
  obtain ⟨s, s', pf, pl, hreach, _, hrun, hp⟩ := exists_assignRun
    [.asCreate 1#32, .assignFpages 0 0x20008100#32 0x100#32] 0x20008000#32 0x200#32
    (fun s pl s' => decide (s.liveAs 0 = true ∧ s.pages 0 = [2] ∧ (s.fp 2).Grained ∧
      pl = some 3 ∧ (s'.fp 3).hi = 0x20008100))
    (by decide +kernel)
  obtain ⟨hlive, hpages, hgr, rfl, hhi⟩ := of_decide_eq_true hp
  refine ⟨s, s', pf, _, hreach, .single hlive hpages hgr, hrun, fun hright => ?_⟩
  obtain ⟨x, _, hx, _, hle⟩ := hright.last
  rw [← Option.some.inj hx, hhi] at hle
  exact absurd hle (by decide)

end F9
