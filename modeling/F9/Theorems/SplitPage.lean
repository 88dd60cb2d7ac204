import F9.Logic.Gaps
import F9.Logic.Room
import F9.Logic.Steps

/-!
# `split_fpage` re-cuts one page

`split_fpage_recuts`: whatever the neighbours of the page and the place of the cut, the list is in
order again, holds the same addresses, and nothing but the page itself has gone.
-/

namespace F9

open Arc Linked Result

variable {mm : Memmap} {s s' : Kernel} {a : AsRef} {r : FpRef} {l : List FpRef} {sp split : Word}

/-- The page `r` of the list `l` is replaced by the pages `new`, and no page reaches over `cut`. -/
structure Recut (s s' : Kernel) (a : AsRef) (r : FpRef) (cut : Nat) (l pre new post : List FpRef) :
    Prop where
  before : l = pre ++ r :: post
  list : Chain s'.asNext (s'.as a).first (pre ++ new ++ post)
  ordered : s'.Ordered (pre ++ new ++ post)
  sized : ∀ x ∈ pre ++ new ++ post, (s'.fp x).Sized
  covers : ∀ n, (∃ x ∈ pre ++ new ++ post, (s'.fp x).lo ≤ n ∧ n < (s'.fp x).hi) ↔
    ∃ x ∈ l, (s.fp x).lo ≤ n ∧ n < (s.fp x).hi
  others : ∀ x ∈ pre ++ post,
    s'.fp x = { s.fp x with asNext := s'.asNext x, mpuNext := s'.mpuNext x }
  clear : ∀ x ∈ pre ++ new ++ post, ¬ ((s'.fp x).lo < cut ∧ cut < (s'.fp x).hi)

/-- An address of a page or its end is inside no other page. -/
theorem Kernel.Ordered.not_across {x : FpRef} {n : Nat} (h : s.Ordered l) (hr : r ∈ l) (hx : x ∈ l)
    (hxr : x ≠ r) (h1 : (s.fp r).lo ≤ n) (h2 : n ≤ (s.fp r).hi) :
    ¬ ((s.fp x).lo < n ∧ n < (s.fp x).hi) := by
  rcases h.apart hx hr with heq | hlt | hlt
  · exact absurd heq hxr
  · omega
  · omega

theorem Recut.refl {cut : Nat} (hl : Chain s.asNext (s.as a).first l) (hr : r ∈ l)
    (hsized : ∀ x ∈ l, (s.fp x).Sized) (hord : s.Ordered l)
    (hcut : cut = (s.fp r).lo ∨ cut = (s.fp r).hi ∨ cut = 0) :
    ∃ pre post, Recut s s a r cut l pre [r] post := by
  obtain ⟨pre, post, hpp⟩ := List.append_of_mem hr
  have hsame : pre ++ [r] ++ post = l := by simp [hpp]
  have hlt := (s.fp r).lo_lt_hi
  refine ⟨pre, post, hpp, ?_, ?_, ?_, ?_, fun _ _ => rfl, ?_⟩
  · rw [hsame]
    exact hl
  · rw [hsame]
    exact hord
  · rw [hsame]
    exact hsized
  · rw [hsame]
    exact fun _ => Iff.rfl
  · intro x hx
    rw [hsame] at hx
    by_cases hxr : x = r
    · rw [hxr]
      omega
    · rcases hcut with hcut | hcut | hcut
      · exact hord.not_across hr hx hxr (by omega) (by omega)
      · exact hord.not_across hr hx hxr (by omega) (by omega)
      · omega

/-- A cut inside the page, at a multiple of 256. -/
theorem Cut.recut {cl cr : List FpRef} (hl : Chain s.asNext (s.as a).first l)
    (hlive : ∀ x ∈ l, s.liveFp x = true) (hr : r ∈ l) (hsized : ∀ x ∈ l, (s.fp x).Sized)
    (hord : s.Ordered l) (hd : 256 ∣ sp.toNat) (h1 : (s.fp r).lo < sp.toNat)
    (h2 : sp.toNat < (s.fp r).hi) (h : Cut mm s s' a r l sp cl cr) :
    ∃ pre post, Recut s s' a r sp.toNat l pre (cl ++ cr) post := by
  obtain ⟨pre, post, hpp⟩ := List.append_of_mem hr
  have hal := (hsized r hr).toAligned
  have hblock : ∀ x ∈ l, (s'.fp x).block = (s.fp x).block := fun x hx => h.block (h.old hlive hx)
  have hordl := hord
  rw [hpp] at hordl
  obtain ⟨hpre, hpost⟩ := hordl.around
  have hlist := h.list
  rw [h.spliced hl.nodup hlive hpp hal (fun x hx => by
    have := hpre x hx
    have := (s.fp x).lo_lt_hi
    omega) hpost h1 h2] at hlist
  have hpieces := h.ordered_pieces hlive hpp hal hord h1 h2
  obtain ⟨hL, hR⟩ := h.fills hal h1 h2
  have hout : ∀ x ∈ pre ++ post, x ∈ l ∧ x ≠ r := by
    intro x hx
    have hnd := hl.nodup
    rw [hpp] at hnd ⊢
    obtain ⟨_, hnd2, hdis⟩ := List.nodup_append.mp hnd
    rcases List.mem_append.mp hx with hx | hx
    · exact ⟨by simp [hx], hdis x hx r List.mem_cons_self⟩
    · exact ⟨by simp [hx], fun hxr => (List.nodup_cons.mp hnd2).1 (hxr ▸ hx)⟩
  have hmem : ∀ x, x ∈ pre ++ (cl ++ cr) ++ post ↔ x ∈ cl ++ cr ∨ x ∈ pre ++ post := by
    intro x
    simp only [List.mem_append]
    tauto
  refine ⟨pre, post, hpp, ?_, ?_, ?_, ?_, ?_, ?_⟩
  · rw [← List.append_assoc]
    exact hlist
  · rw [← List.append_assoc]
    exact hpieces
  · intro x hx
    rcases (hmem x).mp hx with hx | hx
    · exact h.sized (hsized r hr) hd h1 h2 x hx
    · exact (hsized x (hout x hx).1).congr (hblock x (hout x hx).1)
  · intro n
    constructor
    · rintro ⟨x, hx, hn1, hn2⟩
      rcases (hmem x).mp hx with hx | hx
      · refine ⟨r, hr, ?_⟩
        rcases List.mem_append.mp hx with hx | hx
        · have := hL.bounds x hx
          omega
        · have := hR.bounds x hx
          omega
      · have hb := hblock x (hout x hx).1
        refine ⟨x, (hout x hx).1, ?_⟩
        rw [← Fpage.lo_congr hb, ← Fpage.hi_congr hb]
        exact ⟨hn1, hn2⟩
    · rintro ⟨x, hx, hn1, hn2⟩
      by_cases hxr : x = r
      · subst hxr
        rcases Nat.lt_or_ge n sp.toNat with hlt | hge
        · obtain ⟨y, hy, hyn⟩ := hL.full n hn1 hlt
          exact ⟨y, (hmem y).mpr (.inl (List.mem_append_left _ hy)), hyn⟩
        · obtain ⟨y, hy, hyn⟩ := hR.full n hge hn2
          exact ⟨y, (hmem y).mpr (.inl (List.mem_append_right _ hy)), hyn⟩
      · have hb := hblock x hx
        have hxo : x ∈ pre ++ post := by
          rw [hpp] at hx
          simp only [List.mem_append, List.mem_cons] at hx ⊢
          tauto
        refine ⟨x, (hmem x).mpr (.inr hxo), ?_⟩
        rw [Fpage.lo_congr hb, Fpage.hi_congr hb]
        exact ⟨hn1, hn2⟩
  · intro x hx
    exact h.frame x (h.old hlive (hout x hx).1)
  · intro x hx
    rcases (hmem x).mp hx with hx | hx
    · rcases List.mem_append.mp hx with hx | hx
      · have := hL.bounds x hx
        omega
      · have := hR.bounds x hx
        omega
    · have hb := hblock x (hout x hx).1
      rw [Fpage.lo_congr hb, Fpage.hi_congr hb]
      exact hord.not_across hr (hout x hx).1 (hout x hx).2 (by omega) (by omega)

/-- An address of the page or its end, which is 0 for a page at the end of memory. -/
theorem Fpage.Aligned.within {f : Fpage} (h : f.Aligned) (hin : split - f.base ≤ f.size) :
    (f.lo ≤ split.toNat ∧ split.toNat ≤ f.hi) ∨ (split.toNat = 0 ∧ f.hi = 2 ^ 32) := by
  have hbase : f.base.toNat = f.lo := rfl
  have hsize : f.lo + f.size.toNat = f.hi := by
    rw [h.size_toNat]
    rfl
  have hle := h.hi_le
  rw [BitVec.le_def, toNat_sub_eq, hbase] at hin
  split at hin <;> omega

theorem mempoolAlign_within (hsz : (s.fp r).Sized)
    (hmap : (mempoolGetbyid mm (s.fp r).mpid).mappable = true)
    (hin : split - (s.fp r).base ≤ (s.fp r).size) :
    (mempoolAlign mm (s.fp r).mpid split).toNat = roundUp split.toNat % 2 ^ 32 ∧
      (((s.fp r).lo ≤ roundUp split.toNat ∧ roundUp split.toNat ≤ (s.fp r).hi) ∨
        (roundUp split.toNat = 0 ∧ (s.fp r).hi = 2 ^ 32)) := by
  have hdh := hsz.dvd_hi
  have hcases := hsz.toAligned.within hin
  unfold mempoolAlign roundUp
  rw [if_pos hmap, addrAlign_toNat]
  omega

/-- `split_fpage` for a page that is not mapped elsewhere, at an address of the page or its end:
with room for the pieces it returns, and when it returns the page has been cut at the address
rounded up, everything else is as it was. -/
theorem split_fpage_recuts {split : Word} {rl : Bool} {m : List FpRef} (hq : Quiet s)
    (hl : Chain s.asNext (s.as a).first l) (hlive : ∀ x ∈ l, s.liveFp x = true)
    (hsized : ∀ x ∈ l, (s.fp x).Sized) (hord : s.Ordered l) (hr : r ∈ l)
    (halone : (s.fp r).mapNext = some r)
    (hmap : (mempoolGetbyid mm (s.fp r).mpid).mappable = true)
    (hm : Chain s.mpuNext (s.as a).mpuFirst m) (hmlive : ∀ x ∈ m, s.liveFp x = true) (hrm : r ∈ m)
    (hin : split - (s.fp r).base ≤ (s.fp r).size) :
    (cutPages (s.fp r) (mempoolAlign mm (s.fp r).mpid split) ≤ s.room →
      ∃ res s', splitFpage mm s (some a) r split rl = .ok (res, s')) ∧
    ∀ res s', splitFpage mm s (some a) r split rl = .ok (res, s') →
      ∃ pre new post, Recut s s' a r (roundUp split.toNat) l pre new post := by
  have hsz := hsized r hr
  obtain ⟨hval, hplace⟩ := mempoolAlign_within hsz hmap hin
  have hbase : (s.fp r).base.toNat = (s.fp r).lo := rfl
  have hstop := hsz.stop_toNat
  have hle := hsz.hi_le
  refine ⟨fun hroom => ?_, fun res s' hrun => ?_⟩
  · by_cases hend : mempoolAlign mm (s.fp r).mpid split = (s.fp r).base ∨
        mempoolAlign mm (s.fp r).mpid split = (s.fp r).stop
    · refine ⟨some r, s, ?_⟩
      unfold splitFpage
      simp only
      rw [if_pos hend]
      rfl
    · obtain ⟨h1, h2⟩ := not_or.mp hend
      have hmlen : m.length ≤ s.walkBound :=
        Nat.le_succ_of_le (length_le_of_nodup_lt hm.nodup fun x hx => liveFp_lt (hmlive x hx))
      exact splitFpage_total hq hl hlive hr halone
        (fun x hx => hmlive x (hm.mem_of_mem_walk hx)) (leads_of_mem .mpu hm hmlen hrm) h1 h2 hroom
  · rcases splitFpage_spec hq hl hlive hr hrun with ⟨hend, _, hsame⟩ | ⟨h1, h2, hcut⟩
    · -- the address after rounding is an end of the page
      have hends : roundUp split.toNat = (s.fp r).lo ∨ roundUp split.toNat = (s.fp r).hi ∨
          roundUp split.toNat = 0 := by
        rcases hend with hend | hend
        · have := congrArg BitVec.toNat hend
          omega
        · have := congrArg BitVec.toNat hend
          omega
      obtain ⟨pre, post, h⟩ := Recut.refl hl hr hsized hord hends
      rw [hsame]
      exact ⟨pre, [r], post, h⟩
    · rcases hcut with ⟨hmapped, _, _⟩ | ⟨cl, cr, hcut, _⟩
      · exact absurd halone hmapped
      · have hn1 : (mempoolAlign mm (s.fp r).mpid split).toNat ≠ (s.fp r).base.toNat :=
          fun h => h1 (BitVec.eq_of_toNat_eq h)
        have hn2 : (mempoolAlign mm (s.fp r).mpid split).toNat ≠ (s.fp r).stop.toNat :=
          fun h => h2 (BitVec.eq_of_toNat_eq h)
        have hround : (mempoolAlign mm (s.fp r).mpid split).toNat = roundUp split.toNat := by
          omega
        obtain ⟨pre, post, h⟩ := hcut.recut hl hlive hr hsized hord
          (by rw [hround]; exact dvd_roundUp _) (by omega) (by omega)
        rw [hround] at h
        exact ⟨pre, cl ++ cr, post, h⟩

/-- The middle one of three pages, of 512 bytes, is cut in two. -/
theorem split_fpage_recuts_middle : ∃ s s' res,
    (system (memmap stm32f4Board) stm32f4Board).Reachable (fun _ _ => True) s ∧
    splitFpage (memmap stm32f4Board) s (some 0) 3 0x20008300#32 false = .ok (res, s') ∧
    ∃ pre new post, Recut s s' 0 3 0x20008300 [2, 3, 4] pre new post := by
  obtain ⟨s, hreach, hq, _, hp⟩ := exists_bootRun
    [.asCreate 1#32, .assignFpages 0 0x20008000#32 0x100#32,
      .assignFpages 0 0x20008200#32 0x200#32, .assignFpages 0 0x20008500#32 0x100#32,
      .asSetupMpu 0 0#32 0#32 0#32 0#32]
    (fun s => decide (
      ((s.as 0).first = some 2 ∧ s.asNext 2 = some 3 ∧ s.asNext 3 = some 4 ∧ s.asNext 4 = none) ∧
      ((s.as 0).mpuFirst = some 2 ∧ s.mpuNext 2 = some 3 ∧ s.mpuNext 3 = some 4 ∧
        s.mpuNext 4 = none) ∧
      (s.liveFp 2 = true ∧ s.liveFp 3 = true ∧ s.liveFp 4 = true) ∧
      ((s.fp 2).Sized ∧ (s.fp 3).Sized ∧ (s.fp 4).Sized) ∧ s.Ordered [2, 3, 4] ∧
      (s.fp 3).mapNext = some 3 ∧
      (mempoolGetbyid (memmap stm32f4Board) (s.fp 3).mpid).mappable = true ∧
      0x20008300#32 - (s.fp 3).base ≤ (s.fp 3).size ∧
      cutPages (s.fp 3) (mempoolAlign (memmap stm32f4Board) (s.fp 3).mpid 0x20008300#32) ≤
        s.room)) (by decide +kernel)
  obtain ⟨⟨f1, f2, f3, f4⟩, ⟨m1, m2, m3, m4⟩, hlive, hsized, hord, halone, hmap, hin, hroom⟩ :=
    of_decide_eq_true hp
  have hl : Chain s.asNext (s.as 0).first [2, 3, 4] := by simp [f1, f2, f3, f4]
  have hm : Chain s.mpuNext (s.as 0).mpuFirst [2, 3, 4] := by simp [m1, m2, m3, m4]
  obtain ⟨hret, hcut⟩ := @split_fpage_recuts (memmap stm32f4Board) s 0 3 [2, 3, 4] 0x20008300#32
    false [2, 3, 4] hq hl (by simpa using hlive) (by simpa using hsized) hord (by simp) halone hmap
    hm (by simpa using hlive) (by simp) hin
  obtain ⟨res, s', hrun⟩ := hret hroom
  exact ⟨s, s', res, hreach, hrun, hcut res s' hrun⟩

end F9
