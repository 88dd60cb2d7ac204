import F9.Logic.Handed

/-!
# What `map_area` hands out

For a sorted source space, a successful call of the unprivileged `map_area` gives `dst`
exactly the addresses of the source from `lo` to `hi` (`mapArea_handsOut`). The bounds
are the two ends of the request, rounded up, apart from the cases in which a split point
falls on the boundary of a page and the whole page is taken (`HandsOut`).
-/

namespace F9

open Arc Linked Result

variable {mm : Memmap} {s s' : Kernel} {src dst a : AsRef} {l cl cr pre post : List FpRef}
  {sp size probe : Word} {hi n : Nat} {s1 s2 : Kernel} {y f z first0 last0 : FpRef}
  {action : MapAction}

/-- The page `P` of `base` and the first page `Q` that holds `stop`, in a sorted list. -/
structure SpanAt (s : Kernel) (src : AsRef) (base stop : Word) (P Q : FpRef) : Prop where
  first : P ∈ s.pages src
  last : Q ∈ s.pages src
  base_in : addrInFpage base (s.fp P) false = true
  stop_in : addrInFpage stop (s.fp Q) true = true
  lowest : ∀ x ∈ s.pages src, addrInFpage stop (s.fp x) true = true → (s.fp Q).lo ≤ (s.fp x).lo

variable {base stop : Word} {P Q : FpRef}

theorem SortedSpace.spanAt (ha : SortedSpace s src) (hbelow : ∀ x ∈ s.pages src, (s.fp x).hi < 2 ^ 32)
    (hP : P ∈ s.pages src) (hQ : Q ∈ s.pages src) (h1 : (s.fp P).lo ≤ base.toNat)
    (h2 : base.toNat < (s.fp P).hi) (h3 : (s.fp Q).lo < stop.toNat)
    (h4 : stop.toNat ≤ (s.fp Q).hi) : SpanAt s src base stop P Q := by
  refine ⟨hP, hQ, (ha.sized P hP).addrIn_iff.mpr ⟨h1, h2, hbelow P hP⟩,
    (ha.sized Q hQ).addrIn_end_iff.mpr (.inl ⟨h3.le, h4, hbelow Q hQ⟩), fun x hx hin => ?_⟩
  have hxb := hbelow x hx
  rcases (ha.sized x hx).addrIn_end_iff.mp hin with h5 | h5
  · rcases ha.ordered.apart hQ hx with rfl | h6 | h6
    · exact Nat.le_refl _
    · omega
    · omega
  · omega

theorem spanSearch_spanAt (ha : SortedSpace s src)
    (h : spanSearch s base stop (s.pages src) none probe = some (some P, some Q)) :
    SpanAt s src base stop P Q := by
  obtain ⟨pre, rest, hlist, hpre, hbase, hstop, hq⟩ := spanSearch_found _ _ h
  have hord := ha.ordered
  -- the list up to `Q` holds no page for `stop`
  obtain ⟨before, after, hsplit, hnone⟩ : ∃ before after, s.pages src = before ++ Q :: after ∧
      ∀ x ∈ before, addrInFpage stop (s.fp x) true = false := by
    rcases hq with rfl | ⟨hP, mid, post, rfl, hmid, _⟩
    · exact ⟨pre, rest, hlist, fun x hx => (hpre x hx).2⟩
    · refine ⟨pre ++ P :: mid, post, by rw [hlist]; simp, fun x hx => ?_⟩
      rcases List.mem_append.mp hx with hx | hx
      · exact (hpre x hx).2
      · rcases List.mem_cons.mp hx with rfl | hx
        · exact hP
        · exact hmid x hx
  refine ⟨by rw [hlist]; simp, by rw [hsplit]; simp, hbase, hstop, fun x hx hin => ?_⟩
  rw [hsplit] at hx hord
  rcases List.mem_append.mp hx with hx | hx
  · rw [hnone x hx] at hin
    simp at hin
  · exact hord.le_lo hx

/-- The bounds of what a call hands out. -/
structure HandsOut (s : Kernel) (src : AsRef) (base stop : Word) (P Q : FpRef)
    (lo hi : Nat) : Prop extends SpanAt s src base stop P Q where
  from_base : (roundUp base.toNat = (s.fp P).hi ∧ lo = (s.fp P).lo ∧ (s.fp P).hi ≤ hi) ∨
    (roundUp base.toNat < (s.fp P).hi ∧ lo = roundUp base.toNat)
  to_stop :
    (hi = roundUp stop.toNat ∧ (s.fp Q).lo < stop.toNat ∧
      (Q = P → roundUp base.toNat = stop.toNat → stop.toNat = (s.fp P).hi)) ∨
    ((s.fp Q).lo = stop.toNat ∧ hi = (s.fp Q).hi ∧ lo ≤ stop.toNat) ∨
    (Q = P ∧ roundUp base.toNat = stop.toNat ∧ (s.fp P).lo < stop.toNat ∧
      stop.toNat < (s.fp P).hi ∧
      hi = stop.toNat + 2 ^ chainShift stop ((s.fp P).stop - stop)) ∨
    (stop = 0#32 ∧ 2 ^ 32 ≤ hi + 1 ∧ hi ≤ 2 ^ 32 ∧ 0 < base.toNat)

/-- The first page of an ordered list that passes a test is the lowest one. -/
theorem Kernel.Ordered.find_lowest {p : FpRef → Bool} (h : s.Ordered l) (hy : l.find? p = some y) :
    ∀ x ∈ l, p x = true → (s.fp y).lo ≤ (s.fp x).lo := by
  induction l with
  | nil => simp at hy
  | cons w l ih =>
    intro x hx hpx
    obtain ⟨hw, hl⟩ := List.pairwise_cons.mp h
    by_cases hpw : p w = true
    · rw [List.find?_cons_of_pos hpw] at hy
      injection hy with hy
      subst hy
      rcases List.mem_cons.mp hx with rfl | hx
      · exact Nat.le_refl _
      · have := hw x hx
        have := (s.fp w).lo_lt_hi
        omega
    · rw [List.find?_cons_of_neg hpw] at hy
      rcases List.mem_cons.mp hx with rfl | hx
      · exact absurd hpx hpw
      · exact ih hl hy x hx hpx

theorem Cut.right_shift {r : FpRef} (h : Cut mm s s' a r l sp cl cr)
    (hne : (s.fp r).stop - sp ≠ 0#32) (hf : cr.head? = some f) :
    (s'.fp f).shift = chainShift sp ((s.fp r).stop - sp) := by
  have hpos : 0 < ((s.fp r).stop - sp).toNat :=
    Nat.pos_of_ne_zero fun h0 => hne (BitVec.eq_of_toNat_eq (by simpa using h0))
  have hhead : (chainBlocks ((s.fp r).stop - sp).toNat sp ((s.fp r).stop - sp)).head? =
      some (s'.fp f).block := by
    rw [← h.right.blocks, List.head?_map, hf]
    rfl
  rw [show ((s.fp r).stop - sp).toNat = ((s.fp r).stop - sp).toNat - 1 + 1 by omega,
    chainBlocks_succ _ hne, List.head?_cons] at hhead
  injection hhead with hhead
  injection hhead with _ hk
  exact hk.symm

/-- The search for `last` after the page of `base` has been cut: which page it finds, and
where the split of that page ends. -/
theorem lastEnd_of_cut (hr : Ready s) (ha : SortedSpace s src) (hl : s.pages src = pre ++ P :: post)
    (hstop : addrInFpage stop (s.fp P) true = true) (hhi : (s.fp P).hi < 2 ^ 32)
    (h1 : (s.fp P).lo < sp.toNat) (h2 : sp.toNat < (s.fp P).hi)
    (hc : Cut mm s s' src P (s.pages src) sp cl cr) (hf : cr.head? = some f) (hsz : s'.Sized src)
    (hy : (cr ++ post).find? (fun x => addrInFpage stop (s'.fp x) true) = some y)
    (hend : LastEnd (s'.fp y) stop hi) :
    (hi = roundUp stop.toNat ∧ sp.toNat < stop.toNat) ∨
    (sp = stop ∧ hi = stop.toNat + 2 ^ chainShift stop ((s.fp P).stop - stop)) ∨
    (stop = 0#32 ∧ 2 ^ 32 ≤ hi + 1 ∧ hi ≤ 2 ^ 32) := by
  have hP : P ∈ s.pages src := by rw [hl]; simp
  have hal := (ha.sized P hP).toAligned
  obtain ⟨hpages, hord⟩ := hc.ordered hr.wf ha.live hl hal ha.ordered h1 h2
  obtain ⟨_, hR⟩ := hc.fills hal h1 h2
  have hrange : (s.fp P).lo ≤ stop.toNat ∧ stop.toNat ≤ (s.fp P).hi := by
    rcases (ha.sized P hP).addrIn_end_iff.mp hstop with h | h
    · exact ⟨h.1, h.2.1⟩
    · omega
  have hmem : ∀ x ∈ cr ++ post, x ∈ s'.pages src := by
    intro x hx
    grind
  have hord2 : s'.Ordered (cr ++ post) := by
    refine List.Pairwise.sublist ?_ hord
    rw [hpages, List.append_assoc]
    exact List.sublist_append_right _ _
  have hlow := hord2.find_lowest hy
  have hpost : ∀ x ∈ post, (s.fp P).hi ≤ (s'.fp x).lo := by
    intro x hx
    have hxs : x ∈ s.pages src := by rw [hl]; simp [hx]
    have hb := hc.block fun hxc => hr.wf.not_mem (hc.fresh x hxc) ha.live hxs
    have hordl := ha.ordered
    rw [hl] at hordl
    rw [Fpage.lo_congr hb]
    exact hordl.around.2 x hx
  have hcr : ∀ x ∈ cr, sp.toNat ≤ (s'.fp x).lo ∧ (s'.fp x).hi ≤ (s.fp P).hi := hR.bounds
  rcases Nat.lt_trichotomy stop.toNat sp.toNat with hlt | heq | hgt
  · -- only a page at the end of memory can be found on the right
    have hym : y ∈ cr ++ post := List.mem_of_find?_eq_some hy
    have hylo : sp.toNat ≤ (s'.fp y).lo := by
      rcases List.mem_append.mp hym with hy' | hy'
      · exact (hcr y hy').1
      · have := hpost y hy'
        omega
    rcases hend with ⟨_, h3, _⟩ | ⟨_, h3, _⟩ | ⟨_, h3, h4, h5⟩
    · omega
    · omega
    · exact .inr (.inr ⟨h3, h4, h5⟩)
  · -- the first piece on the right begins at `stop`
    have hspstop : sp = stop := BitVec.eq_of_toNat_eq heq.symm
    have hfc : f ∈ cr := List.mem_of_mem_head? hf
    have hflo := hR.head f hf
    have hfhi := (hcr f hfc).2
    have hfin : addrInFpage stop (s'.fp f) true = true := by
      refine (hsz f (hmem f (List.mem_append_left _ hfc))).addrIn_end_iff.mpr (.inl ?_)
      have := (s'.fp f).lo_lt_hi
      omega
    have hyf : y = f := by
      obtain ⟨cr', rfl⟩ := List.head?_eq_some_iff.mp hf
      rw [List.cons_append, List.find?_cons_of_pos (by exact hfin)] at hy
      injection hy with hy
      exact hy.symm
    have hstopne : (s.fp P).stop - sp ≠ 0#32 := by
      intro h0
      have := congrArg BitVec.toNat h0
      rw [toNat_sub_eq, hal.stop_toNat, Nat.mod_eq_of_lt hhi, if_pos (by omega)] at this
      simp at this
      omega
    have hshift := hc.right_shift hstopne hf
    right; left
    refine ⟨hspstop, ?_⟩
    rw [hyf] at hend
    have hval : hi = (s'.fp f).hi := by
      rcases hend with ⟨_, _, h3⟩ | ⟨_, h3, _⟩ | ⟨h3, _⟩
      · exact h3
      · omega
      · omega
    rw [hval]
    show (s'.fp f).lo + 2 ^ (s'.fp f).shift = _
    rw [hshift, hflo, hspstop]
  · -- the piece before `stop` holds it as its end
    obtain ⟨w, hw, hw1, hw2⟩ := hR.full (stop.toNat - 1) (by omega) (by omega)
    have hwhi := (hcr w hw).2
    have hwin : addrInFpage stop (s'.fp w) true = true :=
      (hsz w (hmem w (List.mem_append_left _ hw))).addrIn_end_iff.mpr (.inl (by omega))
    have hylo := hlow w (List.mem_append_left _ hw) hwin
    rcases hend with ⟨_, h3, _⟩ | ⟨_, _, h3⟩ | ⟨_, h3, _⟩
    · omega
    · exact .inl ⟨h3, hgt⟩
    · rw [h3] at hgt
      simp at hgt

/-- The split at `base`: `first` is the page itself, or the first piece on the right. -/
theorem splitFirst (hr : Ready s) (ha : SortedSpace s src) (hP : P ∈ s.pages src)
    (hin : addrInFpage base (s.fp P) false = true)
    (h : splitFpage mm s (some src) P base true = .ok (some f, s')) :
    (s' = s ∧ f = P ∧ (roundUp base.toNat = (s.fp P).lo ∨ roundUp base.toNat = (s.fp P).hi)) ∨
    ∃ cl cr sp, Cut mm s s' src P (s.pages src) sp cl cr ∧ (s.fp P).lo < sp.toNat ∧
      sp.toNat < (s.fp P).hi ∧ cr.head? = some f ∧ sp.toNat = roundUp base.toNat := by
  obtain ⟨h1, h2, h3⟩ := (ha.sized P hP).addrIn_iff.mp hin
  rcases splitFpage_place hr ha hP (addrInFpage_end hin) h with
    ⟨hs, hf, hb⟩ | ⟨cl, cr, sp, hc, h4, h5, hz, hsp⟩
  · refine .inl ⟨hs, hf, ?_⟩
    rcases hb with ⟨_, hb⟩ | ⟨hb, _⟩
    · exact hb
    · omega
  · refine .inr ⟨cl, cr, sp, hc, h4, h5, ?_, ?_⟩
    · rw [hz, if_pos rfl]
    · rcases hsp with ⟨_, hsp⟩ | ⟨hsp, _⟩
      · exact hsp
      · omega

/-- The mapping loop after both splits: it clones the pages of the source from `f` to `z`. -/
theorem SplitLast.hands {t : Kernel} (h : SplitLast s s' src dst stop f y z) (hne : src ≠ dst)
    (hs : s.liveAs src = true) (hd : s.liveAs dst = true)
    (hmap : mapChain dst action z n s' (some f) = .ok t) :
    (s.fp f).hi ≤ (s'.fp z).hi ∧ ∃ rs, CloneSeq dst action s' rs t ∧
      rs.Sublist (s'.pages src) ∧ ∀ addr, (∃ r ∈ rs, (s'.fp r).Holds addr) ↔
        s.Covers src addr ∧ (s.fp f).lo ≤ addr.toNat ∧ addr.toNat < (s'.fp z).hi := by
  have hs' : s'.liveAs src = true := h.out.live hs
  have hd' : s'.liveAs dst = true := h.out.live hd
  obtain ⟨pre, post, hl⟩ := List.append_of_mem h.first
  obtain ⟨rs, post', hseg, hcs⟩ := mapChain_listed hne _ _ _ _ _ _ h.wf hs' hd' hl hmap
  have hl' : s'.pages src = pre ++ (rs ++ [z]) ++ post' := by
    rw [hl, hseg]
    simp
  have hhead : (rs ++ [z]).head? = some f := by
    cases rs with
    | nil =>
      injection hseg with hf _
      rw [hf]
      rfl
    | cons x rs =>
      injection hseg with hf _
      rw [hf]
      rfl
  have hord := h.ordered
  have hal := h.aligned
  rw [hl'] at hord hal
  constructor
  · rw [← Fpage.hi_congr h.block]
    cases rs with
    | nil =>
      injection hhead with hz
      rw [hz]
    | cons x rs =>
      injection hhead with hx
      subst hx
      obtain ⟨hps, _, _⟩ := List.pairwise_append.mp hord
      have := (List.pairwise_cons.mp (List.pairwise_append.mp hps).2.1).1 z (by simp)
      have := (s'.fp z).lo_lt_hi
      omega
  · refine ⟨rs ++ [z], hcs, ?_, fun addr => ?_⟩
    · rw [hl', List.append_assoc]
      exact (List.sublist_append_left _ _).trans (List.sublist_append_right _ _)
    · rw [hord.between (z := z) hal hhead (by simp) addr, ← hl', ← Fpage.lo_congr h.block]
      exact and_congr_left fun _ => h.covers addr

section

variable {base stop : Word} {P Q f y z : FpRef} {action : MapAction} {n : Nat} {t : Kernel}

/-- The range starts with the whole page of `base`. -/
theorem SpanAt.handsOut_whole (h : SpanAt s src base stop P Q) (ha : SortedSpace s src)
    (hb : roundUp base.toNat = (s.fp P).lo ∨ roundUp base.toNat = (s.fp P).hi)
    (hl : SplitLast s s' src dst stop P Q z) (hle : (s.fp P).hi ≤ (s'.fp z).hi) :
    HandsOut s src base stop P Q (s.fp P).lo (s'.fp z).hi := by
  obtain ⟨hb1, hb2, hb3⟩ := (ha.sized P h.first).addrIn_iff.mp h.base_in
  refine ⟨h, ?_, ?_⟩
  · rcases hb with hb | hb
    · exact .inr ⟨by omega, hb.symm⟩
    · exact .inl ⟨hb, rfl, hle⟩
  · rcases hl.stopAt with ⟨h1, h2, h3⟩ | ⟨h1, h2, h3⟩ | ⟨h1, h2, h3⟩
    · right; left
      refine ⟨h2, h3, ?_⟩
      rcases ha.ordered.apart h.first h.last with rfl | hPQ | hQP
      · omega
      · omega
      · omega
    · left
      refine ⟨h3, h2, ?_⟩
      rintro rfl heq
      omega
    · right; right; right
      refine ⟨h2, h3.1, h3.2, ?_⟩
      by_contra hzero
      have hstop : stop.toNat = 0 := by rw [h2]; rfl
      have hin : addrInFpage stop (s.fp P) true = true :=
        (ha.sized P h.first).addrIn_end_iff.mpr (.inl (by omega))
      have hlow := h.lowest P h.first hin
      have htop := (ha.sized Q h.last).hi_lt_of_zero (by omega)
      omega

/-- The page of `base` is cut, and `stop` is in another page. -/
theorem SpanAt.handsOut_next (h : SpanAt s src base stop P Q) (hr : Ready s)
    (ha : SortedSpace s src) (hc : Cut mm s s1 src P (s.pages src) sp cl cr)
    (h1 : (s.fp P).lo < sp.toNat) (h2 : sp.toNat < (s.fp P).hi) (hf : cr.head? = some f)
    (hsp : sp.toNat = roundUp base.toNat) (hne : Q ≠ P) (hl : SplitLast s1 s' src dst stop f Q z)
    (hle : (s1.fp f).hi ≤ (s'.fp z).hi) :
    HandsOut s src base stop P Q sp.toNat (s'.fp z).hi := by
  have hb := hc.block fun hQc => hr.wf.not_mem (hc.fresh Q hQc) ha.live h.last
  have hflo := (hc.fills (ha.sized P h.first).toAligned h1 h2).2.head f hf
  have hflt := (s1.fp f).lo_lt_hi
  have hstop := hl.stopAt
  unfold LastEnd at hstop
  rw [Fpage.lo_congr hb, Fpage.hi_congr hb] at hstop
  refine ⟨h, .inr ⟨by omega, hsp⟩, ?_⟩
  rcases hstop with ⟨h3, h4, h5⟩ | ⟨_, h4, h5⟩ | ⟨_, h4, h5, h6⟩
  · right; left
    refine ⟨h4, h5, ?_⟩
    rcases ha.ordered.apart h.first h.last with hPQ | hPQ | hQP
    · exact absurd hPQ.symm hne
    · omega
    · omega
  · exact .inl ⟨h5, h4, fun hQP => absurd hQP hne⟩
  · refine .inr (.inr (.inr ⟨h4, h5, h6, ?_⟩))
    unfold roundUp at hsp
    omega

/-- The page of `base` is cut, and it is also the page of `stop`. -/
theorem SpanAt.handsOut_same (h : SpanAt s src base stop P P) (hr : Ready s)
    (ha : SortedSpace s src) (hpages : s.pages src = pre ++ P :: post)
    (hc : Cut mm s s1 src P (s.pages src) sp cl cr) (h1 : (s.fp P).lo < sp.toNat)
    (h2 : sp.toNat < (s.fp P).hi) (hf : cr.head? = some f) (hsp : sp.toNat = roundUp base.toNat)
    (ha1 : SortedSpace s1 src)
    (hy : (cr ++ post).find? (fun x => addrInFpage stop (s1.fp x) true) = some y)
    (hl : SplitLast s1 s' src dst stop f y z) :
    HandsOut s src base stop P P sp.toNat (s'.fp z).hi := by
  obtain ⟨_, _, hhi⟩ := (ha.sized P h.first).addrIn_iff.mp h.base_in
  refine ⟨h, .inr ⟨by omega, hsp⟩, ?_⟩
  rcases lastEnd_of_cut hr ha hpages h.stop_in hhi h1 h2 hc hf ha1.sized hy hl.stopAt with
    ⟨h3, h4⟩ | ⟨h3, h4⟩ | ⟨h3, h4, h5⟩
  · exact .inl ⟨h3, by omega, fun _ heq => by omega⟩
  · right; right; left
    have : sp.toNat = stop.toNat := by rw [h3]
    exact ⟨rfl, by omega, by omega, by omega, h4⟩
  · refine .inr (.inr (.inr ⟨h3, h4, h5, ?_⟩))
    unfold roundUp at hsp
    omega

end

theorem SplitStage.sameOut {first last : Option FpRef} (hr : Ready s) (hs : s.liveAs src = true)
    (h : SplitStage mm s s' src base stop first0 last0 first last) : SameOut s s' :=
  (h.prims (X := fun _ => True) (C := fun _ _ => True) hr.quiet hr.wf trivial hs).out

/-- The two splits and the mapping loop, from the pages of `base` and `stop` on: which
addresses are handed out, and as which pages. -/
theorem SplitStage.hands (hr : Ready s) (ha : SortedSpace s src) (hd : s.liveAs dst = true)
    (hne : src ≠ dst) (hat : SpanAt s src base stop P Q)
    (hstage : SplitStage mm s s2 src base stop P Q (some f) (some z))
    (hmap : mapChain dst action z n s2 (some f) = .ok s') :
    ∃ lo hi rs, HandsOut s src base stop P Q lo hi ∧ Wf s2 ∧ Unchanged s s2 dst ∧
      CloneSeq dst action s2 rs s' ∧ rs.Sublist (s2.pages src) ∧ s2.Ordered (s2.pages src) ∧
      ∀ addr, (∃ r ∈ rs, (s2.fp r).Holds addr) ↔
        s.Covers src addr ∧ lo ≤ addr.toNat ∧ addr.toNat < hi := by
  obtain ⟨s1, y, hsplit, hlast, hsplit2⟩ := hstage.steps
  obtain ⟨pre, post, hpages⟩ := List.append_of_mem hat.first
  rcases splitFirst hr ha hat.first hat.base_in hsplit with
    ⟨rfl, rfl, hb⟩ | ⟨cl, cr, sp, hc, h1, h2, hf, hsp⟩
  · -- the page of `base` is left whole, and `last` is as it was
    obtain rfl : y = Q := mapAreaLast_whole hr.wf ha.live hat.first hat.stop_in hlast
    have hl := splitLast hne hr ha hd hat.first hat.last hat.stop_in hsplit2 hmap
    obtain ⟨hle, rs, hcs, hsub, hcov⟩ := hl.hands hne ha.live hd hmap
    exact ⟨_, _, rs, hat.handsOut_whole ha hb hl hle, hl.wf, hl.dest, hcs, hsub, hl.ordered, hcov⟩
  · have hr1 := hr.cut ha.live hat.first hc
    have hdvd : 256 ∣ sp.toNat := by
      rw [hsp]
      exact Nat.dvd_mul_left 256 _
    have ha1 := hc.sortedSpace hr ha hat.first hdvd h1 h2
    have hd1 : s1.liveAs dst = true := hc.out.live hd
    obtain ⟨hf1, _⟩ := hc.right_head hr.wf ha.live hat.first hf
    have hin := (ha.sized P hat.first).sub_base_le h1.le h2.le
    have hflo := (hc.fills (ha.sized P hat.first).toAligned h1 h2).2.head f hf
    have hun := hc.unchanged hr.wf ha.live hat.first hd (Ne.symm hne)
    -- the addresses of the source are as before the cut
    have hback : ∀ {rs : List FpRef} {hi : Nat}, (∀ addr, (∃ r ∈ rs, (s2.fp r).Holds addr) ↔
        s1.Covers src addr ∧ (s1.fp f).lo ≤ addr.toNat ∧ addr.toNat < hi) →
        ∀ addr, (∃ r ∈ rs, (s2.fp r).Holds addr) ↔
          s.Covers src addr ∧ sp.toNat ≤ addr.toNat ∧ addr.toNat < hi := by
      intro rs hi hcov addr
      rw [hcov, hc.covers hr.wf ha.live hat.first hin, hflo]
    by_cases hPQ : P = Q
    · subst hPQ
      obtain ⟨cr', rfl⟩ := List.head?_eq_some_iff.mp hf
      obtain ⟨hpages1, _⟩ :=
        hc.ordered hr.wf ha.live hpages (ha.sized P hat.first).toAligned ha.ordered h1 h2
      have hl1 : s1.pages src = (pre ++ cl) ++ f :: (cr' ++ post) := by
        rw [hpages1]
        simp
      rw [mapAreaLast_listed hr1.wf ha1.live hl1] at hlast
      cases hy : (f :: (cr' ++ post)).find? fun x => addrInFpage stop (s1.fp x) true with
      | none =>
        -- `last` still points to the freed page, which the loop does not reach
        rw [hy] at hlast
        obtain rfl : P = y := ok_ok.mp hlast
        have hdead : P ∉ s1.pages src := by
          rw [hc.mem_pages hr.wf ha.live hat.first, not_or]
          refine ⟨fun hPc => hr.wf.not_mem (hc.fresh P hPc) ha.live hat.first, fun hP => ?_⟩
          exact hP.2 rfl
        obtain ⟨rfl, hz⟩ := splitFpage_not_mem hr1.quiet (hr1.wf.chain src ha1.live)
          (hr1.wf.live src ha1.live) hdead hsplit2
        have hzP : z = P := by
          rcases hz with hz | hz
          · simp at hz
          · injection hz
        subst hzP
        obtain ⟨rs, post', hseg, _⟩ :=
          mapChain_listed hne _ _ _ _ _ _ hr1.wf ha1.live hd1 hl1 hmap
        refine absurd ?_ hdead
        rw [hl1, hseg]
        simp
      | some x =>
        rw [hy] at hlast
        obtain rfl : x = y := ok_ok.mp hlast
        have hmem : x ∈ s1.pages src := by
          rw [hl1]
          exact List.mem_append_right _ (List.mem_of_find?_eq_some hy)
        have hin1 : addrInFpage stop (s1.fp x) true = true := by
          simpa using List.find?_some hy
        have hl := splitLast hne hr1 ha1 hd1 hf1 hmem hin1 hsplit2 hmap
        obtain ⟨_, rs, hcs, hsub, hcov⟩ := hl.hands hne ha1.live hd1 hmap
        exact ⟨_, _, rs, hat.handsOut_same hr ha hpages hc h1 h2 hf hsp ha1 hy hl, hl.wf,
          hun.trans hl.dest, hcs, hsub, hl.ordered, hback hcov⟩
    · obtain rfl := (mapAreaLast_ne hlast hPQ).symm
      have hQ1 : Q ∈ s1.pages src :=
        (hc.mem_pages hr.wf ha.live hat.first).mpr (.inr ⟨hat.last, Ne.symm hPQ⟩)
      have hstop1 : addrInFpage stop (s1.fp Q) true = true := by
        have hQc : Q ∉ cl ++ cr := fun hQc => hr.wf.not_mem (hc.fresh Q hQc) ha.live hat.last
        rw [addrInFpage_congr (hc.block hQc)]
        exact hat.stop_in
      have hl := splitLast hne hr1 ha1 hd1 hf1 hQ1 hstop1 hsplit2 hmap
      obtain ⟨hle, rs, hcs, hsub, hcov⟩ := hl.hands hne ha1.live hd1 hmap
      exact ⟨_, _, rs, hat.handsOut_next hr ha hc h1 h2 hf hsp (Ne.symm hPQ) hl hle, hl.wf,
        hun.trans hl.dest, hcs, hsub, hl.ordered, hback hcov⟩

/-- An unprivileged `map_area` that returns 0 has found the pages of `base` and `stop`. -/
theorem mapArea_found (hr : Ready s) (ha : SortedSpace s src) (hne : src ≠ dst)
    (h : mapArea mm s src dst base size action false = .ok (0, s')) :
    ∃ P Q f z s2, spanSearch s base (base + size) (s.pages src) none base =
        some (some P, some Q) ∧
      SplitStage mm s s2 src base (base + size) P Q (some f) (some z) ∧
      mapChain dst action z s2.walkBound s2 (some f) = .ok s' := by
  obtain ⟨P, Q, f, z, _, s2, hspan, hstage, hmap⟩ := (mapArea_zero hne).mp h
  obtain ⟨rfl, _, hsearch⟩ := mapAreaSpan_found hr.wf ha.live hspan
  exact ⟨P, Q, f, z, s2, hsearch, hstage, hmap⟩

theorem CloneSeq.hands {action : MapAction} {rs : List FpRef} {lo : Nat} (hwf : Wf s2)
    (hs : s2.liveAs src = true) (hd : s2.liveAs dst = true) (hun : Unchanged s s2 dst)
    (hcs : CloneSeq dst action s2 rs s') (hsub : rs.Sublist (s2.pages src))
    (hcov : ∀ addr, (∃ r ∈ rs, (s2.fp r).Holds addr) ↔
      s.Covers src addr ∧ lo ≤ addr.toNat ∧ addr.toNat < hi)
    (addr : Word) :
    s'.Covers dst addr ↔
      s.Covers dst addr ∨ (s.Covers src addr ∧ lo ≤ addr.toNat ∧ addr.toNat < hi) := by
  rw [hcs.covers hwf hd (fun r hr => hwf.live src hs r (hsub.subset hr)), hun.covers, hcov]

/-- A successful call of the unprivileged `map_area`, for a sorted source: which addresses
it hands out. -/
theorem mapArea_handsOut (hr : Ready s) (ha : SortedSpace s src) (hd : s.liveAs dst = true)
    (hne : src ≠ dst) (h : mapArea mm s src dst base size action false = .ok (0, s')) :
    ∃ P Q lo hi,
      spanSearch s base (base + size) (s.pages src) none base = some (some P, some Q) ∧
      HandsOut s src base (base + size) P Q lo hi ∧
      ∀ addr, s'.Covers dst addr ↔
        s.Covers dst addr ∨ (s.Covers src addr ∧ lo ≤ addr.toNat ∧ addr.toNat < hi) := by
  obtain ⟨P, Q, f, z, s2, hsearch, hstage, hmap⟩ := mapArea_found hr ha hne h
  have hat := spanSearch_spanAt ha hsearch
  obtain ⟨lo, hi, rs, hout, hwf, hun, hcs, hsub, _, hcov⟩ := hstage.hands hr ha hd hne hat hmap
  have hout2 := hstage.sameOut hr ha.live
  exact ⟨P, Q, lo, hi, hsearch, hout, hcs.hands hwf (hout2.live ha.live)
    (hout2.live hd) hun hsub hcov⟩

end F9
