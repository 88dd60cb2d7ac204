import F9.Logic.Assigned
import F9.Logic.HandsOut

/-!
# `map_area` for the privileged thread

The root thread maps what it does not have: `assign_fpages_ext` first fills the gaps of the
request, and `first` and `last` are the pages it passes. A page that it created is on no MPU
list, so that `split_fpage` does not return from cutting it (`splitFpage_fresh`). If the
request begins in an old page, the call goes on as an unprivileged one
(`Assigned.hands_old`); otherwise it hands out pages from `base` rounded up on
(`Assigned.hands_new`).
-/

namespace F9

open Arc Linked Result

variable {mm : Memmap} {s s' t t' s1 : Kernel} {src dst b : AsRef} {m mpid : Nat} {N : List FpRef}
  {x w y g : FpRef} {split : Word} {rl : Bool} {s2 : Kernel}

/-! ## New pages -/

section

variable (hext : Extended mm m s t src (s.pages src) N (t.pages src))

include hext

theorem Extended.ready (hr : Ready s) (hs : s.liveAs src = true) : Ready t :=
  ⟨hext.out.quiet hr.quiet, (hext.lists hr.wf hs).wf, by rw [hext.out.num]; exact hr.num⟩

theorem Extended.unchanged (hwf : Wf s) (hs : s.liveAs src = true) (hb : s.liveAs b = true)
    (hne : b ≠ src) : Unchanged s t b := by
  have hlists := hext.lists hwf hs
  have hnew : ∀ x ∈ s.pages b, x ∉ N := fun x hx hxN => hwf.not_mem (hext.fresh x hxN) hb hx
  have hlist : ∀ x ∈ s.pages b, x ∉ t.pages src := by
    intro x hx hxl
    rcases (hext.mem x).mp hxl with hxs | hxN
    · exact hwf.disj b src hb hs hne x hx hxs
    · exact hnew x hx hxN
  refine ⟨?_, ?_, fun x hx => ?_⟩
  · rw [hext.as b, hext.first b hne]
  · rw [hlists.pages_eq (hext.out.live hb), Function.update_of_ne hne]
  · have hnext : t.asNext x = (s.fp x).asNext := hext.links x (hlist x hx)
    have hfp := hext.frame x (hnew x hx)
    rw [hnext] at hfp
    have hmpu : t.mpuNext x = (s.fp x).mpuNext := by
      unfold Kernel.mpuNext
      rw [hfp]
    rw [hfp, hmpu]

theorem Extended.mpuIn (hwf : Wf s) (hs : s.liveAs src = true) (hown : MpuOwn s src) :
    MpuIn t src {x | x ∈ s.pages src} := by
  refine ⟨fun r hr => ?_, fun x hx r hr => ?_⟩
  · rw [hext.as src] at hr
    exact hown.head r hr
  · have hxN : x ∉ N := fun hxN => hwf.not_mem (hext.fresh x hxN) hs hx
    unfold Kernel.mpuNext at hr
    rw [hext.frame x hxN] at hr
    exact hown.next x hx r hr

theorem Extended.alone (hx : x ∈ t.pages src) (hnew : x ∉ s.pages src) :
    (t.fp x).mapNext = some x := by
  have hxN : x ∈ N := ((hext.mem x).mp hx).resolve_left hnew
  obtain ⟨b, _, _, hfp⟩ := hext.page x hxN
  rw [hfp]
  rfl

end

/-- A page outside of the MPU list is not cut: `split_fpage` returns it at a boundary. -/
theorem splitFpage_fresh {T : Set FpRef} {res : Option FpRef} (hr : Ready t)
    (ht : t.liveAs src = true) (hx : x ∈ t.pages src) (hmpu : MpuIn t src T) (hxT : x ∉ T)
    (halone : (t.fp x).mapNext = some x)
    (h : splitFpage mm t (some src) x split rl = .ok (res, t')) :
    t' = t ∧ res = some x ∧ (mempoolAlign mm (t.fp x).mpid split = (t.fp x).base ∨
      mempoolAlign mm (t.fp x).mpid split = (t.fp x).stop) := by
  rcases splitFpage_spec hr.quiet (hr.wf.chain src ht) (hr.wf.live src ht) hx h with
    ⟨hb, hres, hs⟩ | ⟨_, _, ⟨hm, _⟩ | ⟨cl, cr, hc, _⟩⟩
  · exact ⟨hs, hres, hb⟩
  · exact absurd halone hm
  · exact absurd (hmpu.mem_past hc.mpuLinks) hxT

theorem align_eq {f : Fpage} (hsz : f.Sized) (hhi : f.hi < 2 ^ 32)
    (hlt : roundUp split.toNat < 2 ^ 32)
    (h : mempoolAlign mm mpid split = f.base ∨ mempoolAlign mm mpid split = f.stop) :
    roundUp split.toNat = f.lo ∨ roundUp split.toNat = f.hi := by
  have hval : (mempoolAlign mm mpid split).toNat = f.lo ∨
      (mempoolAlign mm mpid split).toNat = f.hi := by
    rcases h with h | h
    · exact .inl (by rw [h]; rfl)
    · exact .inr (by rw [h, hsz.stop_eq hhi])
  by_cases hm : (mempoolGetbyid mm mpid).mappable = true
  · rw [mempoolAlign_toNat hm hlt] at hval
    exact hval
  · -- `INVALID_FPAGE_REGION` is not a multiple of 256
    have hinv : mempoolAlign mm mpid split = INVALID_FPAGE_REGION := by
      unfold mempoolAlign
      rw [if_neg hm]
    have : INVALID_FPAGE_REGION.toNat = 2 ^ 32 - 1 := rfl
    have h1 := hsz.dvd_lo
    have h2 := hsz.dvd_hi
    rw [hinv] at hval
    omega

/-- The mapping loop from the first to the last page of a part of the list. -/
theorem mapChain_part {action : MapAction} {n : Nat} {pre seg post : List FpRef} {f : FpRef}
    (hne : src ≠ dst) (hwf : Wf t) (hs : t.liveAs src = true) (hd : t.liveAs dst = true)
    (hl : t.pages src = pre ++ seg ++ post) (hf : seg.head? = some f) (hw : seg.getLast? = some w)
    (h : mapChain dst action w n t (some f) = .ok t') :
    CloneSeq dst action t seg t' := by
  obtain ⟨seg', rfl⟩ := List.head?_eq_some_iff.mp hf
  have hl' : t.pages src = pre ++ f :: (seg' ++ post) := by
    rw [hl]
    simp
  obtain ⟨rs, post', hseg, hcs⟩ := mapChain_listed hne n t t' pre f (seg' ++ post) hwf hs hd hl' h
  obtain ⟨ini, hini⟩ := List.getLast?_eq_some_iff.mp hw
  have hnd := (hwf.chain src hs).nodup
  rw [hl', hseg] at hnd
  have hnd' := (List.nodup_append.mp hnd).2.1
  have heq : ini ++ w :: post = rs ++ w :: post' := by
    rw [← hseg, ← List.cons_append, hini]
    simp
  obtain ⟨_, hndw, hdisj⟩ := List.nodup_append.mp hnd'
  have hrs : w ∉ rs := fun hwr => hdisj w hwr w (by simp) rfl
  have hpost : w ∉ post' := (List.nodup_cons.mp hndw).1
  obtain ⟨hr, _, _⟩ := (List.append_cons_inj_of_notMem hrs hpost).mp heq.symm
  rw [hini, ← hr]
  exact hcs

/-! ## Requests that begin in an old page -/

section

variable {base size : Word} {pre seg post : List FpRef} {f z : FpRef}

theorem Assigned.first_mem (h : Assigned s t src base size pre seg post f z) :
    f ∈ t.pages src := by
  rw [h.pages]
  simp [List.mem_of_mem_head? h.head]

theorem Assigned.last_mem (h : Assigned s t src base size pre seg post f z) :
    z ∈ t.pages src := by
  rw [h.pages]
  simp [List.mem_of_mem_getLast? h.last]

theorem Roomy.roundUp_stop (h : Roomy s src base size) :
    roundUp (base + size).toNat < 2 ^ 32 := by
  have := (roundUp_add base.toNat size.toNat).1
  have := h.fits
  rw [h.stop_toNat]
  omega

/-- The state after the first split of a privileged call: new pages still are on no MPU
list. -/
theorem split_keeps_new {g : Option FpRef} (hr : Ready t) (hs : t.liveAs src = true)
    (hT : ∀ x ∈ s.pages src, t.liveFp x = true) (hmpu : MpuIn t src {x | x ∈ s.pages src})
    (hf : f ∈ t.pages src) (h : splitFpage mm t (some src) f split rl = .ok (g, s1))
    (hx : x ∈ t.pages src) (hxf : x ≠ f) :
    Ready s1 ∧ s1.liveAs src = true ∧ MpuIn s1 src {x | x ∈ s.pages src} ∧ x ∈ s1.pages src ∧
      (s1.fp x).block = (t.fp x).block ∧ (s1.fp x).mapNext = (t.fp x).mapNext := by
  rcases splitFpage_spec hr.quiet (hr.wf.chain src hs) (hr.wf.live src hs) hf h with
    ⟨_, _, rfl⟩ | ⟨_, _, ⟨_, _, rfl⟩ | ⟨cl, cr, hc, _⟩⟩
  · exact ⟨hr, hs, hmpu, hx, rfl, rfl⟩
  · exact ⟨hr, hs, hmpu, hx, rfl, rfl⟩
  · have hxc : x ∉ cl ++ cr := fun hxc => hr.wf.not_mem (hc.fresh x hxc) hs hx
    refine ⟨hr.cut hs hf hc, hc.out.live hs, hmpu.past ?_ hc.mpuLinks,
      (hc.mem_pages hr.wf hs hf).mpr (.inr ⟨hx, hxf⟩), hc.block hxc, by rw [hc.frame x hxc]⟩
    intro y hy hyc
    exact ne_true_of_eq_false (hc.fresh y hyc) (hT y hy)

/-- If the request begins in an old page, the pages of `base` and of its end are found as by
an unprivileged call. -/
theorem Assigned.hands_old {g : FpRef} (hr : Ready s) (ha : SortedSpace s src)
    (hroom : Roomy s src base size) (hown : MpuOwn s src)
    (hext : Extended mm m s t src (s.pages src) N (t.pages src))
    (has : Assigned s t src base size pre seg post f z) (hf : f ∈ s.pages src)
    (hstage : SplitStage mm t s2 src base (base + size) f z (some g) (some w)) :
    SortedSpace t src ∧ SpanAt t src base (base + size) f z ∧
      (t.fp z).lo < (base + size).toNat := by
  have hlive : t.liveAs src = true := hext.out.live ha.live
  have hold : ∀ x ∈ s.pages src, (t.fp x).block = (s.fp x).block := fun x hx =>
    hext.block_eq (hr.wf.live src ha.live x hx)
  obtain ⟨hb1, hb2⟩ : (t.fp f).lo ≤ base.toNat ∧ base.toNat < (t.fp f).hi := by
    rcases has.first with ⟨_, h⟩ | ⟨h, _⟩
    · exact h
    · exact absurd hf h
  have hclear : StartClear s src base size := by
    refine .inr (.inl ⟨f, hf, ?_, ?_⟩)
    · rw [← Fpage.lo_congr (hold f hf)]
      exact hb1
    · rw [← Fpage.hi_congr (hold f hf)]
      exact hb2
  have hsorted := has.sortedSpace hlive hclear
  have hfm := has.first_mem
  have hzm := has.last_mem
  have hle := le_roundUp (base + size).toNat
  refine ⟨hsorted, ?_⟩
  rcases has.lastAt with ⟨h1, h2, _⟩ | ⟨hnew, _⟩ | ⟨hz, h1, cur, post', hpost, _, h2, _⟩
  · exact ⟨hsorted.spanAt has.below hfm hzm hb1 hb2 h1 h2, h1⟩
  · exact absurd hf (hnew f (List.mem_of_mem_head? has.head))
  · -- `last` is a new page in front of the last page of the request: it would be cut
    exfalso
    have hfz : f ≠ z := fun hfz => hz (hfz ▸ hf)
    have hord := has.order
    rw [has.pages, hpost] at hord
    have hzcur := (List.pairwise_append.mp hord).2.2 z
      (by simp [List.mem_of_mem_getLast? has.last]) cur (by simp)
    have hzhi := hzcur.2 (.inr hclear)
    obtain ⟨s1, y, hsplit, hlast, hsplit2⟩ := hstage.steps
    obtain rfl := (mapAreaLast_ne hlast hfz).symm
    obtain ⟨hr1, hs1, hm1, hz1, hb, hmap⟩ := split_keeps_new (hext.ready hr ha.live) hlive
      (fun x hx => by rw [hext.live, hr.wf.live src ha.live x hx, Bool.true_or])
      (hext.mpuIn hr.wf ha.live hown) hfm hsplit hzm (Ne.symm hfz)
    obtain ⟨_, _, hbound⟩ := splitFpage_fresh hr1 hs1 hz1 hm1 hz
      (by rw [hmap]; exact hext.alone hzm hz) hsplit2
    have hsz := (has.sized z hzm).congr hb
    have hhi := Fpage.hi_congr hb
    have hlo := Fpage.lo_congr hb
    have := align_eq hsz (by rw [hhi]; exact has.below z hzm) hroom.roundUp_stop hbound
    omega

end

/-! ## Requests that begin in a gap -/

/-- The pages `rs` of the source in `t` are cloned; nothing else of `dst` changes. -/
structure Cloning (s t s' : Kernel) (src dst : AsRef) (action : MapAction) (rs : List FpRef) :
    Prop where
  wf : Wf t
  dest : Unchanged s t dst
  clones : CloneSeq dst action t rs s'
  sub : rs.Sublist (t.pages src)
  aligned : ∀ r ∈ rs, (t.fp r).Aligned

/-- The pages lie between the two ends of the request, rounded up. -/
def Between (t : Kernel) (rs : List FpRef) (lo hi : Nat) : Prop :=
  ∀ r ∈ rs, lo ≤ (t.fp r).lo ∧ (t.fp r).hi ≤ hi

section

variable {base stop size : Word} {action : MapAction} {n lo : Nat} {pre seg post : List FpRef}
  {f z : FpRef}

/-- The split of a page `y` that holds the end of the request and the loop up to it, from a
page `f` before it. -/
theorem hands_to (hr : Ready t) (hs : t.liveAs src = true) (hd : t.liveAs dst = true)
    (hne : src ≠ dst) (hl : t.pages src = pre ++ seg ++ y :: post) (hhead : seg.head? = some f)
    (hsz : t.Sized src) (hbelow : (t.fp y).hi < 2 ^ 32)
    (hpre : ∀ x ∈ pre ++ seg, (t.fp x).lo ≤ (t.fp y).lo)
    (hpost : ∀ x ∈ post, (t.fp y).hi ≤ (t.fp x).lo) (h1 : (t.fp y).lo < stop.toNat)
    (h2 : stop.toNat ≤ (t.fp y).hi) (hy : lo ≤ (t.fp y).lo)
    (hseg : Between t seg lo (roundUp stop.toNat))
    (h : splitFpage mm t (some src) y stop false = .ok (some w, t'))
    (hmap : mapChain dst action w n t' (some f) = .ok s') :
    ∃ rs, Cloning t t' s' src dst action rs ∧ Between t' rs lo (roundUp stop.toNat) := by
  have hym : y ∈ t.pages src := by rw [hl]; simp
  have hsegm : ∀ x ∈ seg, x ∈ t.pages src := by
    intro x hx
    rw [hl]
    simp [hx]
  have hin := (hsz y hym).addrIn_end_iff.mpr (.inl ⟨h1.le, h2, hbelow⟩)
  have hle := le_roundUp stop.toNat
  rcases splitFpage_spec hr.quiet (hr.wf.chain src hs) (hr.wf.live src hs) hym h with
    ⟨hb, hres, rfl⟩ | ⟨hb1, hb2, ⟨_, hres, _⟩ | ⟨cl, cr, hc, hres⟩⟩
  · -- the request ends with the page
    injection hres with hw
    subst hw
    have hend : roundUp stop.toNat = (t'.fp w).hi := by
      rcases align_boundary (hsz w hym) hin hb with ⟨_, h3 | h3⟩ | ⟨h3, _⟩
      · omega
      · exact h3
      · omega
    have hl' : t'.pages src = pre ++ (seg ++ [w]) ++ post := by
      rw [hl]
      simp
    refine ⟨seg ++ [w], ⟨hr.wf, .refl _ _, ?_, ?_, ?_⟩, ?_⟩
    · refine mapChain_part hne hr.wf hs hd hl' ?_ (by simp) hmap
      rw [List.head?_append, hhead]
      rfl
    · rw [hl]
      exact List.Sublist.append (List.sublist_append_right _ _) (by simp)
    · intro r hrm
      rcases List.mem_append.mp hrm with hrm | hrm
      · exact (hsz r (hsegm r hrm)).toAligned
      · rw [List.mem_singleton.mp hrm]
        exact (hsz w hym).toAligned
    · intro r hrm
      rcases List.mem_append.mp hrm with hrm | hrm
      · exact hseg r hrm
      · rw [List.mem_singleton.mp hrm]
        exact ⟨hy, by omega⟩
  · simp at hres
  · -- the page is cut at the end of the request
    rcases hc.place hr.num (hr.wf.live src hs y hym) (hsz y hym) hin hb1 hb2 with
      ⟨_, _, hval, h3, h4⟩ | ⟨h3, _⟩
    · have hal := (hsz y hym).toAligned
      rw [← hval] at h3 h4
      have hpages := hc.placed hr.wf hs hl hal hpre hpost h3 h4
      obtain ⟨hL, _⟩ := hc.fills hal h3 h4
      have hblock : ∀ x ∈ t.pages src, (t'.fp x).block = (t.fp x).block := fun x hx =>
        hc.block fun hxc => hr.wf.not_mem (hc.fresh x hxc) hs hx
      have hwf' := (hc.lists hr.wf hs hym).wf
      have hl' : t'.pages src = pre ++ (seg ++ cl) ++ (cr ++ post) := by
        rw [hpages]
        simp
      refine ⟨seg ++ cl, ⟨hwf', hc.unchanged hr.wf hs hym hd (Ne.symm hne), ?_, ?_, ?_⟩, ?_⟩
      · refine mapChain_part hne hwf' (hc.out.live hs)
          (hc.out.live hd) hl' ?_ ?_ hmap
        · rw [List.head?_append, hhead]
          rfl
        · rw [List.getLast?_append, ← hres.trans (if_neg (by simp))]
          rfl
      · rw [hpages]
        refine List.Sublist.trans ?_ (List.sublist_append_left _ _)
        refine List.Sublist.trans ?_ (List.sublist_append_left _ _)
        rw [List.append_assoc]
        exact List.sublist_append_right _ _
      · intro r hrm
        rcases List.mem_append.mp hrm with hrm | hrm
        · exact (hsz r (hsegm r hrm)).toAligned.congr (hblock r (hsegm r hrm))
        · exact hc.left.aligned r hrm
      · intro r hrm
        rcases List.mem_append.mp hrm with hrm | hrm
        · have hb := hblock r (hsegm r hrm)
          rw [Fpage.lo_congr hb, Fpage.hi_congr hb]
          exact hseg r hrm
        · have := hL.bounds r hrm
          omega
    · omega

section

variable (has : Assigned s t src base size pre seg post f z) (hf : f ∉ s.pages src)

include has

/-- Only the first page of a segment can be both ends of it. -/
theorem Assigned.single (hwf : Wf t) (hs : t.liveAs src = true) (hfz : f = z) : seg = [f] := by
  obtain ⟨seg', rfl⟩ := List.head?_eq_some_iff.mp has.head
  have hnd := (hwf.chain src hs).nodup
  rw [has.pages] at hnd
  have hnd' := (List.nodup_append.mp (List.nodup_append.mp hnd).1).2.1
  have hlast := has.last
  cases seg' with
  | nil => rfl
  | cons x l =>
    rw [List.getLast?_cons_cons] at hlast
    exact absurd (hfz ▸ List.mem_of_mem_getLast? hlast) (List.nodup_cons.mp hnd').1

theorem Assigned.cloning (hne : src ≠ dst) (hr : Ready t) (hs : t.liveAs src = true)
    (hd : t.liveAs dst = true) (hmap : mapChain dst action z n t (some f) = .ok s') :
    Cloning t t s' src dst action seg := by
  refine ⟨hr.wf, .refl _ _, mapChain_part hne hr.wf hs hd has.pages has.head has.last hmap, ?_,
    fun r hrm => (has.sized r (by rw [has.pages]; simp [hrm])).toAligned⟩
  rw [has.pages, List.append_assoc]
  exact (List.sublist_append_left _ _).trans (List.sublist_append_right _ _)

include hf

/-- A new first page begins at `base`, rounded up, and no old page holds `base`. -/
theorem Assigned.first_new : (t.fp f).lo = roundUp base.toNat ∧
    ∀ x ∈ s.pages src, (s.fp x).hi ≤ base.toNat ∨ base.toNat < (s.fp x).lo := by
  rcases has.first with ⟨h, _⟩ | ⟨_, h⟩
  · exact absurd h hf
  · exact h

theorem Assigned.low_new : ∀ x ∈ seg, roundUp base.toNat ≤ (t.fp x).lo := by
  intro x hx
  by_cases hxf : x = f
  · rw [hxf, (has.first_new hf).1]
  · exact has.low x hx hxf

theorem Assigned.between (hz : (t.fp z).hi ≤ roundUp (base + size).toNat) :
    Between t seg (roundUp base.toNat) (roundUp (base + size).toNat) := by
  intro r hrm
  refine ⟨has.low_new hf r hrm, ?_⟩
  by_cases hrz : r = z
  · rw [hrz]
    exact hz
  · exact has.high r hrm hrz

/-- In the one chain for all of the request, the search for `last` ends where it was: a page
behind the chain holds the end only if the chain does. -/
theorem Assigned.search_chain (hroom : Roomy s src base size) (hwf : Wf t)
    (hs : t.liveAs src = true) (hpost : ∀ x ∈ post, (base + size).toNat ≤ (t.fp x).lo)
    (hfills : Fills t seg (roundUp base.toNat) (roundUp base.toNat + roundUp size.toNat))
    (h : mapAreaLast t (base + size) (f == z) (some f) z = .ok y) : y = z := by
  by_cases hfz : f = z
  · subst hfz
    have hseg := has.single hwf hs rfl
    have hl : t.pages src = pre ++ f :: post := by
      rw [has.pages, hseg]
      simp
    have hfm := has.first_mem
    rw [mapAreaLast_listed hwf hs hl] at h
    by_cases hg : addrInFpage (base + size) (t.fp f) true = true
    · rw [List.find?_cons_of_pos (by exact hg)] at h
      exact (ok_ok.mp h).symm
    · have hnone : (f :: post).find? (fun x => addrInFpage (base + size) (t.fp x) true) = none := by
        rw [List.find?_cons_of_neg (by exact hg)]
        refine List.find?_eq_none.mpr fun x hx hxin => hg ?_
        have hxm : x ∈ t.pages src := by rw [hl]; simp [hx]
        have hxlo := hpost x hx
        have hxb := has.below x hxm
        have hstop : (base + size).toNat = (t.fp x).lo := by
          rcases (has.sized x hxm).addrIn_end_iff.mp hxin with hx3 | hx3
          · omega
          · omega
        have hb := hroom.stop_toNat
        refine (has.sized f hfm).addrIn_end_iff.mpr (.inl ⟨?_, ?_, has.below f hfm⟩)
        · rw [(has.first_new hf).1]
          exact roundUp_le (by rw [hstop]; exact (has.sized x hxm).dvd_lo) (by omega)
        · have hsum := (roundUp_add base.toNat size.toNat).1
          have hup := le_roundUp (base.toNat + size.toNat)
          rw [hfills.last f has.last]
          omega
      rw [hnone] at h
      exact (ok_ok.mp h).symm
  · exact mapAreaLast_ne h hfz

variable (hr : Ready t) (hs : t.liveAs src = true) (hd : t.liveAs dst = true) (hne : src ≠ dst)

include hr hs hd hne

/-- An old last page that holds the end of the request. -/
theorem Assigned.hands_last (hz : z ∈ s.pages src) (h1 : (t.fp z).lo < (base + size).toNat)
    (h2 : (base + size).toNat ≤ (t.fp z).hi)
    (hsplit : splitFpage mm t (some src) z (base + size) false = .ok (some w, t'))
    (hmap : mapChain dst action w n t' (some f) = .ok s') :
    ∃ rs, Cloning t t' s' src dst action rs ∧
      Between t' rs (roundUp base.toNat) (roundUp (base + size).toNat) := by
  have hfz : f ≠ z := fun hfz => hf (hfz ▸ hz)
  obtain ⟨ini, hini⟩ := List.getLast?_eq_some_iff.mp has.last
  have hl : t.pages src = pre ++ ini ++ z :: post := by
    rw [has.pages, hini]
    simp
  have hnd := (hr.wf.chain src hs).nodup
  have hord := has.order
  rw [hl] at hnd hord
  refine hands_to hr hs hd hne hl ?_ has.sized (has.below z has.last_mem) ?_ ?_ h1 h2
    (has.low_new hf z (List.mem_of_mem_getLast? has.last)) ?_ hsplit hmap
  · have := has.head
    rw [hini, List.head?_append] at this
    cases hh : ini.head? with
    | none =>
      rw [hh] at this
      injection this with this
      exact absurd this.symm hfz
    | some x =>
      rw [hh] at this
      exact this
  · intro x hx
    exact ((List.pairwise_append.mp hord).2.2 x hx z (by simp)).1
  · intro x hx
    have htail := (List.pairwise_append.mp hord).2.1
    exact ((List.pairwise_cons.mp htail).1 x hx).2 (.inl hz)
  · intro r hrm
    have hrs : r ∈ seg := by rw [hini]; simp [hrm]
    refine ⟨has.low_new hf r hrs, has.high r hrs ?_⟩
    rintro rfl
    exact (List.nodup_append.mp hnd).2.2 r (List.mem_append_right _ hrm) r (by simp) rfl

/-- `first` is `last`, and the search finds the page `cur` behind it, which holds the end. -/
theorem Assigned.hands_behind {cur : FpRef} {post' : List FpRef} (hfz : f = z)
    (hpost : post = cur :: post') (hcur : cur ∈ s.pages src)
    (h1 : (t.fp cur).lo < (base + size).toNat) (h2 : (base + size).toNat ≤ (t.fp cur).hi)
    (hz : (t.fp z).hi ≤ roundUp (base + size).toNat)
    (hlast : mapAreaLast t (base + size) (f == z) (some f) z = .ok y) (hyz : y ≠ z)
    (hsplit : splitFpage mm t (some src) y (base + size) false = .ok (some w, t'))
    (hmap : mapChain dst action w n t' (some f) = .ok s') :
    ∃ rs, Cloning t t' s' src dst action rs ∧
      Between t' rs (roundUp base.toNat) (roundUp (base + size).toNat) := by
  subst hfz hpost
  have hl := has.pages
  rw [has.single hr.wf hs rfl] at hl
  have hl' : t.pages src = pre ++ f :: cur :: post' := by
    rw [hl, List.append_assoc, List.singleton_append]
  have hcm : cur ∈ t.pages src := by rw [hl]; simp
  have hycur : y = cur := by
    rw [mapAreaLast_listed hr.wf hs hl'] at hlast
    by_cases hg : addrInFpage (base + size) (t.fp f) true = true
    · rw [List.find?_cons_of_pos (by exact hg)] at hlast
      exact absurd (ok_ok.mp hlast).symm hyz
    · rw [List.find?_cons_of_neg (by exact hg), List.find?_cons_of_pos] at hlast
      · exact (ok_ok.mp hlast).symm
      · exact (has.sized cur hcm).addrIn_end_iff.mpr (.inl ⟨h1.le, h2, has.below cur hcm⟩)
  subst hycur
  have hord := has.order
  rw [hl] at hord
  have hbefore : ∀ x ∈ pre ++ [f], (t.fp x).lo ≤ (t.fp y).lo := fun x hx =>
    ((List.pairwise_append.mp hord).2.2 x hx y (by simp)).1
  have hflo := (has.first_new hf).1
  refine hands_to hr hs hd hne hl rfl has.sized (has.below y hcm) hbefore ?_ h1 h2 ?_ ?_ hsplit hmap
  · intro x hx
    have htail := (List.pairwise_append.mp hord).2.1
    exact ((List.pairwise_cons.mp htail).1 x hx).2 (.inl hcur)
  · rw [← hflo]
    exact hbefore f (by simp)
  · intro r hrm
    rw [List.mem_singleton.mp hrm, hflo]
    exact ⟨Nat.le_refl _, hz⟩

end

/-- If the request begins in a gap, the pages handed out lie between the two ends of the
request, rounded up; or they are one chain for all of it. -/
theorem Assigned.hands_new (hr : Ready s) (ha : SortedSpace s src) (hroom : Roomy s src base size)
    (hown : MpuOwn s src) (hd : s.liveAs dst = true) (hne : src ≠ dst)
    (hext : Extended mm m s t src (s.pages src) N (t.pages src))
    (has : Assigned s t src base size pre seg post f z) (hf : f ∉ s.pages src)
    (hstage : SplitStage mm t s2 src base (base + size) f z (some g) (some w))
    (hmap : mapChain dst action w n s2 (some g) = .ok s') :
    (Crossed s src base (base + size) f ∧ ∃ rs, Cloning t s2 s' src dst action rs ∧
      Between s2 rs (roundUp base.toNat) (roundUp (base + size).toNat)) ∨
    (Cloning t t s' src dst action seg ∧ s2 = t ∧ (∀ x ∈ seg, x ∉ s.pages src) ∧
      (∀ x ∈ post, (base + size).toNat ≤ (t.fp x).lo) ∧
      Fills t seg (roundUp base.toNat) (roundUp base.toNat + roundUp size.toNat)) := by
  have hs : t.liveAs src = true := hext.out.live ha.live
  have hdt : t.liveAs dst = true := hext.out.live hd
  have hrt := hext.ready hr ha.live
  have hmpu := hext.mpuIn hr.wf ha.live hown
  have hfm := has.first_mem
  have hzm := has.last_mem
  have hle := le_roundUp (base + size).toNat
  -- the first split does nothing
  obtain ⟨s1, y, hsplit, hlast, hsplit2⟩ := hstage.steps
  obtain ⟨rfl, hgf, _⟩ := splitFpage_fresh hrt hs hfm hmpu hf (hext.alone hfm hf) hsplit
  injection hgf with hgf
  subst hgf
  -- a new last page is not split either
  have hwhole : z ∉ s.pages src → y = z → s2 = s1 ∧ Cloning s1 s1 s' src dst action seg ∧
      (roundUp (base + size).toNat = (s1.fp z).lo ∨
        roundUp (base + size).toNat = (s1.fp z).hi) := by
    rintro hz rfl
    obtain ⟨rfl, hw, hb⟩ := splitFpage_fresh hrt hs hzm hmpu hz (hext.alone hzm hz) hsplit2
    obtain rfl := Option.some.inj hw
    exact ⟨rfl, has.cloning hne hrt hs hdt hmap,
      align_eq (has.sized w hzm) (has.below w hzm) hroom.roundUp_stop hb⟩
  rcases has.lastAt with ⟨h1, h2, hcross⟩ | ⟨hnew, hpost, hfills⟩ |
    ⟨hz, h1, cur, post', hpost, hcur, h2, h3, h4⟩
  · -- the last page holds the end of the request
    left
    refine ⟨hcross, ?_⟩
    have hyz : y = z := mapAreaLast_whole hrt.wf hs hfm
      ((has.sized z hzm).addrIn_end_iff.mpr (.inl ⟨h1.le, h2, has.below z hzm⟩)) hlast
    by_cases hz : z ∈ s.pages src
    · subst hyz
      exact has.hands_last hf hrt hs hdt hne hz h1 h2 hsplit2 hmap
    · obtain ⟨hs2, hclones, hend⟩ := hwhole hz hyz
      rw [hs2]
      exact ⟨seg, hclones, has.between hf (by omega)⟩
  · -- one chain for the whole request
    right
    have hyz := has.search_chain hf hroom hrt.wf hs hpost hfills hlast
    obtain ⟨hs2, hclones, _⟩ := hwhole (hnew z (List.mem_of_mem_getLast? has.last)) hyz
    exact ⟨hclones, hs2, hnew, hpost, hfills⟩
  · -- the last page of the request stands behind the last gap
    left
    have hcb := hext.block_eq (hr.wf.live src ha.live cur hcur)
    have hcd := (has.sized cur (by rw [has.pages, hpost]; simp)).dvd_lo
    have hzhi : (s1.fp z).hi ≤ roundUp (base + size).toNat := by
      have := dvd_roundUp (base + size).toNat
      omega
    have hcross : Crossed s src base (base + size) g := by
      refine .inr ⟨cur, hcur, ?_, by rw [← Fpage.lo_congr hcb]; exact h2⟩
      have hzlo := has.low_new hf z (List.mem_of_mem_getLast? has.last)
      have hbase := le_roundUp base.toNat
      have := (has.first_new hf).2 cur hcur
      rw [← Fpage.hi_congr hcb] at this
      omega
    refine ⟨hcross, ?_⟩
    by_cases hyz : y = z
    · obtain ⟨hs2, hclones, _⟩ := hwhole hz hyz
      rw [hs2]
      exact ⟨seg, hclones, has.between hf hzhi⟩
    · have hgz : g = z := by
        by_contra hgz
        exact hyz (mapAreaLast_ne hlast hgz)
      exact has.hands_behind hf hrt hs hdt hne hgz hpost hcur h2 h3 hzhi hlast hyz hsplit2 hmap

end

end F9
