import F9.Logic.Sorted

/-!
# The two splits and the mapping loop on a sorted list

The mapping loop adds the addresses of the pages it clones (`CloneSeq.covers`). It
does not return when `first` is a page that the second split has freed
(`mapChain_freed_stuck`), so a call that returns has left `first` on the list
(`splitLast`).
-/

namespace F9

open Arc Linked Result

variable {mm : Memmap} {s s' t : Kernel} {src dst : AsRef} {action : MapAction} {x y : FpRef}
  {last z : FpRef} {n mpid : Nat} {split sp stop : Word} {cl cr rs pre post : List FpRef}

/-! ## The mapping loop -/

theorem CloneSeq.covers (h : CloneSeq dst action s rs s') (hwf : Wf s) (hd : s.liveAs dst = true)
    (hrs : ∀ r ∈ rs, s.liveFp r = true) (addr : Word) :
    s'.Covers dst addr ↔ s.Covers dst addr ∨ ∃ r ∈ rs, (s.fp r).Holds addr := by
  induction h with
  | nil => simp
  | cons hc hcs ih =>
    rename_i s s1 s' r f rs
    have hlive : ∀ x ∈ rs, s1.liveFp x = true := fun x hx => by
      rw [hc.live, hrs x (List.mem_cons_of_mem _ hx), Bool.true_or]
    have hhold : ∀ x ∈ rs, ((s1.fp x).Holds addr ↔ (s.fp x).Holds addr) := by
      intro x hx
      have hxf : x ≠ f := by
        rintro rfl
        exact ne_true_of_eq_false hc.fresh (hrs x (List.mem_cons_of_mem _ hx))
      refine Fpage.holds_congr ?_ addr
      rw [hc.block, if_neg hxf]
    rw [ih (hc.lists hwf hd).wf (hc.out.live hd) hlive, hc.covers hwf hd,
      or_assoc]
    simp only [List.mem_cons, exists_eq_or_imp]
    refine or_congr_right (or_congr_right ?_)
    exact exists_congr fun x => and_congr_right fun hx => hhold x hx

/-- A loop that has come into the list of `dst` does not reach `last`, which is not there. -/
theorem mapChain_dst_stuck (n : Nat) (s : Kernel) (r : FpRef) (hwf : Wf s)
    (hd : s.liveAs dst = true) (hr : r ∈ s.pages dst) (hlast : last ∉ s.pages dst)
    (hlive : s.liveFp last = true) : ∀ s', mapChain dst action last n s (some r) ≠ .ok s' := by
  induction n generalizing s r with
  | zero =>
    intro s' h
    simp [mapChain] at h
  | succ n ih =>
    intro s' h
    obtain ⟨f, s1, hc, ⟨rfl, _⟩ | ⟨_, y, hnx, hloop⟩⟩ := mapChain_step hwf hd h
    · exact hlast hr
    · have hwf1 := (hc.lists hwf hd).wf
      have hd1 : s1.liveAs dst = true := hc.out.live hd
      have hmem : ∀ y, y ∈ s1.pages dst ↔ y = f ∨ y ∈ s.pages dst := fun y => by
        rw [hc.pages_eq hwf hd, mem_spliceAt, List.mem_singleton]
      have hrm : r ∈ s1.pages dst := (hmem r).mpr (.inr hr)
      refine ih s1 y hwf1 hd1 ((hwf1.chain dst hd1).next_mem hrm hnx) ?_ ?_ s' hloop
      · rw [hmem, not_or]
        refine ⟨?_, hlast⟩
        rintro rfl
        exact ne_true_of_eq_false hc.fresh hlive
      · rw [hc.live, hlive, Bool.true_or]

/-- A loop that starts at a freed slot whose link leads behind `last` does not return. -/
theorem mapChain_freed_stuck {r : FpRef} (hne : src ≠ dst) (hwf : Wf s) (hs : s.liveAs src = true)
    (hd : s.liveAs dst = true) (hl : s.pages src = pre ++ post) (hr : s.liveFp r = false)
    (hlast : last ∈ pre) (hnext : s.asNext r = post.head?) :
    mapChain dst action last n s (some r) ≠ .ok s' := by
  intro h
  have hls : last ∈ s.pages src := by rw [hl]; exact List.mem_append_left _ hlast
  have hlive := hwf.live src hs last hls
  cases n with
  | zero => simp [mapChain] at h
  | succ n =>
    obtain ⟨f, s1, hc, hstep⟩ := mapChain_step hwf hd h
    have hwf1 := (hc.lists hwf hd).wf
    have hs1 : s1.liveAs src = true := hc.out.live hs
    have hd1 : s1.liveAs dst = true := hc.out.live hd
    have hps : s1.pages src = s.pages src := hc.pages_ne hwf hd hs hne
    rcases hstep with ⟨rfl, _⟩ | ⟨_, y, hnx, hloop⟩
    · rw [hr] at hlive
      simp at hlive
    · by_cases hrf : r = f
      · -- the clone has taken the freed slot: the loop goes on in the list of `dst`
        subst hrf
        have hrd : r ∈ s1.pages dst := by
          rw [hc.pages_eq hwf hd, mem_spliceAt]
          exact .inl (by simp)
        refine mapChain_dst_stuck n s1 y hwf1 hd1 ((hwf1.chain dst hd1).next_mem hrd hnx)
          ?_ ?_ s' hloop
        · exact hwf1.disj src dst hs1 hd1 hne last (by rw [hps]; exact hls)
        · rw [hc.live, hlive, Bool.true_or]
      · have hrd : r ∉ s.pages dst := fun hrd => hwf.not_mem hr hd hrd
        rw [hc.links r hrd hrf, hnext] at hnx
        cases post with
        | nil => simp at hnx
        | cons x post =>
          obtain rfl := Option.some.inj hnx
          obtain ⟨rs, post', hseg, _⟩ := mapChain_listed hne n s1 s' pre x post hwf1 hs1 hd1
            (by rw [hps, hl]) hloop
          have hmem : last ∈ x :: post := by
            rw [hseg]
            simp
          have hnd : (pre ++ x :: post).Nodup := by
            rw [← hl]
            exact (hwf.chain src hs).nodup
          exact (List.nodup_append.mp hnd).2.2 last hlast last hmem rfl

/-! ## The two splits -/

/-- A state between two calls: the lists are well formed, the table has its 256 entries, and
the uninitialised `end` of `remove_fpage_from_list` reads as 0. -/
structure Ready (s : Kernel) : Prop where
  quiet : Quiet s
  wf : Wf s
  num : s.fpageTable.num = configMaxFpages

/-- An allocated address space whose list is sorted. -/
structure SortedSpace (s : Kernel) (a : AsRef) : Prop where
  live : s.liveAs a = true
  sized : s.Sized a
  ordered : s.Ordered (s.pages a)

/-- A split point that is rounded to a boundary of the page. Pools without a type have
none. -/
theorem align_boundary {f : Fpage} (hsz : f.Sized) (hin : addrInFpage split f true = true)
    (h : mempoolAlign mm mpid split = f.base ∨ mempoolAlign mm mpid split = f.stop) :
    (f.hi < 2 ^ 32 ∧ (roundUp split.toNat = f.lo ∨ roundUp split.toNat = f.hi)) ∨
      (f.hi = 2 ^ 32 ∧ split = 0#32) := by
  rcases hsz.addrIn_end_iff.mp hin with ⟨h1, h2, h3⟩ | ⟨h1, h2⟩
  · left
    have hdh := hsz.dvd_hi
    have hval : (mempoolAlign mm mpid split).toNat = f.lo ∨
        (mempoolAlign mm mpid split).toNat = f.hi := by
      rcases h with h | h
      · left
        rw [h]
        rfl
      · right
        rw [h, hsz.stop_toNat, Nat.mod_eq_of_lt h3]
    unfold mempoolAlign at hval
    unfold roundUp
    split at hval
    · rw [addrAlign_toNat] at hval
      omega
    · have : INVALID_FPAGE_REGION.toNat = 2 ^ 32 - 1 := rfl
      omega
  · exact .inr ⟨h2, h1⟩

/-- A split that succeeds, at an address of the page or at its end. -/
theorem splitFpage_place {rl : Bool} (hr : Ready s) (ha : SortedSpace s src) (hx : x ∈ s.pages src)
    (hin : addrInFpage split (s.fp x) true = true)
    (h : splitFpage mm s (some src) x split rl = .ok (some z, s')) :
    (s' = s ∧ z = x ∧ (((s.fp x).hi < 2 ^ 32 ∧ (roundUp split.toNat = (s.fp x).lo ∨
        roundUp split.toNat = (s.fp x).hi)) ∨ ((s.fp x).hi = 2 ^ 32 ∧ split = 0#32))) ∨
    ∃ cl cr sp, Cut mm s s' src x (s.pages src) sp cl cr ∧ (s.fp x).lo < sp.toNat ∧
      sp.toNat < (s.fp x).hi ∧ some z = (if rl then cr.head? else cl.getLast?) ∧
      (((s.fp x).hi < 2 ^ 32 ∧ sp.toNat = roundUp split.toNat) ∨
        ((s.fp x).hi = 2 ^ 32 ∧ split = 0#32 ∧ sp.toNat = 2 ^ 32 - 1)) := by
  have hsz := ha.sized x hx
  rcases splitFpage_spec hr.quiet (hr.wf.chain src ha.live) (hr.wf.live src ha.live) hx h with
    ⟨hb, hz, rfl⟩ | ⟨h1, h2, ⟨_, hz, _⟩ | ⟨cl, cr, hc, hz⟩⟩
  · injection hz with hz
    exact .inl ⟨rfl, hz, align_boundary hsz hin hb⟩
  · simp at hz
  · right
    refine ⟨cl, cr, _, hc, ?_⟩
    rcases hc.place hr.num (hr.wf.live src ha.live x hx) hsz hin h1 h2 with
      ⟨h3, _, hv, hlo, hhi⟩ | ⟨h3, h4, hv⟩
    · rw [hv]
      exact ⟨hlo, hhi, hz, .inl ⟨h3, rfl⟩⟩
    · have hinv : INVALID_FPAGE_REGION.toNat = 2 ^ 32 - 1 := rfl
      have hlt := hsz.lo_lt
      rw [hv, hinv]
      exact ⟨by omega, by omega, hz, .inr ⟨h3, h4, rfl⟩⟩

/-- After a cut the space is still sorted; the pages may be smaller than 256 bytes only at
the end of memory. -/
theorem Cut.sortedSpace (hr : Ready s) (ha : SortedSpace s src) (hx : x ∈ s.pages src)
    (hd : 256 ∣ sp.toNat) (h1 : (s.fp x).lo < sp.toNat) (h2 : sp.toNat < (s.fp x).hi)
    (h : Cut mm s s' src x (s.pages src) sp cl cr) :
    SortedSpace s' src := by
  obtain ⟨pre, post, hl⟩ := List.append_of_mem hx
  refine ⟨h.out.live ha.live, ?_,
    (h.ordered hr.wf ha.live hl (ha.sized x hx).toAligned ha.ordered h1 h2).2⟩
  intro y hy
  rcases (h.mem_pages hr.wf ha.live hx).mp hy with hyc | ⟨hys, _⟩
  · exact h.sized (ha.sized x hx) hd h1 h2 y hyc
  · have hb := h.block fun hyc => hr.wf.not_mem (h.fresh y hyc) ha.live hys
    exact (ha.sized y hys).congr hb

theorem Ready.cut (hr : Ready s) (hs : s.liveAs src = true) (hx : x ∈ s.pages src)
    (h : Cut mm s s' src x (s.pages src) sp cl cr) : Ready s' :=
  ⟨h.out.quiet hr.quiet, (h.lists hr.wf hs hx).wf, by rw [h.out.num]; exact hr.num⟩

/-- The address after what the split of `y` at `stop` leaves on its left, if there is
something; otherwise the end of `y`. -/
def LastEnd (y : Fpage) (stop : Word) (hi : Nat) : Prop :=
  (y.hi < 2 ^ 32 ∧ y.lo = stop.toNat ∧ hi = y.hi) ∨
  (y.hi < 2 ^ 32 ∧ y.lo < stop.toNat ∧ hi = roundUp stop.toNat) ∨
  (y.hi = 2 ^ 32 ∧ stop = 0#32 ∧ 2 ^ 32 ≤ hi + 1 ∧ hi ≤ 2 ^ 32)

/-- The state after the second split, of `y`, in a call that goes on to map from `f` to
`z` and returns. -/
structure SplitLast (s s' : Kernel) (src dst : AsRef) (stop : Word) (f y z : FpRef) : Prop where
  out : SameOut s s'
  wf : Wf s'
  first : f ∈ s'.pages src
  block : (s'.fp f).block = (s.fp f).block
  ordered : s'.Ordered (s'.pages src)
  aligned : ∀ x ∈ s'.pages src, (s'.fp x).Aligned
  covers : ∀ addr, s'.Covers src addr ↔ s.Covers src addr
  dest : Unchanged s s' dst
  stopAt : LastEnd (s.fp y) stop (s'.fp z).hi

theorem splitLast {f : FpRef} (hne : src ≠ dst) (hr : Ready s) (ha : SortedSpace s src)
    (hd : s.liveAs dst = true) (hf : f ∈ s.pages src) (hy : y ∈ s.pages src)
    (hin : addrInFpage stop (s.fp y) true = true)
    (h : splitFpage mm s (some src) y stop false = .ok (some z, s'))
    (hmap : mapChain dst action z n s' (some f) = .ok t) : SplitLast s s' src dst stop f y z := by
  have hsz := ha.sized y hy
  have hrange := hsz.addrIn_end_iff.mp hin
  have hdl := hsz.dvd_lo
  rcases splitFpage_place hr ha hy hin h with
    ⟨rfl, rfl, hb⟩ | ⟨cl, cr, sp, hc, h1, h2, hz, hsp⟩
  · refine ⟨.refl s', hr.wf, hf, rfl, ha.ordered, fun x hx => (ha.sized x hx).toAligned,
      fun _ => Iff.rfl, .refl s' dst, ?_⟩
    unfold LastEnd roundUp
    unfold roundUp at hb
    rcases hrange with hrange | hrange
    · omega
    · exact .inr (.inr ⟨hrange.2, hrange.1, by omega, by omega⟩)
  · have hs' : s'.liveAs src = true := hc.out.live ha.live
    have hd' : s'.liveAs dst = true := hc.out.live hd
    have hwf' := (hc.lists hr.wf ha.live hy).wf
    obtain ⟨pre, post, hl⟩ := List.append_of_mem hy
    obtain ⟨hpages, hord⟩ := hc.ordered hr.wf ha.live hl hsz.toAligned ha.ordered h1 h2
    have hzc : z ∈ cl := List.mem_of_getLast? hz.symm
    have hfresh : f ∉ cl ++ cr := fun hfc => hr.wf.not_mem (hc.fresh f hfc) ha.live hf
    -- the page `first` points to is not the one that was cut: the loop would not return
    have hfy : f ≠ y := by
      rintro rfl
      refine mapChain_freed_stuck hne hwf' hs' hd' hpages ?_ (by simp [hzc]) ?_ hmap
      · rw [hc.live, decide_eq_false hfresh, decide_eq_false (by simp), Bool.and_false,
          Bool.or_false]
      · rw [hc.links f ?_ hfresh]
        · have hchain := hr.wf.chain src ha.live
          rw [hl] at hchain
          exact (chain_append_cons.mp hchain).2.head_eq
        · rw [(hr.wf.chain src ha.live).nodup.mem_erase_iff]
          exact fun hmem => hmem.1 rfl
    have hinside := hsz.sub_base_le h1.le h2.le
    refine ⟨hc.out, hwf', (hc.mem_pages hr.wf ha.live hy).mpr (.inr ⟨hf, hfy⟩), hc.block hfresh,
      hord, ?_, hc.covers hr.wf ha.live hy hinside,
      hc.unchanged hr.wf ha.live hy hd (Ne.symm hne), ?_⟩
    · intro x hx
      rcases (hc.mem_pages hr.wf ha.live hy).mp hx with hxc | ⟨hxs, _⟩
      · rcases List.mem_append.mp hxc with hxc | hxc
        · exact hc.left.aligned x hxc
        · exact hc.right.aligned x hxc
      · refine (ha.sized x hxs).toAligned.congr (hc.block fun hxc => ?_)
        exact hr.wf.not_mem (hc.fresh x hxc) ha.live hxs
    · have hzhi : (s'.fp z).hi = sp.toNat :=
        (hc.fills hsz.toAligned h1 h2).1.last z hz.symm
      rw [hzhi]
      rcases hsp with ⟨h3, hv⟩ | ⟨h3, h4, hv⟩
      · right; left
        rw [hv] at h1
        unfold roundUp at h1
        rcases hrange with hrange | hrange
        · exact ⟨h3, by omega, hv⟩
        · omega
      · exact .inr (.inr ⟨h3, h4, by omega, by omega⟩)

end F9
