import F9.Logic.Covered
import F9.Logic.Privileged
import F9.Logic.Room
import F9.Logic.Steps

/-!
# The pages `map_area` works on

`split_fpage` frees the page it cuts, and `map_area` keeps pointers across two such calls. A
request that the source covers should work on allocated pages only, and the mapping loop
should come from `first` to `last` (`WorksOnLive`). There are two ways to use a freed page,
both with the two ends of the request in one page (`UsesFreed`):

* the request ends before the multiple of 256 where the page is cut: the search for `last`
  does not find it, and the freed page goes to the second `split_fpage`;
* the request begins with the page and ends inside it: the second split frees `first`.

A call that uses no freed page may still fault before the loop gets to `last`: in a split, or
without an entry for a clone (`Passes`). `map_area_live_pages`: these are all.
-/

namespace F9

open Linked Result

variable {mm : Memmap} {s s' : Kernel} {src dst : AsRef} {base size : Word} {action : MapAction}
  {priv : Bool} {first : Option FpRef} {s2 : Kernel} {l P Q y : FpRef} {stop sp : Word}
  {cl cr post : List FpRef}

/-- Every page that `map_area` passes to `split_fpage` and to `map_fpage` is allocated at the
call, and if the two pages of the request are found, the mapping loop gets to `last`: this is
its only exit, and `map_area` returns 0 behind it. -/
structure WorksOnLive (mm : Memmap) (s : Kernel) (src dst : AsRef) (base size : Word)
    (action : MapAction) (priv : Bool) : Prop where
  calls : ∀ c ∈ mapAreaCalls mm s src dst base size action priv,
    ∃ r, c.2 = some r ∧ c.1.liveFp r = true
  reaches : ∀ first0 last0 s1,
    mapAreaSpan mm s src dst base size priv = .ok (.span (some first0) (some last0), s1) →
    ∃ s', mapArea mm s src dst base size action priv = .ok (0, s')

/-- The page `x` of `base` is freed by one split and used after it. -/
inductive UsesFreed (mm : Memmap) (s : Kernel) (src : AsRef) (base size : Word) (x : FpRef) : Prop
  | last : Cuttable mm s src x base → base.toNat + size.toNat < roundUp base.toNat →
      UsesFreed mm s src base size x
  | first : (s.fp x).lo = base.toNat → Cuttable mm s src x (base + size) →
      UsesFreed mm s src base size x

/-- Each split leaves its page whole or can cut it, and there are entries for the clones. The
pieces of the first split are on no MPU list, so a page of both ends that is cut at `base` has
to have a piece that ends with the request. -/
structure Passes (mm : Memmap) (s : Kernel) (src : AsRef) (base stop : Word)
    (first0 last0 : FpRef) : Prop where
  first : Whole mm s first0 base ∨ Cuttable mm s src first0 base
  last : ∀ first s1 last1, splitFpage mm s (some src) first0 base true = .ok (first, s1) →
    mapAreaLast s1 stop (first0 == last0) first last0 = .ok last1 →
    Whole mm s1 last1 stop ∨ Cuttable mm s1 src last1 stop
  room : ∀ s2 first last pre seg post,
    SplitStage mm s s2 src base stop first0 last0 (some first) (some last) →
    s2.pages src = pre ++ seg ++ post → seg.head? = some first → seg.getLast? = some last →
    seg.length ≤ s2.room

/-- A sorted space below the end of memory whose pages are mapped nowhere else and are the
only ones on its MPU list, each once. -/
structure MapSource (s : Kernel) (src : AsRef) : Prop where
  ready : Ready s
  sorted : SortedSpace s src
  below : ∀ x ∈ s.pages src, (s.fp x).hi < 2 ^ 32
  alone : ∀ x ∈ s.pages src, (s.fp x).mapNext = some x
  own : MpuOwn s src
  once : MpuOnce s src

/-! ## The calls -/

theorem mem_mapAreaCalls {c : Kernel × Option FpRef}
    (h : c ∈ mapAreaCalls mm s src dst base size action priv) :
    ∃ P Q s1, mapAreaSpan mm s src dst base size priv = .ok (.span (some P) (some Q), s1) ∧
      (c = (s1, some P) ∨ ∃ first s2 y,
        splitFpage mm s1 (some src) P base true = .ok (first, s2) ∧
        mapAreaLast s2 (base + size) (P == Q) first Q = .ok y ∧
        (c = (s2, some y) ∨ ∃ f l s3, first = some f ∧
          splitFpage mm s2 (some src) y (base + size) false = .ok (some l, s3) ∧
          c ∈ mapChainCalls dst action l s3.walkBound s3 (some f))) := by
  unfold mapAreaCalls at h
  split at h
  · rename_i P Q s1 hspan
    refine ⟨P, Q, s1, hspan, ?_⟩
    rcases List.mem_cons.mp h with h | h
    · exact .inl h
    · right
      split at h
      · simp at h
      · rename_i first s2 hsplit
        split at h
        · simp at h
        · rename_i y hlast
          refine ⟨first, s2, y, hsplit, hlast, ?_⟩
          rcases List.mem_cons.mp h with h | h
          · exact .inl h
          · right
            split at h
            · rename_i l s3 hsplit2
              cases first with
              | none => simp at h
              | some f => exact ⟨f, l, s3, rfl, hsplit2, h⟩
            · simp at h
  · simp at h

variable {s1 : Kernel}

theorem second_mem_calls
    (hspan : mapAreaSpan mm s src dst base size priv = .ok (.span (some P) (some Q), s1))
    (hsplit : splitFpage mm s1 (some src) P base true = .ok (first, s2))
    (hlast : mapAreaLast s2 (base + size) (P == Q) first Q = .ok y) :
    (s2, some y) ∈ mapAreaCalls mm s src dst base size action priv := by
  unfold mapAreaCalls
  rw [hspan]
  dsimp only
  rw [hsplit]
  dsimp only
  rw [hlast]
  simp

theorem first_mem_calls {f : FpRef} {s3 : Kernel}
    (hspan : mapAreaSpan mm s src dst base size priv = .ok (.span (some P) (some Q), s1))
    (hsplit : splitFpage mm s1 (some src) P base true = .ok (some f, s2))
    (hlast : mapAreaLast s2 (base + size) (P == Q) (some f) Q = .ok y)
    (hsplit2 : splitFpage mm s2 (some src) y (base + size) false = .ok (some l, s3)) :
    (s3, some f) ∈ mapAreaCalls mm s src dst base size action priv := by
  unfold mapAreaCalls
  rw [hspan]
  dsimp only
  rw [hsplit]
  dsimp only
  rw [hlast]
  dsimp only
  rw [hsplit2]
  unfold Kernel.walkBound mapChainCalls
  simp

/-- The mapping loop on the list of the source: the pages up to `last`, which are
allocated. -/
theorem mapChainCalls_live {last : FpRef} (hne : src ≠ dst) (n : Nat) (s : Kernel)
    (pre : List FpRef) (r : FpRef) (post : List FpRef) (hwf : Wf s) (hs : s.liveAs src = true)
    (hd : s.liveAs dst = true) (hl : s.pages src = pre ++ r :: post) (hlast : last ∈ r :: post) :
    ∀ c ∈ mapChainCalls dst action last n s (some r), ∃ x, c.2 = some x ∧ c.1.liveFp x = true := by
  induction n generalizing s pre r post with
  | zero =>
    intro c hc
    simp [mapChainCalls] at hc
  | succ n ih =>
    intro c hc
    rcases List.mem_cons.mp hc with rfl | hc
    · exact ⟨r, rfl, hwf.live src hs r (by rw [hl]; simp)⟩
    · by_cases hr : some r = some last
      · rw [if_pos hr] at hc
        simp at hc
      · rw [if_neg hr] at hc
        split at hc
        · rename_i s1 x hmap hx
          injection hx with hx
          subst hx
          obtain ⟨x, f, hx, hcl⟩ := mapFpage_spec (hwf.chain dst hd) (hwf.live dst hd) hmap
          injection hx with hx
          subst hx
          -- the loop goes on with the next page of the list
          cases post with
          | nil =>
            rw [List.mem_singleton] at hlast
            exact absurd (by rw [hlast]) hr
          | cons nx post =>
            have hnext : (s1.fp r).asNext = some nx := hcl.next_listed hwf hs hd hne hl
            rw [hnext] at hc
            have hl1 : s1.pages src = pre ++ [r] ++ nx :: post := by
              rw [hcl.pages_ne hwf hd hs hne, hl]
              simp
            refine ih s1 _ nx post (hcl.lists hwf hd).wf (hcl.out.live hs)
              (hcl.out.live hd) hl1 ?_ c hc
            rcases List.mem_cons.mp hlast with heq | hmem
            · exact absurd (by rw [heq]) hr
            · exact hmem
        · simp at hc

/-! ## The first stage -/

/-- The pages of `base` and `stop`, in this order on the list. -/
structure SpanFound (s : Kernel) (src : AsRef) (base stop : Word) (P Q : FpRef) : Prop
    extends SpanAt s src base stop P Q where
  order : ∃ pre rest, s.pages src = pre ++ P :: rest ∧ Q ∈ P :: rest

/-- A page of `base` that holds the end too is both. -/
theorem SpanFound.same (ha : SortedSpace s src) (h : SpanFound s src base stop P Q)
    (hin : addrInFpage stop (s.fp P) true = true) : Q = P := by
  obtain ⟨pre, rest, hl, hQ⟩ := h.order
  rcases List.mem_cons.mp hQ with heq | hQ
  · exact heq
  · have hord := ha.ordered
    rw [hl] at hord
    have := hord.around.2 Q hQ
    have := h.lowest P h.first hin
    have := (s.fp P).lo_lt_hi
    omega

variable {x : FpRef}

section

variable (hs : MapSource s src) (hheld : s.Holds src base.toNat (base.toNat + size.toNat))

include hs hheld

/-- The end of a request that the source covers does not wrap. -/
theorem MapSource.stop_toNat : (base + size).toNat = base.toNat + size.toNat := by
  rw [BitVec.toNat_add]
  refine Nat.mod_eq_of_lt ?_
  by_contra hwrap
  have := base.isLt
  obtain ⟨w, hw, _, hw2⟩ := hheld (base.toNat + size.toNat - 1) (by omega) (by omega)
  have := hs.below w hw
  omega

/-- The first stage of a request that the source covers: it changes nothing. -/
theorem mapAreaSpan_held
    (h : mapAreaSpan mm s src dst base size priv = .ok (.span (some P) (some Q), s1)) :
    s1 = s ∧ src ≠ dst ∧ SpanFound s src base (base + size) P Q := by
  have ha := hs.sorted
  cases priv with
  | false =>
    obtain ⟨hs1, hne, hsearch⟩ := mapAreaSpan_found hs.ready.wf ha.live h
    refine ⟨hs1, hne, spanSearch_spanAt ha hsearch, ?_⟩
    obtain ⟨pre, rest, hl, _, _, _, hq⟩ := spanSearch_found _ _ hsearch
    refine ⟨pre, rest, hl, ?_⟩
    rcases hq with rfl | ⟨_, mid, post, rfl, _⟩
    · simp
    · simp
  | true =>
    obtain ⟨r, f, l, hext, hspan⟩ := mapAreaSpan_true h
    have hne : src ≠ dst := by
      rintro rfl
      simp at hspan
    rw [if_neg hne] at hspan
    injection hspan with hf hl
    subst hf hl
    obtain ⟨hpos, q, hpool⟩ := (assignFpagesExt_refuses hext).resolve_left
      fun hrefused => absurd hrefused.2.1 (by simp)
    have hpool : mempoolSearch mm base size ≠ none := fun hnone => by
      rw [hnone] at hpool
      simp at hpool
    obtain ⟨P', w, pre, rest, hassign, hlist, hw, h1, h2, hE, h3, h4⟩ :=
      assignFpagesExt_covered hs.ready.wf ha hs.below hpos hpool hheld
    rw [hassign] at hext
    injection hext with hext
    injection hext with _ hext
    injection hext with hPP hext
    injection hext with hQw hs1
    injection hPP with hPP
    injection hQw with hQw
    subst hPP hQw
    have hPm : P' ∈ s.pages src := by rw [hlist]; simp
    have hwm : w ∈ s.pages src := by rw [hlist]; simp only [List.mem_append]; exact .inr hw
    rw [← hE] at h3 h4
    exact ⟨hs1.symm, hne, ha.spanAt hs.below hPm hwm h1 h2 h3 h4, pre, rest, hlist, hw⟩

end

/-! ## The splits -/

/-- After a cut inside the page of both ends, a piece from the cut on holds the end of the
request, unless the request ends before the cut. -/
theorem Cut.stop_held (ha : SortedSpace s src) (hP : P ∈ s.pages src)
    (hhi : (s.fp P).hi < 2 ^ 32) (hstop : addrInFpage stop (s.fp P) true = true)
    (h1 : (s.fp P).lo < sp.toNat) (h2 : sp.toNat < (s.fp P).hi) (hend : sp.toNat ≤ stop.toNat)
    (hsized : ∀ x ∈ cr, (s1.fp x).Sized) (hc : Cut mm s s1 src P (s.pages src) sp cl cr) :
    ∃ x ∈ cr, addrInFpage stop (s1.fp x) true = true := by
  have hle : stop.toNat ≤ (s.fp P).hi := by
    rcases (ha.sized P hP).addrIn_end_iff.mp hstop with h3 | h3
    · exact h3.2.1
    · omega
  -- the piece that holds the last address before it, or begins there
  obtain ⟨_, hR⟩ := hc.fills (ha.sized P hP).toAligned h1 h2
  obtain ⟨w, hw, hw1, hw2⟩ := hR.full (max sp.toNat (stop.toNat - 1)) (by omega) (by omega)
  have hwhi := (hR.bounds w hw).2
  exact ⟨w, hw, (hsized w hw).addrIn_end_iff.mpr (.inl (by omega))⟩

theorem MapSource.cut (hs : MapSource s src) (hx : x ∈ s.pages src) (hd : 256 ∣ sp.toNat)
    (h1 : (s.fp x).lo < sp.toNat) (h2 : sp.toNat < (s.fp x).hi)
    (hc : Cut mm s s' src x (s.pages src) sp cl cr) : MapSource s' src := by
  have ha := hs.sorted
  have hmem : ∀ y, y ∈ s'.pages src ↔ y ∈ cl ++ cr ∨ (y ∈ s.pages src ∧ y ≠ x) :=
    fun y => hc.mem_pages hs.ready.wf ha.live hx
  have hnot : ∀ y ∈ s.pages src, y ∉ cl ++ cr := fun y hy hyc =>
    hs.ready.wf.not_mem (hc.fresh y hyc) ha.live hy
  obtain ⟨hown, honce⟩ := hs.own.shrink hs.once hc.mpuLinks hmem
    (fun y hy => (List.mem_append.mp hy).elim hc.left.mpuNext hc.right.mpuNext) hnot
  refine ⟨hs.ready.cut ha.live hx hc, hc.sortedSpace hs.ready ha hx hd h1 h2, ?_, ?_, hown, honce⟩
  · intro y hy
    have hxhi := hs.below x hx
    obtain ⟨hL, hR⟩ := hc.fills (ha.sized x hx).toAligned h1 h2
    rcases (hmem y).mp hy with hyc | ⟨hys, _⟩
    · rcases List.mem_append.mp hyc with hyc | hyc
      · have := (hL.bounds y hyc).2
        omega
      · have := (hR.bounds y hyc).2
        omega
    · rw [Fpage.hi_congr (hc.block (hnot y hys))]
      exact hs.below y hys
  · intro y hy
    rcases (hmem y).mp hy with hyc | ⟨hys, _⟩
    · exact (List.mem_append.mp hyc).elim hc.left.mapNext hc.right.mapNext
    · rw [hc.frame y (hnot y hys)]
      exact hs.alone y hys

/-- The second split: where `last` stands, and what the list is then. -/
structure LastSplit (s s' : Kernel) (src : AsRef) (y l : FpRef) : Prop where
  wf : Wf s'
  ordered : s'.Ordered (s'.pages src)
  last : l ∈ s'.pages src
  lo : (s.fp y).lo ≤ (s'.fp l).lo
  block : ∀ x ∈ s.pages src, (s'.fp x).block = (s.fp x).block

theorem lastSplit (hr : Ready s) (ha : SortedSpace s src) (hy : y ∈ s.pages src)
    (hin : addrInFpage stop (s.fp y) true = true)
    (h : splitFpage mm s (some src) y stop false = .ok (some l, s')) : LastSplit s s' src y l := by
  rcases splitFpage_place hr ha hy hin h with ⟨rfl, rfl, _⟩ | ⟨cl, cr, sp, hc, h1, h2, hl, _⟩
  · exact ⟨hr.wf, ha.ordered, hy, Nat.le_refl _, fun _ _ => rfl⟩
  · obtain ⟨pre, post, hlist⟩ := List.append_of_mem hy
    have hal := (ha.sized y hy).toAligned
    have hlc : l ∈ cl := List.mem_of_getLast? hl.symm
    refine ⟨(hc.lists hr.wf ha.live hy).wf,
      (hc.ordered hr.wf ha.live hlist hal ha.ordered h1 h2).2, ?_,
      ((hc.fills hal h1 h2).1.bounds l hlc).1, fun x hx => ?_⟩
    · exact (hc.mem_pages hr.wf ha.live hy).mpr (.inl (List.mem_append_left _ hlc))
    · exact hc.block fun hxc => hr.wf.not_mem (hc.fresh x hxc) ha.live hx

section

variable {P Q f y : FpRef} {s1 : Kernel} (hs : MapSource s src)

include hs

theorem MapSource.first_split (hP : P ∈ s.pages src) (hin : addrInFpage base (s.fp P) false = true)
    (h : splitFpage mm s (some src) P base true = .ok (first, s1)) :
    (s1 = s ∧ first = some P ∧
      (roundUp base.toNat = (s.fp P).lo ∨ roundUp base.toNat = (s.fp P).hi)) ∨
    ∃ cl cr sp f, Cut mm s s1 src P (s.pages src) sp cl cr ∧ Cuttable mm s src P base ∧
      sp.toNat = roundUp base.toNat ∧ first = some f ∧ cr.head? = some f := by
  have ha := hs.sorted
  obtain ⟨_, h2, h3⟩ := (ha.sized P hP).addrIn_iff.mp hin
  have hin' := addrInFpage_end hin
  rcases splitFpage_spec hs.ready.quiet (hs.ready.wf.chain src ha.live)
    (hs.ready.wf.live src ha.live) hP h with
    ⟨hb, hres, hs⟩ | ⟨hb1, hb2, ⟨hm, _⟩ | ⟨cl, cr, hc, hres⟩⟩
  · refine .inl ⟨hs, hres, ?_⟩
    rcases align_boundary (ha.sized P hP) hin' hb with ⟨_, h4⟩ | ⟨h4, _⟩
    · exact h4
    · omega
  · exact absurd (hs.alone P hP) hm
  · right
    have hcut := Cuttable.of_cut hs.ready ha hs.own hP hin' h3 hb1 hb2 hc
    have hf := List.head?_eq_some_head hc.right_ne
    exact ⟨cl, cr, _, _, hc, hcut, hcut.align h3, hres.trans hf, hf⟩

theorem MapSource.returns {split : Word} {rl : Bool} (hP : P ∈ s.pages src)
    (hin : addrInFpage split (s.fp P) true = true) :
    (∃ f s', splitFpage mm s (some src) P split rl = .ok (some f, s')) ↔
      Whole mm s P split ∨ Cuttable mm s src P split :=
  splitFpage_returns hs.ready hs.sorted hs.own hP (hs.alone P hP) hin (hs.below P hP)

theorem MapSource.split (hP : P ∈ s.pages src) (hin : addrInFpage base (s.fp P) false = true)
    (h : splitFpage mm s (some src) P base true = .ok (first, s1)) :
    MapSource s1 src ∧ ∃ f ∈ s1.pages src, first = some f := by
  rcases hs.first_split hP hin h with ⟨rfl, rfl, _⟩ | ⟨cl, cr, sp, f, hc, hcut, hsp, rfl, hf⟩
  · exact ⟨hs, P, hP, rfl⟩
  · have hlo := hcut.lo
    have hup := hcut.hi
    rw [← hsp] at hlo hup
    refine ⟨hs.cut hP (by rw [hsp]; exact dvd_roundUp _) hlo hup hc, f, ?_, rfl⟩
    exact (hc.right_head hs.ready.wf hs.sorted.live hP hf).1

section

variable (hheld : s.Holds src base.toNat (base.toNat + size.toNat))
include hheld

/-- The page that goes to the second split is on the list, not before `first`, if no freed
page is used. -/
theorem MapSource.last_listed (hspan : SpanFound s src base (base + size) P Q)
    (hno : ¬ UsesFreed mm s src base size P)
    (h1 : splitFpage mm s (some src) P base true = .ok (some f, s1))
    (h2 : mapAreaLast s1 (base + size) (P == Q) (some f) Q = .ok y) :
    y ∈ s1.pages src ∧ (s1.fp f).lo ≤ (s1.fp y).lo ∧
      addrInFpage (base + size) (s1.fp y) true = true := by
  have ha := hs.sorted
  obtain ⟨pre, post, hl, hQm⟩ := hspan.order
  have hord := ha.ordered
  rw [hl] at hord
  have hPQ : P ≠ Q → (s.fp P).hi ≤ (s.fp Q).lo := by
    intro hne
    rcases List.mem_cons.mp hQm with heq | hmem
    · exact absurd heq.symm hne
    · exact hord.around.2 Q hmem
  have hPlt := (s.fp P).lo_lt_hi
  have hs1 := (hs.split hspan.first hspan.base_in h1).1
  rcases hs.first_split hspan.first hspan.base_in h1 with
    ⟨rfl, hfP, _⟩ | ⟨cl, cr, sp, _, hc, hcut, hsp, hff, hf⟩
  · -- the page is left whole, and `last` is found again
    obtain rfl := Option.some.inj hfP
    obtain rfl : y = Q := mapAreaLast_whole hs.ready.wf ha.live hspan.first hspan.stop_in h2
    refine ⟨hspan.last, ?_, hspan.stop_in⟩
    by_cases heq : f = y
    · rw [heq]
    · have := hPQ heq
      omega
  · obtain rfl := Option.some.inj hff
    have hlo := hcut.lo
    have hup := hcut.hi
    rw [← hsp] at hlo hup
    have hal := (ha.sized P hspan.first).toAligned
    have hflo := (hc.fills hal hlo hup).2.head f hf
    by_cases heq : P = Q
    · subst heq
      obtain ⟨hl1, hord1⟩ := hc.ordered hs.ready.wf ha.live hl hal ha.ordered hlo hup
      have hend : sp.toNat ≤ (base + size).toNat := by
        rw [hs.stop_toNat hheld]
        by_contra hlt
        exact hno (.last hcut (by omega))
      obtain ⟨x, hx, hxin⟩ := hc.stop_held ha hspan.first (hs.below P hspan.first) hspan.stop_in
        hlo hup hend (fun x hx => hs1.sorted.sized x
          ((hc.mem_pages hs.ready.wf ha.live hspan.first).mpr (.inl (List.mem_append_right _ hx))))
      obtain ⟨cr', rfl⟩ := List.head?_eq_some_iff.mp hf
      have hl2 : s1.pages src = (pre ++ cl) ++ f :: (cr' ++ post) := by
        rw [hl1]
        simp
      rw [mapAreaLast_listed hs1.ready.wf hs1.sorted.live hl2] at h2
      cases hfind : (f :: (cr' ++ post)).find? fun z => addrInFpage (base + size) (s1.fp z) true with
      | none =>
        exact absurd hxin (by simpa using List.find?_eq_none.mp hfind x (List.mem_append_left _ hx))
      | some z =>
        rw [hfind] at h2
        obtain rfl : z = y := ok_ok.mp h2
        have hzm := List.mem_of_find?_eq_some hfind
        rw [hl2] at hord1 ⊢
        exact ⟨List.mem_append_right _ hzm, hord1.le_lo hzm, by simpa using List.find?_some hfind⟩
    · obtain rfl := (mapAreaLast_ne h2 heq).symm
      have hb := hc.block fun hQc => hs.ready.wf.not_mem (hc.fresh Q hQc) ha.live hspan.last
      refine ⟨(hc.mem_pages hs.ready.wf ha.live hspan.first).mpr
        (.inr ⟨hspan.last, Ne.symm heq⟩), ?_, ?_⟩
      · have := hPQ heq
        rw [Fpage.lo_congr hb]
        omega
      · rw [addrInFpage_congr hb]
        exact hspan.stop_in

/-- A page of both ends that the second split cuts begins with the request, if it is still
`first`. -/
theorem MapSource.first_freed (hspan : SpanAt s src base (base + size) P P)
    (hn1 : mempoolAlign mm (s.fp P).mpid (base + size) ≠ (s.fp P).base)
    (hn2 : mempoolAlign mm (s.fp P).mpid (base + size) ≠ (s.fp P).stop)
    (hstage : SplitStage mm s s2 src base (base + size) P P (some P) (some l)) :
    UsesFreed mm s src base size P := by
  obtain ⟨s1, y, h1, h2, h3⟩ := hstage.steps
  have ha := hs.sorted
  obtain ⟨hb1, hb2, hhi⟩ := (ha.sized P hspan.first).addrIn_iff.mp hspan.base_in
  rcases hs.first_split hspan.first hspan.base_in h1 with
    ⟨rfl, _, hbd⟩ | ⟨cl, cr, sp, f, hc, _, _, hf, hhead⟩
  · obtain rfl : y = P := mapAreaLast_whole hs.ready.wf ha.live hspan.first hspan.stop_in h2
    rcases (hs.returns hspan.first hspan.stop_in).mp ⟨_, _, h3⟩ with hb | hcut
    · exact absurd hb (not_or.mpr ⟨hn1, hn2⟩)
    · refine .first ?_ hcut
      have hlo := hcut.lo
      have hup := hcut.hi
      rcases hbd with hbd | hbd
      · have := le_roundUp base.toNat
        omega
      · -- the request would end behind the page
        have hmono := hs.stop_toNat hheld
        have := roundUp_mono (show base.toNat ≤ (base + size).toNat by omega)
        omega
  · injection hf with hf
    have hfree := hc.fresh P (by rw [hf]; exact List.mem_append_right _ (List.mem_of_mem_head? hhead))
    rw [hs.ready.wf.live src ha.live P hspan.first] at hfree
    simp at hfree

/-- If no freed page is used, the list leads from `first` to `last` after the splits. -/
theorem MapSource.loop_listed (hspan : SpanFound s src base (base + size) P Q)
    (hno : ¬ UsesFreed mm s src base size P)
    (hstage : SplitStage mm s s2 src base (base + size) P Q (some f) (some l)) :
    SameOut s s2 ∧ Wf s2 ∧ ∃ pre rest, s2.pages src = pre ++ f :: rest ∧ l ∈ f :: rest := by
  obtain ⟨s1, y, h1, h2, h3⟩ := hstage.steps
  obtain ⟨hs1, _, hf1, hf⟩ := hs.split hspan.first hspan.base_in h1
  obtain rfl := Option.some.inj hf
  obtain ⟨hy1, hle, hin1⟩ := hs.last_listed hheld hspan hno h1 h2
  have hls := lastSplit hs1.ready hs1.sorted hy1 hin1 h3
  have ha := hs.sorted
  have hf2 : f ∈ s2.pages src := by
    rcases hstage.first_listed hs.ready.quiet hs.ready.wf ha.live hspan.first
      (hs.ready.wf.live src ha.live) hs.own with hf2 | ⟨rfl, rfl, _, _, _, hn1, hn2⟩
    · exact hf2
    · -- the page is whole after the first split and cut by the second
      exact absurd (hs.first_freed hheld hspan.toSpanAt hn1 hn2 hstage) hno
  refine ⟨hstage.sameOut hs.ready ha.live, hls.wf, ?_⟩
  obtain ⟨pre, rest, hl⟩ := List.append_of_mem hf2
  refine ⟨pre, rest, hl, ?_⟩
  have hlm := hls.last
  have hord := hls.ordered
  rw [hl] at hlm hord
  rcases List.mem_append.mp hlm with hpre | hrest
  · have := hord.around.1 l hpre
    have := (s2.fp l).lo_lt_hi
    have := hls.lo
    have := Fpage.lo_congr (hls.block f hf1)
    omega
  · exact hrest

end

end

/-! ## Freed pages -/

theorem Cut.freed (hx : s.liveFp x = true) (h : Cut mm s s' src x (s.pages src) sp cl cr) :
    s'.liveFp x = false := by
  have hxc : x ∉ cl ++ cr := fun hxc => ne_true_of_eq_false (h.fresh x hxc) hx
  rw [h.live, decide_eq_false hxc, decide_eq_false (by simp), Bool.and_false, Bool.or_false]

section

variable {x : FpRef} (hs : MapSource s src)
  (hspan : mapAreaSpan mm s src dst base size priv = .ok (.span (some x) (some x), s))
  (hx : x ∈ s.pages src)

include hs hspan hx

/-- A page that is cut at `base` while the request ends before the cut goes to the second
split. -/
theorem MapSource.last_used (hcut : Cuttable mm s src x base)
    (hend : (base + size).toNat < roundUp base.toNat) :
    ∃ s1, (s1, some x) ∈ mapAreaCalls mm s src dst base size action priv ∧
      s1.liveFp x = false := by
  have ha := hs.sorted
  have hhi := hs.below x hx
  have hlo := hcut.lo
  have hup := hcut.hi
  have hsp := hcut.align hhi
  obtain ⟨s1, cl, cr, hc, hsplit⟩ : ∃ s1 cl cr, Cut mm s s1 src x (s.pages src)
      (mempoolAlign mm (s.fp x).mpid base) cl cr ∧
      splitFpage mm s (some src) x base true = .ok (cr.head?, s1) :=
    hcut.cut hs.ready ha hs.own hx (hs.alone x hx) hhi
  rw [← hsp] at hlo hup
  obtain ⟨f, cr', rfl⟩ := List.exists_cons_of_ne_nil hc.right_ne
  obtain ⟨pre, post, hl⟩ := List.append_of_mem hx
  have hal := (ha.sized x hx).toAligned
  obtain ⟨hl1, hord1⟩ := hc.ordered hs.ready.wf ha.live hl hal ha.ordered hlo hup
  have hflo := (hc.fills hal hlo hup).2.head f rfl
  have hs1 := hs.cut hx (by rw [hsp]; exact dvd_roundUp _) hlo hup hc
  have hl2 : s1.pages src = (pre ++ cl) ++ f :: (cr' ++ post) := by
    rw [hl1]
    simp
  -- every page from `first` on begins behind the end of the request
  have hnone : (f :: (cr' ++ post)).find? (fun y => addrInFpage (base + size) (s1.fp y) true) =
      none := by
    refine List.find?_eq_none.mpr fun y hy hyin => ?_
    have hym : y ∈ s1.pages src := by
      rw [hl2]
      exact List.mem_append_right _ hy
    have hylo : (s1.fp f).lo ≤ (s1.fp y).lo := by
      rw [hl2] at hord1
      exact hord1.le_lo hy
    have hyhi := hs1.below y hym
    rcases (hs1.sorted.sized y hym).addrIn_end_iff.mp hyin with h1 | h1
    · omega
    · omega
  refine ⟨s1, second_mem_calls hspan hsplit ?_, hc.freed (hs.ready.wf.live src ha.live x hx)⟩
  rw [List.head?_cons, mapAreaLast_listed hs1.ready.wf hs1.sorted.live hl2, hnone]
  rfl

/-- A page that begins with the request and is cut at its end goes to `map_fpage`. -/
theorem MapSource.first_used (hbase : (s.fp x).lo = base.toNat)
    (hcut : Cuttable mm s src x (base + size)) :
    ∃ s1, (s1, some x) ∈ mapAreaCalls mm s src dst base size action priv ∧
      s1.liveFp x = false := by
  have ha := hs.sorted
  have hhi := hs.below x hx
  have hinside := hcut.inside (ha.sized x hx).dvd_lo
  -- the first split returns the page
  have hround : mempoolAlign mm (s.fp x).mpid base = (s.fp x).base := by
    refine BitVec.eq_of_toNat_eq ?_
    have hd := (ha.sized x hx).dvd_lo
    rw [hbase] at hd
    rw [mempoolAlign_toNat hcut.mappable (by rw [roundUp_of_dvd hd]; exact base.isLt),
      roundUp_of_dvd hd, ← hbase]
    rfl
  have hsplit : splitFpage mm s (some src) x base true = .ok (some x, s) := by
    exact if_pos (.inl hround)
  have hlast : mapAreaLast s (base + size) (x == x) (some x) x = .ok x := by
    obtain ⟨pre, post, hl⟩ := List.append_of_mem hx
    have hstop : addrInFpage (base + size) (s.fp x) true = true :=
      (ha.sized x hx).addrIn_end_iff.mpr (.inl ⟨hinside.1.le, hinside.2.le, hhi⟩)
    rw [mapAreaLast_listed hs.ready.wf ha.live hl, List.find?_cons_of_pos (by exact hstop)]
    rfl
  obtain ⟨s1, cl, cr, hc, hsplit2⟩ : ∃ s1 cl cr, Cut mm s s1 src x (s.pages src)
      (mempoolAlign mm (s.fp x).mpid (base + size)) cl cr ∧
      splitFpage mm s (some src) x (base + size) false = .ok (cl.getLast?, s1) :=
    hcut.cut hs.ready ha hs.own hx (hs.alone x hx) hhi
  rw [List.getLast?_eq_some_getLast hc.left_ne] at hsplit2
  exact ⟨s1, first_mem_calls hspan hsplit hlast hsplit2,
    hc.freed (hs.ready.wf.live src ha.live x hx)⟩

end

/-! ## The whole call -/

theorem SplitStage.unique {f g l l' : FpRef} {t : Kernel}
    (h : SplitStage mm s s2 src base stop P Q (some f) (some l))
    (h' : SplitStage mm s t src base stop P Q (some g) (some l')) : t = s2 ∧ g = f ∧ l' = l := by
  obtain ⟨s1, y, h1, h2, h3⟩ := h.steps
  obtain ⟨t1, z, h1', h2', h3'⟩ := h'.steps
  rw [h1] at h1'
  obtain ⟨hf, rfl⟩ := Prod.mk.inj (ok_ok.mp h1')
  obtain rfl := Option.some.inj hf
  rw [h2] at h2'
  obtain rfl := ok_ok.mp h2'
  rw [h3] at h3'
  obtain ⟨hl, rfl⟩ := Prod.mk.inj (ok_ok.mp h3')
  exact ⟨rfl, rfl, (Option.some.inj hl).symm⟩

section

variable {f : FpRef} (hs : MapSource s src) (hd : s.liveAs dst = true)
  (hheld : s.Holds src base.toNat (base.toNat + size.toNat))

include hs hheld

theorem WorksOnLive.not_usesFreed (hlive : WorksOnLive mm s src dst base size action priv)
    (hspan : mapAreaSpan mm s src dst base size priv = .ok (.span (some P) (some Q), s)) :
    ¬ UsesFreed mm s src base size P := by
  intro hused
  have ha := hs.sorted
  obtain ⟨_, _, hfound⟩ := mapAreaSpan_held hs hheld hspan
  have hP := hfound.first
  have hsized := ha.sized P hP
  have hE := hs.stop_toNat hheld
  have hbelow := hs.below P hP
  have hdead : ¬ ∃ s1, (s1, some P) ∈ mapAreaCalls mm s src dst base size action priv ∧
      s1.liveFp P = false := by
    rintro ⟨s1, hmem, hfree⟩
    obtain ⟨r, hr1, hr2⟩ := hlive.calls _ hmem
    injection hr1 with hr1
    subst hr1
    rw [hfree] at hr2
    simp at hr2
  cases hused with
  | last hcut hend =>
    have hup := hcut.hi
    have hbase := (hcut.inside hsized.dvd_lo).1
    obtain rfl := hfound.same ha (hsized.addrIn_end_iff.mpr (.inl (by omega)))
    exact hdead (hs.last_used hspan hP hcut (by omega))
  | first hbase hcut =>
    obtain ⟨h3, h4⟩ := hcut.inside hsized.dvd_lo
    obtain rfl := hfound.same ha (hsized.addrIn_end_iff.mpr (.inl (by omega)))
    exact hdead (hs.first_used hspan hP hbase hcut)

include hd

theorem WorksOnLive.passes (hlive : WorksOnLive mm s src dst base size action priv)
    (hspan : mapAreaSpan mm s src dst base size priv = .ok (.span (some P) (some Q), s)) :
    Passes mm s src base (base + size) P Q := by
  have hno := hlive.not_usesFreed hs hheld hspan
  obtain ⟨_, hne, hfound⟩ := mapAreaSpan_held hs hheld hspan
  obtain ⟨s', hret⟩ := hlive.reaches P Q s hspan
  obtain ⟨P', Q', f, l, _, s2, hspan', hstage, hloop⟩ := (mapArea_zero hne).mp hret
  rw [hspan] at hspan'
  simp only [Except.ok.injEq, Prod.mk.injEq, MapSpan.span.injEq, Option.some.injEq] at hspan'
  obtain ⟨⟨rfl, rfl⟩, rfl⟩ := hspan'
  obtain ⟨s1, y, h1, h2, h3⟩ := hstage.steps
  have hs1 := (hs.split hfound.first hfound.base_in h1).1
  obtain ⟨hy, _, hin⟩ := hs.last_listed hheld hfound hno h1 h2
  refine ⟨(hs.returns hfound.first (addrInFpage_end hfound.base_in)).mp ⟨f, s1, h1⟩, ?_, ?_⟩
  · intro first t1 y' h1' h2'
    rw [h1] at h1'
    obtain ⟨rfl, rfl⟩ := Prod.mk.inj (ok_ok.mp h1')
    rw [h2] at h2'
    obtain rfl := ok_ok.mp h2'
    exact (hs1.returns hy hin).mp ⟨l, s2, h3⟩
  · intro t2 f' l' pre seg post hstage' hl hf hlast
    obtain ⟨rfl, rfl, rfl⟩ := hstage.unique hstage'
    obtain ⟨hout, hwf, _⟩ := hs.loop_listed hheld hfound hno hstage
    exact (mapChain_part hne hwf (hout.live hs.sorted.live) (hout.live hd) hl hf hlast
      hloop).length_le_room

theorem Passes.returns (hno : ¬ UsesFreed mm s src base size P)
    (hp : Passes mm s src base (base + size) P Q)
    (hspan : mapAreaSpan mm s src dst base size priv = .ok (.span (some P) (some Q), s)) :
    ∃ s', mapArea mm s src dst base size action priv = .ok (0, s') := by
  obtain ⟨_, hne, hfound⟩ := mapAreaSpan_held hs hheld hspan
  obtain ⟨f, s1, h1⟩ := (hs.returns hfound.first (addrInFpage_end hfound.base_in)).mpr hp.first
  obtain ⟨hs1, _, hf1, hf⟩ := hs.split hfound.first hfound.base_in h1
  obtain rfl := Option.some.inj hf
  obtain ⟨y, h2⟩ : ∃ y, mapAreaLast s1 (base + size) (P == Q) (some f) Q = .ok y := by
    by_cases heq : P = Q
    · obtain ⟨pre, post, hl⟩ := List.append_of_mem hf1
      rw [heq]
      exact ⟨_, mapAreaLast_listed hs1.ready.wf hs1.sorted.live hl⟩
    · exact ⟨Q, if_neg (by simpa using heq)⟩
  obtain ⟨hy, _, hin⟩ := hs.last_listed hheld hfound hno h1 h2
  obtain ⟨l, s2, h3⟩ := (hs1.returns hy hin).mpr (hp.last _ s1 y h1 h2)
  have hstage : SplitStage mm s s2 src base (base + size) P Q (some f) (some l) :=
    ⟨s1, y, h1, h2, h3⟩
  -- the part of the list that the loop runs over
  obtain ⟨hout, hwf, pre, rest, hl, hlm⟩ := hs.loop_listed hheld hfound hno hstage
  obtain ⟨seg, post, hrest, hlast⟩ :
      ∃ seg post, rest = seg ++ post ∧ (f :: seg).getLast? = some l := by
    obtain ⟨a, post, hab⟩ := List.append_of_mem hlm
    cases a with
    | nil =>
      obtain ⟨rfl, rfl⟩ := List.cons.inj hab
      exact ⟨[], rest, rfl, rfl⟩
    | cons _ a =>
      obtain ⟨rfl, rfl⟩ := List.cons.inj hab
      exact ⟨a ++ [l], post, by simp, by rw [← List.cons_append, List.getLast?_concat]⟩
  have hl' : s2.pages src = pre ++ (f :: seg) ++ post := by
    rw [hl, hrest]
    simp
  have hsrc := hout.live hs.sorted.live
  have hlen := length_le_walkBound (hwf.chain src hsrc) (hwf.live src hsrc)
  rw [hl', List.length_append, List.length_append] at hlen
  obtain ⟨s', hloop⟩ := mapChain_total hne seg s2.walkBound s2 pre post f hwf hsrc (hout.live hd)
    hl' hlast (by omega) (hp.room s2 f l pre _ post hstage hl' rfl hlast)
  exact ⟨s', (mapArea_zero hne).mpr ⟨P, Q, f, l, s, s2, hspan, hstage, hloop⟩⟩

end

/-- A reachable state in which space 0 has two pages, both on its MPU list. -/
structure TwoPages (s : Kernel) : Prop where
  reach : (system (memmap stm32f4Board) stm32f4Board).Reachable (fun _ _ => True) s
  source : MapSource s 0
  dst : s.liveAs 1 = true
  low : ∃ x ∈ s.pages 0, (s.fp x).lo = 0x20008000 ∧ (s.fp x).hi = 0x20009000
  high : ∃ x ∈ s.pages 0, (s.fp x).lo = 0x20009000 ∧ (s.fp x).hi = 0x2000a000

theorem TwoPages.holds (h : TwoPages s) {lo hi : Nat} (h1 : 0x20008000 ≤ lo)
    (h2 : hi ≤ 0x2000a000) : s.Holds 0 lo hi := by
  intro n hn1 hn2
  by_cases hn : n < 0x20009000
  · obtain ⟨x, hx, h3, h4⟩ := h.low
    exact ⟨x, hx, by omega, by omega⟩
  · obtain ⟨x, hx, h3, h4⟩ := h.high
    exact ⟨x, hx, by omega, by omega⟩

section

variable (s : Kernel) (base size : Word)

/-- An unprivileged `map_area` from space 0 to space 1 finds its two pages. -/
def spans : Bool :=
  okWith (fun r => match r.1 with
    | .span (some _) (some _) => true
    | _ => false) (mapAreaSpan (memmap stm32f4Board) s 0 1 base size false)

/-- It passes on allocated pages only. -/
def liveCalls : Bool :=
  (mapAreaCalls (memmap stm32f4Board) s 0 1 base size .map false).all fun c =>
    c.2.any fun r => c.1.liveFp r

/-- It returns 0. -/
def returnsZero : Bool :=
  okWith (fun r => decide (r.1 = 0)) (mapArea (memmap stm32f4Board) s 0 1 base size .map false)

end

theorem spans_found (h : spans s base size = true) : ∃ P Q s1,
    mapAreaSpan (memmap stm32f4Board) s 0 1 base size false = .ok (.span (some P) (some Q), s1) := by
  obtain ⟨⟨span, s1⟩, hspan, hfound⟩ := okWith_iff.mp h
  cases span with
  | ret r => simp at hfound
  | span f l =>
    cases f with
    | none => simp at hfound
    | some P =>
      cases l with
      | none => simp at hfound
      | some Q => exact ⟨P, Q, s1, hspan⟩

theorem worksOnLive_iff (h : spans s base size = true) :
    WorksOnLive (memmap stm32f4Board) s 0 1 base size .map false ↔
      liveCalls s base size = true ∧ returnsZero s base size = true := by
  obtain ⟨P, Q, s1, hspan⟩ := spans_found h
  constructor
  · intro hlive
    obtain ⟨s', hret⟩ := hlive.reaches P Q s1 hspan
    refine ⟨List.all_eq_true.mpr fun c hc => ?_, okWith_iff.mpr ⟨_, hret, rfl⟩⟩
    obtain ⟨r, hr, hliver⟩ := hlive.calls c hc
    rw [hr, Option.any_some, hliver]
  · rintro ⟨hcalls, hret⟩
    refine ⟨fun c hc => ?_, fun _ _ _ _ => ?_⟩
    · exact (Option.any_eq_true _ _).mp (List.all_eq_true.mp hcalls c hc)
    · obtain ⟨⟨ret, s'⟩, hok, hzero⟩ := okWith_iff.mp hret
      obtain rfl := of_decide_eq_true hzero
      exact ⟨s', hok⟩

/-- Four calls, of which the first does all of this. -/
abbrev FourCalls (s : Kernel) : Prop :=
  ([(0x20008800#32, 0x1000#32), (0x20008000#32, 0x800#32), (0x20008040#32, 0x40#32),
    (0x20008100#32, 0x200#32)].all fun c => spans s c.1 c.2) = true ∧
  (liveCalls s 0x20008800#32 0x1000#32 = true ∧ returnsZero s 0x20008800#32 0x1000#32 = true) ∧
  liveCalls s 0x20008000#32 0x800#32 = false ∧ liveCalls s 0x20008040#32 0x40#32 = false ∧
  liveCalls s 0x20008100#32 0x200#32 = true ∧ returnsZero s 0x20008100#32 0x200#32 = false

theorem exists_twoPages : ∃ s, TwoPages s ∧ FourCalls s := by
  obtain ⟨s, hreach, hr, hs, h1, hp⟩ := exists_spacesRun
    [.assignFpages 0 0x20008000#32 0x1000#32, .assignFpages 0 0x20009000#32 0x1000#32,
      .asSetupMpu 0 0#32 0#32 0#32 0#32]
    (fun s => decide ((∀ x ∈ s.pages 0, (s.fp x).hi < 2 ^ 32 ∧ (s.fp x).mapNext = some x) ∧
      (∀ r ∈ (s.as 0).mpuFirst, r ∈ s.pages 0) ∧
      (∀ x ∈ s.pages 0, ∀ r ∈ s.mpuNext x, r ∈ s.pages 0) ∧
      (∀ r ∈ s.pages 0, (s.as 0).mpuFirst = some r → ∀ x ∈ s.pages 0, s.mpuNext x ≠ some r) ∧
      (∀ r ∈ s.pages 0, ∀ x ∈ s.pages 0, ∀ y ∈ s.pages 0, s.mpuNext x = some r →
        s.mpuNext y = some r → x = y) ∧
      (∃ x ∈ s.pages 0, (s.fp x).lo = 0x20008000 ∧ (s.fp x).hi = 0x20009000) ∧
      (∃ x ∈ s.pages 0, (s.fp x).lo = 0x20009000 ∧ (s.fp x).hi = 0x2000a000) ∧ FourCalls s))
    (by decide +kernel)
  obtain ⟨hall, hhead, hnext, honce, honce', hlow, hhigh, hcalls⟩ := of_decide_eq_true hp
  exact ⟨s, ⟨hreach, ⟨hr, hs, fun x hx => (hall x hx).1, fun x hx => (hall x hx).2,
    ⟨hhead, hnext⟩, ⟨honce, honce'⟩⟩, h1, hlow, hhigh⟩, hcalls⟩

end F9
