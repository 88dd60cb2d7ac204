import F9.Logic.Lists

/-!
# `split_fpage`

A successful cut replaces one page of a list by two chains of fresh pages.
`Cut` says everything it does to the state; what the other modules need
about splitting is read off it.

* `splitFpage_spec` — the three ways to return: the page itself at a boundary,
  `NULL` for a mapped page, or a cut;
* `splitFpage_not_mem` — a page that is not on the list is never cut: the
  removal runs off the end of the list.
-/

namespace F9

open Linked Result

variable {s s' t u s5 : Kernel} {mm : Memmap} {mpid : Nat} {c l cl cr : List FpRef} {x r : FpRef}
  {a : AsRef} {p : Option FpRef} {s1 s2 s3 s4 : Kernel} {base size sp : Word}

/-- What no cut changes. -/
structure SameOut (s s' : Kernel) : Prop where
  num : s'.fpageTable.num = s.fpageTable.num
  liveAs : ∀ b, s'.liveAs b = s.liveAs b
  kipFpage : s'.kipFpage = s.kipFpage
  kipExtraFpage : s'.kipExtraFpage = s.kipExtraFpage
  mpu : s'.mpu = s.mpu
  mpuLog : s'.mpuLog = s.mpuLog
  quiet : Quiet s → Quiet s'

theorem SameOut.refl (s : Kernel) : SameOut s s :=
  ⟨rfl, fun _ => rfl, rfl, rfl, rfl, rfl, id⟩

theorem SameOut.trans (h1 : SameOut s t) (h2 : SameOut t u) : SameOut s u :=
  ⟨h2.num.trans h1.num, fun b => (h2.liveAs b).trans (h1.liveAs b),
    h2.kipFpage.trans h1.kipFpage, h2.kipExtraFpage.trans h1.kipExtraFpage,
    h2.mpu.trans h1.mpu, h2.mpuLog.trans h1.mpuLog, fun h => h2.quiet (h1.quiet h)⟩

theorem SameOut.live (h : SameOut s s') (ha : s.liveAs a = true) : s'.liveAs a = true := by
  rw [h.liveAs]
  exact ha

theorem SameRest.out (h : SameRest s s') : SameOut s s' :=
  ⟨h.num, h.liveAs, h.kipFpage, h.kipExtraFpage, h.mpu, h.mpuLog,
    fun hq n => by rw [h.junk]; exact hq n⟩

theorem SameAlloc.out (h : SameAlloc s s') : SameOut s s' :=
  ⟨h.num, h.liveAs, h.kipFpage, h.kipExtraFpage, h.mpu, h.mpuLog, h.quiet⟩

/-- The pages `c` are fresh pages for the blocks. -/
def PagesFor (mm : Memmap) (mpid : Nat) (s : Kernel) (c : List FpRef)
    (blocks : List (Word × Nat)) : Prop :=
  List.Forall₂ (fun r b => s.fp r =
    { freshFpage mm r b.1 b.2 mpid with asNext := s.asNext r }) c blocks

theorem PagesFor.congr {blocks : List (Word × Nat)} (h : PagesFor mm mpid s c blocks)
    (hc : ∀ x ∈ c, s'.fp x = { s.fp x with asNext := s'.asNext x }) :
    PagesFor mm mpid s' c blocks := by
  induction h with
  | nil => exact .nil
  | cons hx _ ih =>
    refine .cons ?_ (ih fun x hx => hc x (List.mem_cons_of_mem _ hx))
    rw [hc _ List.mem_cons_self, hx]

theorem PagesFor.mem {blocks : List (Word × Nat)} (h : PagesFor mm mpid s c blocks) (hx : x ∈ c) :
    ∃ b ∈ blocks, s.fp x = { freshFpage mm x b.1 b.2 mpid with asNext := s.asNext x } := by
  induction h with
  | nil => simp at hx
  | cons hy _ ih =>
    rcases List.mem_cons.mp hx with rfl | hx
    · exact ⟨_, List.mem_cons_self, hy⟩
    · obtain ⟨b, hb, h⟩ := ih hx
      exact ⟨b, List.mem_cons_of_mem _ hb, h⟩

/-- The address and the size of a page. -/
def Fpage.block (f : Fpage) : Word × Nat := (f.base, f.shift)

theorem PagesFor.blocks {blocks : List (Word × Nat)} (h : PagesFor mm mpid s c blocks) :
    c.map (fun x => (s.fp x).block) = blocks := by
  induction h with
  | nil => rfl
  | cons hx _ ih =>
    rw [List.map_cons, ih, hx]
    rfl

/-- One link of the MPU list of `a` is redirected past `r`: the head, or the
link of a page `p` that the list reaches. The pages `F` are fresh. -/
def MpuPast (s s' : Kernel) (a : AsRef) (r : FpRef) (F : List FpRef) : Prop :=
  ((s.as a).mpuFirst = some r ∧ (s'.as a).mpuFirst = s.mpuNext r ∧
      (∀ b, b ≠ a → (s'.as b).mpuFirst = (s.as b).mpuFirst) ∧
      ∀ x, x ∉ F → s'.mpuNext x = s.mpuNext x) ∨
    ((s.as a).mpuFirst ≠ some r ∧ (∀ b, (s'.as b).mpuFirst = (s.as b).mpuFirst) ∧
      ∃ p, p ∉ F ∧ s.mpuNext p = some r ∧
        p ∈ walk (fun x => if x ∈ F then none else s.mpuNext x) s.walkBound
          (s.as a).mpuFirst ∧
        ∀ x, x ∉ F → s'.mpuNext x = if x = p then s.mpuNext r else s.mpuNext x)

/-- The page `r` of the list `l` of the space `a` is replaced by the chains
`cl` and `cr` for the two sides of `sp`. -/
structure Cut (mm : Memmap) (s s' : Kernel) (a : AsRef) (r : FpRef) (l : List FpRef)
    (sp : Word) (cl cr : List FpRef) : Prop where
  out : SameOut s s'
  alone : (s.fp r).mapNext = some r
  left_ne : cl ≠ []
  right_ne : cr ≠ []
  fresh : ∀ x ∈ cl ++ cr, s.liveFp x = false
  nodup : (cl ++ cr).Nodup
  live : ∀ x, s'.liveFp x = (s.liveFp x && decide (x ≠ r) || decide (x ∈ cl ++ cr))
  left : PagesFor mm (s.fp r).mpid s' cl
    (chainBlocks (sp - (s.fp r).base).toNat (s.fp r).base (sp - (s.fp r).base))
  right : PagesFor mm (s.fp r).mpid s' cr
    (chainBlocks ((s.fp r).stop - sp).toNat sp ((s.fp r).stop - sp))
  frame : ∀ x, x ∉ cl ++ cr →
    s'.fp x = { s.fp x with asNext := s'.asNext x, mpuNext := s'.mpuNext x }
  as : ∀ b, s'.as b = { s.as b with first := (s'.as b).first, mpuFirst := (s'.as b).mpuFirst }
  first : ∀ b, b ≠ a → (s'.as b).first = (s.as b).first
  list : Chain s'.asNext (s'.as a).first (spliceAt s' cr (spliceAt s' cl (l.erase r)))
  links : ∀ x, x ∉ l.erase r → x ∉ cl ++ cr → s'.asNext x = s.asNext x
  mpuLinks : MpuPast s s' a r (cl ++ cr)

section

variable {blocks : List (Word × Nat)} (h : Built mm mpid s s' blocks c)
include h

theorem Built.frame_none (hx : x ∉ c) : s'.fp x = s.fp x :=
  h.frame x hx (by simp)

theorem Built.not_mem (hl : ∀ x ∈ l, s.liveFp x = true) : ∀ x ∈ c, x ∉ l := by
  intro x hx hxl
  exact ne_true_of_eq_false (h.fresh x hx) (hl x hxl)

theorem Built.keeps_chain (hc : Chain s.asNext p l) (hl : ∀ x ∈ l, s.liveFp x = true) :
    Chain s'.asNext p l := by
  refine hc.congr fun x hx => ?_
  unfold Kernel.asNext
  rw [h.frame_none fun hxc => h.not_mem hl x hxc hx]

theorem Built.keeps (hc : Chain s.asNext (s.as a).first l) (hl : ∀ x ∈ l, s.liveFp x = true) :
    Chain s'.asNext (s'.as a).first l := by
  rw [h.rest.as]
  exact h.keeps_chain hc hl

theorem Built.keeps_live (hx : s.liveFp x = true) : s'.liveFp x = true := by
  rw [h.live, hx, Bool.true_or]

end

theorem Built.ne_nil (h : Built mm mpid s s' (chainBlocks size.toNat base size) c)
    (hs : size ≠ 0#32) : c ≠ [] := by
  rintro rfl
  have hlen := h.pages.length_eq
  exact chainBlocks_ne_nil hs (Nat.le_refl _) (List.length_eq_zero_iff.mp hlen.symm)

theorem PagesFor.mpuNext {blocks : List (Word × Nat)} (h : PagesFor mm mpid s c blocks)
    (hx : x ∈ c) : s.mpuNext x = none := by
  obtain ⟨b, _, hb⟩ := h.mem hx
  unfold Kernel.mpuNext
  rw [hb]
  rfl

theorem PagesFor.mapNext {blocks : List (Word × Nat)} (h : PagesFor mm mpid s c blocks)
    (hx : x ∈ c) : (s.fp x).mapNext = some x := by
  obtain ⟨b, _, hb⟩ := h.mem hx
  rw [hb]
  rfl

/-! ## The steps of a cut -/

/-- Two chains of fresh pages, built one after the other. -/
structure BuiltBoth (mm : Memmap) (mpid : Nat) (s s' : Kernel) (bl br : List (Word × Nat))
    (cl cr : List FpRef) : Prop where
  rest : SameRest s s'
  fresh : ∀ x ∈ cl ++ cr, s.liveFp x = false
  nodup : (cl ++ cr).Nodup
  live : ∀ x, s'.liveFp x = (s.liveFp x || decide (x ∈ cl ++ cr))
  left : PagesFor mm mpid s' cl bl
  right : PagesFor mm mpid s' cr br
  frame : ∀ x, x ∉ cl ++ cr → s'.fp x = s.fp x

section

variable {bl br : List (Word × Nat)}

theorem Built.both (hL : Built mm mpid s s1 bl cl) (hR : Built mm mpid s1 s2 br cr) :
    BuiltBoth mm mpid s s2 bl br cl cr := by
  have hdisj : ∀ x ∈ cr, x ∉ cl := by
    intro x hx hxl
    have h1 := hR.fresh x hx
    rw [hL.live] at h1
    simp [hxl] at h1
  refine ⟨hL.rest.trans hR.rest, ?_, ?_, ?_, ?_, hR.pages, ?_⟩
  · intro x hx
    rcases List.mem_append.mp hx with hx | hx
    · exact hL.fresh x hx
    · have h1 := hR.fresh x hx
      rw [hL.live, Bool.or_eq_false_iff] at h1
      exact h1.1
  · rw [List.nodup_append]
    refine ⟨hL.chain.nodup, hR.chain.nodup, ?_⟩
    rintro x hx y hy rfl
    exact hdisj x hy hx
  · intro x
    rw [hR.live, hL.live, Bool.or_assoc]
    simp
  · refine PagesFor.congr (s := s1) hL.pages fun x hx => ?_
    have hx2 : s2.fp x = s1.fp x := hR.frame_none fun hxr => hdisj x hxr hx
    unfold Kernel.asNext
    rw [hx2]
  · intro x hx
    rw [List.mem_append, not_or] at hx
    rw [hR.frame_none hx.2, hL.frame_none hx.1]

variable (h : BuiltBoth mm mpid s s' bl br cl cr)
include h

theorem BuiltBoth.mpuNext_new (hx : x ∈ cl ++ cr) : s'.mpuNext x = none :=
  (List.mem_append.mp hx).elim h.left.mpuNext h.right.mpuNext

theorem BuiltBoth.mpuNext_old (hx : x ∉ cl ++ cr) : s'.mpuNext x = s.mpuNext x := by
  unfold Kernel.mpuNext
  rw [h.frame x hx]

end

/-- The link past `r`, seen from a state before it in which the pages `F` were not yet
built. -/
theorem MpuUnlink.past {F : List FpRef} (h : MpuUnlink s1 s' a r)
    (hbound : s1.walkBound = s.walkBound) (hfirst : ∀ b, (s1.as b).mpuFirst = (s.as b).mpuFirst)
    (hnew : ∀ x ∈ F, s1.mpuNext x = none) (hold : ∀ x, x ∉ F → s1.mpuNext x = s.mpuNext x)
    (hr : r ∉ F) : MpuPast s s' a r F := by
  have hfun : s1.mpuNext = fun x => if x ∈ F then none else s.mpuNext x := by
    funext x
    by_cases hx : x ∈ F
    · rw [if_pos hx, hnew x hx]
    · rw [if_neg hx, hold x hx]
  rcases h.link with ⟨h1, h2, h3, h4⟩ | ⟨h1, h2, p, hwalk, hp, h4⟩
  · refine .inl ⟨by rw [← hfirst]; exact h1, by rw [h2, hold r hr], ?_, ?_⟩
    · intro b hb
      rw [h3 b hb, hfirst]
    · intro x hx
      rw [h4, hold x hx]
  · have hpF : p ∉ F := by
      intro hpF
      rw [hnew p hpF] at hp
      simp at hp
    refine .inr ⟨by rw [← hfirst]; exact h1, ?_, p, hpF, ?_, ?_, ?_⟩
    · intro b
      rw [h2, hfirst]
    · rw [← hold p hpF]
      exact hp
    · rw [hbound, hfirst, hfun] at hwalk
      exact hwalk
    · intro x hx
      rw [h4, hold r hr, hold x hx]

theorem MpuUnlink.mpuNext_none (h : MpuUnlink s s' a r) (hx : s.mpuNext x = none) :
    s'.mpuNext x = none := by
  rcases h.link with ⟨_, _, _, h4⟩ | ⟨_, _, p, _, hp, h4⟩
  · rw [h4, hx]
  · rw [h4, if_neg, hx]
    rintro rfl
    rw [hx] at hp
    simp at hp

theorem MpuPast.congr {F : List FpRef} (h : MpuPast s s1 a r F)
    (hnext : ∀ x, s'.mpuNext x = s1.mpuNext x)
    (hfirst : ∀ b, (s'.as b).mpuFirst = (s1.as b).mpuFirst) : MpuPast s s' a r F := by
  unfold MpuPast at h ⊢
  simp only [hnext, hfirst]
  exact h

theorem Cut.of_steps (halone : (s.fp r).mapNext = some r) (hlr : s.liveFp r = true) (hcl : cl ≠ [])
    (hcr : cr ≠ [])
    (hL : Built mm (s.fp r).mpid s s1
      (chainBlocks (sp - (s.fp r).base).toNat (s.fp r).base (sp - (s.fp r).base)) cl)
    (hR : Built mm (s.fp r).mpid s1 s2
      (chainBlocks ((s.fp r).stop - sp).toNat sp ((s.fp r).stop - sp)) cr)
    (hrem : AsEdit s2 s3 a (l.erase r)) (hmpu : MpuUnlink s3 s4 a r)
    (hinsL : AsEdit (s4.freeFp r) s5 a (spliceAt (s4.freeFp r) cl (l.erase r)))
    (hinsR : AsEdit s5 s' a (spliceAt s5 cr (spliceAt (s4.freeFp r) cl (l.erase r)))) :
    Cut mm s s' a r l sp cl cr := by
  have hB := hL.both hR
  have hrc : r ∉ cl ++ cr := by
    intro hrc
    exact ne_true_of_eq_false (hB.fresh r hrc) hlr
  have hmpu4 : ∀ x, s'.mpuNext x = s4.mpuNext x := by
    intro x
    rw [hinsR.mpuNext, hinsL.mpuNext]
    rfl
  have hfp : ∀ x, s'.fp x = { s2.fp x with asNext := s'.asNext x, mpuNext := s4.mpuNext x } := by
    intro x
    rw [hinsR.fp, hinsL.fp, Kernel.freeFp_fp, hmpu.fp, hrem.fp]
  have hnone3 : ∀ x ∈ cl ++ cr, s3.mpuNext x = none := by
    intro x hx
    rw [hrem.mpuNext, hB.mpuNext_new hx]
  have hnew : ∀ x ∈ cl ++ cr, s'.fp x = { s2.fp x with asNext := s'.asNext x } := by
    intro x hx
    rw [hfp, hmpu.mpuNext_none (hnone3 x hx), ← hB.mpuNext_new hx]
    rfl
  have has : ∀ b, s2.as b = s.as b := hB.rest.as
  refine ⟨?_, halone, hcl, hcr, hB.fresh, hB.nodup, ?_, ?_, ?_, ?_, ?_, ?_, ?_, ?_, ?_⟩
  · have hfree : SameOut s4 (s4.freeFp r) := (SameRest.freeFp s4 r).out
    exact ((((hB.rest.out.trans hrem.same.out).trans hmpu.same.out).trans hfree).trans
      hinsL.same.out).trans hinsR.same.out
  · intro x
    rw [hinsR.same.live, hinsL.same.live, Kernel.freeFp_liveFp, hmpu.same.live, hrem.same.live,
      hB.live]
    by_cases hx : x = r
    · rw [hx, decide_eq_false hrc]
      simp
    · simp [hx]
  · exact hB.left.congr fun x hx => hnew x (List.mem_append_left _ hx)
  · exact hB.right.congr fun x hx => hnew x (List.mem_append_right _ hx)
  · intro x hx
    rw [hfp, hB.frame x hx, hmpu4]
  · intro b
    rw [hinsR.as, hinsL.as, Kernel.freeFp_as, hmpu.as, hrem.as, has]
  · intro b hb
    rw [hinsR.first b hb, hinsL.first b hb, Kernel.freeFp_as, hmpu.first, hrem.first b hb, has]
  · have hbase : ∀ x, (s'.fp x).base = ((s4.freeFp r).fp x).base := by
      intro x
      rw [hinsR.base, hinsL.base]
    have hsp : spliceAt s5 cr (spliceAt (s4.freeFp r) cl (l.erase r)) =
        spliceAt s' cr (spliceAt s' cl (l.erase r)) := by
      rw [spliceAt_congr hinsR.base cr, spliceAt_congr hbase cl]
    rw [← hsp]
    exact hinsR.list
  · intro x hx hxc
    have hxc' := hxc
    rw [List.mem_append, not_or] at hxc'
    have h5 : x ∉ spliceAt (s4.freeFp r) cl (l.erase r) := by
      rw [mem_spliceAt, not_or]
      exact ⟨hxc'.1, hx⟩
    have h6 : x ∉ spliceAt s5 cr (spliceAt (s4.freeFp r) cl (l.erase r)) := by
      rw [mem_spliceAt, not_or]
      exact ⟨hxc'.2, h5⟩
    rw [hinsR.frame x h6, hinsL.frame x h5]
    show s4.asNext x = s.asNext x
    rw [hmpu.asNext, hrem.frame x hx]
    unfold Kernel.asNext
    rw [hB.frame x hxc]
  · -- the MPU list is not touched by the insertions
    have hpast : MpuPast s s4 a r (cl ++ cr) := by
      refine hmpu.past ?_ ?_ hnone3 ?_ hrc
      · unfold Kernel.walkBound
        rw [hrem.same.num, hB.rest.num]
      · intro b
        rw [hrem.mpuFirst, has]
      · intro x hx
        rw [hrem.mpuNext, hB.mpuNext_old hx]
    refine hpast.congr hmpu4 fun b => ?_
    rw [hinsR.mpuFirst, hinsL.mpuFirst]
    rfl

theorem removeFpageFromAs_spec (hq : Quiet s) (hl : Chain s.asNext (s.as a).first l) (hr : r ∈ l)
    (h : removeFpageFromAs s a r = .ok s') :
    ∃ s1, AsEdit s s1 a (l.erase r) ∧ MpuUnlink s1 s' a r := by
  obtain ⟨s1, h1, h2⟩ := bind_ok.mp h
  have he := removeFpageFromList_as_spec hq hl hr h1
  exact ⟨s1, he, removeFpageFromList_mpu_spec (he.same.quiet hq) h2⟩

/-- A page that is not on the list is not removed: the search runs off the
end. -/
theorem removeFpageFromAs_not_mem (hq : Quiet s) (hl : Chain s.asNext (s.as a).first l)
    (hr : r ∉ l) : removeFpageFromAs s a r ≠ .ok s' := by
  intro h
  obtain ⟨s1, h1, _⟩ := bind_ok.mp h
  rcases removeFpageFromList_ok hq h1 with ⟨hhead, _⟩ | ⟨_, p, hp, hwalk, _⟩
  · refine hr (List.mem_of_mem_head? ?_)
    rw [← hl.head_eq]
    exact hhead
  · obtain ⟨l1, l2, rfl⟩ := hl.pred (hl.mem_of_mem_walk hwalk) hp
    exact hr (by simp)

theorem deref_ok : deref p = .ok r ↔ p = some r := by
  cases p with
  | none =>
    constructor
    · intro h; simp [deref] at h
    · intro h; simp at h
  | some x =>
    constructor
    · intro h
      injection h with h
      rw [h]
    · intro h
      rw [h]
      rfl

theorem sub_ne_zero_of_ne {x y : Word} (h : x ≠ y) : x - y ≠ 0#32 := by
  intro h0
  exact h (BitVec.sub_eq_iff_eq_add.mp h0 |>.trans (by simp))

/-- The state between the removal of the page `r` of the list `l` and the insertion of the
chains `cl` and `cr`. -/
structure Removed (s : Kernel) (a : AsRef) (r : FpRef) (l cl cr : List FpRef) : Prop where
  list : Chain s.asNext (s.as a).first (l.erase r)
  left : Chain s.asNext cl.head? cl
  left_new : ∀ x ∈ cl, x ∉ l.erase r
  right : Chain s.asNext cr.head? cr
  right_new : ∀ x ∈ cr, x ∉ spliceAt s cl (l.erase r)

theorem Removed.of_steps {bl br : List (Word × Nat)} (hlive : ∀ x ∈ l, s.liveFp x = true)
    (hL : Built mm mpid s s1 bl cl) (hR : Built mm mpid s1 s2 br cr)
    (hrem : AsEdit s2 s3 a (l.erase r)) (hmpu : MpuUnlink s3 s4 a r) :
    Removed (s4.freeFp r) a r l cl cr := by
  have hlive1 : ∀ x ∈ cl, s1.liveFp x = true := by
    intro x hx
    rw [hL.live, decide_eq_true hx, Bool.or_true]
  have hnew : ∀ x ∈ cl, x ∉ l.erase r := fun x hx hxl =>
    hL.not_mem hlive x hx (List.mem_of_mem_erase hxl)
  have hnew2 : ∀ x ∈ cr, x ∉ l.erase r := fun x hx hxl =>
    hR.not_mem (fun y hy => hL.keeps_live (hlive y hy)) x hx (List.mem_of_mem_erase hxl)
  have hnext : ∀ x, x ∉ l.erase r → (s4.freeFp r).asNext x = s2.asNext x := by
    intro x hx
    show s4.asNext x = s2.asNext x
    rw [hmpu.asNext, hrem.frame x hx]
  refine ⟨?_, ?_, hnew, ?_, fun x hx => ?_⟩
  · rw [Kernel.freeFp_as, hmpu.first]
    exact hrem.list.congr fun x _ => hmpu.asNext x
  · exact (hR.keeps_chain hL.chain hlive1).congr fun x hx => hnext x (hnew x hx)
  · exact hR.chain.congr fun x hx => hnext x (hnew2 x hx)
  · rw [mem_spliceAt, not_or]
    exact ⟨fun hxl => hR.not_mem hlive1 x hx hxl, hnew2 x hx⟩

theorem Removed.right_after (h : Removed s a r l cl cr)
    (hins : AsEdit s s' a (spliceAt s cl (l.erase r))) : Chain s'.asNext cr.head? cr :=
  h.right.congr fun x hx => hins.frame x (h.right_new x hx)

section

variable {split : Word} {rl : Bool} {res : Option FpRef} (hq : Quiet s)
  (hl : Chain s.asNext (s.as a).first l) (hlive : ∀ x ∈ l, s.liveFp x = true)
include hq hl hlive

/-- The ways `split_fpage` returns for a page of the list. -/
theorem splitFpage_spec (hr : r ∈ l) (h : splitFpage mm s (some a) r split rl = .ok (res, s')) :
    let sp := mempoolAlign mm (s.fp r).mpid split
    ((sp = (s.fp r).base ∨ sp = (s.fp r).stop) ∧ res = some r ∧ s' = s) ∨
    (sp ≠ (s.fp r).base ∧ sp ≠ (s.fp r).stop ∧
      (((s.fp r).mapNext ≠ some r ∧ res = none ∧ s' = s) ∨
        ∃ cl cr, Cut mm s s' a r l sp cl cr ∧ res = if rl then cr.head? else cl.getLast?)) := by
  intro sp
  unfold splitFpage at h
  by_cases hb : sp = (s.fp r).base ∨ sp = (s.fp r).stop
  · left
    simp only at h
    rw [if_pos hb] at h
    obtain ⟨h1, h2⟩ := pure_pair.mp h
    exact ⟨hb, h1.symm, h2.symm⟩
  · right
    have hne := not_or.mp hb
    refine ⟨hne.1, hne.2, ?_⟩
    simp only at h
    rw [if_neg hb] at h
    by_cases hm : (s.fp r).mapNext = some r
    · right
      rw [if_neg (not_not.mpr hm)] at h
      obtain ⟨⟨lf, ll, s1⟩, hL, h⟩ := bind_ok.mp h
      obtain ⟨⟨rf, rlast, s2⟩, hR, h⟩ := bind_ok.mp h
      obtain ⟨s4, hrem, h⟩ := bind_ok.mp h
      obtain ⟨lf', hlf, h⟩ := bind_ok.mp h
      obtain ⟨ll', hll, h⟩ := bind_ok.mp h
      obtain ⟨s5, hinsL, h⟩ := bind_ok.mp h
      obtain ⟨rf', hrf, h⟩ := bind_ok.mp h
      obtain ⟨rl', hrl, h⟩ := bind_ok.mp h
      obtain ⟨s6, hinsR, h⟩ := bind_ok.mp h
      obtain ⟨hres, hs6⟩ := pure_pair.mp h
      subst hs6
      rw [deref_ok] at hlf hll hrf hrl
      dsimp only at hR hrem hlf hll hrf hrl hres
      have hlr : s.liveFp r = true := hlive r hr
      obtain ⟨cl, hbL, hlf2, hll2⟩ := createFpageChain_spec hL
      have hrcl : r ∉ cl := fun hrc => ne_true_of_eq_false (hbL.fresh r hrc) hlr
      have hmpid : (s1.fp r).mpid = (s.fp r).mpid := by rw [hbL.frame_none hrcl]
      rw [hmpid] at hR
      obtain ⟨cr, hbR, hrf2, hrl2⟩ := createFpageChain_spec hR
      -- the list is still there after the two chains are built
      have hl2 : Chain s2.asNext (s2.as a).first l :=
        hbR.keeps (hbL.keeps hl hlive) fun x hx => hbL.keeps_live (hlive x hx)
      have hq2 : Quiet s2 := hbR.rest.out.quiet (hbL.rest.out.quiet hq)
      obtain ⟨s3, he, hu⟩ := removeFpageFromAs_spec hq2 hl2 hr hrem
      have hrmd := Removed.of_steps hlive hbL hbR he hu
      have hiL := insertFpageChainToAs_list hrmd.list hrmd.left (by rw [← hlf2, hlf])
        (by rw [← hll2, hll]) hrmd.left_new hinsL
      have hiR := insertFpageChainToAs_list hiL.list (hrmd.right_after hiL)
        (by rw [← hrf2, hrf]) (by rw [← hrl2, hrl]) hrmd.right_new hinsR
      refine ⟨cl, cr, Cut.of_steps hm hlr ?_ ?_ hbL hbR he hu hiL hiR, ?_⟩
      · exact hbL.ne_nil (sub_ne_zero_of_ne hne.1)
      · exact hbR.ne_nil (sub_ne_zero_of_ne (Ne.symm hne.2))
      · rw [← hres, hrf2, hll2]
    · left
      rw [if_pos hm] at h
      obtain ⟨h1, h2⟩ := pure_pair.mp h
      exact ⟨hm, h1.symm, h2.symm⟩

theorem splitFpage_not_mem (hr : r ∉ l) (h : splitFpage mm s (some a) r split rl = .ok (res, s')) :
    s' = s ∧ (res = none ∨ res = some r) := by
  unfold splitFpage at h
  simp only at h
  split at h
  · obtain ⟨h1, h2⟩ := pure_pair.mp h
    exact ⟨h2.symm, .inr h1.symm⟩
  · split at h
    · obtain ⟨h1, h2⟩ := pure_pair.mp h
      exact ⟨h2.symm, .inl h1.symm⟩
    · obtain ⟨⟨lf, ll, s1⟩, hL, h⟩ := bind_ok.mp h
      obtain ⟨⟨rf, rlast, s2⟩, hR, h⟩ := bind_ok.mp h
      obtain ⟨s4, hrem, h⟩ := bind_ok.mp h
      obtain ⟨cl, hbL, _, _⟩ := createFpageChain_spec hL
      obtain ⟨cr, hbR, _, _⟩ := createFpageChain_spec hR
      have hl2 : Chain s2.asNext (s2.as a).first l :=
        hbR.keeps (hbL.keeps hl hlive) fun x hx => hbL.keeps_live (hlive x hx)
      have hq2 : Quiet s2 := hbR.rest.out.quiet (hbL.rest.out.quiet hq)
      exact absurd hrem (removeFpageFromAs_not_mem hq2 hl2 hr)

end

end F9
