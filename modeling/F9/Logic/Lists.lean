import F9.Logic.Chain

/-!
# The two lists of an address space

The list operations of `fpage.c`, each with its effect on the state.

* `AsEdit` — only the sorted list of one space changes; removing and
  inserting are edits (`removeFpageFromList_as_spec`,
  `insertFpageChainToAs_spec`);
* `MpuUnlink` — only one link of the MPU list is redirected past a page
  (`removeFpageFromList_mpu_spec`).

The uninitialised local `end` of the removal macro is read as 0 (`Quiet`).
-/

namespace F9

open Linked Result

variable {s s' t u : Kernel} {a : AsRef} {l c : List FpRef} {k : FpList} {r last : FpRef}

/-- The local `end` of `remove_fpage_from_list` happens to be 0. -/
def Quiet (s : Kernel) : Prop := ∀ n, s.junk n = false

/-- The tables hold the same elements, and nothing outside them changed. -/
structure SameAlloc (s s' : Kernel) : Prop where
  num : s'.fpageTable.num = s.fpageTable.num
  live : ∀ x, s'.liveFp x = s.liveFp x
  liveAs : ∀ b, s'.liveAs b = s.liveAs b
  kipFpage : s'.kipFpage = s.kipFpage
  kipExtraFpage : s'.kipExtraFpage = s.kipExtraFpage
  mpu : s'.mpu = s.mpu
  mpuLog : s'.mpuLog = s.mpuLog
  quiet : Quiet s → Quiet s'

theorem SameAlloc.refl (s : Kernel) : SameAlloc s s :=
  ⟨rfl, fun _ => rfl, fun _ => rfl, rfl, rfl, rfl, rfl, id⟩

theorem SameAlloc.setFp (s : Kernel) (r : FpRef) (f : Fpage → Fpage) :
    SameAlloc s (s.setFp r f) :=
  ⟨rfl, fun _ => rfl, fun _ => rfl, rfl, rfl, rfl, rfl, id⟩

theorem SameAlloc.setAs (s : Kernel) (a : AsRef) (f : AddressSpace → AddressSpace) :
    SameAlloc s (s.setAs a f) :=
  ⟨rfl, fun _ => rfl, fun _ => rfl, rfl, rfl, rfl, rfl, id⟩

theorem SameAlloc.trans (h1 : SameAlloc s t) (h2 : SameAlloc t u) : SameAlloc s u :=
  ⟨h2.num.trans h1.num, fun x => (h2.live x).trans (h1.live x),
    fun b => (h2.liveAs b).trans (h1.liveAs b), h2.kipFpage.trans h1.kipFpage,
    h2.kipExtraFpage.trans h1.kipExtraFpage, h2.mpu.trans h1.mpu,
    h2.mpuLog.trans h1.mpuLog, fun h => h2.quiet (h1.quiet h)⟩

/-- The effect of one more expansion of the macro on `junk`. -/
theorem SameAlloc.dropJunk (s : Kernel) :
    SameAlloc s { s with junk := fun n => s.junk (n + 1) } :=
  ⟨rfl, fun _ => rfl, fun _ => rfl, rfl, rfl, rfl, rfl, fun h n => h (n + 1)⟩

/-! ## Edits of the sorted list -/

/-- Only the `as_next` links and the list head of the space `a` changed, and
its list is now `l`. -/
structure AsEdit (s s' : Kernel) (a : AsRef) (l : List FpRef) : Prop where
  same : SameAlloc s s'
  fp : ∀ x, s'.fp x = { s.fp x with asNext := s'.asNext x }
  as : ∀ b, s'.as b = { s.as b with first := (s'.as b).first }
  first : ∀ b, b ≠ a → (s'.as b).first = (s.as b).first
  list : Chain s'.asNext (s'.as a).first l
  frame : ∀ x, x ∉ l → s'.asNext x = s.asNext x

/-- The head is written after links that lead from it through `l`. -/
theorem AsEdit.setFirst {p : Option FpRef} (hsame : SameAlloc s t)
    (hfp : ∀ x, t.fp x = { s.fp x with asNext := t.asNext x }) (has : ∀ b, t.as b = s.as b)
    (hlist : Chain t.asNext p l) (hframe : ∀ x, x ∉ l → t.asNext x = s.asNext x) :
    AsEdit s (t.setAs a fun g => { g with first := p }) a l := by
  refine ⟨hsame.trans (.setAs _ _ _), hfp, fun b => ?_, fun b hb => ?_, ?_, hframe⟩
  · rw [Kernel.setAs_as]
    by_cases hb : b = a
    · rw [if_pos hb, hb, has]
    · rw [if_neg hb, has]
  · rw [Kernel.setAs_as_ne _ _ hb, has]
  · rw [Kernel.setAs_as_self]
    exact hlist

theorem AsEdit.base (h : AsEdit s s' a l) (x : FpRef) : (s'.fp x).base = (s.fp x).base := by
  rw [h.fp x]

theorem AsEdit.mpuNext (h : AsEdit s s' a l) (x : FpRef) : s'.mpuNext x = s.mpuNext x := by
  unfold Kernel.mpuNext
  rw [h.fp x]

theorem AsEdit.mpuFirst (h : AsEdit s s' a l) (b : AsRef) :
    (s'.as b).mpuFirst = (s.as b).mpuFirst := by
  rw [h.as b]

theorem asNext_setFp (s : Kernel) (r x : FpRef) (p : Option FpRef) :
    (s.setFp r fun f => { f with asNext := p }).asNext x = if x = r then p else s.asNext x := by
  unfold Kernel.asNext
  rw [Kernel.setFp_fp]
  by_cases hx : x = r
  · rw [if_pos hx, if_pos hx]
  · rw [if_neg hx, if_neg hx]

theorem fp_setFp_asNext (s : Kernel) (r x : FpRef) (p : Option FpRef) :
    (s.setFp r fun f => { f with asNext := p }).fp x =
      { s.fp x with asNext := (s.setFp r fun f => { f with asNext := p }).asNext x } := by
  unfold Kernel.asNext
  rw [Kernel.setFp_fp]
  by_cases hx : x = r
  · rw [if_pos hx, hx]
  · rw [if_neg hx]

/-! ## Removal -/

/-- The links a list runs over. -/
def FpList.links (k : FpList) (s : Kernel) (x : FpRef) : Option FpRef := k.next (s.fp x)

/-- The search of the removal macro ends at a page that links to `r`, or runs
off the end. -/
theorem removeSearch_spec {p : FpRef} (n : Nat) (e : Bool) (q : Option FpRef)
    (he : e = true → q = none) (h : removeSearch k s r n e q = .ok (some p)) :
    k.links s p = some r ∧ p ∈ walk (k.links s) n q := by
  induction n generalizing e q with
  | zero => simp [removeSearch] at h
  | succ n ih =>
    cases e with
    | true =>
      rw [he rfl] at h
      simp [removeSearch] at h
    | false =>
      cases q with
      | none => simp [removeSearch] at h
      | some y =>
        unfold removeSearch at h
        by_cases hy : k.next (s.fp y) = some r
        · rw [if_pos hy] at h
          injection h with h
          injection h with h
          subst h
          exact ⟨hy, List.mem_cons_self⟩
        · rw [if_neg hy] at h
          obtain ⟨h1, h2⟩ := ih _ _ (by simp) h
          exact ⟨h1, List.mem_cons_of_mem _ h2⟩

/-- The ways the removal macro returns, whatever `end` is: the head is moved, or one link is
redirected. If `end` is not 0, this is the link of the head. -/
theorem removeFpageFromList_cases (h : removeFpageFromList k s a r = .ok s') :
    let s0 := { s with junk := fun n => s.junk (n + 1) }
    (k.head (s.as a) = some r ∧ s' = s0.setAs a (k.setHead (k.links s r))) ∨
    (k.head (s.as a) ≠ some r ∧ ∃ p, s' = s0.setFp p (k.setNext (k.links s r)) ∧
      ((s.junk 0 = false ∧ k.links s p = some r ∧
          p ∈ walk (k.links s) s.walkBound (k.head (s.as a))) ∨
        (s.junk 0 = true ∧ k.head (s.as a) = some p))) := by
  intro s0
  unfold removeFpageFromList at h
  by_cases hh : k.head (s.as a) = some r
  · rw [if_pos (show k.head (s0.as a) = some r from hh)] at h
    exact .inl ⟨hh, (pure_ok.mp h).symm⟩
  · rw [if_neg (show ¬ k.head (s0.as a) = some r from hh)] at h
    obtain ⟨q, hsearch, hret⟩ := bind_ok.mp h
    cases q with
    | none => exact absurd hret throw_ok
    | some p =>
      refine .inr ⟨hh, p, (pure_ok.mp hret).symm, ?_⟩
      cases he : s.junk 0 with
      | false =>
        rw [he] at hsearch
        obtain ⟨h1, h2⟩ := removeSearch_spec _ _ _ (by simp) hsearch
        exact .inl ⟨rfl, h1, h2⟩
      | true =>
        rw [he] at hsearch
        exact .inr ⟨rfl, Except.ok.inj hsearch⟩

/-- The two ways the removal macro returns. -/
theorem removeFpageFromList_ok (hq : Quiet s) (h : removeFpageFromList k s a r = .ok s') :
    let s0 := { s with junk := fun n => s.junk (n + 1) }
    (k.head (s.as a) = some r ∧ s' = s0.setAs a (k.setHead (k.links s r))) ∨
    (k.head (s.as a) ≠ some r ∧ ∃ p, k.links s p = some r ∧
      p ∈ walk (k.links s) s.walkBound (k.head (s.as a)) ∧
      s' = s0.setFp p (k.setNext (k.links s r))) := by
  rcases removeFpageFromList_cases h with hhead | ⟨hh, p, hs', ⟨_, h1, h2⟩ | ⟨he, _⟩⟩
  · exact .inl hhead
  · exact .inr ⟨hh, p, h1, h2, hs'⟩
  · rw [hq 0] at he
    simp at he

theorem removeFpageFromList_as_spec (hq : Quiet s) (hl : Chain s.asNext (s.as a).first l)
    (hr : r ∈ l) (h : removeFpageFromList .as s a r = .ok s') : AsEdit s s' a (l.erase r) := by
  rcases removeFpageFromList_ok hq h with ⟨hhead, rfl⟩ | ⟨hhead, p, hp, hwalk, rfl⟩
  · -- the page is the head
    cases l with
    | nil => simp at hr
    | cons y l =>
      obtain ⟨hy, ht⟩ := chain_cons.mp hl
      have hyr : y = r := by
        have : (s.as a).first = some r := hhead
        rw [hy] at this
        injection this
      subst hyr
      rw [List.erase_cons_head]
      exact .setFirst (SameAlloc.dropJunk s) (fun _ => rfl) (fun _ => rfl) ht fun _ _ => rfl
  · -- the page comes after `p`
    have hpl : p ∈ l := hl.mem_of_mem_walk hwalk
    obtain ⟨l1, l2, rfl⟩ := hl.pred hpl hp
    have hn1 : r ∉ l1 ++ [p] := by
      have : l1 ++ p :: r :: l2 = (l1 ++ [p]) ++ r :: l2 := by simp
      rw [this] at hl
      exact hl.not_mem_of_append.1
    have herase : (l1 ++ p :: r :: l2).erase r = l1 ++ p :: l2 := by
      have : l1 ++ p :: r :: l2 = (l1 ++ [p]) ++ r :: l2 := by simp
      rw [this, List.erase_append_right _ hn1, List.erase_cons_head]
      simp
    have hp1 : p ∉ l1 ∧ p ∉ r :: l2 := hl.not_mem_of_append
    have hsplit : ∀ x, x ≠ p → ({ s with junk := fun n => s.junk (n + 1) }.setFp p
        (FpList.as.setNext (FpList.as.links s r))).asNext x = s.asNext x := by
      intro x hx
      unfold Kernel.asNext
      rw [Kernel.setFp_fp_ne _ _ hx]
      rfl
    rw [herase]
    refine ⟨(SameAlloc.dropJunk s).trans (.setFp _ _ _), ?_, fun b => rfl, fun b _ => rfl,
      ?_, ?_⟩
    · intro x
      exact fp_setFp_asNext _ p x _
    · refine hl.unlink ?_ ?_ ?_
      · unfold Kernel.asNext
        rw [Kernel.setFp_fp_self]
        rfl
      · intro w hw
        exact hsplit w fun hwp => hp1.1 (hwp ▸ hw)
      · intro w hw
        exact hsplit w fun hwp => hp1.2 (hwp ▸ List.mem_cons_of_mem _ hw)
    · intro x hx
      exact hsplit x fun hxp => hx (by simp [hxp])

/-- One link of the MPU list of `a` led to `r` and is redirected past it. -/
structure MpuUnlink (s s' : Kernel) (a : AsRef) (r : FpRef) : Prop where
  same : SameAlloc s s'
  fp : ∀ x, s'.fp x = { s.fp x with mpuNext := s'.mpuNext x }
  as : ∀ b, s'.as b = { s.as b with mpuFirst := (s'.as b).mpuFirst }
  link : ((s.as a).mpuFirst = some r ∧ (s'.as a).mpuFirst = s.mpuNext r ∧
      (∀ b, b ≠ a → (s'.as b).mpuFirst = (s.as b).mpuFirst) ∧
      ∀ x, s'.mpuNext x = s.mpuNext x) ∨
    ((s.as a).mpuFirst ≠ some r ∧ (∀ b, (s'.as b).mpuFirst = (s.as b).mpuFirst) ∧
      ∃ p, p ∈ walk s.mpuNext s.walkBound (s.as a).mpuFirst ∧ s.mpuNext p = some r ∧
        ∀ x, s'.mpuNext x = if x = p then s.mpuNext r else s.mpuNext x)

theorem MpuUnlink.asNext (h : MpuUnlink s s' a r) (x : FpRef) : s'.asNext x = s.asNext x := by
  unfold Kernel.asNext
  rw [h.fp x]

theorem MpuUnlink.first (h : MpuUnlink s s' a r) (b : AsRef) :
    (s'.as b).first = (s.as b).first := by
  rw [h.as b]

theorem removeFpageFromList_mpu_spec (hq : Quiet s) (h : removeFpageFromList .mpu s a r = .ok s') :
    MpuUnlink s s' a r := by
  rcases removeFpageFromList_ok hq h with ⟨hhead, rfl⟩ | ⟨hhead, p, hp, hwalk, rfl⟩
  · refine ⟨(SameAlloc.dropJunk s).trans (.setAs _ _ _), fun x => rfl, ?_, ?_⟩
    · intro b
      rw [Kernel.setAs_as]
      by_cases hb : b = a
      · rw [if_pos hb, hb]; rfl
      · rw [if_neg hb]; rfl
    · refine .inl ⟨hhead, ?_, ?_, fun x => rfl⟩
      · rw [Kernel.setAs_as_self]; rfl
      · intro b hb
        rw [Kernel.setAs_as_ne _ _ hb]; rfl
  · refine ⟨(SameAlloc.dropJunk s).trans (.setFp _ _ _), ?_, fun b => rfl, ?_⟩
    · intro x
      unfold Kernel.mpuNext
      rw [Kernel.setFp_fp]
      by_cases hx : x = p
      · rw [if_pos hx, hx]; rfl
      · rw [if_neg hx]; rfl
    · refine .inr ⟨hhead, fun b => rfl, p, hwalk, hp, ?_⟩
      intro x
      unfold Kernel.mpuNext
      rw [Kernel.setFp_fp]
      by_cases hx : x = p
      · rw [if_pos hx, if_pos hx]; rfl
      · rw [if_neg hx, if_neg hx]; rfl

/-! ## Insertion -/

/-- The pages before which a chain that ends in `last` is inserted. -/
def insertStop (s : Kernel) (last : FpRef) (x : FpRef) : Bool :=
  decide ((s.fp last).base < (s.fp x).base)

/-- Linking the chain `first .. last` in after the page `q`. -/
def linkAfter (s : Kernel) (q first last : FpRef) : Kernel :=
  (s.setFp last fun f => { f with asNext := s.asNext q }).setFp q
    fun f => { f with asNext := some first }

theorem linkAfter_asNext (s : Kernel) (q first last x : FpRef) :
    (linkAfter s q first last).asNext x =
      if x = q then some first else if x = last then s.asNext q else s.asNext x := by
  unfold linkAfter
  rw [asNext_setFp, asNext_setFp]

theorem linkAfter_fp (s : Kernel) (q first last x : FpRef) :
    (linkAfter s q first last).fp x =
      { s.fp x with asNext := (linkAfter s q first last).asNext x } := by
  unfold linkAfter
  rw [fp_setFp_asNext, fp_setFp_asNext]

/-- The search of `insert_fpage_chain_to_as` links the chain in after the last
page that may stand before it. -/
theorem insertSearch_spec {first : FpRef} (hlast : s.asNext last = none) (n : Nat) (fp : FpRef)
    (l : List FpRef) (hl : Chain s.asNext (s.asNext fp) l) (hfp : fp ≠ last) (hnl : last ∉ l)
    (h : insertSearch s first last n fp = .ok s') :
    ∃ pre q post, fp :: l = pre ++ q :: post ∧
      fp :: splice (insertStop s last) c l = pre ++ q :: (c ++ post) ∧
      s'.fp = (linkAfter s q first last).fp ∧ SameAlloc s s' ∧ ∀ b, s'.as b = s.as b := by
  induction n generalizing fp l with
  | zero => simp [insertSearch] at h
  | succ n ih =>
    unfold insertSearch at h
    cases l with
    | nil =>
      -- end of the list: `last` keeps its `NULL` link
      have hnone : s.asNext fp = none := chain_nil.mp hl
      have h' : (s.setFp fp fun f => { f with asNext := some first }) = s' := by
        have hm : (s.fp fp).asNext = none := hnone
        rw [hm] at h
        injection h
      refine ⟨[], fp, [], rfl, by simp, ?_, ?_, ?_⟩
      · funext x
        rw [← h', fp_setFp_asNext, linkAfter_fp, asNext_setFp, linkAfter_asNext]
        by_cases hx : x = fp
        · rw [if_pos hx, if_pos hx]
        · by_cases hxl : x = last
          · rw [if_pos hxl, hnone, hxl, hlast]
          · rw [if_neg hxl]
      · rw [← h']; exact .setFp _ _ _
      · intro b; rw [← h']; rfl
    | cons nx l =>
      obtain ⟨hnx, ht⟩ := chain_cons.mp hl
      have hm : (s.fp fp).asNext = some nx := hnx
      rw [hm] at h
      simp only at h
      by_cases hb : (s.fp last).base < (s.fp nx).base
      · -- the place is found
        rw [if_pos hb] at h
        have h' : linkAfter s fp first last = s' := by
          unfold linkAfter
          rw [hnx]
          injection h
        refine ⟨[], fp, nx :: l, rfl, ?_, by rw [← h'], ?_, ?_⟩
        · rw [splice_cons_stop (by simpa [insertStop] using hb)]
          rfl
        · rw [← h']; exact (SameAlloc.setFp _ _ _).trans (.setFp _ _ _)
        · intro b; rw [← h']; rfl
      · rw [if_neg hb] at h
        rw [List.mem_cons, not_or] at hnl
        obtain ⟨pre, q, post, h1, h2, h3⟩ := ih nx l ht (Ne.symm hnl.1) hnl.2 h
        refine ⟨fp :: pre, q, post, by rw [h1]; rfl, ?_, h3⟩
        rw [splice_cons_go (by simpa [insertStop] using hb), h2]
        rfl

/-- `insert_fpage_chain_to_as` puts the chain before the first page with a
larger base than its last one. -/
theorem insertFpageChainToAs_spec {first : FpRef} (hl : Chain s.asNext (s.as a).first l)
    (hc : Chain s.asNext (some first) (c ++ [last])) (hdisj : ∀ x ∈ c ++ [last], x ∉ l)
    (h : insertFpageChainToAs s a first last = .ok s') :
    AsEdit s s' a (splice (insertStop s last) (c ++ [last]) l) := by
  have hlast : s.asNext last = none := by
    obtain ⟨_, h2⟩ := chain_append_cons.mp hc
    exact chain_nil.mp h2
  have hlc : last ∉ c := hc.not_mem_of_append.1
  have hll : last ∉ l := hdisj last (by simp)
  unfold insertFpageChainToAs at h
  cases l with
  | nil =>
    -- First chain in AS
    have hf : (s.as a).first = none := chain_nil.mp hl
    rw [hf] at h
    simp only [Except.ok.injEq] at h
    subst h
    rw [splice_nil]
    exact .setFirst (.refl s) (fun _ => rfl) (fun _ => rfl) hc fun _ _ => rfl
  | cons fp l =>
    obtain ⟨hf, ht⟩ := chain_cons.mp hl
    rw [hf] at h
    simp only at h
    by_cases hb : (s.fp last).base < (s.fp fp).base
    · -- Add chain into beginning
      rw [if_pos hb] at h
      injection h with h
      rw [splice_cons_stop (by simpa [insertStop] using hb)]
      have hnext : ∀ x, s'.asNext x = if x = last then some fp else s.asNext x := by
        intro x
        rw [← h]
        exact asNext_setFp s last x (some fp)
      have hne : ∀ x, x ≠ last → s'.asNext x = s.asNext x := by
        intro x hx
        rw [hnext, if_neg hx]
      refine ⟨?_, ?_, ?_, ?_, ?_, ?_⟩
      · rw [← h]; exact (SameAlloc.setFp _ _ _).trans (.setAs _ _ _)
      · intro x
        rw [← h]
        exact fp_setFp_asNext s last x (some fp)
      · intro b
        rw [← h, Kernel.setAs_as]
        by_cases hb : b = a
        · rw [if_pos hb, hb]; rfl
        · rw [if_neg hb]; rfl
      · intro b hb
        rw [← h, Kernel.setAs_as_ne _ _ hb]; rfl
      · have hfirst : (s'.as a).first = some first := by
          rw [← h, Kernel.setAs_as_self]
        rw [hfirst]
        refine Chain.prepend hl hc ?_ ?_ ?_
        · rw [hnext, if_pos rfl, hf]
        · intro y hy
          exact hne y fun hyl => hll (hyl ▸ hy)
        · intro y hy
          exact hne y fun hyl => hlc (hyl ▸ hy)
      · intro x hx
        exact hne x fun hxl => hx (by simp [hxl])
    · -- Search for chain in the middle
      rw [if_neg hb] at h
      rw [List.mem_cons, not_or] at hll
      obtain ⟨pre, q, post, h1, h2, hfp, hsame, has⟩ :=
        insertSearch_spec hlast _ fp l ht (Ne.symm hll.1) hll.2 h
      rw [splice_cons_go (by simpa [insertStop] using hb), h2]
      have hq : q ∈ fp :: l := by rw [h1]; simp
      have hnext : ∀ x, s'.asNext x =
          if x = q then some first else if x = last then s.asNext q else s.asNext x := by
        intro x
        have : s'.asNext x = (linkAfter s q first last).asNext x := by
          unfold Kernel.asNext
          rw [hfp]
        rw [this, linkAfter_asNext]
      have hqlast : last ≠ q := fun hlq => hdisj last (by simp) (hlq ▸ hq)
      rw [h1] at hl hdisj
      have hqn : q ∉ pre ∧ q ∉ post := hl.not_mem_of_append
      have hne : ∀ x, x ≠ q → x ≠ last → s'.asNext x = s.asNext x := by
        intro x hxq hxl
        rw [hnext, if_neg hxq, if_neg hxl]
      refine ⟨hsame, ?_, ?_, ?_, ?_, ?_⟩
      · intro x
        rw [hfp, linkAfter_fp, ← show s'.asNext x = (linkAfter s q first last).asNext x by
          unfold Kernel.asNext; rw [hfp]]
      · intro b; rw [has]
      · intro b _; rw [has]
      · rw [has]
        refine Chain.insert hl hc ?_ ?_ ?_ ?_ ?_
        · rw [hnext, if_pos rfl]
        · rw [hnext, if_neg hqlast, if_pos rfl]
        · intro y hy
          refine hne y (fun hyq => hqn.1 (hyq ▸ hy)) ?_
          rintro rfl
          exact hdisj y (by simp) (by simp [hy])
        · intro y hy
          refine hne y (fun hyq => hqn.2 (hyq ▸ hy)) ?_
          rintro rfl
          exact hdisj y (by simp) (by simp [hy])
        · intro y hy
          refine hne y ?_ (fun hyl => hlc (hyl ▸ hy))
          rintro rfl
          exact hdisj y (by simp [hy]) (by simp)
      · intro x hx
        refine hne x ?_ ?_
        · rintro rfl
          exact hx (by simp)
        · rintro rfl
          exact hx (by simp)

/-- The list `l` with the chain `c` inserted. -/
def spliceAt (s : Kernel) (c l : List FpRef) : List FpRef :=
  match c.getLast? with
  | none => l
  | some last => splice (insertStop s last) c l

@[simp] theorem mem_spliceAt {x : FpRef} : x ∈ spliceAt s c l ↔ x ∈ c ∨ x ∈ l := by
  unfold spliceAt
  cases h : c.getLast? with
  | none =>
    rw [List.getLast?_eq_none_iff.mp h]
    simp
  | some last => exact mem_splice

theorem spliceAt_congr (h : ∀ x, (s'.fp x).base = (s.fp x).base) (c l : List FpRef) :
    spliceAt s' c l = spliceAt s c l := by
  unfold spliceAt insertStop
  simp only [h]

theorem spliceAt_concat (s : Kernel) (c l : List FpRef) (last : FpRef) :
    spliceAt s (c ++ [last]) l = splice (insertStop s last) (c ++ [last]) l := by
  unfold spliceAt
  rw [List.getLast?_concat]

theorem insertFpageChainToAs_list {first : FpRef} (hl : Chain s.asNext (s.as a).first l)
    (hc : Chain s.asNext c.head? c) (hfirst : c.head? = some first)
    (hlast : c.getLast? = some last) (hdisj : ∀ x ∈ c, x ∉ l)
    (h : insertFpageChainToAs s a first last = .ok s') : AsEdit s s' a (spliceAt s c l) := by
  obtain ⟨c, rfl⟩ := List.getLast?_eq_some_iff.mp hlast
  rw [hfirst] at hc
  rw [spliceAt_concat]
  exact insertFpageChainToAs_spec hl hc hdisj h

end F9
