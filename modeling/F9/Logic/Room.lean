import F9.Logic.Handed

/-!
# When `split_fpage` and the mapping loop return

The steps of a cut that can fail are the allocations and the removal from the MPU list. With
enough free entries of `fpage_table` for the two chains, and the page on the MPU list of its
space, the cut goes through (`splitFpage_total`). A page of a sorted space is cut if and only
if it is `Cuttable`, and the split returns if and only if the page is cut or left `Whole`.
The mapping loop takes one entry for each page.
-/

namespace F9

open Linked Result

variable {mm : Memmap} {s s' : Kernel} {a : AsRef} {r first last : FpRef} {k : FpList}
  {l cl cr : List FpRef} {c : List FpRef} {mpid : Nat} {rl : Bool} {sp base size : Word}

/-! ## Free entries -/

/-- The number of free entries of `fpage_table`. -/
def Kernel.room (s : Kernel) : Nat :=
  ((Finset.range s.fpageTable.num).filter fun x => s.liveFp x = false).card

theorem room_congr (hnum : s'.fpageTable.num = s.fpageTable.num)
    (hlive : ∀ x, s'.liveFp x = s.liveFp x) : s'.room = s.room := by
  unfold Kernel.room
  rw [hnum]
  simp only [hlive]

theorem allocFp_total (h : 0 < s.room) : ∃ r s', s.allocFp = some (r, s') := by
  obtain ⟨x, hx⟩ := Finset.card_pos.mp h
  obtain ⟨hlt, hfree⟩ := Finset.mem_filter.mp hx
  rw [Finset.mem_range] at hlt
  unfold Kernel.allocFp KTable.alloc
  cases hf : s.fpageTable.firstFree 0 s.fpageTable.num with
  | none =>
    have hbit := KTable.firstFree_none _ _ _ hf x (Nat.zero_le x) (by omega)
    have : s.liveFp x = true := by
      show (decide (x < s.fpageTable.num) && s.fpageTable.bitmap.testBit x) = true
      rw [hbit, decide_eq_true hlt]
      rfl
    rw [hfree] at this
    simp at this
  | some r => exact ⟨r, _, rfl⟩

theorem room_take (hlt : r < s.fpageTable.num) (hfree : s.liveFp r = false)
    (hnum : s'.fpageTable.num = s.fpageTable.num)
    (hlive : ∀ x, s'.liveFp x = (s.liveFp x || decide (x = r))) : s'.room + 1 = s.room := by
  unfold Kernel.room
  have hr : r ∈ (Finset.range s.fpageTable.num).filter fun x => s.liveFp x = false :=
    Finset.mem_filter.mpr ⟨Finset.mem_range.mpr hlt, hfree⟩
  have heq : ((Finset.range s'.fpageTable.num).filter fun x => s'.liveFp x = false) =
      ((Finset.range s.fpageTable.num).filter fun x => s.liveFp x = false).erase r := by
    ext x
    rw [hnum, Finset.mem_erase, Finset.mem_filter, Finset.mem_filter, hlive,
      Bool.or_eq_false_iff, decide_eq_false_iff_not]
    tauto
  rw [heq, Finset.card_erase_add_one hr]

theorem Allocated.room (h : Allocated s s' r) : s'.room + 1 = s.room :=
  room_take h.lt h.fresh h.rest.num h.live

theorem length_le_room (hnd : c.Nodup) (hlt : ∀ x ∈ c, x < s.fpageTable.num)
    (hfree : ∀ x ∈ c, s.liveFp x = false) : c.length ≤ s.room := by
  rw [← List.toFinset_card_of_nodup hnd]
  refine Finset.card_le_card fun x hx => ?_
  rw [List.mem_toFinset] at hx
  exact Finset.mem_filter.mpr ⟨Finset.mem_range.mpr (hlt x hx), hfree x hx⟩

/-! ## Chains -/

theorem createFpage_total (mm : Memmap) (base : Word) (shift mpid : Nat) (h : 0 < s.room) :
    ∃ r s', createFpage mm s base shift mpid = .ok (r, s') ∧ s'.room + 1 = s.room := by
  obtain ⟨r, s1, halloc⟩ := allocFp_total h
  have ha := allocFp_spec halloc
  refine ⟨r, s1.setFp r fun _ => freshFpage mm r base shift mpid, ?_, ?_⟩
  · unfold createFpage
    rw [halloc]
  · rw [← ha.room]
    exact congrArg (· + 1) (room_congr rfl fun _ => rfl)

/-- The loop of `create_fpage_chain` returns if there is an entry for each block. -/
theorem createChainLoop_total : ∀ (n : Nat) (s : Kernel) (base size : Word)
    (prev pfirst plast : Option FpRef), size.toNat ≤ n → (pfirst = none ↔ prev = none) →
    (chainBlocks n base size).length ≤ s.room →
    ∃ pf pl s', createChainLoop mm mpid n s base size prev pfirst plast = .ok (pf, pl, s') ∧
      s'.room + (chainBlocks n base size).length = s.room := by
  intro n s base size prev pfirst plast hn hfirst hroom
  by_cases hs : size = 0#32
  · rw [hs, chainBlocks_zero]
    exact ⟨pfirst, plast, s, createChainLoop_zero n pfirst plast, rfl⟩
  · cases n with
    | zero => exact absurd (BitVec.eq_of_toNat_eq (by simpa using hn)) hs
    | succ n =>
      rw [chainBlocks_succ n hs, List.length_cons] at hroom ⊢
      obtain ⟨r, s1, hc, hr1⟩ := createFpage_total mm base (chainShift base size) mpid
        (show 0 < s.room by omega)
      have hrest : (size - 1#32 <<< chainShift base size).toNat ≤ n := by
        have := Nat.two_pow_pos (chainShift base size)
        rw [chainShift_rest hs]
        omega
      have hlink : (linkPrev s1 prev r).room = s1.room :=
        room_congr (linkPrev_rest s1 prev r).num (linkPrev_live s1 prev r)
      obtain ⟨pf, pl, s', hloop, hr'⟩ := createChainLoop_total n (linkPrev s1 prev r)
        (base + 1#32 <<< chainShift base size) (size - 1#32 <<< chainShift base size)
        (some r) (pfirst <|> some r) (some r) hrest (by cases pfirst <;> simp) (by omega)
      rw [createChainLoop_succ n hs hfirst]
      exact ⟨pf, pl, s', bind_ok.mpr ⟨(r, s1), hc, hloop⟩, by omega⟩

theorem createFpageChain_total (mm : Memmap) (mpid : Nat) (plast : Option FpRef)
    (h : (chainBlocks size.toNat base size).length ≤ s.room) :
    ∃ pf pl s', createFpageChain mm s base size mpid none plast = .ok (pf, pl, s') ∧
      s'.room + (chainBlocks size.toNat base size).length = s.room :=
  createChainLoop_total _ _ _ _ _ _ _ (Nat.le_refl _) Iff.rfl h

/-! ## Lists -/

/-- The search of the removal macro finds a page that links to `r`. -/
theorem removeSearch_total {p : FpRef} (hp : k.links s p = some r) (n : Nat) (q : Option FpRef)
    (hq : p ∈ walk (k.links s) n q) : ∃ p', removeSearch k s r n false q = .ok (some p') := by
  induction n generalizing q with
  | zero => simp [walk] at hq
  | succ n ih =>
    cases q with
    | none => simp [walk] at hq
    | some y =>
      unfold removeSearch
      by_cases hy : k.next (s.fp y) = some r
      · rw [if_pos hy]
        exact ⟨y, rfl⟩
      · rw [if_neg hy]
        rcases List.mem_cons.mp hq with rfl | hq
        · exact absurd hp hy
        · obtain ⟨p', h⟩ := ih _ hq
          -- the search goes on: the link of `y` is not `NULL`
          cases hnx : k.links s y with
          | none =>
            rw [hnx] at hq
            cases n <;> simp [walk] at hq
          | some w =>
            rw [hnx] at h
            have : k.next (s.fp y) = some w := hnx
            rw [this]
            exact ⟨p', h⟩

/-- The list of the space leads to `r`. -/
def FpList.Leads (k : FpList) (s : Kernel) (a : AsRef) (r : FpRef) : Prop :=
  k.head (s.as a) = some r ∨
    ∃ p ∈ walk (k.links s) s.walkBound (k.head (s.as a)), k.links s p = some r

theorem removeFpageFromList_leads (he : s.junk 0 = false) (h : k.Leads s a r) :
    ∃ s', removeFpageFromList k s a r = .ok s' := by
  unfold removeFpageFromList
  rw [he]
  by_cases hh : k.head (s.as a) = some r
  · exact ⟨_, if_pos hh⟩
  · obtain ⟨p, hp, hlink⟩ := h.resolve_left hh
    obtain ⟨p', hsearch⟩ :=
      removeSearch_total (s := { s with junk := fun n => s.junk (n + 1) }) hlink _ _ hp
    exact ⟨_, (if_neg hh).trans (bind_ok.mpr ⟨some p', hsearch, rfl⟩)⟩

theorem removeFpageFromList_total (hq : Quiet s) (h : k.Leads s a r) :
    ∃ s', removeFpageFromList k s a r = .ok s' := removeFpageFromList_leads (hq 0) h

theorem leads_of_mem (k : FpList) (hl : Chain (k.links s) (k.head (s.as a)) l)
    (hlen : l.length ≤ s.walkBound) (hr : r ∈ l) : k.Leads s a r := by
  obtain ⟨l1, l2, rfl⟩ := List.append_of_mem hr
  rcases List.eq_nil_or_concat l1 with rfl | ⟨l1, p, rfl⟩
  · exact .inl (chain_cons.mp hl).1
  · refine .inr ⟨p, ?_, ?_⟩
    · rw [hl.walk_eq hlen]
      simp
    · rw [List.concat_eq_append, List.append_assoc] at hl
      obtain ⟨_, h2⟩ := chain_append_cons.mp hl
      exact (chain_cons.mp h2).1

/-- The search of `insert_fpage_chain_to_as` ends on a terminated list. -/
theorem insertSearch_total (n : Nat) (fp : FpRef) (l : List FpRef)
    (hl : Chain s.asNext (s.asNext fp) l) (hn : l.length < n) :
    ∃ s', insertSearch s first last n fp = .ok s' := by
  induction n generalizing fp l with
  | zero => simp at hn
  | succ n ih =>
    unfold insertSearch
    cases l with
    | nil =>
      have hnone : (s.fp fp).asNext = none := chain_nil.mp hl
      rw [hnone]
      exact ⟨_, rfl⟩
    | cons nx l =>
      obtain ⟨hnx, ht⟩ := chain_cons.mp hl
      have hsome : (s.fp fp).asNext = some nx := hnx
      rw [hsome]
      dsimp only
      by_cases hb : (s.fp last).base < (s.fp nx).base
      · exact ⟨_, if_pos hb⟩
      · rw [if_neg hb]
        exact ih nx l ht (by simpa using hn)

theorem insertFpageChainToAs_total (first last : FpRef) (hl : Chain s.asNext (s.as a).first l)
    (hlen : l.length ≤ s.walkBound) : ∃ s', insertFpageChainToAs s a first last = .ok s' := by
  unfold insertFpageChainToAs
  cases l with
  | nil =>
    rw [chain_nil.mp hl]
    exact ⟨_, rfl⟩
  | cons fp l =>
    obtain ⟨hf, ht⟩ := chain_cons.mp hl
    rw [hf]
    dsimp only
    by_cases hb : (s.fp last).base < (s.fp fp).base
    · exact ⟨_, if_pos hb⟩
    · rw [if_neg hb]
      exact insertSearch_total _ fp l ht hlen

theorem AsEdit.keeps_leads (h : AsEdit s s' a l) (hr : FpList.mpu.Leads s a r) :
    FpList.mpu.Leads s' a r := by
  have hnext : FpList.mpu.links s' = FpList.mpu.links s := funext h.mpuNext
  have hbound : s'.walkBound = s.walkBound := by
    unfold Kernel.walkBound
    rw [h.same.num]
  have hhead : FpList.mpu.head (s'.as a) = FpList.mpu.head (s.as a) := h.mpuFirst a
  unfold FpList.Leads
  rw [hnext, hbound, hhead]
  exact hr

theorem length_le_walkBound {p : Option FpRef} (hl : Chain s.asNext p l)
    (hlive : ∀ x ∈ l, s.liveFp x = true) : l.length ≤ s.walkBound :=
  (length_le_of_nodup_lt hl.nodup fun x hx => liveFp_lt (hlive x hx)).trans (Nat.le_succ _)

/-- Building a chain leaves an MPU list of allocated pages alone. -/
theorem Built.keeps_leads {blocks : List (Word × Nat)} (h : Built mm mpid s s' blocks c)
    (hlive : ∀ x ∈ walk s.mpuNext s.walkBound (s.as a).mpuFirst, s.liveFp x = true)
    (hr : FpList.mpu.Leads s a r) :
    FpList.mpu.Leads s' a r ∧
      walk s'.mpuNext s'.walkBound (s'.as a).mpuFirst =
        walk s.mpuNext s.walkBound (s.as a).mpuFirst := by
  have hnext : ∀ x ∈ walk s.mpuNext s.walkBound (s.as a).mpuFirst,
      s'.mpuNext x = s.mpuNext x := by
    intro x hx
    have hxc : x ∉ c := fun hxc => ne_true_of_eq_false (h.fresh x hxc) (hlive x hx)
    unfold Kernel.mpuNext
    rw [h.frame_none hxc]
  have hbound : s'.walkBound = s.walkBound := by
    unfold Kernel.walkBound
    rw [h.rest.num]
  have hwalk : walk s'.mpuNext s'.walkBound (s'.as a).mpuFirst =
      walk s.mpuNext s.walkBound (s.as a).mpuFirst := by
    rw [hbound, h.rest.as]
    exact walk_congr _ _ hnext
  refine ⟨?_, hwalk⟩
  rcases hr with hr | ⟨p, hp, hlink⟩
  · refine .inl ?_
    rw [h.rest.as]
    exact hr
  · refine .inr ⟨p, ?_, ?_⟩
    · show p ∈ walk s'.mpuNext s'.walkBound (s'.as a).mpuFirst
      rw [hwalk]
      exact hp
    · exact (hnext p hp).trans hlink

/-- How many pages the two sides of a page `f` that is cut at `sp` take. -/
def cutPages (f : Fpage) (sp : Word) : Nat :=
  (chainBlocks (sp - f.base).toNat f.base (sp - f.base)).length +
    (chainBlocks (f.stop - sp).toNat sp (f.stop - sp)).length

/-- With room for the two chains, a page on the MPU list of its space is cut. -/
theorem splitFpage_total {split : Word} (hq : Quiet s) (hl : Chain s.asNext (s.as a).first l)
    (hlive : ∀ x ∈ l, s.liveFp x = true) (hr : r ∈ l) (halone : (s.fp r).mapNext = some r)
    (hown : ∀ x ∈ walk s.mpuNext s.walkBound (s.as a).mpuFirst, s.liveFp x = true)
    (hmpu : FpList.mpu.Leads s a r) (h1 : mempoolAlign mm (s.fp r).mpid split ≠ (s.fp r).base)
    (h2 : mempoolAlign mm (s.fp r).mpid split ≠ (s.fp r).stop)
    (hroom : cutPages (s.fp r) (mempoolAlign mm (s.fp r).mpid split) ≤ s.room) :
    ∃ res s', splitFpage mm s (some a) r split rl = .ok (res, s') := by
  generalize hsp : mempoolAlign mm (s.fp r).mpid split = sp at h1 h2 hroom
  unfold cutPages at hroom
  -- the two chains
  obtain ⟨lf, ll, s1, hL, hroom1⟩ := createFpageChain_total mm (s.fp r).mpid none
    (show (chainBlocks (sp - (s.fp r).base).toNat (s.fp r).base _).length ≤ s.room by omega)
  obtain ⟨cl, hbL, hlf, hll⟩ := createFpageChain_spec hL
  have hmpid : (s1.fp r).mpid = (s.fp r).mpid := by
    rw [hbL.frame_none fun hrc => hbL.not_mem hlive r hrc hr]
  obtain ⟨rf, rlast, s2, hR, _⟩ := createFpageChain_total mm (s1.fp r).mpid none
    (show (chainBlocks ((s.fp r).stop - sp).toNat sp _).length ≤ s1.room by omega)
  obtain ⟨cr, hbR, hrf, hrl⟩ := createFpageChain_spec hR
  have hlive1 : ∀ x ∈ l, s1.liveFp x = true := fun x hx => hbL.keeps_live (hlive x hx)
  have hlive2 : ∀ x ∈ l, s2.liveFp x = true := fun x hx => hbR.keeps_live (hlive1 x hx)
  have hl2 : Chain s2.asNext (s2.as a).first l := hbR.keeps (hbL.keeps hl hlive) hlive1
  have hq2 : Quiet s2 := hbR.rest.out.quiet (hbL.rest.out.quiet hq)
  -- the removals
  obtain ⟨s3, hrem3⟩ := removeFpageFromList_total hq2
    (leads_of_mem .as hl2 (length_le_walkBound hl2 hlive2) hr)
  have he := removeFpageFromList_as_spec hq2 hl2 hr hrem3
  obtain ⟨hlead1, hwalk1⟩ := hbL.keeps_leads hown hmpu
  have hown1 : ∀ x ∈ walk s1.mpuNext s1.walkBound (s1.as a).mpuFirst, s1.liveFp x = true := by
    rw [hwalk1]
    exact fun x hx => hbL.keeps_live (hown x hx)
  obtain ⟨s4, hrem4⟩ := removeFpageFromList_total (he.same.quiet hq2)
    (he.keeps_leads (hbR.keeps_leads hown1 hlead1).1)
  have hu := removeFpageFromList_mpu_spec (he.same.quiet hq2) hrem4
  -- the insertions
  rw [hmpid] at hbR
  have hrmd := Removed.of_steps hlive hbL hbR he hu
  have hbound : s4.walkBound = s2.walkBound := by
    unfold Kernel.walkBound
    rw [hu.same.num, he.same.num]
  have hshort : ∀ {t : Kernel} {p : Option FpRef} {l' : List FpRef}, Chain t.asNext p l' →
      (∀ x ∈ l', x ∈ cl ∨ x ∈ l) → l'.length ≤ s2.walkBound := by
    intro t p l' hl' hmem
    refine (length_le_of_nodup_lt hl'.nodup fun x hx => ?_).trans (Nat.le_succ _)
    rcases hmem x hx with hx | hx
    · refine liveFp_lt (hbR.keeps_live ?_)
      rw [hbL.live, decide_eq_true hx, Bool.or_true]
    · exact liveFp_lt (hlive2 x hx)
  obtain ⟨x1, hx1⟩ : ∃ x, cl.head? = some x :=
    ⟨_, List.head?_eq_some_head (hbL.ne_nil (sub_ne_zero_of_ne h1))⟩
  obtain ⟨x2, hx2⟩ : ∃ x, cl.getLast? = some x :=
    ⟨_, List.getLast?_eq_some_getLast (hbL.ne_nil (sub_ne_zero_of_ne h1))⟩
  obtain ⟨y1, hy1⟩ : ∃ y, cr.head? = some y :=
    ⟨_, List.head?_eq_some_head (hbR.ne_nil (sub_ne_zero_of_ne (Ne.symm h2)))⟩
  obtain ⟨y2, hy2⟩ : ∃ y, cr.getLast? = some y :=
    ⟨_, List.getLast?_eq_some_getLast (hbR.ne_nil (sub_ne_zero_of_ne (Ne.symm h2)))⟩
  obtain ⟨s5, hins5⟩ := insertFpageChainToAs_total x1 x2 hrmd.list (by
    refine (hshort hrmd.list fun x hx => .inr (List.mem_of_mem_erase hx)).trans ?_
    exact hbound.ge)
  have hiL := insertFpageChainToAs_list hrmd.list hrmd.left hx1 hx2 hrmd.left_new hins5
  obtain ⟨s6, hins6⟩ := insertFpageChainToAs_total y1 y2 hiL.list (by
    refine (hshort hiL.list fun x hx => ?_).trans ?_
    · rcases mem_spliceAt.mp hx with hx | hx
      · exact .inl hx
      · exact .inr (List.mem_of_mem_erase hx)
    · unfold Kernel.walkBound at hbound ⊢
      rw [hiL.same.num]
      exact hbound.ge)
  refine ⟨if rl then rf else ll, s6, ?_⟩
  unfold splitFpage
  simp only [hsp]
  rw [if_neg (not_or.mpr ⟨h1, h2⟩), if_neg (not_not.mpr halone)]
  refine bind_ok.mpr ⟨_, hL, bind_ok.mpr ⟨_, hR, ?_⟩⟩
  refine bind_ok.mpr ⟨s4, bind_ok.mpr ⟨s3, hrem3, hrem4⟩, ?_⟩
  refine bind_ok.mpr ⟨x1, deref_ok.mpr (hlf.trans hx1), ?_⟩
  refine bind_ok.mpr ⟨x2, deref_ok.mpr (hll.trans hx2), ?_⟩
  refine bind_ok.mpr ⟨s5, hins5, ?_⟩
  refine bind_ok.mpr ⟨y1, deref_ok.mpr (hrf.trans hy1), ?_⟩
  refine bind_ok.mpr ⟨y2, deref_ok.mpr (hrl.trans hy2), ?_⟩
  exact bind_ok.mpr ⟨s6, hins6, rfl⟩

/-! ## Which pages are cut -/

theorem Cut.cutPages_le (h : Cut mm s s' a r l sp cl cr) :
    cutPages (s.fp r) sp ≤ s.room := by
  have hlen : cutPages (s.fp r) sp = (cl ++ cr).length := by
    unfold cutPages
    rw [← h.left.blocks, ← h.right.blocks, List.length_append, List.length_map, List.length_map]
  rw [hlen]
  refine length_le_room h.nodup (fun x hx => ?_) h.fresh
  have hlive : s'.liveFp x = true := by
    rw [h.live, decide_eq_true hx, Bool.or_true]
  have := liveFp_lt hlive
  rwa [h.out.num] at this

theorem Cut.leads (hlive : ∀ x ∈ walk s.mpuNext s.walkBound (s.as a).mpuFirst, s.liveFp x = true)
    (h : Cut mm s s' a r l sp cl cr) : FpList.mpu.Leads s a r := by
  rcases h.mpuLinks with ⟨h1, _⟩ | ⟨_, _, p, _, hp, hwalk, _⟩
  · exact .inl h1
  · refine .inr ⟨p, ?_, hp⟩
    have hclear : walk (fun x => if x ∈ cl ++ cr then none else s.mpuNext x) s.walkBound
        (s.as a).mpuFirst = walk s.mpuNext s.walkBound (s.as a).mpuFirst := by
      refine walk_congr _ _ fun x hx => if_neg fun hxc => ?_
      exact ne_true_of_eq_false (h.fresh x hxc) (hlive x hx)
    rw [hclear] at hwalk
    exact hwalk

/-- `split` is strictly inside the page `x` of the space, after rounding; the pool of the page
has a type, the MPU list leads to the page, and there is room for the pieces. -/
structure Cuttable (mm : Memmap) (s : Kernel) (a : AsRef) (x : FpRef) (split : Word) : Prop where
  lo : (s.fp x).lo < roundUp split.toNat
  hi : roundUp split.toNat < (s.fp x).hi
  mappable : (mempoolGetbyid mm (s.fp x).mpid).mappable = true
  listed : FpList.mpu.Leads s a x
  room : cutPages (s.fp x) (mempoolAlign mm (s.fp x).mpid split) ≤ s.room

section

variable {x : FpRef} {split : Word}

theorem MpuOwn.walk_live (hown : MpuOwn s a) (hwf : Wf s) (ha : s.liveAs a = true) :
    ∀ y ∈ walk s.mpuNext s.walkBound (s.as a).mpuFirst, s.liveFp y = true := fun y hy =>
  hwf.live a ha y (mem_of_mem_walk hown.next _ _ hown.head y hy)

theorem Cuttable.of_cut (hr : Ready s) (ha : SortedSpace s a) (hown : MpuOwn s a)
    (hx : x ∈ s.pages a) (hin : addrInFpage split (s.fp x) true = true)
    (hhi : (s.fp x).hi < 2 ^ 32) (h1 : mempoolAlign mm (s.fp x).mpid split ≠ (s.fp x).base)
    (h2 : mempoolAlign mm (s.fp x).mpid split ≠ (s.fp x).stop)
    (h : Cut mm s s' a x (s.pages a) (mempoolAlign mm (s.fp x).mpid split) cl cr) :
    Cuttable mm s a x split := by
  rcases h.place hr.num (hr.wf.live a ha.live x hx) (ha.sized x hx) hin h1 h2 with
    ⟨_, hm, _, h3, h4⟩ | ⟨h3, _⟩
  · exact ⟨h3, h4, hm, h.leads (hown.walk_live hr.wf ha.live), h.cutPages_le⟩
  · omega

/-- The split point is strictly inside the page before rounding too. -/
theorem Cuttable.inside (h : Cuttable mm s a x split) (hd : 256 ∣ (s.fp x).lo) :
    (s.fp x).lo < split.toNat ∧ split.toNat < (s.fp x).hi := by
  have h1 := h.lo
  have h2 := h.hi
  unfold roundUp at h1 h2
  omega

theorem Cuttable.align (h : Cuttable mm s a x split) (hhi : (s.fp x).hi < 2 ^ 32) :
    (mempoolAlign mm (s.fp x).mpid split).toNat = roundUp split.toNat := by
  have := h.hi
  unfold mempoolAlign
  rw [if_pos h.mappable, addrAlign_toNat]
  unfold roundUp at this ⊢
  omega

theorem Cuttable.cut (h : Cuttable mm s a x split) (hr : Ready s) (ha : SortedSpace s a)
    (hown : MpuOwn s a) (hx : x ∈ s.pages a) (halone : (s.fp x).mapNext = some x)
    (hhi : (s.fp x).hi < 2 ^ 32) :
    ∃ s' cl cr, Cut mm s s' a x (s.pages a) (mempoolAlign mm (s.fp x).mpid split) cl cr ∧
      splitFpage mm s (some a) x split rl = .ok (if rl then cr.head? else cl.getLast?, s') := by
  have hval := h.align hhi
  have hlo := h.lo
  have hup := h.hi
  have h1 : mempoolAlign mm (s.fp x).mpid split ≠ (s.fp x).base := by
    intro heq
    have : (s.fp x).base.toNat = (s.fp x).lo := rfl
    rw [heq] at hval
    omega
  have h2 : mempoolAlign mm (s.fp x).mpid split ≠ (s.fp x).stop := by
    intro heq
    rw [heq, (ha.sized x hx).stop_toNat, Nat.mod_eq_of_lt hhi] at hval
    omega
  have hl := hr.wf.chain a ha.live
  have hlive := hr.wf.live a ha.live
  obtain ⟨res, s', hsplit⟩ : ∃ res s', splitFpage mm s (some a) x split rl = .ok (res, s') :=
    splitFpage_total hr.quiet hl hlive hx halone (hown.walk_live hr.wf ha.live) h.listed h1 h2
      h.room
  rcases splitFpage_spec hr.quiet hl hlive hx hsplit with
    ⟨hb, _⟩ | ⟨_, _, ⟨hm, _⟩ | ⟨cl, cr, hc, hres⟩⟩
  · exact absurd hb (not_or.mpr ⟨h1, h2⟩)
  · exact absurd halone hm
  · exact ⟨s', cl, cr, hc, by rw [hsplit, hres]⟩

/-- The split point is an end of the page: `split_fpage` returns the page itself. -/
def Whole (mm : Memmap) (s : Kernel) (x : FpRef) (split : Word) : Prop :=
  mempoolAlign mm (s.fp x).mpid split = (s.fp x).base ∨
    mempoolAlign mm (s.fp x).mpid split = (s.fp x).stop

/-- The split of a page that is mapped nowhere else returns a page if and only if it leaves the
page whole or cuts it. -/
theorem splitFpage_returns (hr : Ready s) (ha : SortedSpace s a) (hown : MpuOwn s a)
    (hx : x ∈ s.pages a) (halone : (s.fp x).mapNext = some x)
    (hin : addrInFpage split (s.fp x) true = true) (hhi : (s.fp x).hi < 2 ^ 32) :
    (∃ f s', splitFpage mm s (some a) x split rl = .ok (some f, s')) ↔
      Whole mm s x split ∨ Cuttable mm s a x split := by
  constructor
  · rintro ⟨f, s', h⟩
    rcases splitFpage_spec hr.quiet (hr.wf.chain a ha.live) (hr.wf.live a ha.live) hx h with
      ⟨hb, _⟩ | ⟨h1, h2, ⟨hm, _⟩ | ⟨cl, cr, hc, _⟩⟩
    · exact .inl hb
    · exact absurd halone hm
    · exact .inr (.of_cut hr ha hown hx hin hhi h1 h2 hc)
  · rintro (hb | hcut)
    · exact ⟨x, s, if_pos hb⟩
    · obtain ⟨s', cl, cr, hc, h⟩ : ∃ s' cl cr, Cut mm s s' a x (s.pages a)
          (mempoolAlign mm (s.fp x).mpid split) cl cr ∧
          splitFpage mm s (some a) x split rl = .ok (if rl then cr.head? else cl.getLast?, s') :=
        hcut.cut hr ha hown hx halone hhi
      rw [List.head?_eq_some_head hc.right_ne, List.getLast?_eq_some_getLast hc.left_ne] at h
      cases rl with
      | false => exact ⟨_, s', h⟩
      | true => exact ⟨_, s', h⟩

end

/-! ## The mapping loop -/

section

variable {src dst : AsRef} {action : MapAction} {w f : FpRef}

theorem Cloned.room (h : Cloned s s' dst r f action l) : s'.room + 1 = s.room := by
  refine room_take ?_ h.fresh h.out.num h.live
  have hlive : s'.liveFp f = true := by
    rw [h.live, decide_eq_true rfl, Bool.or_true]
  have := liveFp_lt hlive
  rwa [h.out.num] at this

theorem CloneSeq.length_le_room {rs : List FpRef} (h : CloneSeq dst action s rs s') :
    rs.length ≤ s.room := by
  induction h with
  | nil => exact Nat.zero_le _
  | cons hc _ ih =>
    have := hc.room
    rw [List.length_cons]
    omega

theorem mapFpage_total (hwf : Wf s) (hd : s.liveAs dst = true) (r : FpRef) (action : MapAction)
    (hroom : 0 < s.room) : ∃ s', mapFpage s dst (some r) action = .ok s' := by
  obtain ⟨f, s1, halloc⟩ := allocFp_total hroom
  have halc := allocFp_spec halloc
  have hlive := hwf.live dst hd
  obtain ⟨s', hins⟩ := insertFpageChainToAs_total f f
    (cloneInto_chain halc r action (hwf.chain dst hd) (halc.not_mem hlive)) (by
      refine (length_le_walkBound (hwf.chain dst hd) hlive).trans_eq ?_
      unfold Kernel.walkBound
      rw [(cloneInto_rest s1 f r action).num, halc.rest.num])
  refine ⟨s', ?_⟩
  unfold mapFpage
  rw [halloc]
  exact hins

/-- The mapping loop over a part of the list of another space returns if there is an entry for
each of its pages. -/
theorem mapChain_total (hne : src ≠ dst) (seg : List FpRef) (n : Nat) (s : Kernel)
    (pre post : List FpRef) (f : FpRef) (hwf : Wf s) (hs : s.liveAs src = true)
    (hd : s.liveAs dst = true) (hl : s.pages src = pre ++ (f :: seg) ++ post)
    (hw : (f :: seg).getLast? = some w) (hn : (f :: seg).length ≤ n)
    (hroom : (f :: seg).length ≤ s.room) : ∃ s', mapChain dst action w n s (some f) = .ok s' := by
  induction seg generalizing n s pre f with
  | nil =>
    obtain ⟨n, rfl⟩ := Nat.exists_eq_add_of_le' hn
    obtain rfl : f = w := by simpa using hw
    obtain ⟨s', hmap⟩ := mapFpage_total hwf hd f action hroom
    exact ⟨s', (if_pos rfl).trans hmap⟩
  | cons g seg ih =>
    rw [List.length_cons] at hn hroom
    obtain ⟨n, rfl⟩ := Nat.exists_eq_add_of_le' hn
    obtain ⟨s1, hmap⟩ := mapFpage_total hwf hd f action (by omega : 0 < s.room)
    obtain ⟨_, c, hx, hc⟩ := mapFpage_spec (hwf.chain dst hd) (hwf.live dst hd) hmap
    obtain rfl := Option.some.inj hx
    have hl' : s.pages src = pre ++ f :: (g :: seg ++ post) := by
      rw [hl]
      simp
    have hl1 : s1.pages src = pre ++ [f] ++ (g :: seg) ++ post := by
      rw [hc.pages_ne hwf hd hs hne, hl]
      simp
    rw [List.getLast?_cons_cons] at hw
    -- the last page stands behind the first
    have hfw : some f ≠ some w := by
      rintro ⟨⟩
      have hnd := (hwf.chain src hs).nodup
      rw [hl'] at hnd
      exact (List.nodup_cons.mp (List.nodup_append.mp hnd).2.1).1
        (List.mem_append_left _ (List.mem_of_getLast? hw))
    obtain ⟨s', hloop⟩ := ih (n + (g :: seg).length) s1 (pre ++ [f]) g (hc.lists hwf hd).wf
      (hc.out.live hs) (hc.out.live hd) hl1 hw (Nat.le_add_left _ _) (by have := hc.room; omega)
    refine ⟨s', (if_neg hfw).trans (bind_ok.mpr ⟨s1, hmap, bind_ok.mpr ⟨f, rfl, ?_⟩⟩)⟩
    have hnext : (s1.fp f).asNext = some g := hc.next_listed hwf hs hd hne hl'
    rw [hnext]
    exact hloop

end

end F9
