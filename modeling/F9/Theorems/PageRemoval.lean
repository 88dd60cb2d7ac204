import F9.Logic.Frames
import F9.Logic.Room
import F9.Logic.Steps

/-!
# Removing a page from a space

`remove_fpage_from_as` expands one macro for two lists. The macro starts its search with whatever
its local `end` holds, and it writes a link without a look at where the search has ended.

* `removeFpageFromList_erases` — when one expansion takes the page out of its list and leaves the
  others in place;
* `stack_forgets` — what this does to the list of stack pages, which shares the links of the MPU
  list;
* `remove_fpage_exact` — both together;
* `page_lists_sound` — the lists of all spaces along a run.
-/

namespace F9

open Linked Result

variable {s s' : Kernel} {a : AsRef} {r : FpRef} {l m st : List FpRef}

/-! ## One list -/

/-- When the expansion for a list does what it should: the page is the head, or on the list and
`end` is 0. If `end` is not 0 the link of the head is overwritten, which is right if the page
comes next, and does nothing if its link is that of the head already. -/
def Unlinkable (next : FpRef → Option FpRef) (l : List FpRef) (r : FpRef) (e : Bool) : Prop :=
  l.head? = some r ∨ (e = false ∧ r ∈ l) ∨
    (e = true ∧ ∃ h, l.head? = some h ∧ (next h = some r ∨ (r ∉ l ∧ next h = next r)))

theorem head_setHead (k : FpList) (p : Option FpRef) :
    k.head ((s.setAs a (k.setHead p)).as a) = p := by
  rw [Kernel.setAs_as_self]
  cases k <;> rfl

theorem links_setNext (k : FpList) (p x : FpRef) (q : Option FpRef) :
    k.links (s.setFp p (k.setNext q)) x = if x = p then q else k.links s x := by
  unfold FpList.links
  rw [Kernel.setFp_fp]
  by_cases hx : x = p
  · rw [if_pos hx, if_pos hx]
    cases k <;> rfl
  · rw [if_neg hx, if_neg hx]

/-- With `end` not 0: what the list must look like for the overwritten link of the head to be the
right one. -/
theorem overwritten_head {next next' : FpRef → Option FpRef} {h : FpRef} (hl : Chain next (some h) l)
    (hhr : h ≠ r) (hh : next' h = next r) (hres : Chain next' (some h) (l.erase r)) :
    next h = some r ∨ (r ∉ l ∧ next h = next r) := by
  cases l with
  | nil => exact absurd (chain_nil.mp hl) (by simp)
  | cons y l =>
    obtain ⟨hy, ht⟩ := chain_cons.mp hl
    injection hy with hy
    subst hy
    rw [List.erase_cons_tail (by simpa using hhr)] at hres
    have htail := (chain_cons.mp hres).2
    rw [hh] at htail
    cases l with
    | nil =>
      exact .inr ⟨by simpa using hhr.symm, (chain_nil.mp ht).trans (chain_nil.mp htail).symm⟩
    | cons y l =>
      obtain ⟨hy, _⟩ := chain_cons.mp ht
      by_cases hyr : y = r
      · exact .inl (by rw [hy, hyr])
      · rw [List.erase_cons_tail (by simpa using hyr)] at htail
        have hry := (chain_cons.mp htail).1
        refine .inr ⟨fun hr => ?_, by rw [hy, hry]⟩
        -- `y` would come after the head and after `r`
        obtain ⟨l1, l2, hsplit⟩ := hl.pred hr hry
        have hnd := hl.nodup
        rw [hsplit] at hnd
        cases l1 with
        | nil =>
          injection hsplit with h1 _
          exact hhr h1
        | cons z l1 =>
          injection hsplit with _ h2
          have hyl : y ∈ l1 ++ [r] := by
            refine List.mem_of_mem_head? ?_
            cases l1 with
            | nil =>
              injection h2 with h3 _
              exact absurd h3 hyr
            | cons w l1 =>
              injection h2 with h3 _
              rw [h3]
              rfl
          have hassoc : z :: l1 ++ r :: y :: l2 = z :: ((l1 ++ [r]) ++ y :: l2) := by simp
          rw [hassoc] at hnd
          have hdis := (List.nodup_append.mp (List.nodup_cons.mp hnd).2).2.2
          exact hdis y hyl y (by simp) rfl

/-- One expansion of the macro takes `r` out of the list, or leaves a list without it alone, if and
only if the list is `Unlinkable`. -/
theorem removeFpageFromList_erases (k : FpList) (hl : Chain (k.links s) (k.head (s.as a)) l)
    (hlt : ∀ x ∈ l, x < s.fpageTable.num) :
    (∃ s', removeFpageFromList k s a r = .ok s' ∧
      Chain (k.links s') (k.head (s'.as a)) (l.erase r)) ↔
    Unlinkable (k.links s) l r (s.junk 0) := by
  have hhead := hl.head_eq
  constructor
  · rintro ⟨s', hrun, hres⟩
    rcases removeFpageFromList_cases hrun with ⟨hh, _⟩ |
      ⟨hh, p, hs', ⟨he, hlink, hwalk⟩ | ⟨he, hp⟩⟩
    · exact .inl (hhead ▸ hh)
    · exact .inr (.inl ⟨he, hl.next_mem (hl.mem_of_mem_walk hwalk) hlink⟩)
    · have hpr : p ≠ r := fun hpr => hh (hpr ▸ hp)
      have hkeep : k.head (s'.as a) = some p := by
        rw [hs']
        exact hp
      rw [hkeep] at hres
      refine .inr (.inr ⟨he, p, hhead ▸ hp, ?_⟩)
      refine overwritten_head (hp ▸ hl) hpr ?_ hres
      rw [hs', links_setNext, if_pos rfl]
  · intro hrem
    by_cases hh : k.head (s.as a) = some r
    · refine ⟨_, if_pos hh, ?_⟩
      cases l with
      | nil =>
        rw [chain_nil.mp hl] at hh
        simp at hh
      | cons y l =>
        obtain ⟨hy, ht⟩ := chain_cons.mp hl
        rw [hh] at hy
        injection hy with hy
        subst hy
        rw [List.erase_cons_head, head_setHead]
        exact ht
    · rcases hrem with hr | ⟨he, hr⟩ | ⟨he, h, hhd, hcase⟩
      · exact absurd (hhead.trans hr) hh
      · -- the search finds the page before `r`
        obtain ⟨p, hp, hlink⟩ := hl.exists_before hr (hhead ▸ hh)
        have hwalk : p ∈ walk (k.links s) s.walkBound (k.head (s.as a)) := by
          have hlen : l.length ≤ s.walkBound :=
            (length_le_of_nodup_lt hl.nodup hlt).trans (Nat.le_succ _)
          rw [hl.walk_eq hlen]
          exact hp
        obtain ⟨s', hrun⟩ := removeFpageFromList_leads he (.inr ⟨p, hwalk, hlink⟩)
        refine ⟨s', hrun, ?_⟩
        rcases removeFpageFromList_cases hrun with ⟨hno, _⟩ |
          ⟨_, p', hs', ⟨_, hlink', hwalk'⟩ | ⟨he', _⟩⟩
        · exact absurd hno hh
        · rw [hs']
          exact hl.erase_link (hl.mem_of_mem_walk hwalk') hlink' (links_setNext k p' · _)
        · rw [he] at he'
          simp at he'
      · -- the link of the head is overwritten
        have hsome := hhead.trans hhd
        refine ⟨{ s with junk := fun n => s.junk (n + 1) }.setFp h (k.setNext (k.links s r)),
          (if_neg hh).trans (bind_ok.mpr ⟨some h, ?_, rfl⟩), ?_⟩
        · rw [he]
          exact congrArg Except.ok hsome
        · rcases hcase with hlink | ⟨hr, hlink⟩
          · exact hl.erase_link (List.mem_of_mem_head? hhd) hlink (links_setNext k h · _)
          · rw [List.erase_of_not_mem hr]
            refine hl.congr fun x _ => ?_
            rw [links_setNext]
            by_cases hx : x = h
            · rw [if_pos hx, hx, hlink]
            · rw [if_neg hx]
              rfl

/-! ## The three heads -/

/-- The expansion for one list leaves the other alone. -/
theorem removeFpageFromList_other (k j : FpList) (hkj : j ≠ k)
    (h : removeFpageFromList k s a r = .ok s') :
    (∀ x, j.links s' x = j.links s x) ∧ j.head (s'.as a) = j.head (s.as a) ∧
      (s'.as a).mpuStackFirst = (s.as a).mpuStackFirst ∧ s'.junk 0 = s.junk 1 := by
  rcases removeFpageFromList_cases h with ⟨_, rfl⟩ | ⟨_, p, rfl, _⟩
  · refine ⟨fun _ => rfl, ?_, ?_, rfl⟩
    · rw [Kernel.setAs_as_self]
      cases k <;> cases j <;> first | rfl | exact absurd rfl hkj
    · rw [Kernel.setAs_as_self]
      cases k <;> rfl
  · refine ⟨fun x => ?_, rfl, rfl, rfl⟩
    unfold FpList.links
    rw [Kernel.setFp_fp]
    by_cases hx : x = p
    · rw [if_pos hx, hx]
      cases k <;> cases j <;> first | rfl | exact absurd rfl hkj
    · rw [if_neg hx]
      rfl

/-- The list of stack pages shares the links of the MPU list. After the removal from the latter it
does not lead to the page if and only if it did not before, or led to it by the link that is
redirected. -/
theorem stack_forgets (hm : Chain s.mpuNext (s.as a).mpuFirst m)
    (hst : Chain s.mpuNext (s.as a).mpuStackFirst st)
    (hrem : Unlinkable s.mpuNext m r (s.junk 0))
    (hrun : removeFpageFromList .mpu s a r = .ok s') :
    (∀ n, r ∉ walk s'.mpuNext n (s'.as a).mpuStackFirst) ↔
      (r ∈ st → ∃ p ∈ m, p ∈ st ∧ s.mpuNext p = some r) := by
  -- the page before `r` on the MPU list is skipped
  have hskip : ∀ p ∈ m, s.mpuNext p = some r → (s'.as a).mpuStackFirst = (s.as a).mpuStackFirst →
      (∀ x, s'.mpuNext x = if x = p then s.mpuNext r else s.mpuNext x) →
      ((∀ n, r ∉ walk s'.mpuNext n (s'.as a).mpuStackFirst) ↔
        (r ∈ st → ∃ p ∈ m, p ∈ st ∧ s.mpuNext p = some r)) := by
    intro p hp hlink hsame hnext
    rw [hsame]
    by_cases hps : p ∈ st
    · rw [(hst.erase_link hps hlink hnext).not_reached]
      exact ⟨fun _ _ => ⟨p, hp, hps, hlink⟩, fun _ => hst.nodup.not_mem_erase⟩
    · have hst' : Chain s'.mpuNext (s.as a).mpuStackFirst st := by
        refine hst.congr fun x hx => ?_
        rw [hnext, if_neg fun hxp : x = p => hps (hxp ▸ hx)]
      rw [hst'.not_reached]
      refine ⟨fun hr hrs => absurd hrs hr, fun hcond hrs => ?_⟩
      obtain ⟨q, hq, hqs, hql⟩ := hcond hrs
      exact hps (hm.before_unique hq hp hql hlink ▸ hqs)
  -- no link changes
  have hkeep : (∀ p ∈ m, s.mpuNext p ≠ some r) →
      (s'.as a).mpuStackFirst = (s.as a).mpuStackFirst → (∀ x, s'.mpuNext x = s.mpuNext x) →
      ((∀ n, r ∉ walk s'.mpuNext n (s'.as a).mpuStackFirst) ↔
        (r ∈ st → ∃ p ∈ m, p ∈ st ∧ s.mpuNext p = some r)) := by
    intro hno hsame hnext
    rw [hsame, (hst.congr fun x _ => hnext x).not_reached]
    refine ⟨fun hr hrs => absurd hrs hr, fun hcond hrs => ?_⟩
    obtain ⟨p, hp, _, hlink⟩ := hcond hrs
    exact hno p hp hlink
  rcases removeFpageFromList_cases hrun with ⟨hh, rfl⟩ |
    ⟨hh, p, rfl, ⟨_, hlink, hwalk⟩ | ⟨he, hp⟩⟩
  · refine hkeep (fun p hp => hm.not_before_head (hm.head_eq ▸ hh) hp) ?_ fun _ => rfl
    rw [Kernel.setAs_as_self]
    rfl
  · exact hskip p (hm.mem_of_mem_walk hwalk) hlink rfl (links_setNext .mpu p · _)
  · have hhead : m.head? = some p := hm.head_eq.symm.trans hp
    rcases hrem with hr | ⟨he', _⟩ | ⟨_, h, hhd, hcase⟩
    · exact absurd (hm.head_eq.trans hr) hh
    · rw [he] at he'
      simp at he'
    · obtain rfl : p = h := Option.some.inj (hhead.symm.trans hhd)
      rcases hcase with hlink | ⟨hr, hlink⟩
      · exact hskip p (List.mem_of_mem_head? hhd) hlink rfl (links_setNext .mpu p · _)
      · refine hkeep (fun q hq hqr => hr (hm.next_mem hq hqr)) rfl fun x => ?_
        refine (links_setNext .mpu p x _).trans ?_
        by_cases hx : x = p
        · rw [if_pos hx, hx, hlink]
          rfl
        · rw [if_neg hx]
          rfl

/-! ## Both lists -/

/-- The page is gone from the space, whose lists were `l` and `m`: the other pages are in place,
none of the three heads leads to it, and nothing but links is written. -/
structure FpageRemoved (s s' : Kernel) (a : AsRef) (r : FpRef) (l m : List FpRef) : Prop where
  list : Chain s'.asNext (s'.as a).first (l.erase r)
  mpu : Chain s'.mpuNext (s'.as a).mpuFirst (m.erase r)
  first : ∀ n, r ∉ walk s'.asNext n (s'.as a).first
  mpuFirst : ∀ n, r ∉ walk s'.mpuNext n (s'.as a).mpuFirst
  mpuStackFirst : ∀ n, r ∉ walk s'.mpuNext n (s'.as a).mpuStackFirst
  page : ∀ x, s'.fp x = { s.fp x with asNext := s'.asNext x, mpuNext := s'.mpuNext x }

/-- When the call takes the page out of the space: both expansions find it, and the list of stack
pages `st` leads to it only by the link from the MPU list. -/
structure RemovesExactly (s : Kernel) (r : FpRef) (l m st : List FpRef) : Prop where
  list : Unlinkable s.asNext l r (s.junk 0)
  mpu : Unlinkable s.mpuNext m r (s.junk 1)
  stack : r ∈ st → ∃ p ∈ m, p ∈ st ∧ s.mpuNext p = some r

/-- `remove_fpage_from_as` for any space, any page and any values of `end`: it returns with the
page gone if and only if `RemovesExactly` holds. -/
theorem remove_fpage_exact (hl : Chain s.asNext (s.as a).first l)
    (hm : Chain s.mpuNext (s.as a).mpuFirst m) (hst : Chain s.mpuNext (s.as a).mpuStackFirst st)
    (hlt : ∀ x ∈ l, x < s.fpageTable.num) (hmt : ∀ x ∈ m, x < s.fpageTable.num) :
    (∃ s', removeFpageFromAs s a r = .ok s' ∧ FpageRemoved s s' a r l m) ↔
      RemovesExactly s r l m st := by
  have hinit : ∀ s1, removeFpageFromList .as s a r = .ok s1 →
      Chain s1.mpuNext (s1.as a).mpuFirst m ∧ Chain s1.mpuNext (s1.as a).mpuStackFirst st ∧
        (∀ x, s1.mpuNext x = s.mpuNext x) ∧ s1.junk 0 = s.junk 1 ∧
        s1.fpageTable.num = s.fpageTable.num := by
    intro s1 h1
    obtain ⟨hnext, hhead, hstack, hjunk⟩ :=
      removeFpageFromList_other .as .mpu (by simp) h1
    have hfirst : (s1.as a).mpuFirst = (s.as a).mpuFirst := hhead
    rw [hfirst, hstack]
    exact ⟨hm.congr fun x _ => hnext x, hst.congr fun x _ => hnext x, hnext, hjunk,
      (removeFpageFromList_relinked h1).num⟩
  constructor
  · rintro ⟨s', hrun, hgone⟩
    obtain ⟨s1, h1, h2⟩ := bind_ok.mp hrun
    obtain ⟨hm1, hst1, hnext, hjunk, hnum⟩ := hinit s1 h1
    obtain ⟨has, hhead, _, _⟩ := removeFpageFromList_other .mpu .as (by simp) h2
    have hfirst : (s'.as a).first = (s1.as a).first := hhead
    have hmpu1 : Unlinkable s1.mpuNext m r (s1.junk 0) :=
      (removeFpageFromList_erases .mpu hm1 (hnum.symm ▸ hmt)).mp ⟨s', h2, hgone.mpu⟩
    have hlist1 : Chain s1.asNext (s1.as a).first (l.erase r) := by
      rw [← hfirst]
      exact hgone.list.congr fun x _ => (has x).symm
    have hcond := (stack_forgets hm1 hst1 hmpu1 h2).mp hgone.mpuStackFirst
    rw [funext hnext, hjunk] at hmpu1
    rw [funext hnext] at hcond
    exact ⟨(removeFpageFromList_erases .as hl hlt).mp ⟨s1, h1, hlist1⟩, hmpu1, hcond⟩
  · intro hcond
    obtain ⟨s1, h1, hlist1⟩ := (removeFpageFromList_erases .as hl hlt).mpr hcond.list
    obtain ⟨hm1, hst1, hnext, hjunk, hnum⟩ := hinit s1 h1
    have hmpu1 : Unlinkable s1.mpuNext m r (s1.junk 0) := by
      rw [funext hnext, hjunk]
      exact hcond.mpu
    obtain ⟨s', h2, hmpu⟩ := (removeFpageFromList_erases .mpu hm1 (hnum.symm ▸ hmt)).mpr hmpu1
    obtain ⟨has, hhead, _, _⟩ := removeFpageFromList_other .mpu .as (by simp) h2
    have hfirst : (s'.as a).first = (s1.as a).first := hhead
    have hrun : removeFpageFromAs s a r = .ok s' := bind_ok.mpr ⟨s1, h1, h2⟩
    have hlist : Chain s'.asNext (s'.as a).first (l.erase r) := by
      rw [hfirst]
      exact Chain.congr hlist1 fun x _ => has x
    have hmpu' : Chain s'.mpuNext (s'.as a).mpuFirst (m.erase r) := hmpu
    refine ⟨s', hrun, hlist, hmpu', ?_, ?_, ?_, (removeFpageFromAs_relinked hrun).page⟩
    · exact hlist.not_reached.mpr hl.nodup.not_mem_erase
    · exact hmpu'.not_reached.mpr hm.nodup.not_mem_erase
    · refine (stack_forgets hm1 hst1 hmpu1 h2).mpr ?_
      rw [funext hnext]
      exact hcond.stack

/-- A space of three pages, the first of which is a stack page, after a thread switch: its last page
is taken out of both lists. -/
theorem remove_fpage_exact_last : ∃ s,
    (system (memmap stm32f4Board) stm32f4Board).Reachable (fun _ _ => True) s ∧
    Chain s.asNext (s.as 0).first [2, 3, 4] ∧ Chain s.mpuNext (s.as 0).mpuFirst [3, 4] ∧
    Chain s.mpuNext (s.as 0).mpuStackFirst [2] ∧ RemovesExactly s 4 [2, 3, 4] [3, 4] [2] ∧
    ∃ s', removeFpageFromAs s 0 4 = .ok s' ∧ FpageRemoved s s' 0 4 [2, 3, 4] [3, 4] := by
  obtain ⟨s, hreach, hq, _, hp⟩ := exists_bootRun
    [.asCreate 1#32, .assignFpages 0 0x20008000#32 0x300#32,
      .asSetupMpu 0 0#32 0#32 0x20008000#32 0x100#32]
    (fun s => decide (s.fpageTable.num = 256 ∧
      ((s.as 0).first = some 2 ∧ s.asNext 2 = some 3 ∧ s.asNext 3 = some 4 ∧ s.asNext 4 = none) ∧
      ((s.as 0).mpuFirst = some 3 ∧ s.mpuNext 3 = some 4 ∧ s.mpuNext 4 = none) ∧
      (s.as 0).mpuStackFirst = some 2 ∧ s.mpuNext 2 = none)) (by decide +kernel)
  obtain ⟨hnum, ⟨h1, h2, h3, h4⟩, ⟨h5, h6, h7⟩, h8, h9⟩ := of_decide_eq_true hp
  have hl : Chain s.asNext (s.as 0).first [2, 3, 4] := by simp [h1, h2, h3, h4]
  have hm : Chain s.mpuNext (s.as 0).mpuFirst [3, 4] := by simp [h5, h6, h7]
  have hst : Chain s.mpuNext (s.as 0).mpuStackFirst [2] := by simp [h8, h9]
  have hcond : RemovesExactly s 4 [2, 3, 4] [3, 4] [2] :=
    ⟨.inr (.inl ⟨hq 0, by simp⟩), .inr (.inl ⟨hq 1, by simp⟩), by simp⟩
  exact ⟨s, hreach, hl, hm, hst, hcond,
    (remove_fpage_exact hl hm hst (by simp [hnum]) (by simp [hnum])).mpr hcond⟩

/-- Before the first thread switch the MPU list is empty. The removal of a page of the space reads
through `NULL`, with every `end` equal to 0. -/
theorem remove_fpage_unscheduled : ∃ s,
    (system (memmap stm32f4Board) stm32f4Board).Reachable (fun _ _ => True) s ∧ Quiet s ∧
    Chain s.asNext (s.as 0).first [2] ∧ Chain s.mpuNext (s.as 0).mpuFirst [] ∧
    removeFpageFromAs s 0 2 = .error .nullDeref := by
  obtain ⟨s, hreach, hq, _, hp⟩ := exists_bootRun (pageCalls 1)
    (fun s => decide ((s.as 0).first = some 2 ∧ s.asNext 2 = none ∧ (s.as 0).mpuFirst = none ∧
      failsWith .nullDeref (removeFpageFromAs s 0 2) = true)) (by decide +kernel)
  obtain ⟨h1, h2, h3, h4⟩ := of_decide_eq_true hp
  exact ⟨s, hreach, hq, by simp [h1, h2], by simp [h3], failsWith_iff.mp h4⟩

/-! ## Runs -/

/-- In every run in which each `end` holds 0, the list of a space ends, its pages are allocated and
on it once, and no page is on two lists. -/
theorem page_lists_sound {mm : Memmap} {b : Board}
    (h : (system mm b).Reachable (fun s _ => Quiet s) s) (ha : s.liveAs a = true) :
    Chain s.asNext (s.as a).first (s.pages a) ∧ (s.pages a).Nodup ∧
      (∀ x ∈ s.pages a, s.liveFp x = true) ∧
      ∀ c, s.liveAs c = true → c ≠ a → ∀ x ∈ s.pages c, x ∉ s.pages a := by
  have hwf : Wf s := by
    refine TSys.Reachable.invariant (I := Wf) ?_ ?_ h
    · rintro s ⟨junk, hboot⟩
      exact (threadInitSubsys_booted hboot).wf
    · exact fun s op s' hwf hq hstep => (MemOp.run_wf hq hwf hstep.1 hstep.2).2
  exact ⟨hwf.chain a ha, (hwf.chain a ha).nodup, hwf.live a ha,
    fun c hc hca => hwf.disj c a hc ha hca⟩

/-- Two spaces. A page of the first is cut, and the second maps a piece and another page: its lists
are in the order of the addresses, and one of its pages has the entry of the page that was cut. -/
theorem page_lists_sound_cut : ∃ s : Kernel, s.pages 0 = [3, 4, 5] ∧ s.pages 1 = [6, 2] ∧
    Chain s.asNext (s.as 1).first (s.pages 1) ∧ (s.pages 1).Nodup ∧
    (∀ x ∈ s.pages 1, s.liveFp x = true) ∧ ∀ x ∈ s.pages 0, x ∉ s.pages 1 := by
  obtain ⟨s, hs, hp⟩ := Option.map_eq_some_iff.mp (by decide +kernel :
    (bootRun (memmap stm32f4Board) stm32f4Board (fun _ _ => true)
      [.asCreate 1#32, .asCreate 2#32, .assignFpages 0 0x20008200#32 0x200#32,
        .assignFpages 0 0x20008000#32 0x100#32, .asSetupMpu 0 0#32 0#32 0#32 0#32,
        .mapArea 0 1 0x20008300#32 0x100#32 .map true,
        .mapArea 0 1 0x20008000#32 0x100#32 .map true]).map
      (fun s => decide (s.liveAs 0 = true ∧ s.liveAs 1 = true ∧ s.pages 0 = [3, 4, 5] ∧
        s.pages 1 = [6, 2])) = some true)
  obtain ⟨h0, h1, hpages0, hpages1⟩ := of_decide_eq_true hp
  have hreach := (bootRun_reachable (P := fun s _ => Quiet s) (fun _ _ hq _ => hq) hs).1
  obtain ⟨hchain, hnodup, hlive, hdisj⟩ := page_lists_sound hreach h1
  exact ⟨s, hpages0, hpages1, hchain, hnodup, hlive, hdisj 0 h0 (by decide)⟩

end F9
