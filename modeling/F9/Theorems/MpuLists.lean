import F9.Theorems.MpuSetup

/-!
# The MPU list over thread switches and faults

The calls of `as_setup_mpu` and `mpu_select_lru` for one space, from the state in which none of its
threads has run. `mpu_list_stays_acyclic`: as long as every call meets `KeepsMpuList`, the MPU list
ends and no page is in two regions. `mpu_list_cycle` is a run that does not: the page of a fault is
pushed to the front of the list it is already on.
-/

namespace F9

open Linked Result

variable {mm : Memmap} {s s' t u : Kernel} {a : AsRef} {l : List FpRef} {m st F : List FpRef}
  {fp : FpRef} {addr : Word} {ret : Int}

/-! ## Runs -/

/-- Calls of the MPU routines for a space. -/
inductive MpuCall
  | switch (sp pc stackBase stackSize : Word)
  | fault (addr : Word)

/-- A space none of whose threads has run; the regions belong to other spaces. -/
structure Unscheduled (s : Kernel) (a : AsRef) : Prop where
  chain : Chain s.asNext (s.as a).first (s.pages a)
  bound : ∀ x ∈ s.pages a, x < s.fpageTable.num
  sized : ∀ x ∈ s.pages a, (s.fp x).Sized
  mpuFirst : (s.as a).mpuFirst = none
  mpuStackFirst : (s.as a).mpuStackFirst = none
  links : ∀ x ∈ s.pages a, s.mpuNext x = none
  regions : ∀ i < 8, ∀ x, s.regionOf i = some x →
    x ∉ s.pages a ∧ ∀ j < 8, s.regionOf j = some x → i = j

/-- Thread switches and faults of one space. -/
def mpuCalls (mm : Memmap) (a : AsRef) : TSys Kernel MpuCall where
  init := fun s => Unscheduled s a
  step := fun s c s' =>
    match c with
    | .switch sp pc stackBase stackSize => asSetupMpu mm s a sp pc stackBase stackSize = .ok s'
    | .fault addr => ∃ ret, mpuSelectLru mm s (some a) addr = .ok (ret, s')

/-- The MPU list of a space. -/
def Kernel.mpuPages (s : Kernel) (a : AsRef) : List FpRef :=
  walk s.mpuNext s.walkBound (s.as a).mpuFirst

/-- The list of stack pages of a space. -/
def Kernel.mpuStack (s : Kernel) (a : AsRef) : List FpRef :=
  walk s.mpuNext s.walkBound (s.as a).mpuStackFirst

/-- What a call has to meet. A switch that builds the list: the page that will be its last has no
link left from an earlier list; one that finds eight stack pages is a fault, which ends the run. A
memory fault: the page that is brought in is not on the list, and no stack page is among those that
are programmed behind it. -/
def KeepsMpuList (a : AsRef) (s : Kernel) : MpuCall → Prop
  | .switch _ pc _ _ => (s.as a).mpuFirst = none →
      ∀ z, (mpuClass s pc 2 (s.pages a)).getLast? = some z → s.mpuNext z = none
  | .fault addr => addrInMpu s addr = false →
      ∀ fp, (s.pages a).find? (fun x => addrInFpage addr (s.fp x) false) = some fp →
        fp ∉ s.mpuPages a ∧
        ∀ x ∈ (s.mpuPages a).take (7 - (s.mpuStack a).length), x ∉ s.mpuStack a

/-- The MPU list ends, and no page is in two regions. -/
def MpuListSound (s : Kernel) (a : AsRef) : Prop :=
  (∃ m, Chain s.mpuNext (s.as a).mpuFirst m) ∧
    ∀ i < 8, ∀ j < 8, ∀ x, s.regionOf i = some x → s.regionOf j = some x → i = j

/-! ## The invariant -/

/-- The lists `m` and `st` of a space with the pages `l`, and the front `F` of `m` that is
programmed behind `st`. -/
structure MpuListed (mm : Memmap) (s : Kernel) (a : AsRef) (l m st F : List FpRef) : Prop where
  stack : StackProgrammed mm s a st l
  list : Chain s.mpuNext (s.as a).mpuFirst m
  mem : ∀ x ∈ m, x ∈ l
  front : F <+: m
  apart : ∀ x ∈ F, x ∉ st
  regions : ∀ i < (st ++ F).length, s.regionOf i = (st ++ F)[i]?
  foreign : ∀ i < 8, (st ++ F).length ≤ i → ∀ x, s.regionOf i = some x →
    x ∉ l ∧ ∀ j < 8, (st ++ F).length ≤ j → s.regionOf j = some x → i = j

theorem MpuListed.front_mem (h : MpuListed mm s a l m st F) {x : FpRef} (hx : x ∈ st ++ F) :
    x ∈ l := by
  rcases List.mem_append.mp hx with hx | hx
  · exact h.stack.mem x hx
  · exact h.mem x (h.front.subset hx)

theorem MpuListed.nodup (h : MpuListed mm s a l m st F) : (st ++ F).Nodup := by
  refine List.nodup_append.mpr ⟨h.stack.stackChain.nodup, h.front.sublist.nodup h.list.nodup, ?_⟩
  rintro x hx y hy rfl
  exact h.apart x hy hx

/-- A page of the space is in a region only once, and so is any other page. -/
theorem MpuListed.sound (h : MpuListed mm s a l m st F) : MpuListSound s a := by
  have hin : ∀ i < (st ++ F).length, ∀ x, s.regionOf i = some x → x ∈ l := by
    intro i hi x hx
    rw [h.regions i hi] at hx
    exact h.front_mem (List.mem_of_getElem? hx)
  refine ⟨⟨m, h.list⟩, fun i hi j hj x hix hjx => ?_⟩
  rcases Nat.lt_or_ge i (st ++ F).length with hilt | hige
  · rcases Nat.lt_or_ge j (st ++ F).length with hjlt | hjge
    · rw [h.regions i hilt] at hix
      rw [h.regions j hjlt] at hjx
      exact (List.getElem?_inj hilt h.nodup).mp (hix.trans hjx.symm)
    · exact absurd (hin i hilt x hix) ((h.foreign j hj hjge x hjx).1)
  · rcases Nat.lt_or_ge j (st ++ F).length with hjlt | hjge
    · exact absurd (hin j hjlt x hjx) ((h.foreign i hi hige x hix).1)
    · exact (h.foreign i hi hige x hix).2 j hj hjge hjx

theorem Unscheduled.listed (h : Unscheduled s a) : MpuListed mm s a (s.pages a) [] [] [] := by
  refine ⟨⟨h.chain, h.bound, h.sized, by decide, by simp, ?_, by simp⟩, ?_, by simp,
    List.prefix_rfl, by simp, by simp, ?_⟩
  · rw [h.mpuStackFirst]
    exact .nil
  · rw [h.mpuFirst]
    exact .nil
  · intro i hi _ x hx
    exact ⟨(h.regions i hi x hx).1, fun j hj _ => (h.regions i hi x hx).2 j hj⟩

theorem StackProgrammed.pages (h : StackProgrammed mm s a st l) :
    s.pages a = l := h.chain.walk_eq (Nat.le_of_lt h.length_lt)

theorem MpuListed.mpuPages (h : MpuListed mm s a l m st F) : s.mpuPages a = m :=
  h.list.walk_eq (Nat.le_succ_of_le
    (length_le_of_nodup_lt h.list.nodup fun x hx => h.stack.bound x (h.mem x hx)))

theorem MpuListed.mpuStack (h : MpuListed mm s a l m st F) : s.mpuStack a = st :=
  h.stack.stackChain.walk_eq (Nat.le_succ_of_le (length_le_of_nodup_lt h.stack.stackChain.nodup
    fun x hx => h.stack.bound x (h.stack.mem x hx)))

/-! ## Switches -/

/-- Where the last of the pages that are collected stands on the list. -/
theorem take_filter_last {p : FpRef → Bool} (m : List FpRef) (n : Nat) {z : FpRef}
    (h : ((m.filter p).take n).getLast? = some z) :
    ∃ pre post, m = pre ++ z :: post ∧ (m.filter p).take n = pre.filter p ++ [z] := by
  induction m generalizing n z with
  | nil => simp at h
  | cons x m ih =>
    by_cases hx : p x = true
    · rw [List.filter_cons_of_pos hx] at h ⊢
      cases n with
      | zero => simp at h
      | succ n =>
        rw [List.take_succ_cons] at h ⊢
        cases hrest : ((m.filter p).take n).getLast? with
        | none =>
          have hnil := List.getLast?_eq_none_iff.mp hrest
          rw [hnil] at h ⊢
          have h : x = z := Option.some.inj h
          exact ⟨[], m, by rw [h]; rfl, by rw [h]; rfl⟩
        | some y =>
          rw [List.getLast?_cons, hrest] at h
          injection h with h
          obtain ⟨pre, post, hm, htake⟩ := ih n (hrest.trans (congrArg some h))
          refine ⟨x :: pre, post, by rw [hm]; rfl, ?_⟩
          rw [htake, List.filter_cons_of_pos hx]
          rfl
    · rw [List.filter_cons_of_neg hx] at h ⊢
      obtain ⟨pre, post, hm, htake⟩ := ih n h
      refine ⟨x :: pre, post, by rw [hm]; rfl, ?_⟩
      rw [htake, List.filter_cons_of_neg hx]

/-- The new MPU list: the fifo, then what the last of its pages still leads to, up to the first
stack page. -/
theorem Switched.list {stack fifo : List FpRef} (h : Switched mm u t a stack fifo)
    (hm : Chain u.mpuNext (u.as a).mpuFirst m)
    (hfifo : fifo = (m.filter (· ∉ stack)).take (8 - stack.length)) :
    ∃ m', Chain t.mpuNext (t.as a).mpuFirst m' ∧ fifo <+: m' ∧ ∀ x ∈ m', x ∈ m ∨ x ∈ stack := by
  have hfirst : (t.as a).mpuFirst = fifo.head? := by rw [h.space]
  have hsub : fifo.Sublist m := by
    rw [hfifo]
    exact (List.take_sublist _ _).trans List.filter_sublist
  rw [hfirst]
  have hseg := h.fifoSeg (hsub.nodup hm.nodup)
  cases hz : fifo.getLast? with
  | none =>
    rw [List.getLast?_eq_none_iff.mp hz]
    exact ⟨[], .nil, List.prefix_rfl, by simp⟩
  | some z =>
    rw [hz, Option.bind_some] at hseg
    obtain ⟨pre, post, hsplit, htake⟩ := take_filter_last m _ (hfifo ▸ hz)
    rw [← hfifo] at htake
    have hnd := hm.nodup
    rw [hsplit] at hm hnd
    obtain ⟨_, hpost⟩ := chain_append_cons.mp hm
    -- the pages behind `z` are not in the fifo, so only stack pages among them are relinked
    have hback : ∀ x ∈ post, x ∉ stack → t.mpuNext x = u.mpuNext x := by
      intro x hx hxs
      refine h.frame x hxs fun hxf => ?_
      rw [htake] at hxf
      obtain ⟨_, hzp, hdis⟩ := List.nodup_append.mp hnd
      rcases List.mem_append.mp hxf with hxf | hxf
      · exact hdis x (List.mem_filter.mp hxf).1 x (List.mem_cons_of_mem _ hx) rfl
      · rw [List.mem_singleton.mp hxf] at hx
        exact (List.nodup_cons.mp hzp).1 hx
    obtain ⟨r, hr, hmem⟩ := hpost.divert h.stackChain hback
    refine ⟨fifo ++ r, hseg.append hr, List.prefix_append _ _, fun x hx => ?_⟩
    rcases List.mem_append.mp hx with hx | hx
    · exact .inl (hsub.subset hx)
    · refine (hmem x hx).imp_left fun hx => ?_
      rw [hsplit]
      simp [hx]

theorem MpuListed.switch {sp pc stackBase stackSize : Word} (h : MpuListed mm s a l m st F)
    (hok : KeepsMpuList a s (.switch sp pc stackBase stackSize))
    (hrun : asSetupMpu mm s a sp pc stackBase stackSize = .ok s') :
    ∃ m' st' F', MpuListed mm s' a l m' st' F' := by
  obtain ⟨hstack, _⟩ := asSetupMpu_programmed h.stack.chain h.stack.bound h.stack.sized hrun
  obtain ⟨u, fifo, hu, hfew, hfifo, hsw⟩ := asSetupMpu_ok h.stack.chain h.stack.length_lt hrun
  generalize stackPages s stackBase stackSize l = stack at *
  -- the list the fifo is collected from: the old one, or the new one
  have hlist : ∃ m0, Chain u.mpuNext (u.as a).mpuFirst m0 ∧ ∀ x ∈ m0, x ∈ l := by
    rcases hu.list with ⟨_, hfirst, hnext⟩ | ⟨hnone, hfirst, hseg, _⟩
    · refine ⟨m, ?_, h.mem⟩
      rw [hfirst]
      exact h.list.congr fun x _ => hnext x
    · refine ⟨mpuOrder s pc l, ?_, fun x hx => mem_mpuOrder.mp hx⟩
      have hstale : (mpuClass s pc 2 l).getLast?.bind s.mpuNext = none := by
        have hok := hok hnone
        rw [h.stack.pages] at hok
        cases hz : (mpuClass s pc 2 l).getLast? with
        | none => rfl
        | some z => exact hok z hz
      rw [hfirst]
      rw [hstale] at hseg
      exact hseg
  obtain ⟨m0, hm0, hmem0⟩ := hlist
  have hlen0 : m0.length < 9 * u.walkBound := by
    have hle := length_le_of_nodup_lt hm0.nodup fun x hx => h.stack.bound x (hmem0 x hx)
    unfold Kernel.walkBound
    rw [hu.num]
    omega
  rw [fifoFpages_eq m0 _ _ [] hm0 hlen0, List.nil_append, List.length_nil, Nat.sub_zero] at hfifo
  injection hfifo with hfifo
  obtain ⟨m', hm', hfront, hmem'⟩ := hsw.list hm0 hfifo.symm
  have hlen : (stack ++ fifo).length ≤ 8 := by
    have := List.length_take_le (8 - stack.length) (m0.filter (· ∉ stack))
    rw [hfifo] at this
    rw [List.length_append]
    omega
  refine ⟨m', stack, fifo, hstack, hm', fun x hx => ?_, hfront, fun x hx => ?_, fun i hi => ?_,
    fun i hi hge x hx => ?_⟩
  · exact (hmem' x hx).elim (hmem0 x) (hstack.mem x)
  · rw [← hfifo] at hx
    have := (List.mem_filter.mp (List.mem_of_mem_take hx)).2
    simpa using this
  · exact hsw.regions i (by omega)
  · rw [hsw.regions i hi, List.getElem?_eq_none hge] at hx
    simp at hx

/-! ## Faults -/

/-- The regions after a page that is not on the list is brought in. -/
theorem Selected.regions_front (hsel : Selected mm s s' a fp st.length)
    (hlist : Chain s.mpuNext (s.as a).mpuFirst m) (hfp : fp ∉ m) :
    Chain s'.mpuNext (s'.as a).mpuFirst (fp :: m) ∧
      s'.regionOf = programAll s.regionOf st.length
        ((fp :: m.take (7 - st.length)).map some) := by
  have hhead : s'.mpuNext fp = (s.as a).mpuFirst := by rw [hsel.link, if_pos rfl]
  have htail : Chain s'.mpuNext (s.as a).mpuFirst m := by
    refine hlist.congr fun x hx => ?_
    rw [hsel.link, if_neg fun hxf : x = fp => hfp (hxf ▸ hx)]
  refine ⟨?_, ?_⟩
  · rw [hsel.space, chain_cons, hhead]
    exact ⟨rfl, htail⟩
  · rw [hsel.regions, hhead, htail.walk_take, show 8 - (st.length + 1) = 7 - st.length by omega]

theorem MpuListed.fault (h : MpuListed mm s a l m st F) (hok : KeepsMpuList a s (.fault addr))
    (hrun : mpuSelectLru mm s (some a) addr = .ok (ret, s')) :
    ∃ m' F', MpuListed mm s' a l m' st F' := by
  obtain ⟨rfl, _⟩ | ⟨fp, hout, hfind, hst, hsel⟩ := h.stack.fault hrun
  · exact ⟨m, F, h⟩
  have hok := hok hout fp (by rw [h.stack.pages]; exact hfind)
  rw [h.mpuPages, h.mpuStack] at hok
  obtain ⟨hfp, htake⟩ := hok
  obtain ⟨hlist, hregions⟩ := hsel.regions_front h.list hfp
  have hfpl : fp ∈ l := List.mem_of_find?_eq_some hfind
  have hFm : F.length ≤ m.length := h.front.length_le
  -- a region that is not set up was not one of the old front
  have hrest : ∀ i < 8, (st ++ fp :: m.take (7 - st.length)).length ≤ i →
      (st ++ F).length ≤ i ∧ s'.regionOf i = s.regionOf i := by
    intro i hi hge
    rw [List.length_append, List.length_cons, List.length_take] at hge
    refine ⟨by rw [List.length_append]; omega, ?_⟩
    rw [hregions, programAll_apply, if_pos (by omega), List.getD_eq_default]
    rw [List.length_map, List.length_cons, List.length_take]
    omega
  refine ⟨fp :: m, fp :: m.take (7 - st.length), h.stack.selected hst hsel, hlist,
    fun x hx => ?_, ?_, fun x hx => ?_, fun i hi => ?_, fun i hi hge x hx => ?_⟩
  · rcases List.mem_cons.mp hx with rfl | hx
    · exact hfpl
    · exact h.mem x hx
  · exact List.cons_prefix_cons.mpr ⟨rfl, List.take_prefix _ _⟩
  · rcases List.mem_cons.mp hx with rfl | hx
    · exact hst
    · exact htake x hx
  · rw [hregions, programAll_apply]
    by_cases hle : st.length ≤ i
    · rw [if_pos hle, List.getElem?_append_right hle, List.getD_eq_getElem?_getD, List.getElem?_map]
      rw [List.length_append] at hi
      rw [List.getElem?_eq_getElem (by omega)]
      rfl
    · rw [if_neg hle, h.regions i (by rw [List.length_append]; omega),
        List.getElem?_append_left (by omega), List.getElem?_append_left (by omega)]
  · obtain ⟨hge', hsame⟩ := hrest i hi hge
    rw [hsame] at hx
    obtain ⟨hxl, hone⟩ := h.foreign i hi hge' x hx
    refine ⟨hxl, fun j hj hjge hjx => ?_⟩
    obtain ⟨hjge', hjsame⟩ := hrest j hj hjge
    rw [hjsame] at hjx
    exact hone j hj hjge' hjx

/-- A page that is pushed onto the list it is already on closes a circle. -/
theorem Selected.not_mem {i : Nat} (hsel : Selected mm s s' a fp i)
    (hlist : Chain s.mpuNext (s.as a).mpuFirst m) {m' : List FpRef}
    (hm' : Chain s'.mpuNext (s'.as a).mpuFirst m') : fp ∉ m := by
  intro hmem
  obtain ⟨pre, post, rfl, hpre, _⟩ := hlist.of_mem hmem
  have hnot : fp ∉ pre := hlist.not_mem_of_append.1
  -- from `fp` the new links lead through `pre` back to `fp`
  have hround : Seg s'.mpuNext (some fp) (fp :: pre) (some fp) := by
    refine .cons ?_
    rw [hsel.link, if_pos rfl]
    refine hpre.congr fun x hx => ?_
    rw [hsel.link, if_neg fun hxf : x = fp => hnot (hxf ▸ hx)]
  rw [hsel.space] at hm'
  obtain ⟨rest, hrest, hchain⟩ := Chain.after_seg hm' hround
  have hlen := congrArg List.length (Chain.unique hm' hchain)
  rw [hrest, List.length_append, List.length_cons] at hlen
  omega

/-- Only a fault that meets the condition leaves the list as it should be. -/
theorem MpuListed.keeps_of_sound (h : MpuListed mm s a l m st F)
    (hrun : mpuSelectLru mm s (some a) addr = .ok (ret, s')) (hsound : MpuListSound s' a) :
    KeepsMpuList a s (.fault addr) := by
  intro hout fp hfind
  rw [h.stack.pages] at hfind
  obtain ⟨_, hno⟩ | ⟨fp', _, hfind', hst, hsel⟩ := h.stack.fault hrun
  · rcases hno with hno | hno
    · exact absurd (hout.symm.trans hno) (by simp)
    · exact absurd (hfind.symm.trans hno) (by simp)
  obtain rfl := Option.some.inj (hfind.symm.trans hfind')
  rw [h.mpuPages, h.mpuStack]
  obtain ⟨⟨m', hm'⟩, hone⟩ := hsound
  have hfp : fp ∉ m := hsel.not_mem h.list hm'
  refine ⟨hfp, fun x hx hxst => ?_⟩
  obtain ⟨_, hregions⟩ := hsel.regions_front h.list hfp
  -- the page is in a region of the stack and in one behind it
  obtain ⟨i, hi, hix⟩ := List.mem_iff_getElem.mp hxst
  obtain ⟨j, hj, hjx⟩ := List.mem_iff_getElem.mp hx
  have hjlt : j < 7 - st.length := Nat.lt_of_lt_of_le hj (List.length_take_le _ _)
  have hlow : s'.regionOf i = some x := by
    rw [hregions, programAll_apply, if_neg (by omega), h.regions i (by simp; omega),
      List.getElem?_append_left hi, List.getElem?_eq_getElem hi, hix]
  have hhigh : s'.regionOf (st.length + 1 + j) = some x := by
    rw [hregions, programAll_apply, if_pos (by omega), List.getD_eq_getElem?_getD,
      show st.length + 1 + j - st.length = j + 1 by omega, List.getElem?_map,
      List.getElem?_cons_succ, List.getElem?_eq_getElem hj, hjx]
    rfl
  have := hone i (by omega) (st.length + 1 + j) (by omega) x hlow hhigh
  omega

/-- Along every run whose calls meet `KeepsMpuList`, the MPU list ends and no page is in two
regions; a fault leaves it so if and only if it meets the condition. -/
theorem mpu_list_stays_acyclic (h : (mpuCalls mm a).Reachable (KeepsMpuList a) s) :
    MpuListSound s a ∧ ∀ addr ret s', mpuSelectLru mm s (some a) addr = .ok (ret, s') →
      (MpuListSound s' a ↔ KeepsMpuList a s (.fault addr)) := by
  have hinv : ∃ l m st F, MpuListed mm s a l m st F := by
    refine TSys.Reachable.invariant (I := fun s => ∃ l m st F, MpuListed mm s a l m st F) ?_ ?_ h
    · intro s hs
      exact ⟨_, _, _, _, hs.listed⟩
    · rintro s c s' ⟨l, m, st, F, hl⟩ hok hstep
      cases c with
      | switch sp pc stackBase stackSize => exact ⟨l, hl.switch hok hstep⟩
      | fault addr =>
        obtain ⟨ret, hrun⟩ := hstep
        obtain ⟨m', F', hl'⟩ := hl.fault hok hrun
        exact ⟨l, m', st, F', hl'⟩
  obtain ⟨l, m, st, F, hl⟩ := hinv
  refine ⟨hl.sound, fun addr ret s' hrun => ⟨hl.keeps_of_sound hrun, fun hok => ?_⟩⟩
  obtain ⟨m', F', hl'⟩ := hl.fault hok hrun
  exact hl'.sound

/-- A space of a kernel that has not switched to any thread yet. -/
def unscheduledTest (s : Kernel) (a : AsRef) : Bool :=
  decide ((s.pages a).length < s.walkBound ∧ (s.as a).mpuFirst = none ∧
    (s.as a).mpuStackFirst = none ∧ s.mpuLog = []) &&
  (s.pages a).all fun x => decide (x < s.fpageTable.num ∧ (s.fp x).Sized ∧ s.mpuNext x = none)

theorem unscheduled_of_test (h : unscheduledTest s a = true) : Unscheduled s a := by
  obtain ⟨hspace, hpages⟩ := Bool.and_eq_true_iff.mp h
  obtain ⟨hlen, hfirst, hstack, hlog⟩ := of_decide_eq_true hspace
  have hpage := fun x hx => of_decide_eq_true (List.all_eq_true.mp hpages x hx)
  refine ⟨chain_walk _ _ hlen, fun x hx => (hpage x hx).1, fun x hx => (hpage x hx).2.1, hfirst,
    hstack, fun x hx => (hpage x hx).2.2, fun i _ x hx => ?_⟩
  unfold Kernel.regionOf at hx
  rw [hlog] at hx
  simp at hx

/-- Three pages and the first switch of the space. -/
theorem mpu_list_stays_acyclic_three : ∃ s,
    (mpuCalls (memmap stm32f4Board) 0).Reachable (KeepsMpuList 0) s ∧ s.mpuPages 0 = [2, 3, 4] ∧
    MpuListSound s 0 := by
  obtain ⟨s, _, _, _, hp⟩ := exists_bootRun (pageCalls 3)
    (fun s => unscheduledTest s 0 && okWith (fun s' : Kernel => decide (s'.mpuPages 0 = [2, 3, 4]))
      (asSetupMpu (memmap stm32f4Board) s 0 0#32 0#32 0#32 0#32)) (by decide +kernel)
  obtain ⟨hfresh, hrun⟩ := Bool.and_eq_true_iff.mp hp
  have hfresh := unscheduled_of_test hfresh
  obtain ⟨s', hok, hpages⟩ := okWith_iff.mp hrun
  have hkeeps : KeepsMpuList 0 s (.switch 0#32 0#32 0#32 0#32) := by
    intro _ z hz
    exact hfresh.links z (List.mem_filter.mp (List.mem_of_getLast? hz)).1
  have hreach : (mpuCalls (memmap stm32f4Board) 0).Reachable (KeepsMpuList 0) s' :=
    .step (.init hfresh) hkeeps hok
  exact ⟨s', hreach, of_decide_eq_true hpages, (mpu_list_stays_acyclic hreach).1⟩

/-- Nine pages: the switch programs eight of them, a fault at the ninth pushes it to the front of
the list whose last page it is. The list is a circle. -/
theorem mpu_list_cycle : ∃ s,
    (mpuCalls (memmap stm32f4Board) 0).Reachable (fun _ _ => True) s ∧
    s.mpuNext 10 = some 2 ∧ 10 ∈ walk s.mpuNext 9 (s.mpuNext 10) ∧ ¬ MpuListSound s 0 := by
  obtain ⟨s, _, _, _, hp⟩ := exists_bootRun (pageCalls 9)
    (fun s => unscheduledTest s 0 && okWith
      (fun s1 => okWith (fun r : Int × Kernel => decide ((r.2.as 0).mpuFirst = some 10 ∧
          r.2.mpuNext 10 = some 2 ∧ 10 ∈ walk r.2.mpuNext 9 (r.2.mpuNext 10)))
        (mpuSelectLru (memmap stm32f4Board) s1 (some 0) 0x20008810#32))
      (asSetupMpu (memmap stm32f4Board) s 0 0#32 0#32 0#32 0#32)) (by decide +kernel)
  obtain ⟨hfresh, hrun⟩ := Bool.and_eq_true_iff.mp hp
  obtain ⟨s1, hok1, hrun⟩ := okWith_iff.mp hrun
  obtain ⟨⟨ret, s2⟩, hok2, hcycle⟩ := okWith_iff.mp hrun
  obtain ⟨hfirst, hnext, hback⟩ := of_decide_eq_true hcycle
  have hstep1 : (mpuCalls (memmap stm32f4Board) 0).step s (.switch 0#32 0#32 0#32 0#32) s1 := hok1
  have hstep2 : (mpuCalls (memmap stm32f4Board) 0).step s1 (.fault 0x20008810#32) s2 := ⟨ret, hok2⟩
  have hreach : (mpuCalls (memmap stm32f4Board) 0).Reachable (fun _ _ => True) s2 :=
    .step (.step (.init (unscheduled_of_test hfresh)) trivial hstep1) trivial hstep2
  refine ⟨s2, hreach, hnext, hback, ?_⟩
  rintro ⟨⟨m, hm⟩, _⟩
  rw [hfirst] at hm
  obtain ⟨m', rfl⟩ : ∃ m', m = 10 :: m' := by
    cases m with
    | nil => exact absurd (chain_nil.mp hm) (by simp)
    | cons y m' => exact ⟨m', by rw [Option.some.inj (chain_cons.mp hm).1]⟩
  have htail := (chain_cons.mp hm).2
  exact (List.nodup_cons.mp hm.nodup).1 (Chain.mem_of_mem_walk htail hback)

end F9
