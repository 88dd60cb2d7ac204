import F9.Kernel.Systhread
import F9.Logic.Effects
import F9.Logic.ThreadMap

/-!
# What thread control does to threads

Creation and removal, one lemma for each function: `thread_init` adds one thread and leaves the
others alone, the tree operations change links only (`LinksOnly`), `thread_space` sets the space
of the new thread, `thread_deinit` frees one thread.
-/

namespace F9

open Result

variable {t thr c : TcbRef} {f : Tcb → Tcb} {id spaceid error : Word} {mm : Memmap}

/-! ## Links -/

/-- A thread without its place in the tree. -/
def Tcb.unlinked (t : Tcb) : Tcb :=
  { t with tLocalid := 0#32, tSibling := none, tParent := none, tChild := none }

/-- Only links of the thread tree have changed. -/
structure LinksOnly (s s' : Core) : Prop where
  tcb : ∀ t, (s'.tcb t).unlinked = (s.tcb t).unlinked
  num : s'.threadTable.num = s.threadTable.num
  bitmap : s'.threadTable.bitmap = s.threadTable.bitmap
  rest : s' = { s with threadTable := s'.threadTable }

namespace LinksOnly

variable {s s' s'' : Core}

theorem refl (s : Core) : LinksOnly s s := ⟨fun _ => rfl, rfl, rfl, rfl⟩

theorem trans (h1 : LinksOnly s s') (h2 : LinksOnly s' s'') : LinksOnly s s'' := by
  refine ⟨fun t => (h2.tcb t).trans (h1.tcb t), h2.num.trans h1.num, h2.bitmap.trans h1.bitmap, ?_⟩
  have hrest := h2.rest
  rw [h1.rest] at hrest
  exact hrest

section

variable (h : LinksOnly s s')
include h

theorem live (t : TcbRef) : s'.live t = s.live t := by
  unfold Core.live KTable.live
  rw [h.num, h.bitmap]

theorem tGlobalid (t : TcbRef) : (s'.tcb t).tGlobalid = (s.tcb t).tGlobalid :=
  (congrArg Tcb.tGlobalid (h.tcb t) :)

theorem number (t : TcbRef) : s'.number t = s.number t := by
  unfold Core.number
  rw [h.tGlobalid]

theorem state (t : TcbRef) : (s'.tcb t).state = (s.tcb t).state :=
  (congrArg Tcb.state (h.tcb t) :)

theorem ctx (t : TcbRef) : (s'.tcb t).ctx = (s.tcb t).ctx :=
  (congrArg Tcb.ctx (h.tcb t) :)

theorem frame (t : TcbRef) : (s'.tcb t).frame = (s.tcb t).frame :=
  (congrArg Tcb.frame (h.tcb t) :)

theorem as (t : TcbRef) : (s'.tcb t).as = (s.tcb t).as :=
  (congrArg Tcb.as (h.tcb t) :)

theorem utcb (t : TcbRef) : (s'.tcb t).utcb = (s.tcb t).utcb :=
  (congrArg Tcb.utcb (h.tcb t) :)

theorem mem : s'.mem = s.mem := by rw [h.rest]

theorem slots : s'.slots = s.slots := by rw [h.rest]

theorem caller : s'.caller = s.caller := by rw [h.rest]

theorem transfers : s'.transfers = s.transfers := by rw [h.rest]

theorem threadMap : s'.threadMap = s.threadMap := by rw [h.rest]

theorem threadCount : s'.threadCount = s.threadCount := by rw [h.rest]

end

end LinksOnly

variable {s : Core}

theorem setTcb_linksOnly (h : (f (s.tcb t)).unlinked = (s.tcb t).unlinked) :
    LinksOnly s (s.setTcb t f) :=
  ⟨Core.setTcb_field Tcb.unlinked h, rfl, rfl, rfl⟩

variable {s' s'' : Core}

theorem unlinkThread_linksOnly (h : unlinkThread s thr = .ok s') : LinksOnly s s' := by
  obtain ⟨parent, _, h⟩ := bind_ok.mp h
  split at h
  · rw [← pure_ok.mp h]
    exact setTcb_linksOnly rfl
  · obtain ⟨child, _, h⟩ := bind_ok.mp h
    obtain ⟨prev, _, h⟩ := bind_ok.mp h
    rw [← pure_ok.mp h]
    exact setTcb_linksOnly rfl

theorem adoptChildren_linksOnly {caller : TcbRef} (n : Nat) (s s' : Core) (child last : TcbRef)
    (h : adoptChildren caller n s child = .ok (last, s')) : LinksOnly s s' := by
  induction n generalizing s s' child last with
  | zero => simp [adoptChildren] at h
  | succ n ih =>
    unfold adoptChildren at h
    dsimp only at h
    have h1 : LinksOnly s (s.setTcb child fun tcb => { tcb with tParent := some caller }) :=
      setTcb_linksOnly rfl
    split at h
    · have heq := Prod.mk.inj (ok_ok.mp h)
      rw [← heq.2]
      exact h1
    · exact h1.trans (ih _ _ _ _ h)

theorem moveChildren_linksOnly (h : moveChildren s thr = .ok s') : LinksOnly s s' := by
  unfold moveChildren at h
  split at h
  · rw [← ok_ok.mp h]
    exact .refl s
  · obtain ⟨caller, _, h⟩ := bind_ok.mp h
    obtain ⟨⟨last, s1⟩, h1, h⟩ := bind_ok.mp h
    rw [← pure_ok.mp h]
    have h2 : LinksOnly s1 (s1.setTcb last fun tcb =>
      { tcb with tSibling := (s1.tcb caller).tChild }) := setTcb_linksOnly rfl
    exact ((adoptChildren_linksOnly _ _ _ _ _ h1).trans h2).trans (setTcb_linksOnly rfl)

/-! ## Creation -/

/-- `thread_init` has put a new thread into the table and the map. -/
structure Initted (s s' : Core) (id : Word) (utcb : Option Word) (thr : TcbRef) : Prop where
  fresh : s.live thr = false
  live : ∀ t, s'.live t = (s.live t || decide (t = thr))
  num : s'.threadTable.num = s.threadTable.num
  others : ∀ t, t ≠ thr → s'.tcb t = s.tcb t
  new : s'.tcb thr =
    { s.tcb thr with
      tLocalid := 0#32
      tChild := none
      tParent := none
      tSibling := none
      tGlobalid := id
      as := none
      utcb := utcb
      state := .inactive }
  mem : s'.mem = s.mem
  slots : s'.slots = s.slots
  caller : s'.caller = s.caller
  code : s'.code = s.code
  transfers : s'.transfers = s.transfers
  utcbs : s'.utcbs = (utcbSetGlobalid s id utcb).utcbs
  map : ∃ table s1, table.data = s.threadTable.data ∧
    threadMapInsert { s with threadTable := table } id thr = .ok s1 ∧
    s'.threadMap = s1.threadMap ∧ s'.threadCount = s1.threadCount

theorem threadMapInsert_rest (h : threadMapInsert s id thr = .ok s') :
    s' = { s with threadMap := s'.threadMap, threadCount := s'.threadCount } := by
  unfold threadMapInsert at h
  split at h
  · rw [← ok_ok.mp h]
  · obtain ⟨i, _, h⟩ := bind_ok.mp h
    split at h
    · simp at h
    · rw [← pure_ok.mp h]

theorem threadInit_effect {utcb : Option Word} (h : threadInit s id utcb = .ok (some thr, s')) :
    Initted s s' id utcb thr := by
  unfold threadInit at h
  split at h
  · obtain ⟨s1, _, h⟩ := bind_ok.mp h
    exact absurd (pure_ok.mp h) (by simp)
  · rename_i thr' table halloc
    obtain ⟨s1, hins, h⟩ := bind_ok.mp h
    have heq := pure_ok.mp h
    simp only [Prod.mk.injEq, Option.some.injEq] at heq
    obtain ⟨rfl, hs'⟩ := heq
    obtain ⟨hfree, _, hnum, hdata, hlive⟩ := KTable.alloc_spec halloc
    have hrest := threadMapInsert_rest hins
    generalize hs2 : utcbSetGlobalid s1 id utcb = s2 at hs'
    have h2 : s2 = { s1 with utcbs := s2.utcbs } := by
      rw [← hs2]
      cases utcb <;> rfl
    have hutcbs : s2.utcbs = (utcbSetGlobalid s id utcb).utcbs := by
      rw [← hs2, hrest]
      cases utcb <;> rfl
    have htable : s2.threadTable = table := by
      rw [h2, hrest]
    have htcb : ∀ t, s2.tcb t = s.tcb t := fun t => by
      unfold Core.tcb
      rw [htable, hdata]
    have hkept : s2.mem = s.mem ∧ s2.slots = s.slots ∧ s2.caller = s.caller ∧ s2.code = s.code ∧
        s2.transfers = s.transfers := by
      rw [h2, hrest]
      exact ⟨rfl, rfl, rfl, rfl, rfl⟩
    obtain ⟨hmem, hslots, hcaller, hcode, hsent⟩ := hkept
    rw [← hs']
    refine ⟨hfree, fun t => ?_, ?_, fun t ht => ?_, ?_, hmem, hslots, hcaller, hcode, hsent,
      hutcbs, table, s1, hdata, hins, ?_, ?_⟩
    · show s2.threadTable.live t = _
      rw [htable]
      exact hlive t
    · show s2.threadTable.num = _
      rw [htable]
      exact hnum
    · rw [Core.tcb_setTcb, if_neg ht, htcb]
    · rw [Core.tcb_setTcb, if_pos rfl, htcb]
    · show s2.threadMap = _
      rw [h2]
    · show s2.threadCount = _
      rw [h2]

theorem setCallerError_effect (h : setCallerError s error = .ok s') :
    ∃ u f, s' = s.setUtcb u f := by
  unfold setCallerError setUserError at h
  split at h
  · simp at h
  · split at h
    · simp at h
    · exact ⟨_, _, (ok_ok.mp h).symm⟩

theorem threadInit_none {utcb : Option Word} (h : threadInit s id utcb = .ok (none, s')) :
    s.threadTable.alloc = none ∧ ∃ u f, s' = s.setUtcb u f := by
  unfold threadInit at h
  split at h
  · rename_i hnone
    obtain ⟨s1, herr, h⟩ := bind_ok.mp h
    have heq := pure_ok.mp h
    simp only [Prod.mk.injEq, true_and] at heq
    rw [← heq]
    exact ⟨hnone, setCallerError_effect herr⟩
  · obtain ⟨s1, _, h⟩ := bind_ok.mp h
    exact absurd (pure_ok.mp h) (by simp)

/-- The ways through `thread_create` that return a thread: `thread_init`, and the thread is put
behind the last child of the caller, or as its first. -/
theorem threadCreate_cases {utcb : Option Word}
    (h : threadCreate s id utcb = .ok (some thr, s')) :
    THREAD_SYS ≤ globalidToTid id ∧ ∃ c s1 s2, s.caller = some c ∧
      Initted s s1 id utcb thr ∧
      s2 = s1.setTcb thr (fun tcb => { tcb with tParent := some c }) ∧
      ((∃ child t, (s2.tcb c).tChild = some child ∧ lastSibling s2 s2.treeBound child = .ok t ∧
          s' = (s2.setTcb t fun tcb => { tcb with tSibling := some thr }).setTcb thr fun tcb =>
            { tcb with tLocalid :=
              ((s2.setTcb t fun tcb => { tcb with tSibling := some thr }).tcb t).tLocalid +
                1#32 <<< 6 }) ∨
        ((s2.tcb c).tChild = none ∧
          s' = (s2.setTcb c fun tcb => { tcb with tChild := some thr }).setTcb thr fun tcb =>
            { tcb with tLocalid := 1#32 <<< 6 })) := by
  unfold threadCreate at h
  split at h
  · simp at h
  · rename_i c hc
    split at h
    · obtain ⟨s1, _, h⟩ := bind_ok.mp h
      exact absurd (pure_ok.mp h) (by simp)
    · rename_i hid
      rw [not_or] at hid
      obtain ⟨⟨p, s1⟩, hinit, h⟩ := bind_ok.mp h
      dsimp only at h
      obtain ⟨thr1, hthr1, h⟩ := bind_ok.mp h
      rw [nonNull_ok] at hthr1
      rw [hthr1] at hinit
      have h1 := threadInit_effect hinit
      generalize hs2 : s1.setTcb thr1 _ = s2 at h
      refine ⟨Nat.le_of_not_lt hid.1, c, s1, s2, hc, ?_⟩
      split at h
      · rename_i child hchild
        obtain ⟨t, ht, h⟩ := bind_ok.mp h
        have heq := pure_ok.mp h
        simp only [Prod.mk.injEq, Option.some.injEq] at heq
        obtain ⟨rfl, hs'⟩ := heq
        exact ⟨h1, hs2.symm, .inl ⟨child, t, hchild, ht, hs'.symm⟩⟩
      · rename_i hchild
        have heq := pure_ok.mp h
        simp only [Prod.mk.injEq, Option.some.injEq] at heq
        obtain ⟨rfl, hs'⟩ := heq
        exact ⟨h1, hs2.symm, .inr ⟨hchild, hs'.symm⟩⟩

theorem threadCreate_effect {utcb : Option Word} (h : threadCreate s id utcb = .ok (some thr, s')) :
    THREAD_SYS ≤ globalidToTid id ∧ ∃ s1, Initted s s1 id utcb thr ∧ LinksOnly s1 s' := by
  obtain ⟨hid, c, s1, s2, _, hinit, hs2, hway⟩ := threadCreate_cases h
  have h2 : LinksOnly s1 s2 := by
    rw [hs2]
    exact setTcb_linksOnly rfl
  refine ⟨hid, s1, hinit, h2.trans ?_⟩
  rcases hway with ⟨child, t, _, _, hs'⟩ | ⟨_, hs'⟩
  · have h3 : LinksOnly s2 (s2.setTcb t fun tcb => { tcb with tSibling := some thr }) :=
      setTcb_linksOnly rfl
    rw [hs']
    exact h3.trans (setTcb_linksOnly rfl)
  · have h3 : LinksOnly s2 (s2.setTcb c fun tcb => { tcb with tChild := some thr }) :=
      setTcb_linksOnly rfl
    rw [hs']
    exact h3.trans (setTcb_linksOnly rfl)

/-- `thread_space` sets the space of the thread and works on the memory. -/
theorem threadSetSpace_effect {utcb : Word} (h : threadSetSpace mm s thr spaceid utcb = .ok s') :
    ∃ as mem, s' = { s.setTcb thr (fun tcb => { tcb with as := some as }) with mem := mem } := by
  unfold threadSetSpace at h
  dsimp only at h
  split at h
  · obtain ⟨⟨as, _⟩, _, h⟩ := bind_ok.mp h
    obtain ⟨caller, _, h⟩ := bind_ok.mp h
    obtain ⟨mem, _, h⟩ := bind_ok.mp h
    exact ⟨as, mem, (pure_ok.mp h).symm⟩
  · obtain ⟨p, _, h⟩ := bind_ok.mp h
    obtain ⟨space, _, h⟩ := bind_ok.mp h
    obtain ⟨as, _, h⟩ := bind_ok.mp h
    obtain ⟨caller, _, h⟩ := bind_ok.mp h
    obtain ⟨mem, _, h⟩ := bind_ok.mp h
    exact ⟨as, mem, (pure_ok.mp h).symm⟩

/-! ## Removal -/

theorem threadFreeSpace_effect (h : threadFreeSpace s thr = .ok s') :
    ∃ as mem, (s.tcb thr).as = some as ∧ asDestroy s.mem as = .ok mem ∧
      s' = { s with mem := mem } := by
  obtain ⟨as, has, h⟩ := bind_ok.mp h
  obtain ⟨mem, hmem, h⟩ := bind_ok.mp h
  exact ⟨as, mem, nonNull_ok.mp has, hmem, (pure_ok.mp h).symm⟩

theorem threadMapDelete_rest (h : threadMapDelete s id = .ok s') :
    s' = { s with threadMap := s'.threadMap, threadCount := s'.threadCount } := by
  unfold threadMapDelete at h
  split at h
  · rw [← ok_ok.mp h]
  · split at h
    · simp at h
    · obtain ⟨i, _, h⟩ := bind_ok.mp h
      rw [← pure_ok.mp h]

/-- The entry of a thread is freed, and the map is that of `d`. -/
abbrev Core.without (s d : Core) (thr : TcbRef) : Core :=
  { s with
    threadTable := s.threadTable.free thr
    threadMap := d.threadMap
    threadCount := d.threadCount }

theorem threadDeinit_effect (h : threadDeinit s thr = .ok s') :
    ∃ s1, threadMapDelete s (s.tcb thr).tGlobalid = .ok s1 ∧
      s' = s.without s1 thr := by
  obtain ⟨s1, hdel, h⟩ := bind_ok.mp h
  refine ⟨s1, hdel, ?_⟩
  have hrest := threadMapDelete_rest hdel
  have h := (pure_ok.mp h).symm
  rw [hrest] at h
  exact h

theorem threadDestroy_effect (h : threadDestroy s thr = .ok s') :
    ∃ s1 s2, LinksOnly s s1 ∧ threadMapDelete s1 (s1.tcb thr).tGlobalid = .ok s2 ∧
      s' = s1.without s2 thr := by
  obtain ⟨s1, h1, h⟩ := bind_ok.mp h
  obtain ⟨s2, h2, h⟩ := bind_ok.mp h
  obtain ⟨s3, hdel, hs'⟩ := threadDeinit_effect h
  exact ⟨s2, s3, (unlinkThread_linksOnly h1).trans (moveChildren_linksOnly h2), hdel, hs'⟩

/-! ## The system call -/

/-- The test of `sys_thread_control`: the UTCB lies in a pool with user permissions. -/
def utcbAllowed (mm : Memmap) (utcb : Word) : Bool :=
  match mempoolSearch mm utcb UTCB_SIZE with
  | none => false
  | some mpid => decide ((mempoolGetbyid mm mpid).flags &&& (MP_UR ||| MP_UW) ≠ 0#32)

theorem utcbAllowed_none {utcb : Word} (h : mempoolSearch mm utcb UTCB_SIZE = none) :
    utcbAllowed mm utcb = false := by
  unfold utcbAllowed
  rw [h]

theorem utcbAllowed_some {utcb : Word} {mpid : Nat}
    (h : mempoolSearch mm utcb UTCB_SIZE = some mpid) : utcbAllowed mm utcb =
      decide ((mempoolGetbyid mm mpid).flags &&& (MP_UR ||| MP_UW) ≠ 0#32) := by
  unfold utcbAllowed
  rw [h]

/-- The ways through `sys_thread_control`: no UTCB there, creation, removal. -/
theorem sysThreadControl_cases (h : sysThreadControl mm s c = .ok s') :
    ((s.tcb c).frame.r1 ≠ L4_NILTHREAD ∧
      ((utcbAllowed mm ((s.tcb c).ctx.regs 0) = false ∧ s' = s) ∨
        (utcbAllowed mm ((s.tcb c).ctx.regs 0) = true ∧ ∃ thr s1 s2 u,
          threadCreate s (s.tcb c).frame.r0 (some ((s.tcb c).ctx.regs 0)) = .ok (some thr, s1) ∧
          threadSetSpace mm s1 thr (s.tcb c).frame.r1 ((s.tcb c).ctx.regs 0) = .ok s2 ∧
          (s2.tcb thr).utcb = some u ∧
          s' = (s2.setUtcb u fun utcb => { utcb with tPager := (s.tcb c).frame.r3 }).setTcb c
            fun tcb => { tcb with frame := { tcb.frame with r0 := 1#32 } }))) ∨
    ((s.tcb c).frame.r1 = L4_NILTHREAD ∧ ∃ thr s1,
      threadByGlobalid s (s.tcb c).frame.r0 = .ok (some thr) ∧
      threadFreeSpace s thr = .ok s1 ∧ threadDestroy s1 thr = .ok s') := by
  unfold sysThreadControl at h
  dsimp only at h
  split at h
  · rename_i hspace
    refine .inl ⟨hspace, ?_⟩
    split at h
    · rename_i hsearch
      exact .inl ⟨utcbAllowed_none hsearch, (pure_ok.mp h).symm⟩
    · rename_i mpid hsearch
      rw [utcbAllowed_some hsearch]
      split at h
      · rename_i hflags
        exact .inl ⟨by simp [hflags], (pure_ok.mp h).symm⟩
      · rename_i hflags
        obtain ⟨⟨p, s1⟩, hcreate, h⟩ := bind_ok.mp h
        obtain ⟨thr, hthr, h⟩ := bind_ok.mp h
        have hp : p = some thr := nonNull_ok.mp hthr
        rw [hp] at hcreate
        obtain ⟨s2, hsp, h⟩ := bind_ok.mp h
        obtain ⟨u, hu, h⟩ := bind_ok.mp h
        exact .inr ⟨decide_eq_true hflags, thr, s1, s2, u, hcreate, hsp, nonNull_ok.mp hu,
          (pure_ok.mp h).symm⟩
  · rename_i hnil
    obtain ⟨p, hlook, h⟩ := bind_ok.mp h
    obtain ⟨thr, hthr, h⟩ := bind_ok.mp h
    rw [nonNull_ok.mp hthr] at hlook
    obtain ⟨s1, hfree, h⟩ := bind_ok.mp h
    exact .inr ⟨not_not.mp hnil, thr, s1, hlook, hfree, h⟩

/-! ## The table and the map -/

/-- The same threads are allocated, with the same numbers, and the map is the same. -/
structure SameTable (s s' : Core) : Prop where
  live : ∀ t, s'.live t = s.live t
  number : ∀ t, s'.number t = s.number t
  threadMap : s'.threadMap = s.threadMap
  threadCount : s'.threadCount = s.threadCount

theorem SameTable.trans (h1 : SameTable s s') (h2 : SameTable s' s'') : SameTable s s'' :=
  ⟨fun t => (h2.live t).trans (h1.live t), fun t => (h2.number t).trans (h1.number t),
    h2.threadMap.trans h1.threadMap, h2.threadCount.trans h1.threadCount⟩

theorem SameThreads.table (h : SameThreads s s') : SameTable s s' :=
  ⟨h.live, h.number, h.threadMap, h.threadCount⟩

theorem LinksOnly.table (h : LinksOnly s s') : SameTable s s' :=
  ⟨h.live, h.number, h.threadMap, h.threadCount⟩

theorem setTcb_table (h : (f (s.tcb t)).tGlobalid = (s.tcb t).tGlobalid) :
    SameTable s (s.setTcb t f) :=
  ⟨fun _ => rfl, Core.number_setTcb h, rfl, rfl⟩

theorem threadSetSpace_table {utcb : Word} (h : threadSetSpace mm s thr spaceid utcb = .ok s') :
    SameTable s s' := by
  obtain ⟨as, mem, rfl⟩ := threadSetSpace_effect h
  have hset : SameTable s (s.setTcb thr fun tcb => { tcb with as := some as }) := setTcb_table rfl
  exact hset.trans ⟨fun _ => rfl, fun _ => rfl, rfl, rfl⟩

theorem enter_tcb (s : Core) (c x : TcbRef) (frame : Frame) (regs : Nat → Word) :
    (s.enter c frame regs).tcb x = if x = c then
      { s.tcb c with frame := frame, ctx := { (s.tcb c).ctx with regs := regs } } else s.tcb x := by
  show (s.setTcb c fun tcb =>
    { tcb with frame := frame, ctx := { tcb.ctx with regs := regs } }).tcb x = _
  rw [Core.tcb_setTcb]

theorem enter_table (s : Core) (c : TcbRef) (frame : Frame) (regs : Nat → Word) :
    SameTable s (s.enter c frame regs) := by
  have hset : SameTable s (s.setTcb c fun tcb =>
    { tcb with frame := frame, ctx := { tcb.ctx with regs := regs } }) := setTcb_table rfl
  exact hset.trans ⟨fun _ => rfl, fun _ => rfl, rfl, rfl⟩

theorem SameTable.named (h : SameTable s s') (n : Nat) : Named s' n ↔ Named s n := by
  have hmapNo : ∀ i, s'.mapNo i = s.mapNo i := by
    intro i
    unfold Core.mapNo
    rw [h.threadMap]
    split
    · rfl
    · exact h.number _
  unfold Named
  simp only [h.threadCount, hmapNo]

theorem SameTable.symm (h : SameTable s s') : SameTable s' s :=
  ⟨fun t => (h.live t).symm, fun t => (h.number t).symm, h.threadMap.symm, h.threadCount.symm⟩

/-- What `sys_thread_control` does to the table and the map: nothing, a new thread, or one less. -/
theorem sysThreadControl_table (h : sysThreadControl mm s c = .ok s') :
    ((s.tcb c).frame.r1 ≠ L4_NILTHREAD ∧
      ((utcbAllowed mm ((s.tcb c).ctx.regs 0) = false ∧ s' = s) ∨
        (utcbAllowed mm ((s.tcb c).ctx.regs 0) = true ∧ ∃ thr s1,
          Initted s s1 (s.tcb c).frame.r0 (some ((s.tcb c).ctx.regs 0)) thr ∧
          SameTable s1 s'))) ∨
    ((s.tcb c).frame.r1 = L4_NILTHREAD ∧ ∃ thr s1 s2,
      threadByGlobalid s (s.tcb c).frame.r0 = .ok (some thr) ∧ SameTable s s1 ∧
      threadMapDelete s1 (s1.tcb thr).tGlobalid = .ok s2 ∧
      s' = s1.without s2 thr) := by
  rcases sysThreadControl_cases h with
    ⟨hne, ⟨hno, rfl⟩ | ⟨hok, thr, s1, s2, u, hcreate, hspace, _, rfl⟩⟩ |
    ⟨hnil, thr, s1, hlook, hfree, h⟩
  · exact .inl ⟨hne, .inl ⟨hno, rfl⟩⟩
  · obtain ⟨_, s0, hinit, hlink⟩ := threadCreate_effect hcreate
    refine .inl ⟨hne, .inr ⟨hok, thr, s0, hinit, ?_⟩⟩
    exact ((hlink.table.trans (threadSetSpace_table hspace)).trans
      (setUtcb_same s2 u _).table).trans (setTcb_table rfl)
  · obtain ⟨as, mem, _, _, rfl⟩ := threadFreeSpace_effect hfree
    obtain ⟨s2, s3, hlink, hdel, rfl⟩ := threadDestroy_effect h
    have hmem : SameTable s { s with mem := mem } := ⟨fun _ => rfl, fun _ => rfl, rfl, rfl⟩
    exact .inr ⟨hnil, thr, s2, s3, hlook, hmem.trans hlink.table, hdel, rfl⟩

/-- A new thread is where the search finds the place of its number. -/
theorem Initted.mapWf {utcb : Option Word} (h : Initted s s' id utcb thr) (hwf : MapWf s) :
    MapWf s' ∧ ∀ n, Named s n → Named s' n := by
  obtain ⟨table, s1, hdata, hins, hmap, hcount⟩ := h.map
  obtain ⟨r, hsplit, hroom, hmap1, hcount1, _, _⟩ := threadMapInsert_spec hwf.upTo hdata hins
  have hthr : s'.number thr = globalidToTid id := by
    unfold Core.number
    rw [h.new]
  rw [← hthr] at hsplit
  refine hwf.insert hsplit hroom h.fresh h.live (fun t ht => ?_)
    (fun j hj => by rw [hmap]; exact hmap1 j hj) (by rw [hcount, hcount1])
  unfold Core.number
  rw [h.others t ht]

theorem SameTable.mapWf (h : SameTable s s') (hwf : MapWf s) : MapWf s' :=
  (hwf.congr h.live h.number h.threadMap h.threadCount).1

/-- The removal of a thread found by an id whose number is in the map takes this thread out of the
map. -/
theorem removal_mapWf {s s1 s2 s' : Core} (hwf : MapWf s) (hnamed : Named s (globalidToTid id))
    (hlook : threadByGlobalid s id = .ok (some thr)) (hsame : SameTable s s1)
    (hdel : threadMapDelete s1 (s1.tcb thr).tGlobalid = .ok s2) (hs' : s' = s1.without s2 thr) :
    s.live thr = true ∧ MapWf s' ∧ ∀ n, Named s n → n ≠ globalidToTid id → Named s' n := by
  obtain ⟨r, t, hr, ht, hl, hno, hsearch, hfound⟩ := hwf.lookup hnamed
  rw [hlook] at hfound
  have hthr : thr = t := Option.some.inj (ok_ok.mp hfound)
  rw [← hthr] at ht hl hno
  have hno1 : globalidToTid (s1.tcb thr).tGlobalid = globalidToTid id :=
    (hsame.number thr).trans hno
  have hsearch1 : threadMapSearch s1 (s1.tcb thr).tGlobalid 0 s1.threadCount = .ok r := by
    rw [threadMapSearch_number s1 hno1, threadMapSearch_congr hsame.threadMap hsame.number,
      hsame.threadCount]
    exact hsearch
  obtain ⟨_, hcount, hmap⟩ := threadMapDelete_spec hsearch1 hdel
  rw [hsame.threadCount] at hcount hmap
  have hlive : ∀ t, s'.live t = (s.live t && decide (t ≠ thr)) := by
    intro t
    rw [hs', ← hsame.live]
    exact s1.threadTable.free_live thr t
  obtain ⟨hwf', hnamed'⟩ := hwf.remove hr ht hlive (fun t => by rw [hs', ← hsame.number]; rfl)
    (fun j hj => by rw [hs', ← hsame.threadMap]; exact hmap j hj) (by rw [hs']; exact hcount)
  rw [hno] at hnamed'
  exact ⟨hl, hwf', hnamed'⟩

/-! ## Activity -/

/-- What a thread does, and where its message is: its state, its context and its UTCB. -/
def Core.activity (s : Core) (t : TcbRef) : ThreadState × Context × Option Word :=
  ((s.tcb t).state, (s.tcb t).ctx, (s.tcb t).utcb)

theorem setTcb_activity (s : Core)
    (h : ((f (s.tcb t)).state, (f (s.tcb t)).ctx, (f (s.tcb t)).utcb) = s.activity t)
    (x : TcbRef) : (s.setTcb t f).activity x = s.activity x := by
  by_cases hx : x = t
  · rw [hx, ← h]
    unfold Core.activity
    rw [Core.tcb_setTcb, if_pos rfl]
  · unfold Core.activity
    rw [Core.tcb_setTcb, if_neg hx]

/-- `sys_thread_control` adds one inactive thread, removes one, or does nothing; what the other
threads do and the slots stay as they are. -/
theorem sysThreadControl_activity (h : sysThreadControl mm s c = .ok s') :
    s'.slots = s.slots ∧ s'.caller = s.caller ∧ s'.transfers = s.transfers ∧
    (((s.tcb c).frame.r1 ≠ L4_NILTHREAD ∧ (s' = s ∨ ∃ thr, s.live thr = false ∧
        (∀ t, s'.live t = (s.live t || decide (t = thr))) ∧ (s'.tcb thr).state = .inactive ∧
        (s'.tcb thr).utcb = some ((s.tcb c).ctx.regs 0) ∧
        ∀ t, t ≠ thr → s'.activity t = s.activity t)) ∨
      ((s.tcb c).frame.r1 = L4_NILTHREAD ∧ ∃ thr,
        threadByGlobalid s (s.tcb c).frame.r0 = .ok (some thr) ∧
        (∀ t, s'.live t = (s.live t && decide (t ≠ thr))) ∧
        ∀ t, s'.activity t = s.activity t)) := by
  rcases sysThreadControl_cases h with
    ⟨hne, ⟨_, rfl⟩ | ⟨_, thr, s1, s2, u, hcreate, hspace, _, rfl⟩⟩ | ⟨hnil, thr, s1, hlook, hfree, h⟩
  · exact ⟨rfl, rfl, rfl, .inl ⟨hne, .inl rfl⟩⟩
  · obtain ⟨_, s0, hinit, hlink⟩ := threadCreate_effect hcreate
    obtain ⟨as, mem, rfl⟩ := threadSetSpace_effect hspace
    generalize hs2 : Core.setUtcb _ u _ = s2
    have hact2 : ∀ t, s2.activity t = s1.activity t := by
      intro t
      rw [← hs2]
      have hset : (s1.setTcb thr fun tcb => { tcb with as := some as }).activity t =
        s1.activity t := setTcb_activity s1 rfl t
      exact hset
    have hact : ∀ t, (s2.setTcb c fun tcb =>
        { tcb with frame := { tcb.frame with r0 := 1#32 } }).activity t = s0.activity t := by
      intro t
      have h1 : s1.activity t = s0.activity t := by
        unfold Core.activity
        rw [hlink.state, hlink.ctx, hlink.utcb]
      rw [← h1, ← hact2 t]
      exact setTcb_activity s2 rfl t
    have hrest : s2.slots = s.slots ∧ s2.caller = s.caller ∧ s2.transfers = s.transfers ∧
        ∀ t, s2.live t = s1.live t := by
      rw [← hs2]
      exact ⟨hlink.slots.trans hinit.slots, hlink.caller.trans hinit.caller,
        hlink.transfers.trans hinit.transfers, fun _ => rfl⟩
    have hnew : s0.activity thr = (.inactive, (s.tcb thr).ctx, some ((s.tcb c).ctx.regs 0)) := by
      unfold Core.activity
      rw [hinit.new]
    refine ⟨hrest.1, hrest.2.1, hrest.2.2.1, .inl ⟨hne, .inr ⟨thr, hinit.fresh, fun t => ?_,
      congrArg Prod.fst ((hact thr).trans hnew), congrArg (·.2.2) ((hact thr).trans hnew),
      fun t ht => ?_⟩⟩⟩
    · show s2.live t = _
      rw [hrest.2.2.2, hlink.live, hinit.live]
    · rw [hact]
      unfold Core.activity
      rw [hinit.others t ht]
  · obtain ⟨as, mem, _, _, rfl⟩ := threadFreeSpace_effect hfree
    obtain ⟨s2, s3, hlink, _, rfl⟩ := threadDestroy_effect h
    refine ⟨hlink.slots, hlink.caller, hlink.transfers, .inr ⟨hnil, thr, hlook,
      fun t => ?_, fun t => ?_⟩⟩
    · show (s2.threadTable.free thr).live t = _
      rw [KTable.free_live]
      show (s2.live t && _) = _
      rw [hlink.live]
      rfl
    · show ((s2.tcb t).state, (s2.tcb t).ctx, (s2.tcb t).utcb) = _
      rw [hlink.state, hlink.ctx, hlink.utcb]
      rfl

end F9
