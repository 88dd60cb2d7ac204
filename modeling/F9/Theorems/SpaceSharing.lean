import F9.Logic.Boot
import F9.Logic.Sharing

/-!
# The counter of a shared space

`as->shared` counts the threads of a space but one. It is right as long as the ids of the calls lead
to allocated threads: the id of no thread can lead to a thread that was removed, whose space the
kernel then counts up or down.
-/

namespace F9

open Result

variable {s s' : Core} {b : AsRef} {thr : TcbRef} {id : Word} {mm : Memmap}

/-- The allocated threads of a space. -/
def Core.users (s : Core) (b : AsRef) : Finset TcbRef :=
  (Finset.range s.threadTable.num).filter fun t => s.live t = true ∧ (s.tcb t).as = some b

/-- Each allocated space is counted right, and the threads have allocated spaces. -/
structure SharingExact (s : Core) : Prop where
  count : ∀ b, s.mem.liveAs b = true → (s.mem.as b).shared + 1 = (s.users b).card
  live : ∀ t b, s.live t = true → (s.tcb t).as = some b → s.mem.liveAs b = true

/-- The ids that lead to a thread are those of threads in the map: the one whose space is shared,
and the one that is removed. -/
def KeepsSharing (mm : Memmap) (s : Core) : ThreadCall → Prop
  | .space thr spaceid _ => s.number thr = globalidToTid spaceid ∨ Named s (globalidToTid spaceid)
  | .control _ frame regs =>
    (frame.r1 ≠ L4_NILTHREAD → utcbAllowed mm (regs 0) = true →
      globalidToTid frame.r0 = globalidToTid frame.r1 ∨ Named s (globalidToTid frame.r1)) ∧
    (frame.r1 = L4_NILTHREAD → Named s (globalidToTid frame.r0))
  | _ => True

theorem mem_users {t : TcbRef} : t ∈ s.users b ↔ s.live t = true ∧ (s.tcb t).as = some b := by
  unfold Core.users
  rw [Finset.mem_filter, Finset.mem_range]
  exact ⟨fun h => h.2, fun h => ⟨live_lt h.1, h⟩⟩

/-! ## Steps of the invariant -/

theorem SharingExact.congr (h : SharingExact s) (hmem : s'.mem.sharing = s.mem.sharing)
    (hlive : ∀ t, s'.live t = s.live t) (has : ∀ t, (s'.tcb t).as = (s.tcb t).as) :
    SharingExact s' := by
  have husers : ∀ b, s'.users b = s.users b := by
    intro b
    ext t
    rw [mem_users, mem_users, hlive, has]
  refine ⟨fun b hb => ?_, fun t b ht hb => ?_⟩
  · rw [liveAs_of_sharing hmem] at hb
    rw [shared_of_sharing hmem, husers]
    exact h.count b hb
  · rw [hlive] at ht
    rw [has] at hb
    rw [liveAs_of_sharing hmem]
    exact h.live t b ht hb

theorem Initted.sharing {utcb : Option Word} (hinit : Initted s s' id utcb thr) (h : SharingExact s)
    : SharingExact s' := by
  have husers : ∀ b, s'.users b = s.users b := by
    intro b
    ext t
    rw [mem_users, mem_users, hinit.live, Bool.or_eq_true, decide_eq_true_eq]
    by_cases ht : t = thr
    · rw [ht, hinit.new, hinit.fresh]
      simp
    · rw [hinit.others t ht]
      simp [ht]
  refine ⟨fun b hb => ?_, fun t b ht hb => ?_⟩
  · rw [hinit.mem] at hb ⊢
    rw [husers]
    exact h.count b hb
  · have hu : t ∈ s'.users b := mem_users.mpr ⟨ht, hb⟩
    rw [husers, mem_users] at hu
    rw [hinit.mem]
    exact h.live t b hu.1 hu.2

theorem SharingExact.join (h : SharingExact s) (hthr : s.live thr = true)
    (hnone : (s.tcb thr).as = none) (hlive : ∀ t, s'.live t = s.live t)
    (has : ∀ t, (s'.tcb t).as = if t = thr then some b else (s.tcb t).as)
    (hliveAs : ∀ a, s'.mem.liveAs a = (s.mem.liveAs a || decide (a = b)))
    (hshared : ∀ a, (s'.mem.as a).shared =
      if a = b then (s.users b).card else (s.mem.as a).shared) : SharingExact s' := by
  have hfresh : thr ∉ s.users b := by
    rw [mem_users, hnone]
    simp
  have husers : ∀ a, s'.users a = if a = b then insert thr (s.users b) else s.users a := by
    intro a
    ext t
    rw [mem_users, hlive, has]
    by_cases ht : t = thr
    · rw [if_pos ht, ht]
      by_cases hab : a = b
      · rw [if_pos hab, hab]
        simp [hthr]
      · rw [if_neg hab, mem_users, hnone]
        simp [Ne.symm hab]
    · rw [if_neg ht]
      by_cases hab : a = b
      · rw [if_pos hab, Finset.mem_insert, mem_users, hab]
        simp [ht]
      · rw [if_neg hab, mem_users]
  refine ⟨fun a ha => ?_, fun t a ht hta => ?_⟩
  · rw [hshared, husers]
    split
    · rw [Finset.card_insert_of_notMem hfresh]
    · rename_i hab
      rw [hliveAs, decide_eq_false hab, Bool.or_false] at ha
      exact h.count a ha
  · rw [hliveAs]
    rw [hlive] at ht
    rw [has] at hta
    split at hta
    · rw [decide_eq_true (Option.some.inj hta).symm, Bool.or_true]
    · rw [h.live t a ht hta, Bool.true_or]

/-- A thread is freed, and its space counted down or freed. -/
theorem SharingExact.leave (h : SharingExact s) (hthr : s.live thr = true)
    (hb : (s.tcb thr).as = some b) (hlive : ∀ t, s'.live t = (s.live t && decide (t ≠ thr)))
    (has : ∀ t, (s'.tcb t).as = (s.tcb t).as) (hmem : asDestroy s.mem b = .ok s'.mem) :
    SharingExact s' := by
  have hliveb := h.live thr b hthr hb
  have hin : thr ∈ s.users b := mem_users.mpr ⟨hthr, hb⟩
  have hcard := h.count b hliveb
  have husers : ∀ a, s'.users a = if a = b then (s.users b).erase thr else s.users a := by
    intro a
    ext t
    rw [mem_users, hlive, has, Bool.and_eq_true, decide_eq_true_eq]
    by_cases hab : a = b
    · rw [if_pos hab, Finset.mem_erase, mem_users, hab]
      exact ⟨fun ht => ⟨ht.1.2, ht.1.1, ht.2⟩, fun ht => ⟨⟨ht.2.1, ht.1⟩, ht.2.2⟩⟩
    · rw [if_neg hab, mem_users]
      refine ⟨fun ht => ⟨ht.1.1, ht.2⟩, fun ht => ⟨⟨ht.1, ?_⟩, ht.2⟩⟩
      rintro rfl
      rw [hb] at ht
      exact hab (Option.some.inj ht.2).symm
  rcases asDestroy_sharing hmem with ⟨hpos, hliveAs, hshared⟩ | ⟨hzero, hliveAs, hshared⟩
  · -- there are others
    refine ⟨fun a ha => ?_, fun t a ht hta => ?_⟩
    · rw [hliveAs] at ha
      rw [hshared, husers]
      split
      · rw [Finset.card_erase_of_mem hin]
        omega
      · exact h.count a ha
    · rw [hlive, Bool.and_eq_true] at ht
      rw [has] at hta
      rw [hliveAs]
      exact h.live t a ht.1 hta
  · -- the thread was the last one
    refine ⟨fun a ha => ?_, fun t a ht hta => ?_⟩
    · rw [hliveAs, Bool.and_eq_true, decide_eq_true_eq] at ha
      rw [hshared, husers, if_neg ha.2]
      exact h.count a ha.1
    · have hu : t ∈ s'.users a := mem_users.mpr ⟨ht, hta⟩
      rw [husers] at hu
      split at hu
      · have hempty : (s.users b).erase thr = ∅ := by
          rw [← Finset.card_eq_zero, Finset.card_erase_of_mem hin]
          omega
        rw [hempty] at hu
        simp at hu
      · rename_i hab
        rw [mem_users] at hu
        rw [hliveAs, h.live t a hu.1 hu.2, decide_eq_true hab]
        rfl

/-! ## Calls -/

/-- `thread_space`, for an id that leads to an allocated thread. -/
theorem threadSetSpace_sharing {spaceid utcb : Word} (h : SharingExact s) (hwf : MapWf s)
    (hthr : s.live thr = true) (hnone : (s.tcb thr).as = none)
    (hid : s.number thr = globalidToTid spaceid ∨ Named s (globalidToTid spaceid))
    (hrun : threadSetSpace mm s thr spaceid utcb = .ok s') : SharingExact s' := by
  have hasOf : ∀ (as : AsRef) (mem : Kernel) (t : TcbRef),
      (({ s.setTcb thr (fun tcb => { tcb with as := some as }) with mem := mem } : Core).tcb t).as =
        if t = thr then some as else (s.tcb t).as := by
    intro as mem t
    show ((s.setTcb thr fun tcb => { tcb with as := some as }).tcb t).as = _
    rw [Core.tcb_setTcb]
    split <;> rfl
  unfold threadSetSpace at hrun
  dsimp only at hrun
  split at hrun
  · obtain ⟨⟨as, m1⟩, hcreate, hrun⟩ := bind_ok.mp hrun
    obtain ⟨caller, _, hrun⟩ := bind_ok.mp hrun
    obtain ⟨mem, hspace, hrun⟩ := bind_ok.mp hrun
    rw [← pure_ok.mp hrun]
    rcases threadSpace_sharing hspace with ⟨_, as', t, halloc, hfresh, hliveAs, hshared⟩ |
      ⟨_, hsome, _⟩
    · obtain ⟨t', halloc'⟩ := (asCreate_spec hcreate).slot
      have heq : some (as', t) = some (as, t') := halloc.symm.trans halloc'
      simp only [Option.some.injEq, Prod.mk.injEq] at heq
      rw [heq.1] at hfresh hliveAs hshared
      have hempty : (s.users as).card = 0 := by
        rw [Finset.card_eq_zero, Finset.eq_empty_iff_forall_notMem]
        intro x hx
        rw [mem_users] at hx
        have := h.live x as hx.1 hx.2
        have hfresh' : s.mem.liveAs as = false := hfresh
        exact ne_true_of_eq_false hfresh' this
      exact h.join hthr hnone (fun _ => rfl) (hasOf as mem) hliveAs
        fun a => by rw [hempty]; exact hshared a
    · simp at hsome
  · rename_i hne
    obtain ⟨p, hlook, hrun⟩ := bind_ok.mp hrun
    obtain ⟨space, hspaceThr, hrun⟩ := bind_ok.mp hrun
    obtain ⟨as, has, hrun⟩ := bind_ok.mp hrun
    obtain ⟨caller, _, hrun⟩ := bind_ok.mp hrun
    obtain ⟨mem, hspace, hrun⟩ := bind_ok.mp hrun
    rw [← pure_ok.mp hrun]
    rw [nonNull_ok.mp hspaceThr] at hlook
    -- the thread found is allocated, and so is its space
    obtain ⟨_, t, _, _, hl, _, _, hfound⟩ := hwf.lookup (hid.resolve_left hne)
    rw [hlook] at hfound
    rw [← Option.some.inj (ok_ok.mp hfound)] at hl
    have hlas := h.live space as hl (nonNull_ok.mp has)
    rcases threadSpace_sharing hspace with ⟨hnil, _⟩ | ⟨as', hsome, hliveAs, hshared⟩
    · simp at hnil
    · rw [← Option.some.inj hsome] at hshared
      refine h.join hthr hnone (fun _ => rfl) (hasOf as mem) (fun a => ?_) fun a => ?_
      · show mem.liveAs a = _
        rw [hliveAs]
        by_cases hab : a = as
        · rw [hab]
          show s.mem.liveAs as = (s.mem.liveAs as || _)
          rw [hlas]
          rfl
        · rw [decide_eq_false hab, Bool.or_false]
          rfl
      · show (mem.as a).shared = _
        rw [hshared, ← h.count as hlas]
        rfl

/-- The map is well-formed and the counters are right. -/
structure SharingInv (s : Core) : Prop where
  map : MapWf s
  exact : SharingExact s

theorem SharingInv.congr (h : SharingInv s) (htable : SameTable s s')
    (hmem : s'.mem.sharing = s.mem.sharing) (has : ∀ t, (s'.tcb t).as = (s.tcb t).as) :
    SharingInv s' :=
  ⟨htable.mapWf h.map, h.exact.congr hmem htable.live has⟩

theorem threadCreate_sharing {utcb : Option Word} (h : SharingInv s)
    (hrun : threadCreate s id utcb = .ok (some thr, s')) :
    SharingInv s' ∧ s'.live thr = true ∧ (s'.tcb thr).as = none ∧
      s'.number thr = globalidToTid id ∧ ∀ n, Named s n → Named s' n := by
  obtain ⟨_, s1, hinit, hlink⟩ := threadCreate_effect hrun
  obtain ⟨hwf, hnamed⟩ := hinit.mapWf h.map
  have h1 : SharingInv s1 := ⟨hwf, hinit.sharing h.exact⟩
  refine ⟨h1.congr hlink.table (by rw [hlink.mem]) hlink.as, ?_, ?_, ?_, fun n hn => ?_⟩
  · rw [hlink.live, hinit.live, decide_eq_true rfl, Bool.or_true]
  · rw [hlink.as, hinit.new]
  · rw [hlink.number]
    unfold Core.number
    rw [hinit.new]
  · exact (hlink.table.named n).mpr (hnamed n hn)

theorem ThreadCall.Step.sharing {a : ThreadCall} (hstep : ThreadCall.Step mm s a s')
    (hk : KeepsSharing mm s a) (h : SharingInv s) : SharingInv s' := by
  cases hstep with
  | init hrun =>
    rename_i globalid utcb thr
    cases thr with
    | none =>
      obtain ⟨_, u, f, rfl⟩ := threadInit_none hrun
      exact h.congr (setUtcb_same s u f).table rfl fun _ => rfl
    | some thr =>
      have hinit := threadInit_effect hrun
      exact ⟨(hinit.mapWf h.map).1, hinit.sharing h.exact⟩
  | space hthr hnone hrun =>
    exact ⟨(threadSetSpace_table hrun).mapWf h.map,
      threadSetSpace_sharing h.exact h.map hthr hnone hk hrun⟩
  | switch has hrun =>
    exact h.congr ⟨fun _ => rfl, fun _ => rfl, rfl, rfl⟩ (asSetupMpu_sharing hrun) fun _ => rfl
  | control hrun =>
    rename_i c frame regs
    have henter := enter_table s c frame regs
    have h0 : SharingInv (s.enter c frame regs) := by
      refine h.congr henter rfl fun t => ?_
      rw [enter_tcb]
      split
      · rename_i ht
        rw [ht]
      · rfl
    have hframe : ((s.enter c frame regs).tcb c).frame = frame ∧
        ((s.enter c frame regs).tcb c).ctx.regs = regs := by
      rw [enter_tcb, if_pos rfl]
      exact ⟨rfl, rfl⟩
    have hcases := sysThreadControl_cases hrun
    rw [hframe.1, hframe.2] at hcases
    rcases hcases with ⟨hne, ⟨_, rfl⟩ | ⟨hok, thr, s1, s2, u, hcreate, hspace, _, hs'⟩⟩ |
      ⟨hnil, thr, s1, hlook, hfree, hdestroy⟩
    · exact h0
    · obtain ⟨h1, hthr, hnone, hno, hnamed⟩ := threadCreate_sharing h0 hcreate
      have h2 : SharingInv s2 := by
        refine ⟨(threadSetSpace_table hspace).mapWf h1.map,
          threadSetSpace_sharing h1.exact h1.map hthr hnone ?_ hspace⟩
        rw [hno]
        exact (hk.1 hne hok).imp id fun hn => hnamed _ ((henter.named _).mpr hn)
      rw [hs']
      generalize hs3 : Core.setUtcb s2 u _ = s3
      have h3 : SharingInv s3 := by
        rw [← hs3]
        exact h2.congr (setUtcb_same s2 u _).table rfl fun _ => rfl
      exact h3.congr (setTcb_table rfl) rfl (Core.setTcb_field Tcb.as rfl)
    · obtain ⟨as, mem, has, hmem, rfl⟩ := threadFreeSpace_effect hfree
      obtain ⟨s2, s3, hlink, hdel, hs'⟩ := threadDestroy_effect hdestroy
      have hmem' : SameTable (s.enter c frame regs) { s.enter c frame regs with mem := mem } :=
        ⟨fun _ => rfl, fun _ => rfl, rfl, rfl⟩
      have htable : SameTable (s.enter c frame regs) s2 := hmem'.trans hlink.table
      obtain ⟨hl, hwf, _⟩ := removal_mapWf h0.map ((henter.named _).mpr (hk.2 hnil)) hlook htable
        hdel hs'
      refine ⟨hwf, h0.exact.leave hl has (fun t => ?_) (fun t => ?_) ?_⟩
      · rw [hs', ← htable.live]
        exact s2.threadTable.free_live thr t
      · rw [hs']
        exact hlink.as t
      · rw [hs', hmem]
        show _ = Except.ok s2.mem
        rw [hlink.mem]

/-! ## Runs -/

/-- Neither threads nor spaces are allocated. -/
def Core.Unused (s : Core) : Prop := s.Blank ∧ s.mem.asTable.bitmap = 0

theorem Core.Unused.sharing (h : s.Unused) : SharingInv s := by
  refine ⟨h.1.mapWf, fun b hb => ?_, fun t _ ht => ?_⟩
  · simp [Kernel.liveAs, KTable.live, h.2] at hb
  · simp [Core.live, KTable.live, h.1.bitmap] at ht

/-- In every state of a run in which the ids of shared spaces and of removed threads are those of
threads in the map, each allocated space has one thread more than its counter says and the threads
have allocated spaces; and a next call of such a run frees a space exactly when it leaves no thread
in it. -/
theorem space_sharing_exact {mm : Memmap} {s : Core}
    (h : (threads mm Core.Unused).Reachable (KeepsSharing mm) s) :
    SharingExact s ∧ ∀ a s', (threads mm Core.Unused).step s a s' → KeepsSharing mm s a →
      ∀ b, s.mem.liveAs b = true → (s'.mem.liveAs b = false ↔ s'.users b = ∅) := by
  have hi : SharingInv s := by
    refine TSys.Reachable.invariant (I := SharingInv) ?_ ?_ h
    · exact fun s hs => hs.sharing
    · exact fun s a s' hs hk hstep => ThreadCall.Step.sharing hstep hk hs
  refine ⟨hi.exact, fun a s' hstep hk b _ => ?_⟩
  have h' : SharingExact s' := (ThreadCall.Step.sharing hstep hk hi).exact
  constructor
  · intro hfree
    rw [Finset.eq_empty_iff_forall_notMem]
    intro t ht
    rw [mem_users] at ht
    rw [h'.live t b ht.1 ht.2] at hfree
    simp at hfree
  · intro hempty
    by_contra hlive
    rw [Bool.not_eq_false] at hlive
    have hcount := h'.count b hlive
    rw [hempty, Finset.card_empty] at hcount
    omega

/-! ## Threads of a small board -/

theorem emptyCore_unused : (emptyCore twoPoolsKernel fun _ => 0#8).Unused :=
  ⟨emptyCore_blank _ _, by decide +kernel⟩

instance (mm : Memmap) (s : Core) (a : ThreadCall) : Decidable (KeepsSharing mm s a) := by
  cases a <;> dsimp only [KeepsSharing] <;> infer_instance

/-- Two threads of one new space, of which the one that it was made for is removed first. -/
theorem space_sharing_exact_left : ∃ s : Core, s.mem.liveAs 1 = true ∧ s.live 3 = false ∧
    (SharingExact s ∧ ∀ a s', (threads twoPools Core.Unused).step s a s' →
      KeepsSharing twoPools s a → ∀ b, s.mem.liveAs b = true →
        (s'.mem.liveAs b = false ↔ s'.users b = ∅)) := by
  obtain ⟨s, hs, h⟩ := exists_threadRun emptyCore_unused
    (fun s a (hok : decide (KeepsSharing twoPools s a) = true) => of_decide_eq_true hok)
    [createCall 1 256 256 0x20008000#32, createCall 1 257 256 0x20008100#32, removeCall 1 256]
    (fun s => s.mem.liveAs 1 && !s.live 3) (by decide +kernel)
  rw [Bool.and_eq_true, Bool.not_eq_true'] at h
  exact ⟨s, h.1, h.2, space_sharing_exact hs⟩

/-- Threads 256 and 257 are removed. Then 200 is created in the space of 257: the entry behind the
end of the map leads to it, and 200 gets a space that has been freed. -/
theorem space_sharing_freed : ∃ s : Core,
    (threads twoPools Core.Unused).Reachable (fun _ _ => True) s ∧ s.live 3 = true ∧
    (s.tcb 3).as = some 1 ∧ s.mem.liveAs 1 = false ∧ ¬ SharingExact s := by
  obtain ⟨s, hs, h⟩ := exists_threadRun (t := fun _ _ => true) emptyCore_unused
    (fun _ _ _ => trivial)
    [createCall 1 256 2 0x20008000#32, createCall 1 257 257 0x20008100#32,
      .switch 4 0x20009000#32 0#32 0#32 0#32, removeCall 1 257, removeCall 1 256,
      createCall 1 200 257 0x20008200#32]
    (fun s => s.live 3 && decide ((s.tcb 3).as = some 1) && !s.mem.liveAs 1) (by decide +kernel)
  rw [Bool.and_eq_true, Bool.and_eq_true, Bool.not_eq_true', decide_eq_true_eq] at h
  obtain ⟨⟨hlive, has⟩, hfree⟩ := h
  refine ⟨s, hs, hlive, has, hfree, fun hexact => ?_⟩
  rw [hexact.live 3 1 hlive has] at hfree
  simp at hfree

end F9
