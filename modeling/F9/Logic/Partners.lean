import F9.Logic.ThreadMap
import F9.Logic.IpcRuns

/-!
# Partners

A blocked thread names partners: the thread it waits for, the receiver in its UTCB, and the
thread it will wait for after its send. The invariant is that every allocated thread has
its partners in the thread map. Each function of the kernel keeps it, or keeps it under a
condition: `sys_ipc` if the partners of the call are in the map, the removal of a thread if
it is in the map and nobody's partner.
-/

namespace F9

open Result Rendezvous

variable {s s' s'' : Core} {new new' : Nat → Prop} {t c : TcbRef} {mm : Memmap} {kip u toTid : Word}

/-- The thread is blocked and `n` is the number of a partner. -/
def Wants (s : Core) (x : TcbRef) (n : Nat) : Prop := (s.phase x).names n

/-- The map is well-formed and holds the partners of all threads. -/
structure PartnerInv (s : Core) : Prop where
  map : MapWf s
  named : ∀ x n, s.live x = true → Wants s x n → Named s n

theorem reply_join (id : Word) : (reply? id).join = partner? id := by
  unfold reply?
  split
  · rename_i h
    unfold partner?
    rw [if_pos (.inl h)]
    rfl
  · rfl

/-- The partners of a thread, from its fields. -/
theorem wants_iff {x : TcbRef} {n : Nat} : Wants s x n ↔
    ((s.tcb x).state = .sendBlocked ∧
      (partner? (s.tcb x).frame.r1 = some n ∨ partner? (s.remembered x) = some n)) ∨
    ((s.tcb x).state = .recvBlocked ∧ partner? (s.tcb x).ipcFrom = some n) := by
  unfold Wants
  by_cases hsend : (s.tcb x).state = .sendBlocked
  · rw [Core.phase_sending hsend, ← reply_join (s.tcb x).frame.r1]
    have hrecv : (s.tcb x).state ≠ .recvBlocked := by
      rw [hsend]
      simp
    exact ⟨fun h => .inl ⟨hsend, h⟩, fun h => (h.resolve_right fun h => hrecv h.1).2⟩
  · by_cases hrecv : (s.tcb x).state = .recvBlocked
    · rw [Core.phase_receiving hrecv]
      constructor
      · rintro (h | h)
        · exact .inr ⟨hrecv, h⟩
        · exact absurd h id
      · exact fun h => .inl (h.resolve_left fun h => hsend h.1).2
    · rw [Core.phase_of_idle hsend hrecv]
      refine ⟨fun h => absurd h (Phase.not_names_idle n), ?_⟩
      rintro (h | h)
      · exact absurd h.1 hsend
      · exact absurd h.1 hrecv

/-! ## Changes without effect on the map -/

/-- The threads and their map are as before, and a partner is one from before or new. -/
structure Gains (new : Nat → Prop) (s s' : Core) : Prop where
  live : ∀ t, s'.live t = s.live t
  number : ∀ t, s'.number t = s.number t
  threadMap : s'.threadMap = s.threadMap
  threadCount : s'.threadCount = s.threadCount
  wants : ∀ x n, Wants s' x n → Wants s x n ∨ new n

theorem Gains.inv (h : Gains new s s') (hi : PartnerInv s) (hnew : ∀ n, new n → Named s n) :
    PartnerInv s' := by
  obtain ⟨hmap, hnamed⟩ := hi.map.congr h.live h.number h.threadMap h.threadCount
  refine ⟨hmap, fun x n hl hw => hnamed n ?_⟩
  rw [h.live] at hl
  rcases h.wants x n hw with hw | hn
  · exact hi.named x n hl hw
  · exact hnew n hn

/-- No thread has a new partner. -/
abbrev Calms (s s' : Core) : Prop := Gains (fun _ => False) s s'

theorem Calms.inv (h : Calms s s') (hi : PartnerInv s) : PartnerInv s' :=
  Gains.inv h hi fun _ hf => hf.elim

theorem Gains.trans (h1 : Gains new s s') (h2 : Gains new s' s'') : Gains new s s'' := by
  refine ⟨fun t => (h2.live t).trans (h1.live t), fun t => (h2.number t).trans (h1.number t),
    h2.threadMap.trans h1.threadMap, h2.threadCount.trans h1.threadCount, fun x n hw => ?_⟩
  rcases h2.wants x n hw with hw | hn
  · exact h1.wants x n hw
  · exact .inr hn

theorem Gains.mono (h : Gains new s s') (hle : ∀ n, new n → new' n) : Gains new' s s' :=
  ⟨h.live, h.number, h.threadMap, h.threadCount, fun x n hw => (h.wants x n hw).imp_right (hle n)⟩

theorem Calms.gains (h : Calms s s') (new : Nat → Prop) : Gains new s s' :=
  Gains.mono h fun _ hf => hf.elim

/-- A thread is changed; what it waits for is not, or it does not wait afterwards. -/
theorem setTcb_calms {f : Tcb → Tcb} (hid : (f (s.tcb t)).tGlobalid = (s.tcb t).tGlobalid)
    (hwait : ((f (s.tcb t)).state = (s.tcb t).state ∧ (f (s.tcb t)).ipcFrom = (s.tcb t).ipcFrom ∧
        (f (s.tcb t)).frame.r1 = (s.tcb t).frame.r1 ∧ (f (s.tcb t)).utcb = (s.tcb t).utcb) ∨
      ((f (s.tcb t)).state ≠ .sendBlocked ∧ (f (s.tcb t)).state ≠ .recvBlocked)) :
    Calms s (s.setTcb t f) := by
  refine ⟨fun _ => rfl, Core.number_setTcb hid, rfl, rfl, fun x n hw => .inl ?_⟩
  · rw [wants_iff] at hw ⊢
    have hrem : ((s.setTcb t f).tcb x).utcb = (s.tcb x).utcb →
        (s.setTcb t f).remembered x = s.remembered x := fun h => Core.remembered_congr h fun _ _ => rfl
    by_cases hx : x = t
    · subst hx
      have htcb : (s.setTcb x f).tcb x = f (s.tcb x) := by rw [Core.tcb_setTcb, if_pos rfl]
      rw [htcb] at hw hrem
      rcases hwait with ⟨hst, hfrom, hr1, hu⟩ | ⟨h1, h2⟩
      · rw [hst, hfrom, hr1, hrem hu] at hw
        exact hw
      · rcases hw with hw | hw
        · exact absurd hw.1 h1
        · exact absurd hw.1 h2
    · have htcb : (s.setTcb t f).tcb x = s.tcb x := by rw [Core.tcb_setTcb, if_neg hx]
      rw [hrem (by rw [htcb]), htcb] at hw
      exact hw

theorem setRunnable_calms (s : Core) (t : TcbRef) :
    Calms s (s.setTcb t fun tcb => { tcb with state := .runnable }) :=
  setTcb_calms rfl (.inr ⟨by simp, by simp⟩)

theorem setUtcb_calms {f : Utcb → Utcb}
    (h : (f (s.utcbs u)).intendedReceiver = (s.utcbs u).intendedReceiver) :
    Calms s (s.setUtcb u f) := by
  refine ⟨fun _ => rfl, fun _ => rfl, rfl, rfl, fun x n hw => .inl ?_⟩
  have hrem : (s.setUtcb u f).remembered x = s.remembered x := by
    refine Core.remembered_congr (by rw [Core.tcb_setUtcb]) fun v _ => ?_
    rw [Core.utcbs_setUtcb]
    split
    · rename_i hv
      rw [hv]
      exact h
    · rfl
  rw [wants_iff, Core.tcb_setUtcb, hrem] at hw
  exact wants_iff.mpr hw

/-- The caller, the memory and the records may change. -/
theorem calms_of_same (htable : s'.threadTable = s.threadTable) (hutcbs : s'.utcbs = s.utcbs)
    (hmap : s'.threadMap = s.threadMap) (hcount : s'.threadCount = s.threadCount) : Calms s s' := by
  have htcb : ∀ x, s'.tcb x = s.tcb x := fun x => by
    unfold Core.tcb
    rw [htable]
  refine ⟨fun x => by unfold Core.live; rw [htable], fun x => by unfold Core.number; rw [htcb],
    hmap, hcount, fun x n hw => .inl ?_⟩
  rw [wants_iff, htcb] at hw
  rw [wants_iff]
  have hrem : s'.remembered x = s.remembered x :=
    Core.remembered_congr (by rw [htcb]) fun v _ => by rw [hutcbs]
  rw [hrem] at hw
  exact hw

/-! ## IPC -/

theorem moves_names {s s' : State TcbRef Nat} (h : Relation.ReflTransGen Move s s') :
    s'.number = s.number ∧ ∀ x n, (s'.phase x).names n → (s.phase x).names n := by
  induction h with
  | refl => exact ⟨rfl, fun _ _ h => h⟩
  | tail _ hm ih => exact ⟨hm.number.trans ih.1, fun x n hn => ih.2 x n (hm.names hn)⟩

theorem Moves.calms (h : Moves s s') : Calms s s' := by
  obtain ⟨hno, hnames⟩ := moves_names h.moves
  exact ⟨h.identity.live, fun t => congrFun hno t, h.identity.threadMap, h.identity.threadCount,
    fun x n hw => .inl (hnames x n hw)⟩

/-- `do_ipc` for any sender: it may wait for its answer. -/
theorem doIpc_gains {f : TcbRef} (h : doIpc mm s f t = .ok s') :
    Gains (fun n => partner? (s.tcb f).frame.r1 = some n) s s' := by
  obtain ⟨habs, hid⟩ := doIpc_abs h
  have hgain : s'.abs.number = s.abs.number ∧ ∀ x n, (s'.abs.phase x).names n →
      (s.abs.phase x).names n ∨ partner? (s.tcb f).frame.r1 = some n := by
    rcases habs with habs | ⟨c, _, habs⟩ | habs
    · rw [habs]
      exact ⟨rfl, fun _ _ h => .inl h⟩
    · rw [habs]
      exact ⟨rfl, fun x n hn => .inl ((Move.wake c).names hn)⟩
    · rw [habs]
      refine ⟨rfl, fun x n hn => ?_⟩
      rcases State.transfer_names hn with hn | ⟨_, hn⟩
      · exact .inl hn
      · rw [reply_join] at hn
        exact .inr hn
  exact ⟨hid.live, fun t => congrFun hgain.1 t, hid.threadMap, hid.threadCount, hgain.2⟩

theorem startThread_calms (h : startThread kip s c t = .ok s') (ht : (s.tcb t).state = .inactive) :
    Calms s s' := by
  obtain ⟨sp, size, pc, rfl⟩ := startThread_ok h
  generalize hs1 : s.setTcb t _ = s1
  have h1 : Calms s s1 := by
    rw [← hs1]
    exact setTcb_calms rfl (.inl ⟨rfl, rfl, rfl, rfl⟩)
  have hst : (s1.tcb t).state = .inactive := by
    rw [← hs1, Core.tcb_setTcb, if_pos rfl]
    exact ht
  have h2 : Calms s1 (threadInitCtx kip s1 sp pc t) := by
    refine setTcb_calms rfl (.inr ⟨?_, ?_⟩)
    · show (s1.tcb t).state ≠ _
      rw [hst]
      simp
    · show (s1.tcb t).state ≠ _
      rw [hst]
      simp
  exact ((h1.trans h2).trans (setRunnable_calms _ c)).trans (setRunnable_calms _ t)

/-- The send phase of a call has the destination and the source as new partners. -/
theorem sysIpcSend_gains {toTid : Word} (h : sysIpcSend mm kip s c toTid = .ok s') :
    Gains (fun n => toTid ≠ tidToGlobalid THREAD_LOG ∧ (partner? toTid = some n ∨
      partner? (s.tcb c).frame.r1 = some n)) s s' := by
  obtain ⟨p, _, hcase⟩ := sysIpcSend_cases h
  rcases hcase with ⟨_, rfl⟩ | ⟨hlog, ⟨t, rfl, _, h1⟩ | ⟨_, _, hcase⟩⟩
  · exact (setRunnable_calms s c).gains _
  · exact (doIpc_gains h1).mono fun n hn => ⟨hlog, .inr hn⟩
  · rcases hcase with ⟨t, rfl, hin, ⟨_, h1⟩ | ⟨_, s1, h1, rfl⟩⟩ | ⟨_, u, hu, rfl⟩
    · exact (startThread_calms h1 (inactiveOfPager_true hin)).gains _
    · refine ((doIpc_gains h1).mono fun n hn => ⟨hlog, .inr hn⟩).trans ?_
      exact Calms.gains (setTcb_calms rfl (.inr ⟨by simp, by simp⟩)) _
    · -- threads that share the UTCB of the caller have the destination as well
      generalize hs1 : s.setTcb c _ = s1
      have htcb : ∀ x, s1.tcb x = if x = c then { s.tcb c with state := .sendBlocked }
          else s.tcb x := fun x => by rw [← hs1, Core.tcb_setTcb]
      have hutcbs : s1.utcbs = s.utcbs := by rw [← hs1]; rfl
      have hid : Identity s s1 := by
        rw [← hs1]
        exact setTcb_identity rfl
      refine ⟨hid.live, fun x => ?_, hid.threadMap, hid.threadCount, fun x n hw => ?_⟩
      · unfold Core.number
        rw [Core.tcb_setUtcb, htcb]
        split
        · rename_i hx
          rw [hx]
        · rfl
      · rw [wants_iff, Core.tcb_setUtcb] at hw
        have hrem : (s1.setUtcb u fun utcb => { utcb with intendedReceiver := toTid }).remembered x =
            toTid ∨ (x ≠ c ∧ (s1.setUtcb u fun utcb =>
              { utcb with intendedReceiver := toTid }).remembered x = s.remembered x) := by
          unfold Core.remembered
          rw [Core.tcb_setUtcb, hid.utcb]
          cases hv : (s.tcb x).utcb with
          | none =>
            right
            refine ⟨?_, rfl⟩
            rintro rfl
            rw [hu] at hv
            simp at hv
          | some v =>
            dsimp only
            rw [Core.utcbs_setUtcb, hutcbs]
            by_cases hvu : v = u
            · rw [if_pos hvu]
              exact .inl rfl
            · rw [if_neg hvu]
              refine .inr ⟨?_, rfl⟩
              rintro rfl
              rw [hu] at hv
              exact hvu (Option.some.inj hv).symm
        rw [htcb] at hw
        by_cases hx : x = c
        · rw [if_pos hx] at hw
          rcases hw with ⟨_, hw | hw⟩ | ⟨hst, _⟩
          · exact .inr ⟨hlog, .inr hw⟩
          · rcases hrem with hrem | ⟨hne, _⟩
            · rw [hrem] at hw
              exact .inr ⟨hlog, .inl hw⟩
            · exact absurd hx hne
          · simp at hst
        · rw [if_neg hx] at hw
          rcases hw with ⟨hst, hw | hw⟩ | hw
          · exact .inl (wants_iff.mpr (.inl ⟨hst, .inl hw⟩))
          · rcases hrem with hrem | ⟨_, hrem⟩
            · rw [hrem] at hw
              exact .inr ⟨hlog, .inl hw⟩
            · rw [hrem] at hw
              exact .inl (wants_iff.mpr (.inl ⟨hst, .inr hw⟩))
          · exact .inl (wants_iff.mpr (.inr hw))

/-- The partners that a call of `sys_ipc` names: its destination and its source, or with neither
the receiver of an earlier call. -/
def Asks (s : Core) (c : TcbRef) (n : Nat) : Prop :=
  Exchanges s c ∧ (partner? (s.tcb c).frame.r0 = some n ∨ partner? (s.tcb c).frame.r1 = some n ∨
    ((s.tcb c).frame.r0 = L4_NILTHREAD ∧ (s.tcb c).frame.r1 = L4_NILTHREAD ∧
      partner? (s.remembered c) = some n))

theorem sysIpc_gains {m m' : Machine} (h : sysIpc mm kip m c = .ok m') :
    Gains (Asks m.core c) m.core m'.core := by
  obtain ⟨s, hs, hway⟩ := sysIpc_ways h
  have h0 : Calms m.core s := by
    rw [hs]
    exact calms_of_same rfl rfl rfl rfl
  have htcb : ∀ x, s.tcb x = m.core.tcb x := fun x => by
    rw [hs]
    rfl
  refine (h0.gains _).trans ?_
  rcases hway with ⟨_, _, rfl⟩ | ⟨hnil, s1, h1, rfl⟩ | ⟨hnil, hzero, hway⟩
  · have hsleep : Calms s (s.setTcb c fun tcb => { tcb with state := .inactive }) :=
      setTcb_calms rfl (.inr ⟨by simp, by simp⟩)
    exact hsleep.gains _
  · have hg := sysIpcSend_gains h1
    rw [htcb] at hg
    exact hg.mono fun n hn => ⟨⟨fun h => hnil h.1, hn.1⟩, hn.2.imp_right .inl⟩
  · have hex : Exchanges m.core c := by
      refine ⟨fun h => h.2 hzero, ?_⟩
      rw [hnil]
      decide
    -- the caller alone is blocked
    have hblock : ∀ f : Tcb → Tcb, (f (s.tcb c)).tGlobalid = (s.tcb c).tGlobalid →
        (∀ n, Wants (s.setTcb c f) c n → Asks m.core c n) →
        Gains (Asks m.core c) s (s.setTcb c f) := by
      intro f hid hasks
      refine ⟨fun _ => rfl, Core.number_setTcb hid, rfl, rfl, fun x n hw => ?_⟩
      · by_cases hx : x = c
        · rw [hx] at hw
          exact .inr (hasks n hw)
        · left
          have htcb' : (s.setTcb c f).tcb x = s.tcb x := by rw [Core.tcb_setTcb, if_neg hx]
          have hrem : (s.setTcb c f).remembered x = s.remembered x :=
            Core.remembered_congr (by rw [htcb']) fun _ _ => rfl
          rw [wants_iff, htcb', hrem] at hw
          exact wants_iff.mpr hw
    rcases hway with ⟨_, rfl⟩ | ⟨hfrom, rfl⟩
    · dsimp only
      refine hblock _ rfl fun n hw => ⟨hex, .inr (.inl ?_)⟩
      rw [wants_iff, Core.tcb_setTcb, if_pos rfl] at hw
      rcases hw with ⟨hst, _⟩ | ⟨_, hw⟩
      · simp at hst
      · exact hw
    · refine hblock (fun tcb => { tcb with state := .sendBlocked }) rfl fun n hw => ⟨hex, ?_⟩
      have hrem : (s.setTcb c fun tcb => { tcb with state := .sendBlocked }).remembered c =
          m.core.remembered c := by
        refine Core.remembered_congr ?_ fun u _ => ?_
        · rw [Core.tcb_setTcb, if_pos rfl, htcb]
        · rw [hs]
          rfl
      rw [wants_iff, hrem, Core.tcb_setTcb, if_pos rfl] at hw
      rcases hw with ⟨_, hw | hw⟩ | ⟨hst, _⟩
      · rw [htcb] at hw
        exact .inr (.inl hw)
      · exact .inr (.inr ⟨hnil, hfrom, hw⟩)
      · simp at hst

end F9
