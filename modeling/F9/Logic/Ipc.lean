import F9.Kernel.Ipc
import F9.Lib.Rendezvous
import F9.Lib.Result

/-!
# IPC as a rendezvous

What `do_ipc`, `sys_ipc` and `ipc_deliver` do to the threads, apart from the contents
of the messages. `Core.abs` forgets everything but the thread numbers, what each thread
waits for, and the two records; on it `do_ipc` is a transfer, a call of `sys_ipc` one of
the calls of `Rendezvous.Call`, and a pass of `ipc_deliver` a sequence of moves.
-/

namespace F9

open Result Rendezvous

variable {t f : TcbRef} {i n : Nat} {mm : Memmap} {id : Word} {x c : TcbRef} {r kip : Word}
  {s'' : Core}

theorem nonNull_ok {α : Type} {p : Option α} {a : α} : nonNull p = .ok a ↔ p = some a := by
  cases p <;> simp [nonNull]

/-! ## Updates -/

namespace Core

theorem tcb_setTcb (s : Core) (t x : TcbRef) (f : Tcb → Tcb) :
    (s.setTcb t f).tcb x = if x = t then f (s.tcb t) else s.tcb x := by
  unfold setTcb tcb
  by_cases h : x = t
  · rw [if_pos h, h]
    simp
  · rw [if_neg h]
    exact KTable.write_data_ne _ _ h

/-- What an update keeps of its thread, it keeps of every thread. -/
theorem setTcb_field {β : Type} (g : Tcb → β) {s : Core} {f : Tcb → Tcb}
    (h : g (f (s.tcb t)) = g (s.tcb t)) (x : TcbRef) : g ((s.setTcb t f).tcb x) = g (s.tcb x) := by
  rw [tcb_setTcb]
  split
  · rename_i hx
    rw [hx]
    exact h
  · rfl

theorem utcbs_setUtcb (s : Core) (u v : Word) (f : Utcb → Utcb) :
    (s.setUtcb u f).utcbs v = if v = u then f (s.utcbs u) else s.utcbs v := rfl

@[simp] theorem tcb_setUtcb (s : Core) (u : Word) (f : Utcb → Utcb) (x : TcbRef) :
    (s.setUtcb u f).tcb x = s.tcb x := rfl

end Core

/-! ## The copying -/

/-- A thread without the message in its registers. -/
def Tcb.control (t : Tcb) : Tcb := { t with ctx := { t.ctx with regs := fun _ => 0#32 } }

/-- A UTCB without the message in it and what is said about it. -/
def Utcb.control (u : Utcb) : Utcb :=
  { u with errorCode := 0#32, sender := 0#32, mr := fun _ => 0#32 }

/-- Nothing but memory and the contents of messages has changed. -/
structure Copied (s s' : Core) : Prop where
  tcb : ∀ t, (s'.tcb t).control = (s.tcb t).control
  utcb : ∀ u, (s'.utcbs u).control = (s.utcbs u).control
  num : s'.threadTable.num = s.threadTable.num
  bitmap : s'.threadTable.bitmap = s.threadTable.bitmap
  threadMap : s'.threadMap = s.threadMap
  threadCount : s'.threadCount = s.threadCount
  slots : s'.slots = s.slots
  caller : s'.caller = s.caller
  code : s'.code = s.code
  transfers : s'.transfers = s.transfers
  calls : s'.calls = s.calls

namespace Copied

variable {s s' s'' : Core}

theorem refl (s : Core) : Copied s s :=
  ⟨fun _ => rfl, fun _ => rfl, rfl, rfl, rfl, rfl, rfl, rfl, rfl, rfl, rfl⟩

theorem trans (h1 : Copied s s') (h2 : Copied s' s'') : Copied s s'' :=
  ⟨fun t => (h2.tcb t).trans (h1.tcb t), fun u => (h2.utcb u).trans (h1.utcb u),
    h2.num.trans h1.num, h2.bitmap.trans h1.bitmap, h2.threadMap.trans h1.threadMap,
    h2.threadCount.trans h1.threadCount, h2.slots.trans h1.slots, h2.caller.trans h1.caller,
    h2.code.trans h1.code, h2.transfers.trans h1.transfers, h2.calls.trans h1.calls⟩

section

variable (h : Copied s s')
include h

theorem state (t : TcbRef) : (s'.tcb t).state = (s.tcb t).state :=
  (congrArg Tcb.state (h.tcb t) :)

theorem frame (t : TcbRef) : (s'.tcb t).frame = (s.tcb t).frame :=
  (congrArg Tcb.frame (h.tcb t) :)

theorem tGlobalid (t : TcbRef) : (s'.tcb t).tGlobalid = (s.tcb t).tGlobalid :=
  (congrArg Tcb.tGlobalid (h.tcb t) :)

theorem ipcFrom (t : TcbRef) : (s'.tcb t).ipcFrom = (s.tcb t).ipcFrom :=
  (congrArg Tcb.ipcFrom (h.tcb t) :)

theorem utcbOf (t : TcbRef) : (s'.tcb t).utcb = (s.tcb t).utcb :=
  (congrArg Tcb.utcb (h.tcb t) :)

theorem sp (t : TcbRef) : (s'.tcb t).ctx.sp = (s.tcb t).ctx.sp :=
  congrArg (fun t => t.ctx.sp) (h.tcb t)

theorem intendedReceiver (u : Word) :
    (s'.utcbs u).intendedReceiver = (s.utcbs u).intendedReceiver :=
  (congrArg Utcb.intendedReceiver (h.utcb u) :)

theorem live (t : TcbRef) : s'.live t = s.live t := by
  unfold Core.live KTable.live
  rw [h.num, h.bitmap]

end

end Copied

theorem setTcb_copied {s : Core} {f : Tcb → Tcb} (h : (f (s.tcb t)).control = (s.tcb t).control) :
    Copied s (s.setTcb t f) :=
  ⟨Core.setTcb_field Tcb.control h, fun _ => rfl, rfl, rfl, rfl, rfl, rfl, rfl, rfl, rfl, rfl⟩

theorem setUtcb_copied {s : Core} {u : Word} {f : Utcb → Utcb}
    (h : (f (s.utcbs u)).control = (s.utcbs u).control) : Copied s (s.setUtcb u f) := by
  refine ⟨fun _ => rfl, fun v => ?_, rfl, rfl, rfl, rfl, rfl, rfl, rfl, rfl, rfl⟩
  rw [Core.utcbs_setUtcb]
  split
  · rename_i hv
    rw [hv]
    exact h
  · rfl

variable {s s' : Core}

theorem ipcWriteMr_copied {data : Word} (h : ipcWriteMr s t i data = .ok s') :
    Copied s s' := by
  unfold ipcWriteMr at h
  split at h
  · obtain ⟨u, _, h⟩ := bind_ok.mp h
    rw [← pure_ok.mp h]
    exact setUtcb_copied rfl
  · rw [← ok_ok.mp h]
    exact setTcb_copied rfl

theorem setUserError_copied {e : Word} (h : setUserError s t e = .ok s') :
    Copied s s' := by
  unfold setUserError at h
  split at h
  · simp at h
  · rw [← ok_ok.mp h]
    exact setUtcb_copied rfl

theorem copyUntyped_copied (n i : Nat) (s s' : Core) (h : copyUntyped f t n i s = .ok s') :
    Copied s s' := by
  induction n generalizing i s s' with
  | zero =>
    rw [← ok_ok.mp h]
    exact .refl s
  | succ n ih =>
    obtain ⟨data, _, h⟩ := bind_ok.mp h
    obtain ⟨s1, hw, h⟩ := bind_ok.mp h
    exact (ipcWriteMr_copied hw).trans (ih _ _ _ h)

theorem setMem_copied (s : Core) (mem : Kernel) : Copied s { s with mem := mem } :=
  ⟨fun _ => rfl, fun _ => rfl, rfl, rfl, rfl, rfl, rfl, rfl, rfl, rfl, rfl⟩

theorem copyTyped_step {item : Option Word}
    (h : copyTyped mm f t (n + 1) i item s = .ok s') :
    ∃ data s1 mem item', ipcReadMr s f i = .ok data ∧ ipcWriteMr s t i data = .ok s1 ∧
      copyTyped mm f t n (i + 1) item' { s1 with mem := mem } = .ok s' := by
  obtain ⟨data, hr, h⟩ := bind_ok.mp h
  obtain ⟨s1, hw, h⟩ := bind_ok.mp h
  cases item with
  | none => exact ⟨data, s1, s1.mem, _, hr, hw, h⟩
  | some raw =>
    dsimp only at h
    split at h
    · obtain ⟨src, _, h⟩ := bind_ok.mp h
      obtain ⟨dst, _, h⟩ := bind_ok.mp h
      obtain ⟨⟨_, mem⟩, _, h⟩ := bind_ok.mp h
      exact ⟨data, s1, mem, _, hr, hw, h⟩
    · exact ⟨data, s1, s1.mem, _, hr, hw, h⟩

theorem copyTyped_copied (n i : Nat) (item : Option Word) (s s' : Core)
    (h : copyTyped mm f t n i item s = .ok s') : Copied s s' := by
  induction n generalizing i item s s' with
  | zero =>
    rw [← ok_ok.mp h]
    exact .refl s
  | succ n ih =>
    obtain ⟨data, s1, mem, item', _, hw, h⟩ := copyTyped_step h
    exact ((ipcWriteMr_copied hw).trans (setMem_copied s1 mem)).trans (ih _ _ _ _ h)

/-! ## `do_ipc` -/

/-- The message of a thread has more words than there are message registers. -/
def Overflows (s : Core) (t : TcbRef) : Prop :=
  IPC_MR_COUNT < nUntyped ((s.tcb t).ctx.regs 0) + 1 + nTyped ((s.tcb t).ctx.regs 0)

/-- The three ways `do_ipc` ends. -/
theorem doIpc_cases (h : doIpc mm s f t = .ok s') :
    (Overflows s f ∧ Copied s s') ∨
    (¬ Overflows s f ∧ ∃ s1, Copied s s1 ∧
      ((((s.tcb t).ctx.sp = 0#32 ∨ (s.tcb f).ctx.sp = 0#32) ∧ ∃ c, s.caller = some c ∧
          s' = s1.setTcb c fun tcb => { tcb with state := .runnable }) ∨
        (¬ ((s.tcb t).ctx.sp = 0#32 ∨ (s.tcb f).ctx.sp = 0#32) ∧
          completeIpc s1 f t = .ok s'))) := by
  obtain ⟨tag, htag, h⟩ := bind_ok.mp h
  have htag : tag = (s.tcb f).ctx.regs 0 := (ok_ok.mp htag).symm
  subst htag
  dsimp only at h
  split at h
  · rename_i hover
    obtain ⟨s1, h1, h⟩ := bind_ok.mp h
    exact .inl ⟨hover, (setUserError_copied h1).trans (setUserError_copied h)⟩
  · rename_i hover
    obtain ⟨s1, h1, h⟩ := bind_ok.mp h
    obtain ⟨s2, h2, h⟩ := bind_ok.mp h
    obtain ⟨s3, h3, h⟩ := bind_ok.mp h
    have hc : Copied s s3 := ((ipcWriteMr_copied h1).trans (copyUntyped_copied _ _ _ _ h2)).trans
      (copyTyped_copied _ _ _ _ _ h3)
    refine .inr ⟨hover, s3, hc, ?_⟩
    split at h
    · rename_i hsp
      obtain ⟨c, hcaller, h⟩ := bind_ok.mp h
      rw [nonNull_ok, hc.caller] at hcaller
      rw [hc.sp, hc.sp] at hsp
      exact .inl ⟨hsp, c, hcaller, (pure_ok.mp h).symm⟩
    · rename_i hsp
      rw [hc.sp, hc.sp] at hsp
      exact .inr ⟨hsp, h⟩

/-! ## The abstraction -/

/-- The number a destination names. -/
def named? (id : Word) : Option Nat := if id = L4_NILTHREAD then none else some (globalidToTid id)

/-- The number of one thread that an id names. -/
def partner? (id : Word) : Option Nat :=
  if id = L4_NILTHREAD ∨ id = L4_ANYTHREAD then none else some (globalidToTid id)

/-- The receive phase that a source names. -/
def reply? (id : Word) : Option (Option Nat) :=
  if id = L4_NILTHREAD then none else some (partner? id)

theorem named_eq_none : named? id = none ↔ id = L4_NILTHREAD := by
  unfold named?
  split
  · exact ⟨fun _ => ‹_›, fun _ => rfl⟩
  · exact ⟨fun h => absurd h (by simp), fun h => absurd h ‹_›⟩

theorem named_eq_some : named? id = some n ↔ id ≠ L4_NILTHREAD ∧ globalidToTid id = n := by
  unfold named?
  split
  · exact ⟨fun h => absurd h (by simp), fun h => absurd ‹_› h.1⟩
  · exact ⟨fun h => ⟨‹_›, Option.some.inj h⟩, fun h => congrArg some h.2⟩

theorem reply_eq_none : reply? id = none ↔ id = L4_NILTHREAD := by
  unfold reply?
  split
  · exact ⟨fun _ => ‹_›, fun _ => rfl⟩
  · exact ⟨fun h => absurd h (by simp), fun h => absurd h ‹_›⟩

namespace Core

/-- The receiver remembered in the UTCB of a thread. -/
def remembered (s : Core) (t : TcbRef) : Word :=
  match (s.tcb t).utcb with
  | none => L4_NILTHREAD
  | some u => (s.utcbs u).intendedReceiver

/-- What a thread waits for. -/
def phase (s : Core) (t : TcbRef) : Phase Nat :=
  match (s.tcb t).state with
  | .sendBlocked =>
    .sending (named? (s.tcb t).frame.r0) (partner? (s.remembered t)) (reply? (s.tcb t).frame.r1)
  | .recvBlocked => .receiving (partner? (s.tcb t).ipcFrom)
  | _ => .idle

/-- The thread number of a thread. -/
def number (s : Core) (t : TcbRef) : Nat := globalidToTid (s.tcb t).tGlobalid

end Core

/-- The record of a transfer in numbers. -/
def Transfer.abs (t : Transfer) : Record TcbRef Nat where
  sender := t.sender
  senderNo := globalidToTid t.senderId
  receiver := t.receiver
  receiverNo := globalidToTid t.receiverId
  dest := named? t.dest
  awaited := t.awaited.map partner?

/-- The rendezvous of the threads. -/
def Core.abs (s : Core) : State TcbRef Nat where
  number := s.number
  phase := s.phase
  transfers := s.transfers.map Transfer.abs
  calls := s.calls.map fun c => (c.1, named? c.2)

namespace Core

theorem number_setTcb {f : Tcb → Tcb} (h : (f (s.tcb t)).tGlobalid = (s.tcb t).tGlobalid)
    (x : TcbRef) : (s.setTcb t f).number x = s.number x := by
  unfold number
  rw [setTcb_field Tcb.tGlobalid h]

theorem phase_of_idle (h1 : (s.tcb t).state ≠ .sendBlocked) (h2 : (s.tcb t).state ≠ .recvBlocked) :
    s.phase t = .idle := by
  unfold phase
  cases h : (s.tcb t).state with
  | sendBlocked => exact absurd h h1
  | recvBlocked => exact absurd h h2
  | inactive => rfl
  | runnable => rfl
  | svcBlocked => rfl

theorem phase_of_ready (h : (s.tcb t).state = .svcBlocked ∨ (s.tcb t).state = .runnable) :
    s.phase t = .idle := by
  rcases h with h | h <;> exact phase_of_idle (by rw [h]; simp) (by rw [h]; simp)

theorem phase_sending (h : (s.tcb t).state = .sendBlocked) : s.phase t =
    .sending (named? (s.tcb t).frame.r0) (partner? (s.remembered t))
      (reply? (s.tcb t).frame.r1) := by
  unfold phase
  rw [h]

theorem phase_receiving (h : (s.tcb t).state = .recvBlocked) :
    s.phase t = .receiving (partner? (s.tcb t).ipcFrom) := by
  unfold phase
  rw [h]

theorem phase_congr (hstate : (s'.tcb t).state = (s.tcb t).state)
    (hfrom : (s'.tcb t).ipcFrom = (s.tcb t).ipcFrom)
    (hr0 : (s'.tcb t).frame.r0 = (s.tcb t).frame.r0)
    (hr1 : (s'.tcb t).frame.r1 = (s.tcb t).frame.r1) (hrem : s'.remembered t = s.remembered t) :
    s'.phase t = s.phase t := by
  unfold phase
  rw [hstate, hfrom, hr0, hr1, hrem]

theorem remembered_congr (hutcb : (s'.tcb t).utcb = (s.tcb t).utcb)
    (h : ∀ u, (s.tcb t).utcb = some u →
      (s'.utcbs u).intendedReceiver = (s.utcbs u).intendedReceiver) :
    s'.remembered t = s.remembered t := by
  unfold remembered
  rw [hutcb]
  cases hu : (s.tcb t).utcb with
  | none => rfl
  | some u => exact h u hu

end Core

theorem Copied.remembered (h : Copied s s') (t : TcbRef) :
    s'.remembered t = s.remembered t :=
  Core.remembered_congr (h.utcbOf t) fun u _ => h.intendedReceiver u

theorem Copied.phase (h : Copied s s') (t : TcbRef) : s'.phase t = s.phase t :=
  Core.phase_congr (h.state t) (h.ipcFrom t) (by rw [h.frame]) (by rw [h.frame]) (h.remembered t)

theorem Copied.number (h : Copied s s') (t : TcbRef) : s'.number t = s.number t := by
  unfold Core.number
  rw [h.tGlobalid]

theorem Copied.abs (h : Copied s s') : s'.abs = s.abs := by
  unfold Core.abs
  rw [h.transfers, h.calls, funext h.phase, funext h.number]

/-- The threads are the same, with their UTCBs and their places in the map. -/
structure Identity (s s' : Core) : Prop where
  utcb : ∀ t, (s'.tcb t).utcb = (s.tcb t).utcb
  live : ∀ t, s'.live t = s.live t
  caller : s'.caller = s.caller
  threadMap : s'.threadMap = s.threadMap
  threadCount : s'.threadCount = s.threadCount

theorem Copied.identity (h : Copied s s') : Identity s s' :=
  ⟨h.utcbOf, h.live, h.caller, h.threadMap, h.threadCount⟩

theorem Identity.refl (s : Core) : Identity s s :=
  ⟨fun _ => rfl, fun _ => rfl, rfl, rfl, rfl⟩

theorem Identity.trans (h1 : Identity s s') (h2 : Identity s' s'') : Identity s s'' :=
  ⟨fun t => (h2.utcb t).trans (h1.utcb t), fun t => (h2.live t).trans (h1.live t),
    h2.caller.trans h1.caller, h2.threadMap.trans h1.threadMap,
    h2.threadCount.trans h1.threadCount⟩

theorem setTcb_identity {f : Tcb → Tcb} (h : (f (s.tcb t)).utcb = (s.tcb t).utcb) :
    Identity s (s.setTcb t f) :=
  ⟨Core.setTcb_field Tcb.utcb h, fun _ => rfl, rfl, rfl, rfl⟩

theorem setTcb_abs {f : Tcb → Tcb}
    (hid : (f (s.tcb t)).tGlobalid = (s.tcb t).tGlobalid) :
    (s.setTcb t f).abs = s.abs.set t ((s.setTcb t f).phase t) := by
  have hnum : (s.setTcb t f).number = s.number := funext (Core.number_setTcb hid)
  have hphase : (s.setTcb t f).phase =
      fun x => if x = t then (s.setTcb t f).phase t else s.phase x := by
    funext x
    by_cases hx : x = t
    · rw [if_pos hx, hx]
    · rw [if_neg hx]
      have htcb : (s.setTcb t f).tcb x = s.tcb x := by rw [Core.tcb_setTcb, if_neg hx]
      exact Core.phase_congr (by rw [htcb]) (by rw [htcb]) (by rw [htcb]) (by rw [htcb])
        (Core.remembered_congr (by rw [htcb]) fun _ _ => rfl)
  unfold Core.abs State.set
  congr 1

/-- A thread that is put into a state in which it is not blocked. -/
theorem setTcb_abs_idle {f : Tcb → Tcb}
    (hid : (f (s.tcb t)).tGlobalid = (s.tcb t).tGlobalid)
    (h1 : (f (s.tcb t)).state ≠ .sendBlocked) (h2 : (f (s.tcb t)).state ≠ .recvBlocked) :
    (s.setTcb t f).abs = s.abs.set t .idle := by
  rw [setTcb_abs hid]
  congr 1
  apply Core.phase_of_idle
  · rw [Core.tcb_setTcb, if_pos rfl]
    exact h1
  · rw [Core.tcb_setTcb, if_pos rfl]
    exact h2

theorem setRunnable_abs (s : Core) (t : TcbRef) :
    (s.setTcb t fun tcb => { tcb with state := .runnable }).abs = s.abs.set t .idle :=
  setTcb_abs_idle rfl (by simp) (by simp)

theorem set_idle {s : State TcbRef Nat} (h : s.phase t = .idle) : s.set t .idle = s := by
  unfold State.set
  have : (fun x => if x = t then Phase.idle else s.phase x) = s.phase := by
    funext x
    by_cases hx : x = t
    · rw [if_pos hx, hx, h]
    · rw [if_neg hx]
  rw [this]

theorem awaited_phase (s : Core) (t : TcbRef) :
    (if (s.tcb t).state = .recvBlocked then some (s.tcb t).ipcFrom else none).map partner? =
      (s.phase t).source? := by
  unfold Core.phase
  cases h : (s.tcb t).state with
  | recvBlocked => rw [if_pos rfl]; rfl
  | sendBlocked => rfl
  | inactive => rfl
  | runnable => rfl
  | svcBlocked => rfl

theorem completeIpc_tcb (h : completeIpc s f t = .ok s') (hx : x ≠ f) :
    s'.tcb x =
      if x = t then { s.tcb t with
        state := .runnable
        ipcFrom := L4_NILTHREAD
        frame := { (s.tcb t).frame with r0 := (s.tcb f).tGlobalid } }
      else s.tcb x := by
  obtain ⟨u, _, h⟩ := bind_ok.mp h
  have h := (pure_ok.mp h).symm
  generalize hs2 : (s.setUtcb u _).setTcb t _ = s2 at h
  generalize hs3 : s2.setTcb f _ = s3 at h
  have h3 : s'.tcb x = s3.tcb x := by
    rw [h]
    rfl
  rw [h3, ← hs3, Core.tcb_setTcb, if_neg hx, ← hs2, Core.tcb_setTcb]
  rfl

/-- The end of `do_ipc` is a transfer. -/
theorem completeIpc_abs (h : completeIpc s f t = .ok s') :
    s'.abs = s.abs.transfer f t (named? (s.tcb f).frame.r0) (reply? (s.tcb f).frame.r1) ∧
      Identity s s' := by
  obtain ⟨u, _, h⟩ := bind_ok.mp h
  have h := (pure_ok.mp h).symm
  generalize hs1 : s.setUtcb u (fun u => { u with sender := (s.tcb f).tGlobalid }) = s1 at h
  have hc1 : Copied s s1 := by
    rw [← hs1]
    exact setUtcb_copied rfl
  generalize hs2 : s1.setTcb t (fun tcb =>
    { tcb with
      state := .runnable
      ipcFrom := L4_NILTHREAD
      frame := { tcb.frame with r0 := (s.tcb f).tGlobalid } }) = s2 at h
  have ha2 : s2.abs = s.abs.set t .idle := by
    rw [← hs2, setTcb_abs_idle (by rfl) (by simp) (by simp), hc1.abs]
  have hid2 : Identity s s2 := hc1.identity.trans (by rw [← hs2]; exact setTcb_identity rfl)
  have hr1 : (s2.tcb f).frame.r1 = (s.tcb f).frame.r1 := by
    rw [← hs2, Core.tcb_setTcb]
    split
    · rename_i hft
      rw [← hc1.frame f, hft]
    · rw [← hc1.frame f]
  rw [hr1] at h
  generalize hs3 : s2.setTcb f (fun tcb =>
    if (s.tcb f).frame.r1 = L4_NILTHREAD then { tcb with state := .runnable }
    else { tcb with state := .recvBlocked, ipcFrom := (s.tcb f).frame.r1 }) = s3 at h
  have ha3 : s3.abs = (s.abs.set t .idle).set f (.afterSend (reply? (s.tcb f).frame.r1)) := by
    rw [← hs3, setTcb_abs (by split <;> rfl), ha2]
    congr 1
    unfold reply?
    by_cases hnil : (s.tcb f).frame.r1 = L4_NILTHREAD
    · rw [if_pos hnil]
      apply Core.phase_of_idle
      · rw [Core.tcb_setTcb, if_pos rfl, if_pos hnil]
        simp
      · rw [Core.tcb_setTcb, if_pos rfl, if_pos hnil]
        simp
    · rw [if_neg hnil]
      rw [Core.phase_receiving (by rw [Core.tcb_setTcb, if_pos rfl, if_neg hnil])]
      rw [Core.tcb_setTcb, if_pos rfl, if_neg hnil]
      rfl
  have hid3 : Identity s s3 := hid2.trans (by
    rw [← hs3]
    refine setTcb_identity ?_
    split <;> rfl)
  have htr : s3.transfers = s.transfers := by
    rw [← hs3, ← hs2, ← hs1]
    rfl
  rw [h]
  constructor
  · unfold State.transfer State.record
    rw [← ha3]
    show ({ s3.abs with transfers := _ :: s3.transfers.map Transfer.abs } : State TcbRef Nat) = _
    rw [htr]
    unfold Transfer.abs
    rw [awaited_phase]
    rfl
  · exact ⟨hid3.utcb, hid3.live, hid3.caller, hid3.threadMap, hid3.threadCount⟩

/-- `do_ipc` in the abstraction: nothing, the caller of the system call is woken, or a
transfer. -/
theorem doIpc_abs (h : doIpc mm s f t = .ok s') :
    (s'.abs = s.abs ∨ (∃ c, s.caller = some c ∧ s'.abs = s.abs.set c .idle) ∨
      s'.abs = s.abs.transfer f t (named? (s.tcb f).frame.r0) (reply? (s.tcb f).frame.r1)) ∧
      Identity s s' := by
  rcases doIpc_cases h with ⟨_, hc⟩ | ⟨_, s1, hc, ⟨_, c, hcaller, rfl⟩ | ⟨_, h⟩⟩
  · exact ⟨.inl hc.abs, hc.identity⟩
  · refine ⟨.inr (.inl ⟨c, hcaller, ?_⟩), hc.identity.trans (setTcb_identity rfl)⟩
    rw [setRunnable_abs, hc.abs]
  · obtain ⟨habs, hid⟩ := completeIpc_abs h
    rw [hc.abs, hc.frame] at habs
    exact ⟨.inr (.inr habs), hc.identity.trans hid⟩

/-! ## Lookup -/

section

variable (hmap : s'.threadMap = s.threadMap)
  (hno : ∀ t, s'.number t = s.number t)

include hmap hno

theorem threadMapTid_congr (i : Nat) : threadMapTid s' i = threadMapTid s i := by
  unfold threadMapTid
  rw [hmap]
  cases s.threadMap i with
  | none => rfl
  | some t =>
    show (if configMaxThreads ≤ i then _ else Except.ok (s'.number t)) = _
    rw [hno]
    rfl

theorem threadMapLoop_congr (tid : Nat) (n first last : Nat) :
    threadMapLoop s' tid n first last = threadMapLoop s tid n first last := by
  induction n generalizing first last with
  | zero => rfl
  | succ n ih =>
    unfold threadMapLoop
    simp only [threadMapTid_congr hmap hno, ih]

theorem threadMapSearch_congr (id : Word) (first last : Nat) :
    threadMapSearch s' id first last = threadMapSearch s id first last := by
  unfold threadMapSearch
  simp only [threadMapTid_congr hmap hno, threadMapLoop_congr hmap hno]

theorem threadByGlobalid_congr (hcount : s'.threadCount = s.threadCount) (id : Word) :
    threadByGlobalid s' id = threadByGlobalid s id := by
  unfold threadByGlobalid
  simp only [threadMapTid_congr hmap hno, threadMapSearch_congr hmap hno, hcount, hmap]

end

theorem threadByGlobalid_number (h : threadByGlobalid s id = .ok (some t)) :
    s.number t = globalidToTid id := by
  obtain ⟨idx, _, h⟩ := bind_ok.mp h
  obtain ⟨tid, htid, h⟩ := bind_ok.mp h
  split at h
  · have := pure_ok.mp h
    simp at this
  · rename_i heq
    have hmap := pure_ok.mp h
    unfold threadMapTid at htid
    split at htid
    · simp at htid
    · obtain ⟨thr, hthr, htid⟩ := bind_ok.mp htid
      rw [nonNull_ok, hmap] at hthr
      injection hthr with hthr
      unfold Core.number
      rw [hthr, pure_ok.mp htid]
      exact not_not.mp heq

theorem partner_of_specific (h1 : id ≠ L4_NILTHREAD) (h2 : id ≠ L4_ANYTHREAD) :
    partner? id = some (globalidToTid id) := by
  unfold partner?
  rw [if_neg (not_or.mpr ⟨h1, h2⟩)]

/-! ## Delivery -/

/-- A pass of `ipc_deliver`, or a timeout, is a sequence of moves. A thread that does not send
is at most made runnable. -/
structure Moves (s s' : Core) : Prop where
  moves : Relation.ReflTransGen Move s.abs s'.abs
  identity : Identity s s'
  woken : ∀ x, (s.tcb x).state ≠ .sendBlocked →
    (s'.tcb x).state = (s.tcb x).state ∨ (s'.tcb x).state = .runnable

theorem Moves.refl (s : Core) : Moves s s := ⟨.refl, .refl s, fun _ _ => .inl rfl⟩

theorem Moves.trans (h1 : Moves s s') (h2 : Moves s' s'') : Moves s s'' := by
  refine ⟨h1.moves.trans h2.moves, h1.identity.trans h2.identity, fun x hx => ?_⟩
  rcases h1.woken x hx with he | hr
  · rw [← he] at hx ⊢
    exact h2.woken x hx
  · right
    rcases h2.woken x (by rw [hr]; simp) with he | hr'
    · rw [he, hr]
    · exact hr'

/-- The states after `do_ipc`: only the sender may be blocked by it. -/
theorem doIpc_state (h : doIpc mm s f t = .ok s') (hx : x ≠ f) :
    (s'.tcb x).state = (s.tcb x).state ∨ (s'.tcb x).state = .runnable := by
  rcases doIpc_cases h with ⟨_, hc⟩ | ⟨_, s1, hc, ⟨_, c, _, rfl⟩ | ⟨_, h⟩⟩
  · exact .inl (hc.state x)
  · rw [Core.tcb_setTcb, ← hc.state x]
    split
    · exact .inr rfl
    · exact .inl rfl
  · rw [← hc.state x]
    rw [completeIpc_tcb h hx]
    split
    · exact .inr rfl
    · exact .inl rfl

/-- `do_ipc` for a blocked sender and a receiver, of which one waits for the other. -/
theorem doIpc_moves (h : doIpc mm s f t = .ok s')
    (hf : (s.tcb f).state = .sendBlocked) (ht : (s.tcb t).state = .recvBlocked)
    (hmatch : partner? (s.remembered f) = some (s.number t) ∨
      partner? (s.tcb t).ipcFrom = some (s.number f)) : Moves s s' := by
  obtain ⟨habs, hid⟩ := doIpc_abs h
  refine ⟨?_, hid, fun x hx => doIpc_state h (fun hxf => hx (hxf ▸ hf))⟩
  rcases habs with habs | ⟨c, _, habs⟩ | habs
  · rw [habs]
  · rw [habs]
    exact .single (.wake c)
  · rw [habs]
    exact .single (.pair (Core.phase_sending hf) (Core.phase_receiving ht) hmatch)

/-- The id is that of one thread, and it leads to `t`. -/
structure LeadsTo (s : Core) (id : Word) (t : TcbRef) : Prop where
  specific : id ≠ L4_NILTHREAD ∧ id ≠ L4_ANYTHREAD
  found : threadByGlobalid s id = .ok (some t)

theorem LeadsTo.partner (h : LeadsTo s id t) : partner? id = some (s.number t) := by
  rw [partner_of_specific h.specific.1 h.specific.2, threadByGlobalid_number h.found]

/-- One pass of the loop of `ipc_deliver` does nothing, or pairs a thread of the map with the one it
names. -/
theorem deliverAt_cases (h : deliverAt mm s i = .ok s') :
    s' = s ∨ ∃ f t, doIpc mm s f t = .ok s' ∧ (s.tcb f).state = .sendBlocked ∧
      (s.tcb t).state = .recvBlocked ∧
      ((s.threadMap i = some f ∧ LeadsTo s (s.remembered f) t) ∨
        (s.threadMap i = some t ∧ LeadsTo s (s.tcb t).ipcFrom f)) := by
  unfold deliverAt at h
  split at h
  · simp at h
  · obtain ⟨thr, hthr, h⟩ := bind_ok.mp h
    rw [nonNull_ok] at hthr
    split at h
    · rename_i hstate
      split at h
      · rename_i hspec
        obtain ⟨p, hlook, h⟩ := bind_ok.mp h
        obtain ⟨f, hf, h⟩ := bind_ok.mp h
        rw [nonNull_ok.mp hf] at hlook
        split at h
        · rename_i hsend
          exact .inr ⟨f, thr, h, hsend, hstate, .inr ⟨hthr, hspec, hlook⟩⟩
        · exact .inl (pure_ok.mp h).symm
      · exact .inl (pure_ok.mp h).symm
    · rename_i hstate
      obtain ⟨u, hu, h⟩ := bind_ok.mp h
      dsimp only at h
      have hrem : s.remembered thr = (s.utcbs u).intendedReceiver := by
        unfold Core.remembered
        rw [nonNull_ok.mp hu]
      split at h
      · rename_i hspec
        obtain ⟨p, hlook, h⟩ := bind_ok.mp h
        obtain ⟨t, ht, h⟩ := bind_ok.mp h
        rw [nonNull_ok.mp ht] at hlook
        split at h
        · rename_i hrecv
          refine .inr ⟨thr, t, h, hstate, hrecv, .inl ⟨hthr, ?_⟩⟩
          rw [hrem]
          exact ⟨hspec, hlook⟩
        · exact .inl (pure_ok.mp h).symm
      · exact .inl (pure_ok.mp h).symm
    · exact .inl (pure_ok.mp h).symm

theorem deliverAt_moves (h : deliverAt mm s i = .ok s') : Moves s s' := by
  rcases deliverAt_cases h with rfl | ⟨f, t, h, hf, ht, hmatch⟩
  · exact .refl _
  · exact doIpc_moves h hf ht (hmatch.imp (fun hm => hm.2.partner) fun hm => hm.2.partner)

theorem deliverLoop_moves (n i : Nat) (s s' : Core) (h : deliverLoop mm n i s = .ok s') :
    Moves s s' := by
  induction n generalizing i s s' with
  | zero =>
    rw [← ok_ok.mp h]
    exact .refl s
  | succ n ih =>
    obtain ⟨s1, h1, h⟩ := bind_ok.mp h
    exact (deliverAt_moves h1).trans (ih _ _ _ h)

theorem ipcDeliver_moves (h : ipcDeliver mm s = .ok (r, s')) : Moves s s' := by
  obtain ⟨s1, h1, h⟩ := bind_ok.mp h
  obtain ⟨_, hs⟩ := pure_pair.mp h
  rw [← hs]
  exact deliverLoop_moves _ _ _ _ h1

theorem ipcTimeout_moves (s : Core) (t : TcbRef) : Moves s (ipcTimeout s t) := by
  have hid : Identity s (s.setTcb t fun tcb => { tcb with state := .runnable }) :=
    setTcb_identity rfl
  refine ⟨?_, ⟨hid.utcb, hid.live, hid.caller, rfl, rfl⟩, fun x _ => ?_⟩
  · have : (ipcTimeout s t).abs = s.abs.set t .idle := setRunnable_abs s t
    rw [this]
    exact .single (.wake t)
  · show ((s.setTcb t fun tcb => { tcb with state := .runnable }).tcb x).state = _ ∨
      ((s.setTcb t fun tcb => { tcb with state := .runnable }).tcb x).state = _
    rw [Core.tcb_setTcb]
    split
    · exact .inr rfl
    · exact .inl rfl

theorem timerHandler_moves {handler : TimerHandler}
    (h : handler.run mm s = .ok (r, s')) : Moves s s' := by
  cases handler with
  | ipcDeliver => exact ipcDeliver_moves h
  | ipcTimeout thr =>
    have := ok_ok.mp h
    injection this with _ hs
    rw [← hs]
    exact ipcTimeout_moves s thr

/-! ## System calls -/

theorem inactiveOfPager_true (h : inactiveOfPager s c (some t) = .ok true) :
    (s.tcb t).state = .inactive := by
  unfold inactiveOfPager at h
  by_cases hin : (s.tcb t).state = .inactive
  · exact hin
  · dsimp only at h
    rw [if_neg hin] at h
    exact absurd (ok_ok.mp h) (by simp)

theorem waitsInRecv_iff {p : Option TcbRef} :
    waitsInRecv s p = true ↔ ∃ t, p = some t ∧ (s.tcb t).state = .recvBlocked := by
  cases p <;> simp [waitsInRecv]

/-- The ways through the send phase of `sys_ipc`. -/
theorem sysIpcSend_cases {toTid : Word} (h : sysIpcSend mm kip s c toTid = .ok s') :
    ∃ p, threadByGlobalid s toTid = .ok p ∧
    ((toTid = tidToGlobalid THREAD_LOG ∧ s' = s.setTcb c fun tcb => { tcb with state := .runnable }) ∨
    (toTid ≠ tidToGlobalid THREAD_LOG ∧
      ((∃ t, p = some t ∧ ((s.tcb t).state = .recvBlocked ∨ toTid = (s.tcb c).tGlobalid) ∧
          doIpc mm s c t = .ok s') ∨
        (waitsInRecv s p = false ∧ toTid ≠ (s.tcb c).tGlobalid ∧
          ((∃ t, p = some t ∧ inactiveOfPager s c p = .ok true ∧
              (((s.tcb c).ctx.regs 0 = 0x00000003#32 ∧ startThread kip s c t = .ok s') ∨
                ((s.tcb c).ctx.regs 0 ≠ 0x00000003#32 ∧ ∃ s1, doIpc mm s c t = .ok s1 ∧
                  s' = s1.setTcb t fun tcb => { tcb with state := .inactive }))) ∨
            (inactiveOfPager s c p = .ok false ∧
              ∃ u, (s.tcb c).utcb = some u ∧
                s' = (s.setTcb c fun tcb => { tcb with state := .sendBlocked }).setUtcb u
                  fun utcb => { utcb with intendedReceiver := toTid })))))) := by
  obtain ⟨p, hlook, h⟩ := bind_ok.mp h
  refine ⟨p, hlook, ?_⟩
  split at h
  · rename_i hlog
    exact .inl ⟨hlog, (pure_ok.mp h).symm⟩
  · rename_i hlog
    right
    refine ⟨hlog, ?_⟩
    split at h
    · rename_i hdirect
      obtain ⟨t, ht, h⟩ := bind_ok.mp h
      rw [nonNull_ok] at ht
      refine .inl ⟨t, ht, ?_, h⟩
      rcases hdirect with hw | hself
      · obtain ⟨t', ht', hstate⟩ := waitsInRecv_iff.mp hw
        rw [ht] at ht'
        injection ht' with ht'
        exact .inl (ht' ▸ hstate)
      · exact .inr hself
    · rename_i hdirect
      rw [not_or] at hdirect
      refine .inr ⟨by simpa using hdirect.1, hdirect.2, ?_⟩
      obtain ⟨inactive, hin, h⟩ := bind_ok.mp h
      have hblock : (do
          let utcb ← nonNull (s.tcb c).utcb
          let s := s.setTcb c fun tcb => { tcb with state := .sendBlocked }
          return s.setUtcb utcb fun u => { u with intendedReceiver := toTid } : Except Fault Core) =
            .ok s' → ∃ u, (s.tcb c).utcb = some u ∧
              s' = (s.setTcb c fun tcb => { tcb with state := .sendBlocked }).setUtcb u
                fun utcb => { utcb with intendedReceiver := toTid } := by
        intro h
        obtain ⟨u, hu, h⟩ := bind_ok.mp h
        exact ⟨u, nonNull_ok.mp hu, (pure_ok.mp h).symm⟩
      cases p with
      | none =>
        cases inactive with
        | false => exact .inr ⟨hin, hblock h⟩
        | true => exact absurd (ok_ok.mp hin) (by simp)
      | some t =>
        cases inactive with
        | false => exact .inr ⟨hin, hblock h⟩
        | true =>
          refine .inl ⟨t, rfl, hin, ?_⟩
          obtain ⟨tag, htag, h⟩ := bind_ok.mp h
          have htag : tag = (s.tcb c).ctx.regs 0 := (ok_ok.mp htag).symm
          split at h
          · rename_i hstart
            exact .inl ⟨htag ▸ hstart, h⟩
          · rename_i hstart
            obtain ⟨s1, h1, h⟩ := bind_ok.mp h
            exact .inr ⟨htag ▸ hstart, s1, h1, (pure_ok.mp h).symm⟩

/-- The start of a thread: its stack and its frame are set up, and it runs with its pager. -/
theorem startThread_ok (h : startThread kip s c t = .ok s') :
    ∃ sp size pc, s' =
      ((threadInitCtx kip (s.setTcb t fun tcb =>
        { tcb with stackBase := sp - size, stackSize := size }) sp pc t).setTcb c
          fun tcb => { tcb with state := .runnable }).setTcb t
          fun tcb => { tcb with state := .runnable } := by
  obtain ⟨sp, _, h⟩ := bind_ok.mp h
  obtain ⟨size, _, h⟩ := bind_ok.mp h
  obtain ⟨pc, _, h⟩ := bind_ok.mp h
  exact ⟨sp, size, pc, (pure_ok.mp h).symm⟩

/-- The ways of a call of `sys_ipc`, from the state `s` with the call recorded: sleep, send,
receive, or none of these. -/
theorem sysIpc_ways {m m' : Machine} (h : sysIpc mm kip m c = .ok m') :
    ∃ s, s = { m.core with calls := (c, (m.core.tcb c).frame.r0) :: m.core.calls } ∧
    (((m.core.tcb c).frame.r0 = L4_NILTHREAD ∧ (m.core.tcb c).frame.r2 ≠ 0#32 ∧
        m' = { m with
          core := s.setTcb c fun tcb => { tcb with state := .inactive }
          timer := (m.timer.eventCreate (sleepTicks (m.core.tcb c).frame.r2)
            (.ipcTimeout c)).2 }) ∨
      ((m.core.tcb c).frame.r0 ≠ L4_NILTHREAD ∧ ∃ s1,
        sysIpcSend mm kip s c (m.core.tcb c).frame.r0 = .ok s1 ∧ m' = { m with core := s1 }) ∨
      ((m.core.tcb c).frame.r0 = L4_NILTHREAD ∧ (m.core.tcb c).frame.r2 = 0#32 ∧
        (((m.core.tcb c).frame.r1 ≠ L4_NILTHREAD ∧ m' = { m with
            core := s.setTcb c fun tcb =>
              { tcb with state := .recvBlocked, ipcFrom := (m.core.tcb c).frame.r1 } }) ∨
          ((m.core.tcb c).frame.r1 = L4_NILTHREAD ∧ m' = { m with
            core := s.setTcb c fun tcb => { tcb with state := .sendBlocked } })))) := by
  refine ⟨_, rfl, ?_⟩
  unfold sysIpc at h
  dsimp only at h
  split at h
  · rename_i hsleep
    exact .inl ⟨hsleep.1, hsleep.2, (pure_ok.mp h).symm⟩
  · rename_i hsleep
    right
    split at h
    · rename_i hnil
      obtain ⟨s1, h1, h⟩ := bind_ok.mp h
      exact .inl ⟨hnil, s1, h1, (pure_ok.mp h).symm⟩
    · rename_i hnil
      rw [not_not] at hnil
      refine .inr ⟨hnil, by_contra fun hne => hsleep ⟨hnil, hne⟩, ?_⟩
      split at h
      · rename_i hfrom
        exact .inl ⟨hfrom, (pure_ok.mp h).symm⟩
      · rename_i hfrom
        exact .inr ⟨not_not.mp hfrom, (pure_ok.mp h).symm⟩

end F9
