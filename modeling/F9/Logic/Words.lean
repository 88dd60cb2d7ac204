import F9.User.Message
import F9.Logic.IpcRuns

/-!
# The words of a message

What `do_ipc` does to message registers. A thread's registers are those it will have
when it runs: `ctx.regs` and the words in its UTCB. The sender and the receiver may be the
same thread, or share a UTCB: the words are then copied to where they are.
-/

namespace F9

open Result

variable {s s' : Core} {t f : TcbRef} {i a b c : Nat} {data e : Word} {s'' : Core} {mm : Memmap}

/-- The message registers of a thread. -/
def Core.vregs (s : Core) (t : TcbRef) : Vregs where
  regs := (s.tcb t).ctx.regs
  mr := match (s.tcb t).utcb with
    | none => fun _ => 0#32
    | some u => (s.utcbs u).mr

/-- Message register `i` of a thread. -/
def Core.mr (s : Core) (t : TcbRef) (i : Nat) : Word := (s.vregs t).get i

/-- All message registers are as before. -/
def SameWords (s s' : Core) : Prop := ∀ x, s'.vregs x = s.vregs x

theorem SameWords.trans (h1 : SameWords s s') (h2 : SameWords s' s'') :
    SameWords s s'' := fun x => (h2 x).trans (h1 x)

theorem SameWords.mr (h : SameWords s s') (x : TcbRef) (i : Nat) : s'.mr x i = s.mr x i := by
  unfold Core.mr
  rw [h x]

theorem SameWords.regs (h : SameWords s s') (x : TcbRef) :
    (s'.tcb x).ctx.regs = (s.tcb x).ctx.regs := (congrArg Vregs.regs (h x) :)

theorem setTcb_sameWords {f : Tcb → Tcb} (hregs : (f (s.tcb t)).ctx.regs = (s.tcb t).ctx.regs)
    (hutcb : (f (s.tcb t)).utcb = (s.tcb t).utcb) : SameWords s (s.setTcb t f) := by
  intro x
  unfold Core.vregs
  have hutcbs : (s.setTcb t f).utcbs = s.utcbs := rfl
  rw [Core.tcb_setTcb, hutcbs]
  split
  · rename_i hx
    rw [hx, hregs, hutcb]
  · rfl

theorem setUtcb_sameWords {u : Word} {f : Utcb → Utcb} (hmr : (f (s.utcbs u)).mr = (s.utcbs u).mr) :
    SameWords s (s.setUtcb u f) := by
  intro x
  have hmrs : ∀ v, ((s.setUtcb u f).utcbs v).mr = (s.utcbs v).mr := by
    intro v
    rw [Core.utcbs_setUtcb]
    split
    · rename_i hv
      rw [hv, hmr]
    · rfl
  unfold Core.vregs
  rw [Core.tcb_setUtcb]
  split
  · rfl
  · rw [hmrs]

theorem setUserError_sameWords (h : setUserError s t e = .ok s') : SameWords s s' := by
  unfold setUserError at h
  split at h
  · simp at h
  · rw [← ok_ok.mp h]
    exact setUtcb_sameWords rfl

theorem completeIpc_sameWords (h : completeIpc s f t = .ok s') : SameWords s s' := by
  obtain ⟨u, _, h⟩ := bind_ok.mp h
  have h := (pure_ok.mp h).symm
  generalize hs1 : s.setUtcb u _ = s1 at h
  generalize hs2 : s1.setTcb t _ = s2 at h
  generalize hs3 : s2.setTcb f _ = s3 at h
  have h1 : SameWords s s1 := by
    rw [← hs1]
    exact setUtcb_sameWords rfl
  have h2 : SameWords s1 s2 := by
    rw [← hs2]
    exact setTcb_sameWords rfl rfl
  have h3 : SameWords s2 s3 := by
    rw [← hs3]
    refine setTcb_sameWords ?_ ?_
    · split <;> rfl
    · split <;> rfl
  have h4 : SameWords s3 s' := by
    rw [h]
    exact fun _ => rfl
  exact ((h1.trans h2).trans h3).trans h4

/-! ## The copying -/

/-- The registers from `a` to below `b` of `t` have become those of `f`; the other registers of
`t`, and those of `f`, are as before, and so are r4 to r11 of other threads. -/
structure Moved (f t : TcbRef) (a b : Nat) (s s' : Core) : Prop where
  sender : ∀ i, s'.mr f i = s.mr f i
  receiver : ∀ i, s'.mr t i = if a ≤ i ∧ i < b then s.mr f i else s.mr t i
  regs : ∀ x, x ≠ t → (s'.tcb x).ctx.regs = (s.tcb x).ctx.regs

theorem SameWords.moved (h : SameWords s s') (f t : TcbRef) (a : Nat) : Moved f t a a s s' := by
  refine ⟨h.mr f, fun i => ?_, fun x _ => h.regs x⟩
  rw [if_neg (by omega)]
  exact h.mr t i

theorem Moved.trans (hab : a ≤ b) (hbc : b ≤ c) (h1 : Moved f t a b s s')
    (h2 : Moved f t b c s' s'') : Moved f t a c s s'' := by
  refine ⟨fun i => (h2.sender i).trans (h1.sender i), fun i => ?_,
    fun x hx => (h2.regs x hx).trans (h1.regs x hx)⟩
  rw [h2.receiver, h1.receiver, h1.sender]
  by_cases hb : b ≤ i ∧ i < c
  · rw [if_pos hb, if_pos (by omega)]
  · rw [if_neg hb]
    by_cases ha : a ≤ i ∧ i < b
    · rw [if_pos ha, if_pos (by omega)]
    · rw [if_neg ha, if_neg (by omega)]

theorem ipcReadMr_mr (h : ipcReadMr s f i = .ok data) : data = s.mr f i := by
  unfold ipcReadMr at h
  unfold Core.mr Vregs.get Core.vregs
  split at h
  · obtain ⟨u, hu, h⟩ := bind_ok.mp h
    rw [nonNull_ok] at hu
    rw [if_neg (by omega), hu]
    exact (pure_ok.mp h).symm
  · rw [if_pos (by omega)]
    exact (ok_ok.mp h).symm

/-- A write changes register `i` of the thread. A thread that shares the UTCB gets the word,
too. -/
theorem ipcWriteMr_mr (h : ipcWriteMr s t i data = .ok s') :
    (∀ j, s'.mr t j = if j = i then data else s.mr t j) ∧
    (∀ x j, s'.mr x j = s.mr x j ∨ (j = i ∧ s'.mr x j = data)) ∧
    (∀ x, x ≠ t → (s'.tcb x).ctx.regs = (s.tcb x).ctx.regs) := by
  unfold ipcWriteMr at h
  split at h
  · obtain ⟨u, hu, h⟩ := bind_ok.mp h
    rw [nonNull_ok] at hu
    have h := (pure_ok.mp h).symm
    have hmr : ∀ v j, (s'.utcbs v).mr j =
        if v = u ∧ j = i - 8 then data else (s.utcbs v).mr j := by
      intro v j
      rw [h, Core.utcbs_setUtcb]
      by_cases hv : v = u
      · rw [if_pos hv]
        by_cases hj : j = i - 8
        · rw [if_pos ⟨hv, hj⟩]
          exact if_pos hj
        · rw [if_neg (fun h => hj h.2), hv]
          exact if_neg hj
      · rw [if_neg hv, if_neg (fun h => hv h.1)]
    have htcb : ∀ x, s'.tcb x = s.tcb x := fun x => by rw [h, Core.tcb_setUtcb]
    refine ⟨fun j => ?_, fun x j => ?_, fun x _ => by rw [htcb]⟩
    · unfold Core.mr Vregs.get Core.vregs
      rw [htcb]
      by_cases hj : j < 8
      · rw [if_pos hj, if_pos hj, if_neg (by omega)]
      · rw [if_neg hj, if_neg hj, hu]
        dsimp only
        rw [hmr]
        by_cases hji : j = i
        · rw [if_pos hji, if_pos ⟨rfl, by omega⟩]
        · rw [if_neg hji, if_neg (fun h => hji (by omega))]
    · unfold Core.mr Vregs.get Core.vregs
      rw [htcb]
      by_cases hj : j < 8
      · rw [if_pos hj, if_pos hj]
        exact .inl rfl
      · rw [if_neg hj, if_neg hj]
        cases hx : (s.tcb x).utcb with
        | none => exact .inl rfl
        | some v =>
          dsimp only
          rw [hmr]
          by_cases hv : v = u ∧ j - 8 = i - 8
          · right
            exact ⟨by omega, if_pos hv⟩
          · exact .inl (if_neg hv)
  · have h := (ok_ok.mp h).symm
    have hutcbs : s'.utcbs = s.utcbs := by rw [h]; rfl
    have hutcb : ∀ x, (s'.tcb x).utcb = (s.tcb x).utcb := by
      intro x
      rw [h, Core.tcb_setTcb]
      split
      · rename_i hx
        rw [hx]
      · rfl
    have hother : ∀ x, x ≠ t → (s'.tcb x).ctx.regs = (s.tcb x).ctx.regs := by
      intro x hx
      rw [h, Core.tcb_setTcb, if_neg hx]
    have hself : ∀ j, (s'.tcb t).ctx.regs j = if j = i then data else (s.tcb t).ctx.regs j := by
      intro j
      rw [h, Core.tcb_setTcb, if_pos rfl]
    have hword : ∀ j, s'.mr t j = if j = i then data else s.mr t j := by
      intro j
      unfold Core.mr Vregs.get Core.vregs
      rw [hutcb, hutcbs]
      by_cases hj : j < 8
      · rw [if_pos hj, if_pos hj]
        exact hself j
      · rw [if_neg hj, if_neg hj, if_neg (by omega)]
    refine ⟨hword, fun x j => ?_, hother⟩
    by_cases hx : x = t
    · rw [hx, hword]
      by_cases hj : j = i
      · exact .inr ⟨hj, if_pos hj⟩
      · exact .inl (if_neg hj)
    · left
      unfold Core.mr Vregs.get Core.vregs
      rw [hutcb, hutcbs, hother x hx]

theorem copyWord_moved (hread : ipcReadMr s f i = .ok data)
    (hwrite : ipcWriteMr s t i data = .ok s') : Moved f t i (i + 1) s s' := by
  have hdata := ipcReadMr_mr hread
  obtain ⟨hself, hall, hregs⟩ := ipcWriteMr_mr hwrite
  refine ⟨fun j => ?_, fun j => ?_, hregs⟩
  · rcases hall f j with h | ⟨hj, h⟩
    · exact h
    · rw [h, hj, hdata]
  · rw [hself]
    by_cases hj : j = i
    · rw [if_pos hj, if_pos (by omega), hj, hdata]
    · rw [if_neg hj, if_neg (by omega)]

theorem copyUntyped_moved (n i : Nat) (s s' : Core) (h : copyUntyped f t n i s = .ok s') :
    Moved f t i (i + n) s s' := by
  induction n generalizing i s s' with
  | zero =>
    rw [← ok_ok.mp h]
    exact SameWords.moved (fun _ => rfl) f t i
  | succ n ih =>
    obtain ⟨data, hr, h⟩ := bind_ok.mp h
    obtain ⟨s1, hw, h⟩ := bind_ok.mp h
    have hrest := ih _ _ _ h
    rw [Nat.add_right_comm, Nat.add_assoc] at hrest
    exact (copyWord_moved hr hw).trans (by omega) (by omega) hrest

theorem copyTyped_moved (n i : Nat) (item : Option Word) (s s' : Core)
    (h : copyTyped mm f t n i item s = .ok s') : Moved f t i (i + n) s s' := by
  induction n generalizing i item s s' with
  | zero =>
    rw [← ok_ok.mp h]
    exact SameWords.moved (fun _ => rfl) f t i
  | succ n ih =>
    obtain ⟨data, s1, mem, item', hr, hw, h⟩ := copyTyped_step h
    -- memory is not among the message registers
    have hmem : SameWords s1 { s1 with mem := mem } := fun _ => rfl
    have hrest := (hmem.moved f t (i + 1)).trans (by omega) (by omega) (ih _ _ _ _ h)
    rw [Nat.add_right_comm, Nat.add_assoc] at hrest
    exact (copyWord_moved hr hw).trans (by omega) (by omega) hrest

/-- `do_ipc` copies the tag and the words it counts, or nothing if they are too many. -/
theorem doIpc_words (h : doIpc mm s f t = .ok s') :
    (Overflows s f ∧ SameWords s s') ∨
      (¬ Overflows s f ∧ Moved f t 0 (msgWords (s.mr f 0) + 1) s s') := by
  obtain ⟨tag, htag, h⟩ := bind_ok.mp h
  have htag' : (s.tcb f).ctx.regs 0 = tag := ok_ok.mp htag
  have hmr : tag = s.mr f 0 := ipcReadMr_mr htag
  unfold Overflows msgWords
  rw [htag', ← hmr]
  dsimp only at h
  split at h
  · rename_i hover
    obtain ⟨s1, h1, h⟩ := bind_ok.mp h
    exact .inl ⟨hover, (setUserError_sameWords h1).trans (setUserError_sameWords h)⟩
  · rename_i hover
    obtain ⟨s1, h1, h⟩ := bind_ok.mp h
    obtain ⟨s2, h2, h⟩ := bind_ok.mp h
    obtain ⟨s3, h3, h⟩ := bind_ok.mp h
    refine .inr ⟨hover, ?_⟩
    have hm1 := copyWord_moved htag h1
    have hm2 := copyUntyped_moved _ _ _ _ h2
    have hm3 := copyTyped_moved _ _ _ _ _ h3
    rw [Nat.add_comm 1] at hm2
    have hm : Moved f t 0 (nUntyped tag + 1 + nTyped tag) s s3 :=
      (hm1.trans (by omega) (by omega) hm2).trans (by omega) (by omega) hm3
    have hlast : SameWords s3 s' := by
      split at h
      · obtain ⟨c, _, h⟩ := bind_ok.mp h
        rw [← pure_ok.mp h]
        exact setTcb_sameWords rfl rfl
      · exact completeIpc_sameWords h
    rw [Nat.add_right_comm] at hm
    exact hm.trans (by omega) (by omega) (hlast.moved f t _)

end F9
