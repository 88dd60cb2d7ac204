import F9.Logic.Steps

/-!
# MPU isolation

`as_setup_mpu` and `mpu_select_lru` program the MPU from the cached MPU list of
a space, not from the list of its pages. The two agree as long as

* a slot that `as_create` takes has no MPU list from its former owner, and
* a page that is cut or unmapped is linked at most once.

Neither is ensured by the code: `as_create` does not reset `mpu_first`, and
`mpu_select_lru` links a page to the front without unlinking it first.
-/

namespace F9

open Linked Result

variable {mm : Memmap} {s s' : Kernel} {a : AsRef} {dead rest : List FpRef} {r p : FpRef}
  {op : MemOp} {L : AsRef → List FpRef}

/-! ## Sharing and destruction -/

theorem MpuInv.setShared {X : AsRef → Prop} (h : MpuInv X s) (a : AsRef) (f : Nat → Nat) :
    MpuInv X (s.setAs a fun b => { b with shared := f b.shared }) := by
  have hpages : ∀ b, (s.setAs a fun b => { b with shared := f b.shared }).pages b = s.pages b := by
    intro b
    unfold Kernel.pages
    rw [(setShared_as s a b f).1]
    rfl
  refine h.add (a := a) (N := []) (fun _ => rfl) (fun b => (setShared_as s a b f).2) ?_
    (fun b _ _ => hpages b) (fun _ _ _ _ => rfl) (by simp)
  intro x
  rw [hpages]
  simp

/-- While `a` is destroyed, its MPU list stays within its old list, and those
of the other spaces do not change. -/
structure MpuDestroying (s : Kernel) (L : AsRef → List FpRef) (a : AsRef)
    (dead rest : List FpRef) : Prop where
  lists : Destroying s L a dead rest
  sub : ∀ x ∈ dead ++ rest, x ∈ L a
  disj : ∀ b, s.liveAs b = true → b ≠ a → ∀ x ∈ L b, x ∉ L a
  own : MpuIn s a {x | x ∈ L a}
  others : ∀ b, s.liveAs b = true → b ≠ a → MpuIn s b {x | x ∈ L b}

theorem MpuDestroying.unmapped (h : MpuDestroying s L a dead (r :: rest))
    (hl : Chain s.asNext (s.as a).first (dead ++ r :: rest))
    (hu : Unmapped s s' a r p (dead ++ r :: rest)) : MpuDestroying s' L a dead rest := by
  have hlive : ∀ b, s'.liveAs b = true → s.liveAs b = true := by
    intro b hb
    rw [hu.out.liveAs] at hb
    exact hb
  refine ⟨h.lists.unmapped hl hu, ?_, fun b hb => h.disj b (hlive b hb),
    h.own.past (by simp) hu.mpuLinks, ?_⟩
  · intro x hx
    apply h.sub
    rw [List.mem_append] at hx ⊢
    exact hx.imp_right (List.mem_cons_of_mem _)
  · intro b hb hba
    exact h.own.past_ne hba (h.others b (hlive b hb) hba) (h.disj b (hlive b hb) hba) (by simp)
      hu.mpuLinks

theorem MpuDestroying.freed (h : MpuDestroying s L a dead (r :: rest))
    (hl : Chain s.asNext (s.as a).first (dead ++ r :: rest)) :
    MpuDestroying (s.freeFp r) L a (dead ++ [r]) rest := by
  refine ⟨h.lists.freed hl, ?_, h.disj, ⟨h.own.head, h.own.next⟩, ?_⟩
  · intro x hx
    apply h.sub
    simpa using hx
  · intro b hb hba
    exact ⟨(h.others b hb hba).head, (h.others b hb hba).next⟩

/-- The spaces that remain keep their own MPU lists. -/
theorem asDestroy_mpuOwn (hq : Quiet s) (hwf : Wf s) (hown : ∀ b, s.liveAs b = true → MpuOwn s b)
    (ha : s.liveAs a = true) (h : asDestroy s a = .ok s') :
    ∀ b, s'.liveAs b = true → MpuOwn s' b := by
  have hL := (asDestroy_lists hq hwf ha h).2
  rcases asDestroy_ok h with ⟨_, rfl⟩ | ⟨_, s1, hloop, rfl⟩
  · have hinv : MpuInv (fun _ => False) s := ⟨hown, fun _ hX => absurd hX id⟩
    exact (hinv.setShared a (· - 1)).own
  · intro b hb
    unfold MpuOwn
    rw [hL.pages_eq hb]
    have hl := hwf.chain a ha
    rw [hl.head_eq] at hloop
    obtain ⟨dead, _, _, hd⟩ := asDestroyLoop_rule
      (I := fun s dead rest => MpuDestroying s (Kernel.pages _) a dead rest)
      (fun _ _ _ _ _ _ hI hl hu => hI.unmapped hl hu)
      (fun _ _ _ _ hI hl _ => hI.freed hl) _ s s1 [] (s.pages a) hq hl
      ⟨.start hwf ha, fun x hx => hx, fun b hb hba => hwf.disj b a hb ha hba, hown a ha,
        fun b hb _ => hown b hb⟩ hloop
    rw [Kernel.freeAs_liveAs] at hb
    have hb' : s1.liveAs b = true ∧ b ≠ a := by simpa using hb
    have hin := hd.others b hb'.1 hb'.2
    exact ⟨hin.head, hin.next⟩

/-! ## The invariant -/

/-- The side condition on a call: the local `end` reads as zero, a new space
gets a slot without an MPU list, and where pages may be cut or unmapped, each
is linked at most once. -/
structure MpuSafe (s : Kernel) (op : MemOp) : Prop where
  quiet : Quiet s
  slot : op.creates = true → ∀ q ∈ s.allocAs, (s.as q.1).mpuFirst = none
  once : ∀ a, op.cuts a → s.liveAs a = true → MpuOnce s a

/-- The side condition on a call that cuts nothing, but for the local `end`. -/
def MemOp.mpuCheck (s : Kernel) (op : MemOp) : Bool :=
  (match op with
    | .threadSpace .. | .mapArea .. | .unmapFpage .. | .splitFpage .. => false
    | _ => true) &&
  decide (op.creates = true → ∀ q ∈ s.allocAs, (s.as q.1).mpuFirst = none)

theorem MpuSafe.of_check (hq : Quiet s) (h : op.mpuCheck s = true) :
    MpuSafe s op := by
  unfold MemOp.mpuCheck at h
  rw [Bool.and_eq_true, decide_eq_true_eq] at h
  refine ⟨hq, h.2, fun a ha => ?_⟩
  cases op with
  | threadSpace | mapArea | unmapFpage | splitFpage => exact absurd h.1 (by simp)
  | _ => exact absurd ha id

theorem MpuStep.mpuOwn (hwf : Wf s) (ha : s.liveAs a = true)
    (hown : ∀ b, s.liveAs b = true → MpuOwn s b) (h : MpuStep s s' a {x | x ∈ s.pages a}) :
    ∀ b, s'.liveAs b = true → MpuOwn s' b := by
  have hL := h.lists hwf
  intro b hb
  unfold MpuOwn
  rw [hL.pages_eq hb]
  rw [h.liveAs] at hb
  by_cases hba : b = a
  · subst hba
    exact h.inside (hown b hb)
  · refine ⟨?_, ?_⟩
    · rw [h.as_ne b hba]
      exact (hown b hb).head
    · intro x hx
      rw [h.frame x (hwf.disj b a hb ha hba x hx)]
      exact (hown b hb).next x hx

/-- Every call that meets the side condition keeps the MPU lists to the pages
of their spaces. -/
theorem Effect.mpuOwn (hwf : Wf s) (hown : ∀ b, s.liveAs b = true → MpuOwn s b)
    {C : Kernel → FpRef → Prop} (hsafe : MpuSafe s op) (h : Effect mm C op s s') :
    ∀ b, s'.liveAs b = true → MpuOwn s' b := by
  have hinv : MpuInv op.cuts s := ⟨hown, hsafe.once⟩
  cases h with
  | prims hp => exact (hp.mpuInv hinv).own
  | created hop hc hp =>
    obtain ⟨t, ht⟩ := hc.slot
    exact (hp.mpuInv (hinv.created hwf hc (hsafe.slot hop _ ht))).own
  | shared a hp => exact (hp.mpuInv (hinv.setShared a (· + 1))).own
  | destroyed _ ha hd => exact asDestroy_mpuOwn hsafe.quiet hwf hown ha hd
  | mpu ha hm => exact (hm _ (fun x hx => hx) (hown _ ha)).mpuOwn hwf ha hown

theorem reachable_mpuOwn {b : Board} (h : (system mm b).Reachable MpuSafe s) :
    Wf s ∧ ∀ a, s.liveAs a = true → MpuOwn s a := by
  refine h.invariant (I := fun s => Wf s ∧ ∀ a, s.liveAs a = true → MpuOwn s a) ?_ ?_
  · rintro s ⟨junk, hboot⟩
    have hb := threadInitSubsys_booted hboot
    refine ⟨hb.wf, fun a ha => ?_⟩
    rw [hb.liveAs] at ha
    simp at ha
  · rintro s op s' ⟨hwf, hown⟩ hsafe ⟨hv, hrun⟩
    have he := MemOp.run_effect hsafe.quiet hwf hv (.any hsafe.quiet hwf hv) hrun
    exact ⟨(he.wf hsafe.quiet hwf).2, he.mpuOwn hwf hown hsafe⟩

/-! ## Isolation -/

/-- The space a call programs the MPU for. -/
def MemOp.mpuSpace : MemOp → Option AsRef
  | .asSetupMpu as _ _ _ _ => some as
  | .mpuSelectLru as _ => as
  | _ => none

theorem MemOp.mpuSpace_eq (h : op.mpuSpace = some a) :
    (∃ sp pc stackBase stackSize, op = .asSetupMpu a sp pc stackBase stackSize) ∨
    ∃ addr, op = .mpuSelectLru (some a) addr := by
  cases op with
  | asSetupMpu as sp pc stackBase stackSize =>
    injection h with h
    exact .inl ⟨sp, pc, stackBase, stackSize, by rw [h]⟩
  | mpuSelectLru as addr => exact .inr ⟨addr, congrArg (MemOp.mpuSelectLru · addr) h⟩
  | _ => simp [MemOp.mpuSpace] at h

/-- Every region that the step from `s` to `s'` sets up from a page is set up
from an allocated page on the list of `a`. -/
def RegionsOwn (s s' : Kernel) (a : AsRef) : Prop :=
  s.mpuLog <:+ s'.mpuLog ∧
    ∀ e ∈ s'.mpuLog.take (s'.mpuLog.length - s.mpuLog.length), ∀ r ∈ e.2,
      s'.liveFp r = true ∧ r ∈ s'.pages a

instance (s s' : Kernel) (a : AsRef) : Decidable (RegionsOwn s s' a) :=
  inferInstanceAs (Decidable (_ ∧ _))

end F9
