import F9.Logic.Map

/-!
# What the list operations leave alone

Facts that hold of every call that returns, whatever the lists look like and
whatever the uninitialised `end` of `remove_fpage_from_list` is: the list
operations write links only (`Relinked`) and leave the counters of shared spaces as they are
(`Kernel.sharing`), and a split that does something builds two
chains and frees the page (`splitFpage_parts`).
-/

namespace F9

open Result

variable {a : AsRef} {r first last : FpRef} {f : AddressSpace → AddressSpace}

/-- The allocated spaces and their counters. -/
def Kernel.sharing (s : Kernel) : Nat × Nat × (AsRef → Nat) :=
  (s.asTable.num, s.asTable.bitmap, fun a => (s.as a).shared)

/-- Only the links of the fpages, and the address spaces but for their counters, have changed. -/
structure Relinked (s s' : Kernel) : Prop where
  num : s'.fpageTable.num = s.fpageTable.num
  live : ∀ x, s'.liveFp x = s.liveFp x
  page : ∀ x, s'.fp x = { s.fp x with asNext := s'.asNext x, mpuNext := s'.mpuNext x }
  sharing : s'.sharing = s.sharing

variable {mm : Memmap} {s s' t : Kernel}

theorem liveAs_of_sharing (h : s'.sharing = s.sharing) (a : AsRef) : s'.liveAs a = s.liveAs a := by
  unfold Kernel.sharing at h
  simp only [Prod.mk.injEq] at h
  unfold Kernel.liveAs KTable.live
  rw [h.1, h.2.1]

theorem shared_of_sharing (h : s'.sharing = s.sharing) (a : AsRef) :
    (s'.as a).shared = (s.as a).shared := by
  unfold Kernel.sharing at h
  simp only [Prod.mk.injEq] at h
  exact congrFun h.2.2 a

theorem sharing_setAs (h : (f (s.as a)).shared = (s.as a).shared) :
    (s.setAs a f).sharing = s.sharing := by
  unfold Kernel.sharing
  simp only [Prod.mk.injEq]
  refine ⟨rfl, rfl, ?_⟩
  funext b
  rw [Kernel.setAs_as]
  split
  · rename_i hb
    rw [hb, h]
  · rfl

theorem SameRest.sharing (h : SameRest s s') : s'.sharing = s.sharing := by
  unfold Kernel.sharing Kernel.as
  rw [h.asTable]

theorem Relinked.refl (s : Kernel) : Relinked s s := ⟨rfl, fun _ => rfl, fun _ => rfl, rfl⟩

theorem Relinked.trans (h1 : Relinked s s') (h2 : Relinked s' t) : Relinked s t := by
  refine ⟨h2.num.trans h1.num, fun x => (h2.live x).trans (h1.live x), fun x => ?_,
    h2.sharing.trans h1.sharing⟩
  rw [h2.page x, h1.page x]

theorem Relinked.setAs (h : Relinked s s') (hf : (f (s'.as a)).shared = (s'.as a).shared) :
    Relinked s (s'.setAs a f) :=
  h.trans ⟨rfl, fun _ => rfl, fun _ => rfl, sharing_setAs hf⟩

theorem Relinked.setFp {f : Fpage → Fpage} (h : Relinked s s')
    (hf : ∀ g, f g = { g with asNext := (f g).asNext, mpuNext := (f g).mpuNext }) :
    Relinked s (s'.setFp r f) := by
  refine h.trans ⟨rfl, fun _ => rfl, fun x => ?_, rfl⟩
  unfold Kernel.asNext Kernel.mpuNext
  rw [Kernel.setFp_fp]
  by_cases hx : x = r
  · rw [if_pos hx, hx]
    exact hf _
  · rw [if_neg hx]

theorem removeFpageFromList_relinked {k : FpList} (h : removeFpageFromList k s a r = .ok s') :
    Relinked s s' := by
  have hjunk : Relinked s { s with junk := fun n => s.junk (n + 1) } :=
    ⟨rfl, fun _ => rfl, fun _ => rfl, rfl⟩
  unfold removeFpageFromList at h
  dsimp only at h
  split at h
  · have := pure_ok.mp h
    subst this
    refine hjunk.setAs ?_
    cases k <;> rfl
  · obtain ⟨p, _, h⟩ := bind_ok.mp h
    cases p with
    | none => exact absurd h throw_ok
    | some p =>
      have := pure_ok.mp h
      subst this
      refine hjunk.setFp fun g => ?_
      cases k <;> rfl

theorem removeFpageFromAs_relinked (h : removeFpageFromAs s a r = .ok s') : Relinked s s' := by
  obtain ⟨s1, h1, h2⟩ := bind_ok.mp h
  exact (removeFpageFromList_relinked h1).trans (removeFpageFromList_relinked h2)

theorem insertSearch_relinked (n : Nat) (fp : FpRef) (h : insertSearch s first last n fp = .ok s') :
    Relinked s s' := by
  induction n generalizing fp with
  | zero => simp [insertSearch] at h
  | succ n ih =>
    unfold insertSearch at h
    split at h
    · injection h with h
      subst h
      exact (Relinked.refl s).setFp fun _ => rfl
    · split at h
      · injection h with h
        subst h
        refine Relinked.setFp ?_ fun _ => rfl
        exact (Relinked.refl s).setFp fun _ => rfl
      · exact ih _ h

theorem insertFpageChainToAs_relinked (h : insertFpageChainToAs s a first last = .ok s') :
    Relinked s s' := by
  unfold insertFpageChainToAs at h
  split at h
  · injection h with h
    subst h
    exact (Relinked.refl s).setAs rfl
  · split at h
    · injection h with h
      subst h
      refine Relinked.setAs ?_ rfl
      exact (Relinked.refl s).setFp fun _ => rfl
    · exact insertSearch_relinked _ _ h

/-- A split does nothing, or builds two chains that are not empty, unlinks and frees the
page and links the chains. The pool is read again before the second chain. -/
theorem splitFpage_parts {split : Word} {rl : Bool} {res : Option FpRef}
    (h : splitFpage mm s (some a) r split rl = .ok (res, s')) :
    s' = s ∨ ∃ s1 s2 s3 cl cr, ∃ bl br : Word × Word,
      Built mm (s.fp r).mpid s s1 (chainBlocks bl.2.toNat bl.1 bl.2) cl ∧ cl ≠ [] ∧
      Built mm (s1.fp r).mpid s1 s2 (chainBlocks br.2.toNat br.1 br.2) cr ∧ cr ≠ [] ∧
      Relinked s2 s3 ∧ Relinked (s3.freeFp r) s' := by
  unfold splitFpage at h
  dsimp only at h
  split at h
  · have := pure_ok.mp h
    simp only [Prod.mk.injEq] at this
    exact .inl this.2.symm
  · split at h
    · have := pure_ok.mp h
      simp only [Prod.mk.injEq] at this
      exact .inl this.2.symm
    · right
      obtain ⟨⟨lf, ll, s1⟩, hL, h⟩ := bind_ok.mp h
      obtain ⟨⟨rf, rlast, s2⟩, hR, h⟩ := bind_ok.mp h
      obtain ⟨s3, hrem, h⟩ := bind_ok.mp h
      obtain ⟨lf', hlf, h⟩ := bind_ok.mp h
      obtain ⟨_, _, h⟩ := bind_ok.mp h
      obtain ⟨s4, hinsL, h⟩ := bind_ok.mp h
      obtain ⟨rf', hrf, h⟩ := bind_ok.mp h
      obtain ⟨_, _, h⟩ := bind_ok.mp h
      obtain ⟨s5, hinsR, h⟩ := bind_ok.mp h
      have := pure_ok.mp h
      simp only [Prod.mk.injEq] at this
      rw [← this.2]
      obtain ⟨cl, hbL, hlf2, _⟩ := createFpageChain_spec hL
      obtain ⟨cr, hbR, hrf2, _⟩ := createFpageChain_spec hR
      rw [deref_ok] at hlf hrf
      refine ⟨s1, s2, s3, cl, cr, (_, _), (_, _), hbL, ?_, hbR, ?_,
        removeFpageFromAs_relinked hrem,
        (insertFpageChainToAs_relinked hinsL).trans (insertFpageChainToAs_relinked hinsR)⟩
      · rintro rfl
        rw [hlf2] at hlf
        simp at hlf
      · rintro rfl
        rw [hrf2] at hrf
        simp at hrf

/-- A clone is allocated, written and linked. -/
theorem mapFpage_parts {d : AsRef} {p : Option FpRef} {action : MapAction}
    (h : mapFpage s d p action = .ok s') : ∃ r f s1, p = some r ∧ Allocated s s1 f ∧
      Relinked (cloneInto s1 f r action) s' := by
  obtain ⟨r, f, s1, hp, halloc, hins⟩ := mapFpage_ok h
  exact ⟨r, f, s1, hp, allocFp_spec halloc, insertFpageChainToAs_relinked hins⟩

end F9
