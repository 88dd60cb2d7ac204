import F9.Logic.Steps

/-!
# The counters of shared spaces

Which spaces are allocated and how often each is shared (`Kernel.sharing`) is changed by
`as_create`, `as_destroy` and `thread_space` alone. The routines on fpages leave it as it is,
whatever the lists look like.
-/

namespace F9

open Result

variable {mm : Memmap} {s s' t : Kernel}
  {base size split sp pc stackBase stackSize globalid utcb : Word} {mpid : Nat} {a : AsRef}
  {action : MapAction} {ret : Int} {pf pl res p pf' pl' : Option FpRef} {r cur last : FpRef}
  {d src dst : AsRef} {stop : Word} {priv rl : Bool}

/-! ## Fpages -/

theorem createFpageChain_sharing
    (h : createFpageChain mm s base size mpid none none = .ok (pf, pl, s')) :
    s'.sharing = s.sharing := by
  obtain ⟨c, hb, _, _⟩ := createFpageChain_spec h
  exact hb.rest.sharing

theorem splitFpage_sharing (h : splitFpage mm s (some a) r split rl = .ok (res, s')) :
    s'.sharing = s.sharing := by
  rcases splitFpage_parts h with rfl | ⟨s1, s2, s3, _, _, _, _, hL, _, hR, _, hrem, hins⟩
  · rfl
  · have h3 : (s3.freeFp r).sharing = s3.sharing := rfl
    rw [hins.sharing, h3, hrem.sharing, hR.rest.sharing, hL.rest.sharing]

theorem mapFpage_sharing (h : mapFpage s d p action = .ok s') : s'.sharing = s.sharing := by
  obtain ⟨r, f, s1, _, halloc, hins⟩ := mapFpage_parts h
  rw [hins.sharing, (cloneInto_rest s1 f r action).sharing, halloc.rest.sharing]

theorem unmapFpage_sharing (h : unmapFpage s a r = .ok (ret, s')) :
    s'.sharing = s.sharing := by
  unfold unmapFpage at h
  split at h
  · have heq := pure_pair.mp h
    rw [← heq.2]
  · obtain ⟨p, _, h⟩ := bind_ok.mp h
    obtain ⟨s1, hrem, h⟩ := bind_ok.mp h
    have heq := pure_pair.mp h
    rw [← heq.2]
    show s1.sharing = _
    rw [(removeFpageFromAs_relinked hrem).sharing]
    rfl

/-! ## Assigning -/

theorem write_sharing (a : AsRef) (p : Option FpRef) (k : AsLink) :
    (k.write s a p).sharing = s.sharing := by
  cases k with
  | first => exact sharing_setAs rfl
  | nextOf r => rfl

theorem assignStep_sharing {st st' : AssignState} (h : assignStep mm mpid a stop st cur = .ok st') :
    st'.s.sharing = st.s.sharing := by
  unfold assignStep at h
  dsimp only at h
  split at h
  · obtain ⟨⟨first, last, s1⟩, hchain, h⟩ := bind_ok.mp h
    obtain ⟨l, _, h⟩ := bind_ok.mp h
    obtain ⟨nx, _, h⟩ := bind_ok.mp h
    rw [← pure_ok.mp h]
    rw [write_sharing]
    show s1.sharing = _
    exact createFpageChain_sharing hchain
  · split at h <;> rw [← pure_ok.mp h]

theorem assignLoop_sharing (n : Nat) (st st' : AssignState)
    (h : assignLoop mm mpid a stop n st = .ok st') : st'.s.sharing = st.s.sharing := by
  induction n generalizing st st' with
  | zero => simp [assignLoop] at h
  | succ n ih =>
    unfold assignLoop at h
    split at h
    · split at h
      · rw [← ok_ok.mp h]
      · obtain ⟨st1, h1, h⟩ := bind_ok.mp h
        exact (ih st1 st' h).trans (assignStep_sharing h1)
    · rw [← ok_ok.mp h]

theorem assignFpagesExt_sharing {mpid : Option Nat}
    (h : assignFpagesExt mm s mpid (some a) base size pf pl = .ok (ret, pf', pl', s')) :
    s'.sharing = s.sharing := by
  rcases assignFpagesExt_refuses h with ⟨_, _, _, rfl⟩ | ⟨hs, m, hm⟩
  · rfl
  · unfold assignFpagesExt at h
    rw [if_neg hs] at h
    simp only [hm] at h
    obtain ⟨st, hloop, h⟩ := bind_ok.mp h
    have hst := assignLoop_sharing _ _ _ hloop
    split at h
    · obtain ⟨⟨first, last, s1⟩, hchain, h⟩ := bind_ok.mp h
      have heq := pure_ok.mp h
      simp only [Prod.mk.injEq] at heq
      rw [← heq.2.2.2, write_sharing, createFpageChain_sharing hchain, hst]
    · have heq := pure_ok.mp h
      simp only [Prod.mk.injEq] at heq
      rw [← heq.2.2.2, hst]

/-! ## `map_area` -/

theorem mapChain_sharing (n : Nat) (s s' : Kernel) (fp : Option FpRef)
    (h : mapChain d action last n s fp = .ok s') : s'.sharing = s.sharing := by
  induction n generalizing s s' fp with
  | zero => simp [mapChain] at h
  | succ n ih =>
    unfold mapChain at h
    split at h
    · exact mapFpage_sharing h
    · obtain ⟨s1, h1, h⟩ := bind_ok.mp h
      obtain ⟨r, _, h⟩ := bind_ok.mp h
      exact (ih _ _ _ h).trans (mapFpage_sharing h1)

theorem mapAreaSpan_sharing {span : MapSpan}
    (h : mapAreaSpan mm s src dst base size priv = .ok (span, s')) : s'.sharing = s.sharing := by
  cases priv with
  | true =>
    obtain ⟨r, f, l, hext, _⟩ := mapAreaSpan_true h
    exact assignFpagesExt_sharing hext
  | false => rw [(mapAreaSpan_false h).1]

theorem mapArea_sharing (h : mapArea mm s src dst base size action priv = .ok (ret, s')) :
    s'.sharing = s.sharing := by
  obtain ⟨span, s1, hspan, hway⟩ := mapArea_ok h
  have h1 := mapAreaSpan_sharing hspan
  rcases hway with ⟨_, rfl⟩ | ⟨_, _, _, _, _, rfl⟩ | ⟨first0, last0, first, last, s2, _, hsplit, hend⟩
  · exact h1
  · exact h1
  · obtain ⟨t, last1, hsp1, _, hsp2⟩ := hsplit.steps
    have h2 : s2.sharing = s.sharing := by
      rw [splitFpage_sharing hsp2, splitFpage_sharing hsp1, h1]
    rcases hend with ⟨_, _, rfl⟩ | ⟨f, l, _, _, _, hmap⟩
    · exact h2
    · rw [mapChain_sharing _ _ _ _ hmap, h2]

/-! ## The MPU -/

theorem asSetupMpu_sharing (h : asSetupMpu mm s a sp pc stackBase stackSize = .ok s') :
    s'.sharing = s.sharing :=
  (asSetupMpu_step (A := Set.univ) (T := Set.univ) ⟨fun _ _ => trivial, fun _ _ _ _ => trivial⟩
    (fun _ _ => trivial) ⟨fun _ _ => trivial, fun _ _ _ _ => trivial⟩ h).sharing

/-! ## Spaces -/

theorem asDestroyLoop_sharing (n : Nat) (s s' : Kernel) (fp : Option FpRef)
    (h : asDestroyLoop a n s fp = .ok s') : s'.sharing = s.sharing := by
  induction n generalizing s s' fp with
  | zero => simp [asDestroyLoop] at h
  | succ n ih =>
    cases fp with
    | none => rw [← ok_ok.mp h]
    | some fp =>
      unfold asDestroyLoop at h
      split at h
      · obtain ⟨⟨ret, s1⟩, hunmap, h⟩ := bind_ok.mp h
        rw [ih _ _ _ h]
        exact unmapFpage_sharing hunmap
      · rw [ih _ _ _ h]
        rfl

/-- `as_destroy` counts down, or frees the space. -/
theorem asDestroy_sharing (h : asDestroy s a = .ok s') :
    (0 < (s.as a).shared ∧ (∀ b, s'.liveAs b = s.liveAs b) ∧
      ∀ b, (s'.as b).shared = if b = a then (s.as a).shared - 1 else (s.as b).shared) ∨
    ((s.as a).shared = 0 ∧ (∀ b, s'.liveAs b = (s.liveAs b && decide (b ≠ a))) ∧
      ∀ b, (s'.as b).shared = (s.as b).shared) := by
  rcases asDestroy_ok h with ⟨hpos, rfl⟩ | ⟨hzero, s1, hloop, rfl⟩
  · refine .inl ⟨hpos, fun _ => rfl, fun b => ?_⟩
    rw [Kernel.setAs_as]
    split <;> rfl
  · have h1 := asDestroyLoop_sharing _ _ _ _ hloop
    refine .inr ⟨hzero, fun b => ?_, fun b => shared_of_sharing h1 b⟩
    rw [Kernel.freeAs_liveAs, liveAs_of_sharing h1]

/-- `thread_space` makes a space that is not shared, or counts the shared one up. -/
theorem threadSpace_sharing {caller : Option (AsRef × Bool)} {space : Option AsRef}
    (h : threadSpace mm s caller space globalid utcb = .ok s') :
    (space = none ∧ ∃ as t, s.allocAs = some (as, t) ∧ s.liveAs as = false ∧
      (∀ b, s'.liveAs b = (s.liveAs b || decide (b = as))) ∧
      ∀ b, (s'.as b).shared = if b = as then 0 else (s.as b).shared) ∨
    ∃ as, space = some as ∧ (∀ b, s'.liveAs b = s.liveAs b) ∧
      ∀ b, (s'.as b).shared = if b = as then (s.as as).shared + 1 else (s.as b).shared := by
  obtain ⟨as, s1, ret, hready, hmap⟩ := threadSpace_ok h
  have h1 := mapArea_sharing hmap
  rcases hready with ⟨hnone, s0, t, hcreated, hkip, hextra⟩ | ⟨hsome, rfl⟩
  · have h0 : s'.sharing = s0.sharing := by
      rw [h1, mapFpage_sharing hextra, mapFpage_sharing hkip]
    obtain ⟨t', halloc⟩ := hcreated.slot
    refine .inl ⟨hnone, as, t', halloc, hcreated.fresh, fun b => ?_, fun b => ?_⟩
    · rw [liveAs_of_sharing h0, hcreated.liveAs]
    · rw [shared_of_sharing h0]
      split
      · rename_i hb
        rw [hb, hcreated.as]
      · rename_i hb
        rw [hcreated.frame b hb]
  · refine .inr ⟨as, hsome, fun b => ?_, fun b => ?_⟩
    · rw [liveAs_of_sharing h1]
      rfl
    · rw [shared_of_sharing h1, Kernel.setAs_as]
      split <;> rfl

end F9
