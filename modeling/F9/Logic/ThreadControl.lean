import F9.Logic.Partners
import F9.Logic.ThreadEffects

/-!
# Thread control

The creation and the removal of a thread, with their effect on the partners of blocked
threads. The links of the thread tree and the address spaces do not matter for these.
-/

namespace F9

open Result Rendezvous

variable {s s' : Core} {id : Word} {thr : TcbRef} {utcb : Option Word} {mm : Memmap}

/-- The lookup of an id gives an allocated thread, unless the id is not that of one thread. -/
def PartnerLive (s : Core) (id : Word) : Prop :=
  id ≠ L4_NILTHREAD → id ≠ L4_ANYTHREAD →
    ∃ t, threadByGlobalid s id = .ok (some t) ∧ s.live t = true

theorem PartnerInv.lookup (h : PartnerInv s) {x : TcbRef} (hl : s.live x = true)
    (hw : ∀ n, partner? id = some n → Wants s x n) : PartnerLive s id := by
  intro hnil hany
  have hnamed := h.named x _ hl (hw _ (partner_of_specific hnil hany))
  obtain ⟨_, t, _, _, hlive, _, _, hlook⟩ := h.map.lookup hnamed
  exact ⟨t, hlook, hlive⟩

/-! ## Creation -/

theorem Initted.partners (h : Initted s s' id utcb thr) (hi : PartnerInv s) : PartnerInv s' := by
  obtain ⟨hwf, hnamed⟩ := h.mapWf hi.map
  refine ⟨hwf, fun x n hl hw => ?_⟩
  by_cases hx : x = thr
  · rw [wants_iff, hx, h.new] at hw
    rcases hw with hw | hw <;> exact absurd hw.1 (by simp)
  · refine hnamed n (hi.named x n ?_ ?_)
    · rw [h.live] at hl
      simpa [hx] using hl
    · -- the UTCB of the new thread keeps what it remembers
      have hrem : s'.remembered x = s.remembered x := by
        refine Core.remembered_congr (by rw [h.others x hx]) fun u _ => ?_
        rw [h.utcbs]
        cases utcb with
        | none => rfl
        | some v =>
          unfold utcbSetGlobalid
          rw [Core.utcbs_setUtcb]
          split
          · rename_i hu
            rw [hu]
          · rfl
      rw [wants_iff, h.others x hx, hrem] at hw
      exact wants_iff.mpr hw

theorem LinksOnly.calms (h : LinksOnly s s') : Calms s s' := by
  refine ⟨h.live, h.number, h.threadMap, h.threadCount, fun x n hw => .inl ?_⟩
  have hfrom : (s'.tcb x).ipcFrom = (s.tcb x).ipcFrom := (congrArg Tcb.ipcFrom (h.tcb x) :)
  have hrem : s'.remembered x = s.remembered x :=
    Core.remembered_congr (h.utcb x) fun u _ => by rw [h.rest]
  rw [wants_iff, h.state, h.frame, hfrom, hrem] at hw
  exact wants_iff.mpr hw

theorem threadCreate_inv (h : threadCreate s id utcb = .ok (some thr, s')) (hi : PartnerInv s) :
    PartnerInv s' := by
  obtain ⟨_, s1, hinit, hlinks⟩ := threadCreate_effect h
  exact Calms.inv hlinks.calms (hinit.partners hi)

theorem setMem_calms (s : Core) (mem : Kernel) : Calms s { s with mem := mem } :=
  calms_of_same rfl rfl rfl rfl

theorem threadSetSpace_calms {spaceid utcb : Word}
    (h : threadSetSpace mm s thr spaceid utcb = .ok s') : Calms s s' := by
  obtain ⟨as, mem, rfl⟩ := threadSetSpace_effect h
  have h1 : Calms s (s.setTcb thr fun tcb => { tcb with as := some as }) :=
    setTcb_calms rfl (.inl ⟨rfl, rfl, rfl, rfl⟩)
  exact h1.trans (setMem_calms _ mem)

/-! ## Removal -/

/-- The removal of a thread in the map that is nobody's partner. -/
theorem removeThread_inv {s1 : Core} (hi : PartnerInv s)
    (hlook : threadByGlobalid s id = .ok (some thr)) (hfree : threadFreeSpace s thr = .ok s1)
    (hdestroy : threadDestroy s1 thr = .ok s') (hnamed : Named s (globalidToTid id))
    (hnobody : ∀ x, s.live x = true → ¬ Wants s x (globalidToTid id)) : PartnerInv s' := by
  obtain ⟨as, mem, _, _, rfl⟩ := threadFreeSpace_effect hfree
  obtain ⟨s2, s3, hlink, hdel, hs'⟩ := threadDestroy_effect hdestroy
  have hc : Calms s s2 := (setMem_calms s mem).trans hlink.calms
  have htable : SameTable s s2 := ⟨hc.live, hc.number, hc.threadMap, hc.threadCount⟩
  obtain ⟨_, hwf, hnamed'⟩ := removal_mapWf hi.map hnamed hlook htable hdel hs'
  refine ⟨hwf, fun x n hl hw => ?_⟩
  have hl' : s.live x = true := by
    rw [hs'] at hl
    have hfree : (s2.threadTable.free thr).live x = true := hl
    rw [KTable.free_live, Bool.and_eq_true] at hfree
    rw [← hc.live]
    exact hfree.1
  have hw' : Wants s x n := by
    rw [hs'] at hw
    exact (hc.wants x n hw).resolve_right fun hf => hf
  refine hnamed' n (hi.named x n hl' hw') ?_
  rintro rfl
  exact hnobody x hl' hw'

/-! ## Calls -/

theorem sysThreadControl_inv {mm : Memmap} {c : TcbRef} (h : sysThreadControl mm s c = .ok s')
    (hi : PartnerInv s) (hremove : (s.tcb c).frame.r1 = L4_NILTHREAD →
      Named s (globalidToTid (s.tcb c).frame.r0) ∧
      ∀ x, s.live x = true → ¬ Wants s x (globalidToTid (s.tcb c).frame.r0)) : PartnerInv s' := by
  rcases sysThreadControl_cases h with
    ⟨_, ⟨_, rfl⟩ | ⟨_, thr, s1, s2, u, hcreate, hspace, _, rfl⟩⟩ | ⟨hnil, thr, s1, hlook, hfree, h⟩
  · exact hi
  · have h3 : Calms s2 (s2.setUtcb u fun utcb =>
        { utcb with tPager := (s.tcb c).frame.r3 }) := setUtcb_calms rfl
    refine Calms.inv (((threadSetSpace_calms hspace).trans h3).trans ?_) (threadCreate_inv hcreate hi)
    exact setTcb_calms rfl (.inl ⟨rfl, rfl, rfl, rfl⟩)
  · obtain ⟨hnamed, hnobody⟩ := hremove hnil
    exact removeThread_inv hi hlook hfree h hnamed hnobody

/-- The UTCBs stay apart if that of a new thread is apart from the others. -/
theorem sysThreadControl_ownUtcbs {c : TcbRef} (h : sysThreadControl mm s c = .ok s')
    (hown : OwnUtcbs s) (hnew : (s.tcb c).frame.r1 ≠ L4_NILTHREAD → ∀ x u, s.live x = true →
      (s.tcb x).utcb = some u → UtcbsApart ((s.tcb c).ctx.regs 0) u) : OwnUtcbs s' := by
  obtain ⟨_, _, _, ⟨hne, rfl | ⟨thr, _, hlive, _, hutcb, hact⟩⟩ | ⟨_, thr, _, hlive, hact⟩⟩ :=
    sysThreadControl_activity h
  · exact hown
  · have hold : ∀ x u, x ≠ thr → s'.live x = true → (s'.tcb x).utcb = some u →
        s.live x = true ∧ (s.tcb x).utcb = some u := by
      intro x u hx hl hu
      rw [hlive] at hl
      exact ⟨by simpa [hx] using hl, (congrArg (·.2.2) (hact x hx)).symm.trans hu⟩
    intro t t' u u' ht ht' hu hu' htt'
    by_cases hthr : t = thr
    · rw [hthr, hutcb] at hu
      obtain ⟨hl, hv⟩ := hold t' u' (hthr ▸ htt'.symm) ht' hu'
      rw [← Option.some.inj hu]
      exact hnew hne t' u' hl hv
    · obtain ⟨hl, hv⟩ := hold t u hthr ht hu
      by_cases hthr' : t' = thr
      · rw [hthr', hutcb] at hu'
        rw [← Option.some.inj hu']
        exact (hnew hne t u hl hv).symm
      · obtain ⟨hl', hv'⟩ := hold t' u' hthr' ht' hu'
        exact hown t t' u u' hl hl' hv hv' htt'
  · refine hown.congr (fun t ht => ?_) fun t => congrArg (·.2.2) (hact t)
    rw [hlive, Bool.and_eq_true] at ht
    exact ht.1

/-- A trap: the thread is blocked in the call, and waits for nobody yet. -/
theorem svcHandler_calms (m : Machine) (thr : TcbRef) (user : UserState) :
    Calms m.core (svcHandler m thr user).core := by
  have hcaller : ∀ s : Core, Calms s { s with caller := some thr } :=
    fun _ => calms_of_same rfl rfl rfl rfl
  unfold svcHandler
  dsimp only
  generalize hs1 : m.core.setTcb thr _ = s1
  have h1 : Calms m.core s1 := by
    rw [← hs1]
    exact setTcb_calms rfl (.inr ⟨by simp, by simp⟩)
  split
  · exact h1.trans (hcaller s1)
  · rename_i u _
    have h2 : Calms s1 (s1.setUtcb u fun utcb => { utcb with mr := user.mr }) := setUtcb_calms rfl
    exact (h1.trans h2).trans (hcaller _)

end F9
