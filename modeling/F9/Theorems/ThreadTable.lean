import F9.Logic.Boot

/-!
# The thread table

`thread_map` is an index of `thread_table`. Nothing checks that the number of a new thread is
free, and the removal of an id that is not in the map works on whatever the search returns.
`thread_table_exact` says that these two calls, and no others, break the index.
-/

namespace F9

open Result Bisect

variable {s s' : Core} {id : Word} {thr : TcbRef}

/-- The map holds the allocated threads and no others, each once and in strictly increasing order of
their numbers. -/
structure TableExact (s : Core) : Prop where
  count : s.threadCount ≤ configMaxThreads
  entry : ∀ i, i < s.threadCount → ∃ t, s.threadMap i = some t ∧ s.live t = true
  increasing : ∀ i j, i < j → j < s.threadCount → s.mapNo i < s.mapNo j
  all : ∀ t, s.live t = true → ∃! i, i < s.threadCount ∧ s.threadMap i = some t

/-- The id of a new thread has a number that no thread has, and that of a removed one a number in
the map. -/
def KeepsTable (mm : Memmap) (s : Core) : ThreadCall → Prop
  | .init globalid _ => s.threadTable.alloc = none ∨ ¬ Named s (globalidToTid globalid)
  | .control _ frame regs =>
    (frame.r1 ≠ L4_NILTHREAD → utcbAllowed mm (regs 0) = true →
      ¬ Named s (globalidToTid frame.r0)) ∧
    (frame.r1 = L4_NILTHREAD → Named s (globalidToTid frame.r0))
  | _ => True

/-! ## The index in parts -/

/-- The same with the numbers apart: a well-formed map, all threads in it, and no number twice. -/
structure Indexed (s : Core) : Prop where
  wf : MapWf s
  all : ∀ t, s.live t = true → ∃ i, i < s.threadCount ∧ s.threadMap i = some t
  distinct : ∀ t t', s.live t = true → s.live t' = true → s.number t = s.number t' → t = t'

theorem Indexed.exact (h : Indexed s) : TableExact s := by
  refine ⟨h.wf.count, h.wf.entry, fun i j hij hj => ?_, fun t ht => ?_⟩
  · refine Nat.lt_of_le_of_ne (h.wf.sorted i j (by omega) hj) fun heq => ?_
    obtain ⟨t, ht, hl⟩ := h.wf.entry i (by omega)
    obtain ⟨t', ht', hl'⟩ := h.wf.entry j hj
    rw [mapNo_some ht, mapNo_some ht'] at heq
    have htt := h.distinct t t' hl hl' heq
    rw [← htt] at ht'
    have := h.wf.once i j t (by omega) hj ht ht'
    omega
  · obtain ⟨i, hi, hit⟩ := h.all t ht
    exact ⟨i, ⟨hi, hit⟩, fun j hj => h.wf.once j i t hj.1 hi hj.2 hit⟩

theorem TableExact.indexed (h : TableExact s) : Indexed s := by
  -- two places with the same number are the same place
  have hinj : ∀ i j, i < s.threadCount → j < s.threadCount → s.mapNo i = s.mapNo j → i = j := by
    intro i j hi hj heq
    rcases Nat.lt_trichotomy i j with hlt | heq' | hlt
    · have := h.increasing i j hlt hj
      omega
    · exact heq'
    · have := h.increasing j i hlt hi
      omega
  refine ⟨⟨h.count, h.entry, fun i j hij hj => ?_, fun i j t hi hj hti htj => ?_⟩, fun t ht => ?_,
    fun t t' ht ht' heq => ?_⟩
  · rcases Nat.lt_or_eq_of_le hij with hlt | heq
    · exact Nat.le_of_lt (h.increasing i j hlt hj)
    · rw [heq]
  · exact hinj i j hi hj (by rw [mapNo_some hti, mapNo_some htj])
  · obtain ⟨i, hi, _⟩ := h.all t ht
    exact ⟨i, hi⟩
  · obtain ⟨i, ⟨hi, hit⟩, _⟩ := h.all t ht
    obtain ⟨j, ⟨hj, hjt⟩, _⟩ := h.all t' ht'
    have hij := hinj i j hi hj (by rw [mapNo_some hit, mapNo_some hjt, heq])
    rw [hij, hjt] at hit
    exact (Option.some.inj hit).symm

theorem Indexed.congr (h : Indexed s) (hs : SameTable s s') : Indexed s' := by
  refine ⟨hs.mapWf h.wf, fun t ht => ?_,
    fun t t' ht ht' heq => ?_⟩
  · rw [hs.live] at ht
    rw [hs.threadMap, hs.threadCount]
    exact h.all t ht
  · rw [hs.live] at ht ht'
    rw [hs.number, hs.number] at heq
    exact h.distinct t t' ht ht' heq

/-! ## Creation -/

/-- A new thread is in the map; the numbers stay distinct if and only if its own was free. -/
theorem Initted.indexed {utcb : Option Word} (hinit : Initted s s' id utcb thr) (h : Indexed s) :
    Indexed s' ↔ ¬ Named s (globalidToTid id) := by
  obtain ⟨table, s1, hdata, hins, hmap, hcount⟩ := hinit.map
  obtain ⟨r, hsplit, _, hmap1, hcount1, _, _⟩ := threadMapInsert_spec h.wf.upTo hdata hins
  have hthr : s'.number thr = globalidToTid id := by
    unfold Core.number
    rw [hinit.new]
  have hno : ∀ t, t ≠ thr → s'.number t = s.number t := by
    intro t ht
    unfold Core.number
    rw [hinit.others t ht]
  have hne : ∀ t, s.live t = true → t ≠ thr := by
    rintro t ht rfl
    exact ne_true_of_eq_false hinit.fresh ht
  have hlthr : s'.live thr = true := by
    rw [hinit.live]
    simp
  constructor
  · rintro h' ⟨i, hi, heq⟩
    obtain ⟨t, ht, hl⟩ := h.wf.entry i hi
    rw [mapNo_some ht] at heq
    refine hne t hl (h'.distinct t thr ?_ hlthr ?_)
    · rw [hinit.live, hl]
      rfl
    · rw [hno t (hne t hl), heq, hthr]
  · intro hfree
    obtain ⟨hwf, _⟩ := hinit.mapWf h.wf
    have hnew : ∀ t, s.live t = true → s.number t ≠ globalidToTid id := by
      intro t ht heq
      obtain ⟨i, hi, hit⟩ := h.all t ht
      exact hfree ⟨i, hi, by rw [mapNo_some hit, heq]⟩
    refine ⟨hwf, fun t ht => ?_, fun t t' ht ht' heq => ?_⟩
    · rw [hinit.live, Bool.or_eq_true, decide_eq_true_eq] at ht
      rcases ht with ht | rfl
      · obtain ⟨i, hi, hit⟩ := h.all t ht
        obtain ⟨j, hj, he⟩ := insertAt_old s.threadMap r (some thr) i
        exact ⟨j, by omega, by rw [hmap, hmap1 j (by omega), he, hit]⟩
      · have hle := hsplit.le
        refine ⟨r, by omega, ?_⟩
        rw [hmap, hmap1 r (by omega)]
        exact if_pos rfl
    · rw [hinit.live, Bool.or_eq_true, decide_eq_true_eq] at ht ht'
      rcases ht with ht | rfl
      · rw [hno t (hne t ht)] at heq
        rcases ht' with ht' | rfl
        · rw [hno t' (hne t' ht')] at heq
          exact h.distinct t t' ht ht' heq
        · rw [hthr] at heq
          exact absurd heq (hnew t ht)
      · rcases ht' with ht' | rfl
        · rw [hno t' (hne t' ht'), hthr] at heq
          exact absurd heq.symm (hnew t' ht')
        · rfl

/-! ## Removal -/

/-- A thread found by its id is taken out of the map if it was in it. Otherwise it was not allocated,
and another thread is lost from the map. -/
theorem remove_indexed {s1 s2 : Core} (h : Indexed s)
    (hlook : threadByGlobalid s id = .ok (some thr)) (hsame : SameTable s s1)
    (hdel : threadMapDelete s1 (s1.tcb thr).tGlobalid = .ok s2) (hs' : s' = s1.without s2 thr) :
    Indexed s' ↔ Named s (globalidToTid id) := by
  have h1 := h.congr hsame
  have hno1 : s1.number thr = globalidToTid id :=
    (hsame.number thr).trans (threadByGlobalid_number hlook)
  obtain ⟨r, hsearch, hsplit⟩ := h1.wf.upTo.search (s1.tcb thr).tGlobalid
  obtain ⟨hpos, hcount, hmap⟩ := threadMapDelete_spec hsearch hdel
  have hlive : ∀ t, s'.live t = (s1.live t && decide (t ≠ thr)) := by
    intro t
    rw [hs']
    exact s1.threadTable.free_live thr t
  have hno : ∀ t, s'.number t = s1.number t := by
    intro t
    rw [hs']
    rfl
  have hcount' : s'.threadCount = s1.threadCount - 1 := by
    rw [hs']
    exact hcount
  have hmap' : ∀ j, j < s1.threadCount - 1 → s'.threadMap j = removeAt s1.threadMap r j := by
    intro j hj
    rw [hs']
    exact hmap j hj
  have hnamed : Named s (globalidToTid id) ↔ s1.live thr = true := by
    constructor
    · intro hn
      obtain ⟨_, t, _, _, hl, _, _, hfound⟩ := h.wf.lookup hn
      rw [hlook] at hfound
      rw [hsame.live, Option.some.inj (ok_ok.mp hfound)]
      exact hl
    · intro hl
      rw [hsame.live] at hl
      obtain ⟨i, hi, hit⟩ := h.all thr hl
      exact ⟨i, hi, by rw [mapNo_some hit, ← hsame.number, hno1]⟩
  rw [hnamed]
  constructor
  · -- the last entry that is left has lost its place
    intro h'
    by_contra hdead
    have hq : ∃ q, q < s1.threadCount ∧ ∀ j, j < s1.threadCount - 1 →
        ∃ i, i < s1.threadCount ∧ i ≠ q ∧ removeAt s1.threadMap r j = s1.threadMap i := by
      by_cases hr : r < s1.threadCount
      · refine ⟨r, hr, fun j hj => ?_⟩
        obtain ⟨i, hi, hne, he, _⟩ := removeAt_cases s1.threadMap (r := r) hj
        exact ⟨i, hi, hne, he⟩
      · refine ⟨s1.threadCount - 1, by omega, fun j hj => ⟨j, by omega, by omega, ?_⟩⟩
        unfold removeAt
        rw [if_neg (by omega)]
    obtain ⟨q, hq, hrest⟩ := hq
    obtain ⟨t, ht, hl⟩ := h1.wf.entry q hq
    have hl' : s'.live t = true := by
      rw [hlive, hl]
      have hne : t ≠ thr := by
        rintro rfl
        exact hdead hl
      simp [hne]
    obtain ⟨j, hj, hjt⟩ := h'.all t hl'
    rw [hcount'] at hj
    obtain ⟨i, hi, hne, he⟩ := hrest j hj
    rw [hmap' j hj, he] at hjt
    exact hne (h1.wf.once i q t hi hq hjt ht)
  · intro hl
    obtain ⟨i, hi, hit⟩ := h1.all thr hl
    obtain ⟨hr, hrno⟩ := hsplit.found i hi (mapNo_some hit)
    obtain ⟨t, ht, hlt⟩ := h1.wf.entry r hr
    have hthr : t = thr := h1.distinct t thr hlt hl (by rw [← mapNo_some ht]; exact hrno)
    rw [hthr] at ht
    obtain ⟨hwf, _⟩ := h1.wf.remove hr ht hlive hno hmap' hcount'
    refine ⟨hwf, fun x hx => ?_, fun x x' hx hx' heq => ?_⟩
    · rw [hlive, Bool.and_eq_true, decide_eq_true_eq] at hx
      obtain ⟨a, ha, hax⟩ := h1.all x hx.1
      have har : a ≠ r := by
        rintro rfl
        rw [hax] at ht
        exact hx.2 (Option.some.inj ht)
      obtain ⟨j, hj, he⟩ := removeAt_old s1.threadMap hr ha har
      exact ⟨j, by omega, by rw [hmap' j hj, he, hax]⟩
    · rw [hlive, Bool.and_eq_true] at hx hx'
      rw [hno, hno] at heq
      exact h1.distinct x x' hx.1 hx'.1 heq

/-! ## Steps -/

theorem ThreadCall.Step.indexed {mm : Memmap} {a : ThreadCall} (hstep : ThreadCall.Step mm s a s')
    (h : Indexed s) : Indexed s' ↔ KeepsTable mm s a := by
  cases hstep with
  | init hrun =>
    rename_i globalid utcb thr
    cases thr with
    | some thr =>
      have halloc : s.threadTable.alloc ≠ none := by
        intro hnone
        unfold threadInit at hrun
        rw [hnone] at hrun
        obtain ⟨_, _, hrun⟩ := bind_ok.mp hrun
        exact absurd (pure_ok.mp hrun) (by simp)
      rw [(threadInit_effect hrun).indexed h]
      exact ⟨.inr, fun hk => hk.resolve_left halloc⟩
    | none =>
      obtain ⟨hnone, u, f, rfl⟩ := threadInit_none hrun
      exact ⟨fun _ => .inl hnone, fun _ => h.congr (setUtcb_same s u f).table⟩
  | space _ _ hrun =>
    exact ⟨fun _ => trivial, fun _ => h.congr (threadSetSpace_table hrun)⟩
  | switch _ _ =>
    exact ⟨fun _ => trivial, fun _ => h.congr ⟨fun _ => rfl, fun _ => rfl, rfl, rfl⟩⟩
  | control hrun =>
    rename_i c frame regs
    have henter := enter_table s c frame regs
    have h0 := h.congr henter
    have hframe : ((s.enter c frame regs).tcb c).frame = frame ∧
        ((s.enter c frame regs).tcb c).ctx.regs = regs := by
      rw [enter_tcb, if_pos rfl]
      exact ⟨rfl, rfl⟩
    have hcases := sysThreadControl_table hrun
    rw [hframe.1, hframe.2] at hcases
    rcases hcases with ⟨hne, ⟨hno, rfl⟩ | ⟨hok, thr, s1, hinit, hsame⟩⟩ |
      ⟨hnil, thr, s1, s2, hlook, hsame, hdel, hs'⟩
    · refine ⟨fun _ => ⟨fun _ hok => ?_, fun hnil => absurd hnil hne⟩, fun _ => h0⟩
      rw [hno] at hok
      simp at hok
    · have hiff : Indexed s' ↔ ¬ Named s (globalidToTid frame.r0) := by
        rw [← henter.named, ← hinit.indexed h0]
        exact ⟨fun h' => h'.congr hsame.symm, fun h' => h'.congr hsame⟩
      rw [hiff]
      exact ⟨fun hn => ⟨fun _ _ => hn, fun hnil => absurd hnil hne⟩, fun hk => hk.1 hne hok⟩
    · rw [remove_indexed h0 hlook hsame hdel hs', henter.named]
      exact ⟨fun hn => ⟨fun hne => absurd hnil hne, fun _ => hn⟩, fun hk => hk.2 hnil⟩

/-! ## Runs -/

theorem Core.Blank.indexed (h : s.Blank) : Indexed s := by
  have hdead : ∀ t, ¬ s.live t = true := by
    intro t
    simp [Core.live, KTable.live, h.bitmap]
  have hnone : ∀ i, ¬ i < s.threadCount := by
    intro i
    rw [h.threadCount]
    omega
  exact ⟨⟨by rw [h.threadCount]; decide, fun i hi => absurd hi (hnone i),
    fun i j _ hj => absurd hj (hnone j), fun i j t hi _ _ _ => absurd hi (hnone i)⟩,
    fun t ht => absurd ht (hdead t), fun t t' ht _ _ => absurd ht (hdead t)⟩

/-- In every state of a run in which new threads get free numbers and removed ones are in the map,
the map holds exactly the allocated threads in increasing order; and a next call keeps this if and
only if it is such a call. -/
theorem thread_table_exact {mm : Memmap} {s s' : Core} {a : ThreadCall}
    (h : (threads mm Core.Blank).Reachable (KeepsTable mm) s)
    (hstep : (threads mm Core.Blank).step s a s') :
    TableExact s ∧ (TableExact s' ↔ KeepsTable mm s a) := by
  have hi : Indexed s := by
    refine TSys.Reachable.invariant (I := Indexed) ?_ ?_ h
    · exact fun s hs => hs.indexed
    · exact fun s a s' hs hk hstep => (hstep.indexed hs).mpr hk
  have hiff : Indexed s' ↔ KeepsTable mm s a := hstep.indexed hi
  exact ⟨hi.exact, fun he => hiff.mp he.indexed, fun hk => (hiff.mpr hk).exact⟩

/-! ## Threads of a small board -/

instance (mm : Memmap) (s : Core) (a : ThreadCall) : Decidable (KeepsTable mm s a) :=
  match a with
  | .init _ _ => inferInstanceAs (Decidable (_ ∨ _))
  | .space _ _ _ | .switch _ _ _ _ _ => .isTrue trivial
  | .control _ _ _ => inferInstanceAs (Decidable (_ ∧ _))

/-- Root creates thread 256 in its own space and removes it again. -/
theorem thread_table_exact_removal : ∃ s s' : Core,
    (threads twoPools Core.Blank).step s (removeCall 1 256) s' ∧ s.threadCount = 4 ∧
    TableExact s ∧ (TableExact s' ↔ KeepsTable twoPools s (removeCall 1 256)) := by
  obtain ⟨s, hs, h⟩ := exists_threadRun (emptyCore_blank _ _)
    (fun s a (hok : decide (KeepsTable twoPools s a) = true) => of_decide_eq_true hok)
    [createCall 1 256 2 0x20008000#32]
    (fun s => decide (s.threadCount = 4) && ((removeCall 1 256).exec twoPools s).isSome)
    (by decide +kernel)
  rw [Bool.and_eq_true, decide_eq_true_eq, Option.isSome_iff_exists] at h
  obtain ⟨hcount, s', hlast⟩ := h
  have hstep : (threads twoPools Core.Blank).step s (removeCall 1 256) s' :=
    ThreadCall.exec_step s _ s' hlast
  exact ⟨s, s', hstep, hcount, thread_table_exact hs hstep⟩

/-- Root creates thread 256 twice. Both are in the map, under one number. -/
theorem thread_table_twice : ∃ s : Core,
    (threads twoPools Core.Blank).Reachable (fun _ _ => True) s ∧
    s.threadCount = 5 ∧ s.mapNo 3 = 256 ∧ s.mapNo 4 = 256 ∧ ¬ TableExact s := by
  obtain ⟨s, hs, h⟩ := exists_threadRun (t := fun _ _ => true) (emptyCore_blank _ _)
    (fun _ _ _ => trivial)
    [createCall 1 256 256 0x20008000#32, createCall 1 256 256 0x20008100#32]
    (fun s => decide (s.threadCount = 5 ∧ s.mapNo 3 = 256 ∧ s.mapNo 4 = 256)) (by decide +kernel)
  obtain ⟨hcount, h3, h4⟩ := of_decide_eq_true h
  refine ⟨s, hs, hcount, h3, h4, fun hexact => ?_⟩
  have hlt := hexact.increasing 3 4 (by decide) (by omega)
  omega

end F9
