import F9.Logic.Boot

/-!
# Lookup of threads

`thread_by_globalid` looks at the place that the binary search returns, which may be the one behind
the last entry of `thread_map`. `thread_lookup_exact` says for which ids the answer is right.
-/

namespace F9

open Result Bisect

/-! ## The map over every run -/

/-- The removal of a thread found by its id keeps the map in order. An id that is not in the map
leads to the place behind it, and the last thread of the map is lost. -/
theorem removal_keeps_mapWf {s s1 s2 s' : Core} {id : Word} {thr : TcbRef} (hwf : MapWf s)
    (hlook : threadByGlobalid s id = .ok (some thr)) (hsame : SameTable s s1)
    (hdel : threadMapDelete s1 (s1.tcb thr).tGlobalid = .ok s2)
    (hs' : s' = s1.without s2 thr) : MapWf s' := by
  by_cases hnamed : Named s (globalidToTid id)
  · exact (removal_mapWf hwf hnamed hlook hsame hdel hs').2.1
  have hwf1 := hsame.mapWf hwf
  have hno1 : s1.number thr = globalidToTid id :=
    (hsame.number thr).trans (threadByGlobalid_number hlook)
  have hnamed1 : ∀ i, i < s1.threadCount → s1.mapNo i ≠ s1.number thr := by
    intro i hi heq
    rw [hno1] at heq
    exact hnamed ((hsame.named _).mp ⟨i, hi, heq⟩)
  obtain ⟨r, hsearch, hsplit⟩ := hwf1.upTo.search (s1.tcb thr).tGlobalid
  obtain ⟨_, hcount, hmap⟩ := threadMapDelete_spec hsearch hdel
  refine (hwf1.delete (r := r) (fun i t hi _ ht => ?_) (fun t => ?_) (fun j hj => ?_) ?_).1
  · have hne : t ≠ thr := fun heq => hnamed1 i hi (by rw [mapNo_some ht, heq])
    obtain ⟨t', ht', hl⟩ := hwf1.entry i hi
    obtain rfl := Option.some.inj (ht.symm.trans ht')
    rw [hs']
    refine (s1.threadTable.free_live thr t).trans ?_
    rw [decide_eq_true hne, Bool.and_true]
    exact hl
  · rw [hs']
    rfl
  · rw [hs']
    exact hmap j hj
  · rw [hs']
    exact hcount

variable {mm : Memmap} {s : Core}

theorem ThreadCall.Step.mapWf {s' : Core} {a : ThreadCall} (hstep : ThreadCall.Step mm s a s')
    (h : MapWf s) : MapWf s' := by
  cases hstep with
  | init hrun =>
    rename_i globalid utcb thr
    cases thr with
    | some thr => exact ((threadInit_effect hrun).mapWf h).1
    | none =>
      obtain ⟨_, u, f, rfl⟩ := threadInit_none hrun
      exact (setUtcb_same s u f).table.mapWf h
  | space _ _ hrun => exact (threadSetSpace_table hrun).mapWf h
  | switch _ _ =>
    exact SameTable.mapWf (s := s) ⟨fun _ => rfl, fun _ => rfl, rfl, rfl⟩ h
  | control hrun =>
    rename_i c frame regs
    have h0 := (enter_table s c frame regs).mapWf h
    rcases sysThreadControl_table hrun with
      ⟨_, ⟨_, rfl⟩ | ⟨_, thr, s1, hinit, hsame⟩⟩ | ⟨_, thr, s1, s2, hlook, hsame, hdel, hs'⟩
    · exact h0
    · exact hsame.mapWf (hinit.mapWf h0).1
    · exact removal_keeps_mapWf h0 hlook hsame hdel hs'

theorem reachable_mapWf {P : Core → ThreadCall → Prop} (h : (threads mm Core.Blank).Reachable P s) :
    MapWf s := by
  refine TSys.Reachable.invariant (I := MapWf) ?_ ?_ h
  · exact fun s hs => hs.mapWf
  · exact fun s a s' hs _ hstep => ThreadCall.Step.mapWf hstep hs

/-! ## What the search reads -/

section

variable {s : Core} {map : Nat → Option TcbRef} {first last : Nat}

theorem threadMapTid_below {i : Nat} (h : map i = s.threadMap i) :
    threadMapTid { s with threadMap := map } i = threadMapTid s i := by
  unfold threadMapTid
  dsimp only
  rw [h]
  rfl

/-- The loop reads entries below its upper end. -/
theorem threadMapLoop_below (tid : Nat) (n first last : Nat)
    (h : ∀ i, i < last → map i = s.threadMap i) :
    threadMapLoop { s with threadMap := map } tid n first last =
      threadMapLoop s tid n first last := by
  induction n generalizing first last with
  | zero => rfl
  | succ n ih =>
    unfold threadMapLoop
    dsimp only
    split
    · rfl
    · split
      · rfl
      · have hmid : first + (last - first) / 2 < last := by omega
        rw [threadMapTid_below (h _ hmid), ih _ _ h, ih _ _ fun i hi => h i (by omega)]

theorem threadMapSearch_below (id : Word) (hle : first ≤ last)
    (h : ∀ i, i < last → map i = s.threadMap i) :
    threadMapSearch { s with threadMap := map } id first last =
      threadMapSearch s id first last := by
  unfold threadMapSearch
  by_cases heq : last = first
  · rw [if_pos heq, if_pos heq]
  · rw [if_neg heq, if_neg heq, threadMapTid_below (h first (by omega)),
      threadMapLoop_below _ _ _ _ h]

end

/-! ## Lookup -/

/-- The lookup of an id returns an allocated thread with its number, `NULL` only if there is none,
and depends on no entry of the map from `thread_count` on. -/
structure LookupExact (s : Core) (id : Word) : Prop where
  returns : ∃ res, threadByGlobalid s id = .ok res ∧
    (∀ t, res = some t → s.live t = true ∧ s.number t = globalidToTid id) ∧
    (res = none → ∀ t, s.live t = true → s.number t ≠ globalidToTid id)
  reads : ∀ map : Nat → Option TcbRef, (∀ i, i < s.threadCount → map i = s.threadMap i) →
    threadByGlobalid { s with threadMap := map } id = threadByGlobalid s id

/-- Some thread in the map has a number that is not less than that of the id, and if a thread has
the number of the id, one in the map has it. -/
structure Findable (s : Core) (id : Word) : Prop where
  below : ∃ i, i < s.threadCount ∧ globalidToTid id ≤ s.mapNo i
  listed : ∀ t, s.live t = true → s.number t = globalidToTid id → Named s (globalidToTid id)

variable {id : Word}

theorem MapWf.lookup_at (h : MapWf s) {r : Nat} (hr : r < s.threadCount)
    (hsearch : threadMapSearch s id 0 s.threadCount = .ok r) :
    threadByGlobalid s id = .ok (if s.mapNo r ≠ globalidToTid id then none else s.threadMap r) := by
  unfold threadByGlobalid
  rw [hsearch]
  dsimp only [Bind.bind, Except.bind]
  rw [h.upTo.tid hr]
  dsimp only
  split <;> rfl

/-- The lookup behind the map with nothing there. -/
theorem lookup_behind (hsearch : threadMapSearch s id 0 s.threadCount = .ok s.threadCount)
    (hnone : s.threadMap s.threadCount = none) : ∃ e, threadByGlobalid s id = .error e := by
  have htid : ∃ e, threadMapTid s s.threadCount = .error e := by
    unfold threadMapTid
    split
    · exact ⟨_, rfl⟩
    · rw [hnone]
      exact ⟨_, rfl⟩
  obtain ⟨e, he⟩ := htid
  refine ⟨e, ?_⟩
  unfold threadByGlobalid
  rw [hsearch]
  dsimp only [Bind.bind, Except.bind]
  rw [he]

/-- In every state that thread control can reach and for every id: the lookup is exact if and only
if the id is `Findable`. -/
theorem thread_lookup_exact {mm : Memmap} {s : Core}
    (h : (threads mm Core.Blank).Reachable (fun _ _ => True) s) (id : Word) :
    LookupExact s id ↔ Findable s id := by
  have hwf := reachable_mapWf h
  obtain ⟨r, hsearch, hsplit⟩ := hwf.upTo.search id
  constructor
  · rintro ⟨⟨res, hres, hsome, hnone⟩, hreads⟩
    have hr : r < s.threadCount := by
      refine Nat.lt_of_le_of_ne hsplit.le fun hend => ?_
      -- the entry behind the map is read: with `NULL` there the call does not return
      have hmap : ∀ i, i < s.threadCount →
          (fun j => if j < s.threadCount then s.threadMap j else none) i = s.threadMap i :=
        fun i hi => if_pos hi
      have hsearch' := threadMapSearch_below id (Nat.zero_le _) hmap
      rw [hsearch, hend] at hsearch'
      obtain ⟨e, he⟩ := lookup_behind
        (s := { s with threadMap := fun j => if j < s.threadCount then s.threadMap j else none })
        hsearch' (if_neg (Nat.lt_irrefl _))
      rw [hreads _ hmap, hres] at he
      cases he
    refine ⟨⟨r, hr, hsplit.after r (Nat.le_refl r) hr⟩, fun t ht hno => ⟨r, hr, ?_⟩⟩
    rw [hwf.lookup_at hr hsearch] at hres
    by_contra hne
    rw [if_pos hne] at hres
    exact hnone (ok_ok.mp hres).symm t ht hno
  · rintro ⟨⟨i, hi, hle⟩, hlisted⟩
    have hr : r < s.threadCount := by
      refine Nat.lt_of_le_of_ne hsplit.le fun hend => ?_
      have hge := hsplit.before i (by omega)
      have := (hsplit.found i hi (Nat.le_antisymm hge hle)).1
      omega
    obtain ⟨t, ht, hlive⟩ := hwf.entry r hr
    refine ⟨⟨_, hwf.lookup_at hr hsearch, fun t' ht' => ?_, fun hnone t' ht' hno => ?_⟩,
      fun map hmap => ?_⟩
    · split at ht'
      · cases ht'
      · rename_i heq
        obtain rfl := Option.some.inj (ht.symm.trans ht')
        exact ⟨hlive, by rw [← mapNo_some ht]; exact not_not.mp heq⟩
    · obtain ⟨j, hj, hjno⟩ := hlisted t' ht' hno
      rw [if_neg (not_not.mpr (hsplit.found j hj hjno).2), ht] at hnone
      cases hnone
    · have hsearch' := threadMapSearch_below id (Nat.zero_le _) hmap
      unfold threadByGlobalid
      rw [hsearch', hsearch]
      dsimp only [Bind.bind, Except.bind]
      rw [threadMapTid_below (hmap r hr), hmap r hr]

/-- The map of the three system threads: the lookup of the root thread. -/
theorem thread_lookup_exact_root : ∃ s : Core,
    (threads twoPools Core.Blank).Reachable (fun _ _ => True) s ∧ s.threadCount = 3 ∧
    Findable s (tidToGlobalid THREAD_ROOT) ∧ LookupExact s (tidToGlobalid THREAD_ROOT) := by
  obtain ⟨s, hreach, h⟩ := exists_threadRun (t := fun _ _ => true) (emptyCore_blank _ _)
    (fun _ _ _ => trivial) []
    (fun s => decide (s.threadCount = 3 ∧
      s.mapNo 2 = globalidToTid (tidToGlobalid THREAD_ROOT))) (by decide +kernel)
  obtain ⟨hcount, hroot⟩ := of_decide_eq_true h
  have hfind : Findable s (tidToGlobalid THREAD_ROOT) :=
    ⟨⟨2, by omega, by rw [hroot]⟩, fun _ _ _ => ⟨2, by omega, hroot⟩⟩
  exact ⟨s, hreach, hcount, hfind, (thread_lookup_exact hreach _).mpr hfind⟩

/-- Thread 256 is created and removed again. Its pointer is still behind the last entry of the map,
and the lookup returns the TCB that was freed. -/
theorem thread_lookup_removed : ∃ (s : Core) (t : TcbRef),
    (threads twoPools Core.Blank).Reachable (fun _ _ => True) s ∧ s.live t = false ∧
    threadByGlobalid s (tidToGlobalid 256) = .ok (some t) ∧
    ¬ LookupExact s (tidToGlobalid 256) := by
  obtain ⟨s, hreach, h⟩ := exists_threadRun (t := fun _ _ => true) (emptyCore_blank _ _)
    (fun _ _ _ => trivial) [createCall 1 256 2 0x20008000#32, removeCall 1 256]
    (fun s => okWith (fun res : Option TcbRef => res.any fun t => !s.live t)
      (threadByGlobalid s (tidToGlobalid 256))) (by decide +kernel)
  obtain ⟨res, hres, h⟩ := okWith_iff.mp h
  obtain ⟨t, rfl, ht⟩ := (Option.any_eq_true _ _).mp h
  have hdead : s.live t = false := by simpa using ht
  refine ⟨s, t, hreach, hdead, hres, fun hexact => ?_⟩
  obtain ⟨res, hres', hsome, _⟩ := hexact.returns
  rw [hres] at hres'
  have hlive := (hsome t (ok_ok.mp hres').symm).1
  rw [hdead] at hlive
  cases hlive

/-! ## The map as a sorted array -/

/-- The first `n` entries of the map lead to threads with ascending numbers, none twice. -/
structure StrictUpTo (s : Core) (n : Nat) : Prop where
  count : n ≤ configMaxThreads
  entry : ∀ i, i < n → ∃ t, s.threadMap i = some t
  strict : ∀ i j, i < j → j < n → s.mapNo i < s.mapNo j

/-- `r` is the first of `n` places with a number not below `tid`, or `n` if there is none. -/
structure LowerBound (s : Core) (n tid r : Nat) : Prop where
  le : r ≤ n
  before : ∀ i, i < r → s.mapNo i < tid
  here : r < n → tid ≤ s.mapNo r

namespace StrictUpTo

variable {s s' : Core} {n r tid : Nat} {id : Word} {thr : TcbRef} (h : StrictUpTo s n)
include h

theorem upTo : MapUpTo s n := by
  refine ⟨h.count, h.entry, fun i j hij hj => ?_⟩
  rcases Nat.eq_or_lt_of_le hij with rfl | hlt
  · exact Nat.le_refl _
  · exact Nat.le_of_lt (h.strict i j hlt hj)

theorem lowerBound (hs : Split s.mapNo n tid r) : LowerBound s n tid r := by
  refine ⟨hs.le, fun i hi => ?_, hs.after r (Nat.le_refl r)⟩
  have hle := hs.le
  refine Nat.lt_of_le_of_ne (hs.before i hi) fun heq => ?_
  obtain ⟨hr, hno⟩ := hs.found i (by omega) heq
  have := h.strict i r hi hr
  omega

theorem insert (hs : Split s.mapNo n (s'.number thr) r) (hroom : n < configMaxThreads)
    (hnew : ∀ i, i < n → s.mapNo i ≠ s'.number thr)
    (hno : ∀ i t, i < n → s.threadMap i = some t → s'.number t = s.number t)
    (hmap : ∀ j, j < n + 1 → s'.threadMap j = insertAt s.threadMap r (some thr) j) :
    StrictUpTo s' (n + 1) := by
  have hold : ∀ i, i < n → ∃ t, s.threadMap i = some t ∧ s'.number t = s.mapNo i := fun i hi =>
    (h.entry i hi).imp fun t ht => ⟨ht, by rw [hno i t hi ht, mapNo_some ht]⟩
  have hmapNo := mapNo_insertAt hs.le hold hmap
  refine ⟨by omega, fun j hj => ?_, fun i j hij hj => ?_⟩
  · rcases insertAt_cases s.threadMap (some thr) hs.le hj with ⟨_, he⟩ | ⟨i, hi, he, _⟩
    · exact ⟨thr, (hmap j hj).trans he⟩
    · exact (h.entry i hi).imp fun _ ht => (hmap j hj).trans (he.trans ht)
  · rw [hmapNo i (by omega), hmapNo j hj]
    rcases insertAt_cases s.mapNo (s'.number thr) hs.le (show i < n + 1 by omega) with
      ⟨hi, he⟩ | ⟨a, ha, he, hp⟩ <;>
    rcases insertAt_cases s.mapNo (s'.number thr) hs.le hj with ⟨hj', he'⟩ | ⟨b, hb, he', hq⟩ <;>
    rw [he, he']
    · omega
    · exact Nat.lt_of_le_of_ne (hs.after b (by omega) hb) (hnew b hb).symm
    · exact Nat.lt_of_le_of_ne (hs.before a (by omega)) (hnew a ha)
    · exact h.strict a b (by omega) hb

end StrictUpTo

/-- The search returns the lower bound and reads no entry from `n` on. An insertion with a number
that is not in the map keeps the map strictly ascending, once the new thread has its id. A
deletion takes out the entry with the number. -/
theorem thread_map_lower_bound {n : Nat} (hn : 0 < n) (h : StrictUpTo s n) (id : Word) :
    (∃ r, LowerBound s n (globalidToTid id) r ∧
      ∀ map : Nat → Option TcbRef, (∀ i, i < n → map i = s.threadMap i) →
        threadMapSearch { s with threadMap := map } id 0 n = .ok r) ∧
    (s.threadCount = n → n < configMaxThreads → (∀ i, i < n → s.mapNo i ≠ globalidToTid id) →
      ∀ thr, (∀ i, i < n → s.threadMap i ≠ some thr) →
        ∃ s' r, threadMapInsert s id thr = .ok s' ∧ s'.threadCount = n + 1 ∧
          (∀ j, j < n + 1 → s'.threadMap j = insertAt s.threadMap r (some thr) j) ∧
          StrictUpTo (s'.setTcb thr fun tcb => { tcb with tGlobalid := id }) (n + 1)) ∧
    (s.threadCount = n → ∀ k, k < n → s.mapNo k = globalidToTid id →
      ∃ s', threadMapDelete s id = .ok s' ∧ s'.threadCount = n - 1 ∧
        ∀ j, j < n - 1 → s'.threadMap j = removeAt s.threadMap k j) := by
  obtain ⟨r, hsearch, hsplit⟩ := h.upTo.search id
  refine ⟨⟨r, h.lowerBound hsplit, fun map hmap => ?_⟩, ?_, ?_⟩
  · rw [threadMapSearch_below id (Nat.zero_le n) hmap, hsearch]
  · rintro rfl hroom hnew thr hthr
    obtain ⟨s', hrun⟩ : ∃ s', threadMapInsert s id thr = .ok s' := by
      unfold threadMapInsert
      rw [if_neg (by omega), hsearch]
      dsimp only [Bind.bind, Except.bind]
      rw [if_neg (by omega)]
      exact ⟨_, rfl⟩
    obtain ⟨r', hsplit', _, hmap, hcount, htable, _⟩ :=
      threadMapInsert_spec h.upTo (rfl : s.threadTable.data = _) hrun
    have hid : (s'.setTcb thr fun tcb => { tcb with tGlobalid := id }).number thr =
        globalidToTid id := by
      unfold Core.number
      rw [Core.tcb_setTcb, if_pos rfl]
    refine ⟨s', r', hrun, hcount, hmap, h.insert (by rw [hid]; exact hsplit') hroom
      (by rw [hid]; exact hnew) (fun i t hi ht => ?_) hmap⟩
    unfold Core.number
    rw [Core.tcb_setTcb, if_neg (by rintro rfl; exact hthr i hi ht)]
    show globalidToTid (s'.threadTable.data t).tGlobalid = _
    rw [htable]
    rfl
  · rintro rfl k hk hno
    obtain rfl : r = k := by
      obtain ⟨hr, hrno⟩ := hsplit.found k hk hno
      rcases Nat.lt_trichotomy r k with hlt | heq | hlt
      · have := h.strict r k hlt hk
        omega
      · exact heq
      · have := h.strict k r hlt hr
        omega
    obtain ⟨s', hrun⟩ : ∃ s', threadMapDelete s id = .ok s' := by
      unfold threadMapDelete
      split
      · exact ⟨_, rfl⟩
      · rw [if_neg (by omega), hsearch]
        exact ⟨_, rfl⟩
    obtain ⟨_, hcount, hmap⟩ := threadMapDelete_spec hsearch hrun
    exact ⟨s', hrun, hcount, hmap⟩

/-- The map of the three system threads: the number 256 comes after them. -/
theorem thread_map_lower_bound_three : ∃ s : Core, StrictUpTo s 3 ∧
    ∃ r, LowerBound s 3 (globalidToTid (tidToGlobalid 256)) r ∧
      ∀ map : Nat → Option TcbRef, (∀ i, i < 3 → map i = s.threadMap i) →
        threadMapSearch { s with threadMap := map } (tidToGlobalid 256) 0 3 = .ok r := by
  obtain ⟨s, _, h⟩ := exists_threadRun (t := fun _ _ => true) (emptyCore_blank _ _)
    (fun _ _ _ => trivial) []
    (fun s => decide (∀ j : Nat, j < 3 →
      (s.threadMap j).isSome = true ∧ ∀ i < j, s.mapNo i < s.mapNo j)) (by decide +kernel)
  have h := of_decide_eq_true h
  have hs : StrictUpTo s 3 := ⟨by decide, fun i hi => Option.isSome_iff_exists.mp (h i hi).1,
    fun i j hij hj => (h j hj).2 i hij⟩
  exact ⟨s, hs, (thread_map_lower_bound (by decide) hs _).1⟩

end F9
