import F9.Lib.Bisect
import F9.Logic.Ipc

/-!
# The thread map

`thread_map` holds the allocated threads in the order of their numbers, which may repeat.
Its search is `bisect`, so that an id with the number of a thread in the map is found.
Insertion and deletion keep the map.
-/

namespace F9

open Result Bisect

variable {s s' : Core} {id id' : Word} {thr : TcbRef} {r : Nat}

/-- The thread number at place `i` of the map. -/
def Core.mapNo (s : Core) (i : Nat) : Nat :=
  match s.threadMap i with
  | none => 0
  | some t => s.number t

/-- The map holds allocated threads, each once, in the order of their numbers. -/
structure MapWf (s : Core) : Prop where
  count : s.threadCount ≤ configMaxThreads
  entry : ∀ i, i < s.threadCount → ∃ t, s.threadMap i = some t ∧ s.live t = true
  sorted : Ascending s.mapNo s.threadCount
  once : ∀ i j t, i < s.threadCount → j < s.threadCount → s.threadMap i = some t →
    s.threadMap j = some t → i = j

/-- A thread in the map has this number. -/
def Named (s : Core) (n : Nat) : Prop := ∃ i, i < s.threadCount ∧ s.mapNo i = n

instance (s : Core) (n : Nat) : Decidable (Named s n) :=
  inferInstanceAs (Decidable (∃ i, i < s.threadCount ∧ s.mapNo i = n))

theorem mapNo_some {i : Nat} {t : TcbRef} (h : s.threadMap i = some t) :
    s.mapNo i = s.number t := by
  unfold Core.mapNo
  rw [h]

/-! ## Search -/

/-- The first `n` entries of the map lead to threads, in the order of their numbers. -/
structure MapUpTo (s : Core) (n : Nat) : Prop where
  count : n ≤ configMaxThreads
  entry : ∀ i, i < n → ∃ t, s.threadMap i = some t
  sorted : Ascending s.mapNo n

namespace MapUpTo

variable {n i : Nat} (h : MapUpTo s n)
include h

theorem tid (hi : i < n) : threadMapTid s i = .ok (s.mapNo i) := by
  obtain ⟨t, ht⟩ := h.entry i hi
  have hc := h.count
  unfold threadMapTid
  rw [if_neg (by omega), mapNo_some ht, ht]
  rfl

theorem loop (tid k first last : Nat) (hlt : first < last) (hlast : last ≤ n)
    (hk : last - first ≤ k) :
    threadMapLoop s tid k first last = .ok (bisect s.mapNo tid k first last) := by
  induction k generalizing first last with
  | zero => omega
  | succ k ih =>
    unfold threadMapLoop bisect
    dsimp only
    rw [if_neg (by omega)]
    split
    · rfl
    · generalize hmid : first + (last - first) / 2 = mid
      rw [h.tid (by omega)]
      show (if tid < s.mapNo mid then _ else _) = _
      split
      · exact ih first mid (by omega) (by omega) (by omega)
      · split
        · exact ih mid last (by omega) hlast (by omega)
        · rfl

/-- The search splits the map at the number of the id. -/
theorem search (id : Word) :
    ∃ r, threadMapSearch s id 0 n = .ok r ∧ Split s.mapNo n (globalidToTid id) r := by
  unfold threadMapSearch
  by_cases hzero : n = 0
  · refine ⟨0, by rw [if_pos hzero]; rfl, Nat.zero_le _, fun i hi => ?_, fun i _ hi => ?_,
      fun i hi => ?_⟩
    · omega
    · omega
    · omega
  · rw [if_neg hzero, h.tid (by omega)]
    show ∃ r, (if globalidToTid id ≤ s.mapNo 0 then Except.ok 0 else _) = _ ∧ _
    by_cases hfirst : globalidToTid id ≤ s.mapNo 0
    · rw [if_pos hfirst]
      refine ⟨0, rfl, Nat.zero_le _, fun i hi => absurd hi (Nat.not_lt_zero i), fun i _ hi => ?_,
        fun i hi heq => ⟨by omega, ?_⟩⟩
      · exact Nat.le_trans hfirst (h.sorted 0 i (Nat.zero_le i) hi)
      · have := h.sorted 0 i (Nat.zero_le i) hi
        omega
    · rw [if_neg hfirst, h.loop _ _ _ _ (by omega) (Nat.le_refl _) (by omega)]
      exact ⟨_, rfl, bisect_split h.sorted _ _ _ (by omega) (by omega) (Nat.le_refl _) (by omega)
        fun i hi hi' => by omega⟩

end MapUpTo

section

variable (h : MapWf s)
include h

theorem MapWf.upTo : MapUpTo s s.threadCount :=
  ⟨h.count, fun i hi => (h.entry i hi).imp fun _ ht => ht.1, h.sorted⟩

theorem MapWf.lookup (hn : Named s (globalidToTid id)) :
    ∃ r t, r < s.threadCount ∧ s.threadMap r = some t ∧ s.live t = true ∧
      s.number t = globalidToTid id ∧ threadMapSearch s id 0 s.threadCount = .ok r ∧
      threadByGlobalid s id = .ok (some t) := by
  obtain ⟨r, hsearch, hsplit⟩ := h.upTo.search id
  obtain ⟨i, hi, hno⟩ := hn
  obtain ⟨hr, hno⟩ := hsplit.found i hi hno
  obtain ⟨t, ht, hlive⟩ := h.entry r hr
  refine ⟨r, t, hr, ht, hlive, by rw [← mapNo_some ht, hno], hsearch, ?_⟩
  unfold threadByGlobalid
  rw [hsearch]
  show (threadMapTid s r >>= _) = _
  rw [h.upTo.tid hr]
  show (if s.mapNo r ≠ globalidToTid id then _ else _) = _
  rw [if_neg (not_not.mpr hno), ht]
  rfl

/-! ## Changes of the map -/

theorem MapWf.congr (hlive : ∀ t, s'.live t = s.live t) (hno : ∀ t, s'.number t = s.number t)
    (hmap : s'.threadMap = s.threadMap) (hcount : s'.threadCount = s.threadCount) :
    MapWf s' ∧ ∀ n, Named s n → Named s' n := by
  have hmapNo : ∀ i, s'.mapNo i = s.mapNo i := by
    intro i
    unfold Core.mapNo
    rw [hmap]
    split
    · rfl
    · exact hno _
  refine ⟨⟨by rw [hcount]; exact h.count, ?_, ?_, ?_⟩, ?_⟩
  · intro i hi
    rw [hcount] at hi
    obtain ⟨t, ht, hl⟩ := h.entry i hi
    exact ⟨t, by rw [hmap]; exact ht, by rw [hlive]; exact hl⟩
  · rw [hcount]
    exact h.sorted.congr fun i _ => hmapNo i
  · rw [hmap, hcount]
    exact h.once
  · rintro n ⟨i, hi, hni⟩
    exact ⟨i, by rw [hcount]; exact hi, by rw [hmapNo]; exact hni⟩

omit h in
theorem mapNo_insertAt {n : Nat} (hr : r ≤ n)
    (hold : ∀ i, i < n → ∃ t, s.threadMap i = some t ∧ s'.number t = s.mapNo i)
    (hmap : ∀ j, j < n + 1 → s'.threadMap j = insertAt s.threadMap r (some thr) j) (j : Nat)
    (hj : j < n + 1) : s'.mapNo j = insertAt s.mapNo r (s'.number thr) j := by
  rcases insertAt_cases s.threadMap (some thr) hr hj with ⟨rfl, he⟩ | ⟨i, hi, he, hplace⟩
  · rw [mapNo_some ((hmap j hj).trans he), insertAt_new]
  · obtain ⟨t, ht, hno⟩ := hold i hi
    rw [mapNo_some ((hmap j hj).trans (he.trans ht)), hno, insertAt_shift _ _ hplace]

/-- A new thread is put where the search finds the place of its number. -/
theorem MapWf.insert (hsplit : Split s.mapNo s.threadCount (s'.number thr) r)
    (hroom : s.threadCount < configMaxThreads) (hnew : s.live thr = false)
    (hlive : ∀ t, s'.live t = (s.live t || decide (t = thr)))
    (hno : ∀ t, t ≠ thr → s'.number t = s.number t)
    (hmap : ∀ j, j < s.threadCount + 1 → s'.threadMap j = insertAt s.threadMap r (some thr) j)
    (hcount : s'.threadCount = s.threadCount + 1) : MapWf s' ∧ ∀ n, Named s n → Named s' n := by
  -- the new thread is not in the old map
  have hne : ∀ i t, i < s.threadCount → s.threadMap i = some t → t ≠ thr := by
    rintro i t hi ht rfl
    obtain ⟨t', ht', hl⟩ := h.entry i hi
    rw [ht] at ht'
    injection ht' with ht'
    rw [← ht', hnew] at hl
    simp at hl
  have hold : ∀ i, i < s.threadCount → ∃ t, s.threadMap i = some t ∧ s'.live t = true ∧
      s'.number t = s.mapNo i := by
    intro i hi
    obtain ⟨t, ht, hl⟩ := h.entry i hi
    refine ⟨t, ht, by rw [hlive, hl]; rfl, ?_⟩
    rw [hno t (hne i t hi ht), mapNo_some ht]
  have hmapNo : ∀ j, j < s.threadCount + 1 → s'.mapNo j = insertAt s.mapNo r (s'.number thr) j :=
    mapNo_insertAt hsplit.le (fun i hi => (hold i hi).imp fun _ ht => ⟨ht.1, ht.2.2⟩) hmap
  refine ⟨⟨by omega, ?_, ?_, ?_⟩, ?_⟩
  · intro j hj
    rw [hcount] at hj
    rcases insertAt_cases s.threadMap (some thr) hsplit.le hj with ⟨_, he⟩ | ⟨i, hi, he, _⟩
    · exact ⟨thr, by rw [hmap j hj, he], by rw [hlive]; simp⟩
    · obtain ⟨t, ht, hl, _⟩ := hold i hi
      exact ⟨t, by rw [hmap j hj, he, ht], hl⟩
  · rw [hcount]
    exact (h.sorted.insertAt hsplit).congr hmapNo
  · intro i j t hi hj hti htj
    rw [hcount] at hi hj
    rw [hmap i hi] at hti
    rw [hmap j hj] at htj
    rcases insertAt_cases s.threadMap (some thr) hsplit.le hi with ⟨hir, he⟩ | ⟨a, ha, he, hp⟩
    · rcases insertAt_cases s.threadMap (some thr) hsplit.le hj with ⟨hjr, he'⟩ | ⟨b, hb, he', _⟩
      · omega
      · rw [he] at hti
        rw [he'] at htj
        exact absurd (Option.some.inj hti).symm (hne b t hb htj)
    · rcases insertAt_cases s.threadMap (some thr) hsplit.le hj with ⟨hjr, he'⟩ | ⟨b, hb, he', hq⟩
      · rw [he] at hti
        rw [he'] at htj
        exact absurd (Option.some.inj htj).symm (hne a t ha hti)
      · rw [he] at hti
        rw [he'] at htj
        have := h.once a b t ha hb hti htj
        omega
  · rintro n ⟨i, hi, hn⟩
    obtain ⟨j, hj, he⟩ := insertAt_old s.mapNo r (s'.number thr) i
    exact ⟨j, by omega, by rw [hmapNo j (by omega), he, hn]⟩

/-- An entry is taken out of the map; the threads of the others stay allocated. -/
theorem MapWf.delete
    (hlive : ∀ i t, i < s.threadCount → i ≠ r → s.threadMap i = some t → s'.live t = true)
    (hno : ∀ t, s'.number t = s.number t)
    (hmap : ∀ j, j < s.threadCount - 1 → s'.threadMap j = removeAt s.threadMap r j)
    (hcount : s'.threadCount = s.threadCount - 1) :
    MapWf s' ∧ ∀ j, j < s.threadCount - 1 → s'.mapNo j = removeAt s.mapNo r j := by
  have hmapNo : ∀ j, j < s.threadCount - 1 → s'.mapNo j = removeAt s.mapNo r j := by
    intro j hj
    obtain ⟨i, hi, hne, he, hp⟩ := removeAt_cases s.threadMap (r := r) hj
    obtain ⟨t, ht, _⟩ := h.entry i hi
    rw [mapNo_some ((hmap j hj).trans (he.trans ht)), hno, ← mapNo_some ht]
    unfold removeAt
    rcases hp with ⟨hlt, rfl⟩ | ⟨hle, rfl⟩
    · rw [if_neg (by omega)]
    · rw [if_pos hle]
  have hc := h.count
  refine ⟨⟨by omega, ?_, ?_, ?_⟩, hmapNo⟩
  · intro j hj
    rw [hcount] at hj
    obtain ⟨i, hi, hne, he, _⟩ := removeAt_cases s.threadMap (r := r) hj
    obtain ⟨t, ht, _⟩ := h.entry i hi
    exact ⟨t, (hmap j hj).trans (he.trans ht), hlive i t hi hne ht⟩
  · rw [hcount]
    exact (h.sorted.removeAt r).congr hmapNo
  · intro i j t hi hj hti htj
    rw [hcount] at hi hj
    obtain ⟨a, ha, _, he, hp⟩ := removeAt_cases s.threadMap (r := r) hi
    obtain ⟨b, hb, _, he', hq⟩ := removeAt_cases s.threadMap (r := r) hj
    rw [hmap i hi, he] at hti
    rw [hmap j hj, he'] at htj
    have := h.once a b t ha hb hti htj
    omega

theorem MapWf.remove (hr : r < s.threadCount) (hthr : s.threadMap r = some thr)
    (hlive : ∀ t, s'.live t = (s.live t && decide (t ≠ thr)))
    (hno : ∀ t, s'.number t = s.number t)
    (hmap : ∀ j, j < s.threadCount - 1 → s'.threadMap j = removeAt s.threadMap r j)
    (hcount : s'.threadCount = s.threadCount - 1) :
    MapWf s' ∧ ∀ n, Named s n → n ≠ s.number thr → Named s' n := by
  have hkept : ∀ i t, i < s.threadCount → i ≠ r → s.threadMap i = some t → s'.live t = true := by
    intro i t hi hne ht
    obtain ⟨t', ht', hl⟩ := h.entry i hi
    rw [ht] at ht'
    obtain rfl := Option.some.inj ht'
    have htne : t ≠ thr := by
      rintro rfl
      exact hne (h.once i r t hi hr ht hthr)
    rw [hlive, hl]
    simp [htne]
  obtain ⟨hwf, hmapNo⟩ := h.delete hkept hno hmap hcount
  refine ⟨hwf, ?_⟩
  rintro n ⟨i, hi, hn⟩ hne
  have hir : i ≠ r := by
    rintro rfl
    exact hne (hn.symm.trans (mapNo_some hthr))
  obtain ⟨j, hj, he⟩ := removeAt_old s.mapNo hr hi hir
  exact ⟨j, by omega, by rw [hmapNo j hj, he, hn]⟩

end

/-! ## Insertion and deletion -/

theorem threadMapSearch_number (s : Core) (h : globalidToTid id = globalidToTid id')
    (first last : Nat) : threadMapSearch s id first last = threadMapSearch s id' first last := by
  unfold threadMapSearch
  rw [h]

theorem threadMapInsert_spec {table : KTable Tcb} (hwf : MapUpTo s s.threadCount)
    (hdata : table.data = s.threadTable.data)
    (h : threadMapInsert { s with threadTable := table } id thr = .ok s') :
    ∃ r, Split s.mapNo s.threadCount (globalidToTid id) r ∧ s.threadCount < configMaxThreads ∧
      (∀ j, j < s.threadCount + 1 → s'.threadMap j = insertAt s.threadMap r (some thr) j) ∧
      s'.threadCount = s.threadCount + 1 ∧ s'.threadTable = table ∧ s'.utcbs = s.utcbs := by
  obtain ⟨r, hsearch, hsplit⟩ := hwf.search id
  have hcongr : threadMapSearch { s with threadTable := table } id 0 s.threadCount = .ok r := by
    have hno : ∀ t, Core.number { s with threadTable := table } t = s.number t := by
      intro t
      show globalidToTid (table.data t).tGlobalid = globalidToTid (s.threadTable.data t).tGlobalid
      rw [hdata]
    have hmap : Core.threadMap { s with threadTable := table } = s.threadMap := rfl
    rw [← hsearch]
    exact threadMapSearch_congr hmap hno id 0 _
  unfold threadMapInsert at h
  split at h
  · rename_i hzero
    have hzero : s.threadCount = 0 := hzero
    have h := (ok_ok.mp h).symm
    have hr : r = 0 := by
      have := hsplit.le
      omega
    refine ⟨r, hsplit, by rw [hzero]; decide, fun j hj => ?_, by rw [h, hzero], by rw [h], by rw [h]⟩
    have hj : j = 0 := by omega
    rw [h, hr, hj]
    rfl
  · obtain ⟨i, hi, h⟩ := bind_ok.mp h
    have hi : i = r := by
      have hi' : threadMapSearch { s with threadTable := table } id 0 s.threadCount = .ok i := hi
      rw [hcongr] at hi'
      exact (ok_ok.mp hi').symm
    subst hi
    split at h
    · simp at h
    · rename_i hroom
      have hroom : ¬ configMaxThreads ≤ s.threadCount := hroom
      have h := (pure_ok.mp h).symm
      refine ⟨i, hsplit, by omega, fun j hj => ?_, by rw [h], by rw [h], by rw [h]⟩
      rw [h]
      unfold insertAt
      dsimp only
      by_cases hji : j = i
      · rw [if_pos hji, if_pos hji]
      · rw [if_neg hji, if_neg hji]
        by_cases hlt : i < j
        · rw [if_pos ⟨hlt, by omega⟩, if_pos hlt]
        · rw [if_neg (fun h => hlt h.1), if_neg hlt]

theorem threadMapDelete_spec (hsearch : threadMapSearch s id 0 s.threadCount = .ok r)
    (h : threadMapDelete s id = .ok s') :
    0 < s.threadCount ∧ s'.threadCount = s.threadCount - 1 ∧
      ∀ j, j < s.threadCount - 1 → s'.threadMap j = removeAt s.threadMap r j := by
  unfold threadMapDelete at h
  split at h
  · rename_i hone
    have hs' := (ok_ok.mp h).symm
    exact ⟨by omega, by rw [hs', hone], fun j hj => by omega⟩
  · split at h
    · simp at h
    · obtain ⟨i, hi, h⟩ := bind_ok.mp h
      rw [hsearch] at hi
      have hir := ok_ok.mp hi
      have hs' := (pure_ok.mp h).symm
      refine ⟨by omega, by rw [hs'], fun j hj => ?_⟩
      rw [hs', ← hir]
      unfold removeAt
      dsimp only
      by_cases hle : r ≤ j
      · rw [if_pos ⟨hle, hj⟩, if_pos hle]
      · rw [if_neg (fun h => hle h.1), if_neg hle]

end F9
