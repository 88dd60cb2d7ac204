import Mathlib.Data.List.TakeWhile
import F9.Logic.Events

/-!
# The invariant of the kernel timer

As long as events are queued, the countdown runs or the softirq is requested
(`Alive`). A countdown armed with 0 ticks would never fire, so the invariant has to say
why the values that reach `ktimer_enable` on a stopped timer are not 0: with the timer
off the elapsed time is 0, and the first event the handler leaves has a delta. The
delicate state is a countdown that runs while the softirq is requested, after an early
event: the run of the handler must then leave an event behind, or the next one would
find the timer running for an empty queue.
-/

namespace F9

open Result

variable {e : KteRef} {es : List KteRef}

namespace Ktimer

variable {α σ : Type} {k k' : Ktimer α} {ticks : Word} {kte : KteRef}

/-- The invariant. -/
structure Alive (k : Ktimer α) : Prop where
  nodup : k.eventQueue.Nodup
  table : ∀ e ∈ k.eventQueue, e < k.eventTable.num → k.eventTable.live e = true
  idle : k.enabled = false → k.time = 0
  counting : k.enabled = true → k.delta ≠ 0#32
  elapsed : k.enabled = true → k.delta.toNat + k.time < 2 ^ 32
  queued : k.enabled = true ∨ k.kteSoftirq = true → k.eventQueue ≠ []
  served : k.eventQueue ≠ [] → k.enabled = true ∨ k.kteSoftirq = true
  left : k.enabled = true → k.kteSoftirq = true →
    ∃ e ∈ k.eventQueue.tail, k.deltaOf e ≠ 0#32

theorem initial_alive (event : KtimerEvent α) : Alive (initial event) where
  nodup := List.nodup_nil
  table := fun _ he => absurd he (by simp [initial])
  idle := fun _ => rfl
  counting := fun h => absurd h (by simp [initial])
  elapsed := fun h => absurd h (by simp [initial])
  queued := fun h => absurd h (by simp [initial])
  served := fun h => absurd rfl h
  left := fun h => absurd h (by simp [initial])

/-! ## Ticks -/

theorem tick_alive (h : Alive k) : Alive k.tick := by
  unfold tick
  dsimp only
  by_cases hen : k.enabled = true
  · have hpos : decide (0#32 < k.delta) = true := by
      rw [decide_eq_true_eq, BitVec.lt_def]
      have := h.counting hen
      exact Nat.pos_of_ne_zero fun h0 => this (BitVec.eq_of_toNat_eq h0)
    rw [if_pos (by rw [hen, hpos]; rfl)]
    split
    · exact ⟨h.nodup, h.table, fun _ => rfl, fun hf => absurd hf (by simp),
        fun hf => absurd hf (by simp), fun _ => h.queued (.inl hen), fun _ => .inr rfl,
        fun hf => absurd hf (by simp)⟩
    · rename_i hne
      refine ⟨h.nodup, h.table, fun hf => absurd (hen.symm.trans hf) (by simp), fun _ => hne,
        fun _ => ?_, h.queued, h.served, h.left⟩
      -- the tick goes from the countdown to the elapsed time
      have hlt := h.elapsed hen
      have hle : 1#32 ≤ k.delta := by
        rw [decide_eq_true_eq, BitVec.lt_def] at hpos
        exact hpos
      show (k.delta - 1#32).toNat + (k.time + 1) < 2 ^ 32
      rw [BitVec.toNat_sub_of_le hle]
      rw [BitVec.le_def] at hle
      simp only [BitVec.toNat_ofNat, Nat.reducePow, Nat.reduceMod] at hle ⊢
      omega
  · rw [if_neg (by simp [hen])]
    exact ⟨h.nodup, h.table, h.idle, h.counting, h.elapsed, h.queued, h.served, h.left⟩

/-! ## Scheduling -/

/-- The timer that is started by an early event leaves the old head for later. -/
theorem eventSchedule_left (ht : ticks ≠ 0#32) (hnd : k.eventQueue.Nodup)
    (hk : kte ∉ k.eventQueue) (hne : k.eventQueue ≠ [])
    (h : k.enabled = true → ∃ e ∈ k.eventQueue.tail, k.deltaOf e ≠ 0#32)
    (hon : (k.eventSchedule ticks kte).2.enabled = true) :
    ∃ e ∈ (k.eventSchedule ticks kte).2.eventQueue.tail,
      (k.eventSchedule ticks kte).2.deltaOf e ≠ 0#32 := by
  have hs := eventSchedule_spec ht hnd hk
  obtain ⟨head, rest, hq⟩ := List.exists_cons_of_ne_nil hne
  cases hb : (place k.deltaOf (k.relative ticks) k.eventQueue).1 with
  | nil =>
    -- in front of the old head, which is due later
    obtain ⟨hlt, hplace⟩ := place_head hb (by rw [hq]; rfl)
    rw [hb, hplace] at hs
    refine ⟨head, ?_, ?_⟩
    · rw [hs.queue', hq]
      simp
    · rw [hs.behind head (by rw [hq]; simp)]
      have hd : (k.newDelta ticks).toNat ≤ (k.relative ticks).toNat := by
        unfold newDelta
        rw [hq]
        dsimp only
        rw [← hq, hplace]
        exact coalesce_le _
      intro hzero
      have := congrArg BitVec.toNat hzero
      rw [BitVec.lt_def] at hlt
      simp at this
      omega
  | cons b before =>
    rw [hb] at hs
    have hen : k.enabled = true := by
      rw [(hs.running (.inl (by simp))).1] at hon
      exact hon
    obtain ⟨e, he, hne⟩ := h hen
    rw [hs.queue']
    by_cases hd : k.newDelta ticks = 0#32
    · rw [hs.queue] at he
      rcases List.mem_append.mp he with he | he
      · refine ⟨e, List.mem_append_left _ he, ?_⟩
        rw [hs.kept hnd hk (List.mem_cons_of_mem _ he)]
        exact hne
      · refine ⟨e, List.mem_append_right _ (List.mem_cons_of_mem _ he), ?_⟩
        rw [hs.behind e he, hd, BitVec.sub_zero]
        exact hne
    · refine ⟨kte, List.mem_append_right _ List.mem_cons_self, ?_⟩
      rw [hs.new]
      exact hd

theorem eventSchedule_alive (h : Alive k) (ht : ticks ≠ 0#32) (hk : kte ∉ k.eventQueue)
    (htab : kte < k.eventTable.num → k.eventTable.live kte = true) :
    Alive (k.eventSchedule ticks kte).2 := by
  have hs := eventSchedule_spec ht h.nodup hk
  have hne : (k.eventSchedule ticks kte).2.eventQueue ≠ [] := by
    rw [hs.queue']
    simp
  have hcount : ((k.eventSchedule ticks kte).2.enabled = k.enabled ∧
      (k.eventSchedule ticks kte).2.delta = k.delta ∧
      (k.eventSchedule ticks kte).2.time = k.time) ∨
      ((k.eventSchedule ticks kte).2.enabled = true ∧
        (k.eventSchedule ticks kte).2.delta = ticks ∧
        (k.eventSchedule ticks kte).2.time = 0) := by
    by_cases hrun : (place k.deltaOf (k.relative ticks) k.eventQueue).1 ≠ [] ∨ k.enabled = true
    · exact .inl (hs.running hrun)
    · rw [not_or, not_not] at hrun
      have hoff : k.enabled = false := by simpa using hrun.2
      obtain ⟨h1, h2, h3⟩ := hs.started hrun.1 hoff
      rw [relative_of_idle (h.idle hoff)] at h2
      exact .inr ⟨h1, h2, h3⟩
  refine ⟨hs.nodup h.nodup hk, ?_, ?_, ?_, ?_, fun _ => hne, ?_, ?_⟩
  · intro e he
    rw [hs.live, hs.num]
    rw [hs.queue'] at he
    rcases List.mem_append.mp he with he | he
    · exact h.table e (by rw [hs.queue]; exact List.mem_append_left _ he)
    · rcases List.mem_cons.mp he with rfl | he
      · exact htab
      · exact h.table e (by rw [hs.queue]; exact List.mem_append_right _ he)
  · intro hoff
    rcases hcount with ⟨h1, _, h3⟩ | ⟨h1, _⟩
    · rw [h3]
      exact h.idle (h1.symm.trans hoff)
    · exact absurd (h1.symm.trans hoff) (by simp)
  · intro hon
    rcases hcount with ⟨h1, h2, _⟩ | ⟨_, h2, _⟩
    · rw [h2]
      exact h.counting (h1.symm.trans hon)
    · rw [h2]
      exact ht
  · intro hon
    rcases hcount with ⟨h1, h2, h3⟩ | ⟨_, h2, h3⟩
    · rw [h2, h3]
      exact h.elapsed (h1.symm.trans hon)
    · rw [h2, h3]
      exact ticks.isLt
  · intro _
    rcases hcount with ⟨h1, _, _⟩ | ⟨h1, _⟩
    · rw [h1, hs.kteSoftirq]
      by_cases hq : k.eventQueue = []
      · -- the queue was empty, so the timer was off and has been started
        left
        by_contra hoff
        have hoff : k.enabled = false := by simpa using hoff
        have hb : (place k.deltaOf (k.relative ticks) k.eventQueue).1 = [] := by rw [hq]; rfl
        have := (hs.started hb hoff).1
        rw [h1, hoff] at this
        simp at this
      · exact h.served hq
    · exact .inl h1
  · intro hon hirq
    rw [hs.kteSoftirq] at hirq
    exact eventSchedule_left ht h.nodup hk (h.queued (.inr hirq)) (fun hen => h.left hen hirq) hon

theorem deltaOf_alloc (handler : α) {table : KTable (KtimerEvent α)}
    (halloc : k.eventTable.alloc = some (e, table)) : deltaOf { k with
      eventTable := table.write e { table.data e with handler := handler } } = k.deltaOf := by
  obtain ⟨_, _, _, hdata, _⟩ := KTable.alloc_spec halloc
  funext x
  unfold deltaOf
  by_cases hx : x = e
  · rw [hx]
    simp [hdata]
  · show ((table.write e _).data x).delta = _
    rw [KTable.write_data_ne _ _ hx, hdata]

theorem alloc_alive (handler : α) {table : KTable (KtimerEvent α)} (h : Alive k)
    (halloc : k.eventTable.alloc = some (e, table)) :
    Alive { k with eventTable := table.write e { table.data e with handler := handler } } ∧
      e ∉ k.eventQueue := by
  obtain ⟨hfree, hlt, hnum, _, hlive⟩ := KTable.alloc_spec halloc
  have hmem : e ∉ k.eventQueue := by
    intro he
    rw [h.table e he hlt] at hfree
    simp at hfree
  refine ⟨⟨h.nodup, ?_, h.idle, h.counting, h.elapsed, h.queued, h.served, ?_⟩, hmem⟩
  · intro x hx hxn
    show (table.write e _).live x = true
    rw [KTable.write_live, hlive, h.table x hx (by rw [← hnum]; exact hxn), Bool.true_or]
  · rw [deltaOf_alloc handler halloc]
    exact h.left

theorem eventCreate_alive {handler : α} (h : Alive k) : Alive (k.eventCreate ticks handler).2 := by
  rcases eventCreate_cases k ticks handler with heq | ⟨e, table, halloc, heq⟩
  · rw [heq]
    exact h
  · obtain ⟨h1, hmem⟩ := alloc_alive handler h halloc
    rw [heq]
    by_cases ht : ticks = 0#32
    · rw [ht, eventSchedule_zero]
      exact h1
    · refine eventSchedule_alive h1 ht hmem fun hlt => ?_
      obtain ⟨_, _, _, _, hlive⟩ := KTable.alloc_spec halloc
      show (table.write e _).live e = true
      rw [KTable.write_live, hlive]
      simp

/-! ## The handler -/

/-- The state of the timer while the handler works on the due events `es`. -/
structure Handling (es : List KteRef) (k : Ktimer α) : Prop where
  nodup : (es ++ k.eventQueue).Nodup
  table : ∀ e ∈ es ++ k.eventQueue, e < k.eventTable.num → k.eventTable.live e = true
  idle : k.enabled = false → k.time = 0
  counting : k.enabled = true → k.delta ≠ 0#32
  elapsed : k.enabled = true → k.delta.toNat + k.time < 2 ^ 32
  queued : k.enabled = true → k.eventQueue ≠ []
  kteSoftirq : k.kteSoftirq = false
  head : k.enabled = false → ∀ e, k.eventQueue.head? = some e → k.deltaOf e ≠ 0#32

theorem eventSchedule_handling (h : Handling (e :: es) k) (ht : ticks ≠ 0#32) :
    Handling es (k.eventSchedule ticks e).2 := by
  have hnd := h.nodup
  rw [List.cons_append, List.nodup_cons, List.mem_append, not_or] at hnd
  obtain ⟨⟨_, he⟩, hnd⟩ := hnd
  have hndq := (List.nodup_append.mp hnd).2.1
  have hs := eventSchedule_spec ht hndq he
  have hmem : ∀ x, x ∈ es ++ (k.eventSchedule ticks e).2.eventQueue →
      x ∈ (e :: es) ++ k.eventQueue := by
    intro x hx
    rw [hs.queue'] at hx
    rw [hs.queue]
    grind
  refine ⟨?_, ?_, ?_, ?_, ?_, ?_, hs.kteSoftirq.trans h.kteSoftirq, ?_⟩
  · have := h.nodup
    rw [hs.queue] at this
    rw [hs.queue', ← List.append_assoc]
    refine List.nodup_middle.mpr ?_
    rw [List.append_assoc]
    exact this
  · intro x hx
    rw [hs.live, hs.num]
    exact h.table x (hmem x hx)
  · intro hoff
    by_cases hrun : (place k.deltaOf (k.relative ticks) k.eventQueue).1 ≠ [] ∨ k.enabled = true
    · obtain ⟨h1, _, h3⟩ := hs.running hrun
      rw [h3]
      exact h.idle (h1.symm.trans hoff)
    · rw [not_or, not_not] at hrun
      have := (hs.started hrun.1 (by simpa using hrun.2)).1
      exact absurd (this.symm.trans hoff) (by simp)
  · intro hon
    by_cases hrun : (place k.deltaOf (k.relative ticks) k.eventQueue).1 ≠ [] ∨ k.enabled = true
    · obtain ⟨h1, h2, _⟩ := hs.running hrun
      rw [h2]
      exact h.counting (h1.symm.trans hon)
    · rw [not_or, not_not] at hrun
      have hoff : k.enabled = false := by simpa using hrun.2
      rw [(hs.started hrun.1 hoff).2.1, relative_of_idle (h.idle hoff)]
      exact ht
  · intro hon
    by_cases hrun : (place k.deltaOf (k.relative ticks) k.eventQueue).1 ≠ [] ∨ k.enabled = true
    · obtain ⟨h1, h2, h3⟩ := hs.running hrun
      rw [h2, h3]
      exact h.elapsed (h1.symm.trans hon)
    · rw [not_or, not_not] at hrun
      obtain ⟨_, h2, h3⟩ := hs.started hrun.1 (by simpa using hrun.2)
      rw [h2, h3]
      exact (k.relative ticks).isLt
  · intro _
    rw [hs.queue']
    simp
  · -- with the timer still off, the head is the old one
    intro hoff x hx
    have hb : (place k.deltaOf (k.relative ticks) k.eventQueue).1 ≠ [] := by
      intro hb
      by_cases hen : k.enabled = true
      · rw [(hs.running (.inr hen)).1, hen] at hoff
        simp at hoff
      · have := (hs.started hb (by simpa using hen)).1
        exact absurd (this.symm.trans hoff) (by simp)
    have hkoff : k.enabled = false := (hs.running (.inl hb)).1.symm.trans hoff
    obtain ⟨b, before, hbe⟩ := List.exists_cons_of_ne_nil hb
    rw [hs.queue', hbe, List.cons_append, List.head?_cons] at hx
    injection hx with hx
    subst hx
    rw [hs.kept hndq he (by rw [hbe]; exact List.mem_cons_self)]
    refine h.head hkoff b ?_
    rw [hs.queue, hbe]
    rfl

theorem free_handling (h : Handling (e :: es) k) :
    Handling es { k with eventTable := k.eventTable.free e } := by
  have hnd := h.nodup
  rw [List.cons_append, List.nodup_cons] at hnd
  refine ⟨hnd.2, ?_, h.idle, h.counting, h.elapsed, h.queued, h.kteSoftirq, h.head⟩
  intro x hx hlt
  have hxe : x ≠ e := fun hxe => hnd.1 (hxe ▸ hx)
  show (k.eventTable.free e).live x = true
  rw [KTable.free_live, h.table x (List.mem_cons_of_mem _ hx) hlt]
  simp [hxe]

/-- At the start of a run of the handler. -/
theorem Alive.handling {head : KteRef} {rest : List KteRef} (h : Alive k)
    (hirq : k.kteSoftirq = true) (hq : k.eventQueue = head :: rest) :
    Handling (head :: rest.takeWhile fun e => decide (k.deltaOf e = 0#32))
      { k with kteSoftirq := false
               eventQueue := rest.dropWhile fun e => decide (k.deltaOf e = 0#32) } := by
  have happ : (head :: rest.takeWhile fun e => decide (k.deltaOf e = 0#32)) ++
      (rest.dropWhile fun e => decide (k.deltaOf e = 0#32)) = k.eventQueue := by
    rw [List.cons_append, List.takeWhile_append_dropWhile, hq]
  refine ⟨?_, ?_, h.idle, h.counting, h.elapsed, ?_, rfl, ?_⟩
  · show (_ ++ (rest.dropWhile fun e => decide (k.deltaOf e = 0#32))).Nodup
    rw [happ]
    exact h.nodup
  · intro x hx
    have hx' : x ∈ (head :: rest.takeWhile fun e => decide (k.deltaOf e = 0#32)) ++
        (rest.dropWhile fun e => decide (k.deltaOf e = 0#32)) := hx
    rw [happ] at hx'
    exact h.table x hx'
  · intro hon hnil
    obtain ⟨e, he, hne⟩ := h.left hon hirq
    rw [hq] at he
    have := List.dropWhile_eq_nil_iff.mp hnil e he
    exact hne (of_decide_eq_true this)
  · intro _ e he
    have hnot := List.head?_dropWhile_not (fun e => decide (k.deltaOf e = 0#32)) rest
    have he' : (rest.dropWhile fun e => decide (k.deltaOf e = 0#32)).head? = some e := he
    rw [he'] at hnot
    exact of_decide_eq_false hnot

theorem eventHandler_alive {run : σ → α → Except Fault (Word × σ)} {st st' : σ} (h : Alive k)
    (hirq : k.kteSoftirq = true)
    (hrun : eventHandler run st { k with kteSoftirq := false } = .ok (st', k')) : Alive k' := by
  rcases eventHandler_cases hrun with ⟨hnil, _⟩ | ⟨head, rest, k1, hq, hloop, hend⟩
  · exact absurd hnil (h.queued (.inr hirq))
  · have h1 := handleEvents_rule (I := fun es _ k => Handling es k)
      (fun e es _ k r _ _ hI => ⟨eventSchedule_handling hI, fun _ => free_handling hI⟩)
      _ _ _ _ _ hloop (h.handling hirq hq)
    rcases hend with ⟨hnil, rfl⟩ | ⟨event, tail, hq1, rfl⟩
    · have hoff : k'.enabled = false := by
        by_contra hon
        exact h1.queued (by simpa using hon) hnil
      refine ⟨by rw [hnil]; exact List.nodup_nil, by rw [hnil]; simp, h1.idle, h1.counting,
        h1.elapsed, ?_, fun hne => absurd hnil hne, fun hon => absurd (hon.symm.trans hoff) (by simp)⟩
      rintro (hon | hirq')
      · exact absurd (hon.symm.trans hoff) (by simp)
      · exact absurd (hirq'.symm.trans h1.kteSoftirq) (by simp)
    · -- the countdown is running, or started for the head
      have hon : (k1.enable (k1.deltaOf event)).enabled = true ∧
          (k1.enable (k1.deltaOf event)).delta ≠ 0#32 ∧
          (k1.enable (k1.deltaOf event)).delta.toNat +
            (k1.enable (k1.deltaOf event)).time < 2 ^ 32 := by
        by_cases hen : k1.enabled = true
        · rw [enable_of_enabled hen]
          exact ⟨hen, h1.counting hen, h1.elapsed hen⟩
        · have hoff : k1.enabled = false := by simpa using hen
          rw [enable_of_disabled hoff]
          exact ⟨rfl, h1.head hoff event (by rw [hq1]; rfl), (k1.deltaOf event).isLt⟩
      have hkeep : (k1.enable (k1.deltaOf event)).eventQueue = k1.eventQueue ∧
          (k1.enable (k1.deltaOf event)).eventTable = k1.eventTable ∧
          (k1.enable (k1.deltaOf event)).kteSoftirq = k1.kteSoftirq := by
        unfold enable
        split <;> exact ⟨rfl, rfl, rfl⟩
      obtain ⟨hkq, hkt, hki⟩ := hkeep
      refine ⟨by rw [hkq]; exact h1.nodup, by rw [hkq, hkt]; exact h1.table,
        fun hoff => absurd (hon.1.symm.trans hoff) (by simp), fun _ => hon.2.1,
        fun _ => hon.2.2, fun _ => by rw [hkq, hq1]; simp, fun _ => .inl hon.1, fun _ hirq' => ?_⟩
      rw [hki, h1.kteSoftirq] at hirq'
      simp at hirq'

/-! ## Runs -/

theorem reachable_alive (h : (system α).Reachable (fun _ _ => True) k) : Alive k := by
  refine h.invariant ?_ ?_
  · rintro k ⟨event, rfl⟩
    exact initial_alive event
  · intro k a k' hk _ hstep
    cases hstep with
    | schedule ht hmem htab => exact eventSchedule_alive hk ht hmem htab
    | create => exact eventCreate_alive hk
    | tick => exact tick_alive hk
    | handle hirq hrun => exact eventHandler_alive hk hirq hrun

end Ktimer

end F9
