import F9.Logic.TimerInv

/-!
# Runs of the kernel timer

The timer never dies: as long as events are queued, the countdown runs or the softirq
is requested (`timer_never_dies`).

It can be late. A running countdown is not shortened for an event before the head, an
event asked for with the countdown further on than its ticks wraps, and so may the deltas
behind a new event; the time between the end of the countdown and the run of the handler is
lost for the events left in the queue. `timer_never_late` says that these are all the ways:
in a run without them the countdown never ends after a requested time.
-/

namespace F9

open Result

variable {rest : List KteRef} {e : KteRef}

open Ktimer in
/-- In every state that the timer can reach: if an event is queued, the countdown runs and
has ticks left, or the softirq is requested. -/
theorem timer_never_dies {α : Type} {k : Ktimer α}
    (h : (Ktimer.system α).Reachable (fun _ _ => True) k) (hq : k.eventQueue ≠ []) :
    (k.enabled = true ∧ 0#32 < k.delta) ∨ k.kteSoftirq = true := by
  have hk := reachable_alive h
  rcases hk.served hq with hon | hirq
  · left
    refine ⟨hon, ?_⟩
    rw [BitVec.lt_def]
    exact Nat.pos_of_ne_zero fun h0 => hk.counting hon (BitVec.eq_of_toNat_eq h0)
  · exact .inr hirq

/-- An event is queued, comes due, and an earlier one is queued before the handler runs. -/
theorem timer_never_dies_early : ∃ k : Ktimer Unit,
    (Ktimer.system Unit).Reachable (fun _ _ => True) k ∧ k.eventQueue = [1, 0] ∧
    k.kteSoftirq = true ∧ ((k.enabled = true ∧ 0#32 < k.delta) ∨ k.kteSoftirq = true) := by
  have h1 : (Ktimer.system Unit).Reachable (fun _ _ => True)
      ((Ktimer.initial ⟨(), 0#32⟩).eventCreate 2#32 ()).2 :=
    .step (.init ⟨_, rfl⟩) trivial .create
  have h2 := TSys.Reachable.step h1 trivial Ktimer.Step.tick
  have h3 := TSys.Reachable.step h2 trivial Ktimer.Step.tick
  have h4 := TSys.Reachable.step h3 trivial (@Ktimer.Step.create Unit _ 1#32 ())
  exact ⟨_, h4, by decide, by decide, timer_never_dies h4 (by decide)⟩

/-! ## Late events -/

namespace Ktimer

variable {α : Type} {k k' : Ktimer α} {ticks : Word} {kte : KteRef}

/-- An event can be scheduled without making one late. The countdown has not run longer than
its ticks, the delays before its place do not overflow, and it is not further from the event
before it than the deltas behind it, or coalesced. It comes before the head of the queue only
while the handler runs, with the timer still off, and is not coalesced there. -/
structure Fits (k : Ktimer α) (ticks : Word) : Prop where
  elapsed : k.time ≤ ticks.toNat
  noOverflow : delay k.deltaOf (place k.deltaOf (k.relative ticks) k.eventQueue).1 < 2 ^ 32
  noWrap : k.Coalesced ticks ∨
    ∀ e ∈ (place k.deltaOf (k.relative ticks) k.eventQueue).2.2,
      (place k.deltaOf (k.relative ticks) k.eventQueue).2.1 ≤ k.deltaOf e
  atHead : k.eventQueue ≠ [] → (place k.deltaOf (k.relative ticks) k.eventQueue).1 = [] →
    k.enabled = false ∧ k.kteSoftirq = false ∧ ¬ k.Coalesced ticks

/-- The events that the handler schedules again fit, each in the state it is scheduled in. -/
def RepeatsFit : List KteRef → List Word → Ktimer α → Prop
  | [], _, _ => True
  | event :: events, results, k =>
    if results.headD 0#32 ≠ 0#32 then
      k.Fits (results.headD 0#32) ∧
        RepeatsFit events results.tail (k.eventSchedule (results.headD 0#32) event).2
    else RepeatsFit events results.tail { k with eventTable := k.eventTable.free event }

/-- Steps that make no event late: every event that is scheduled fits, and no tick comes
between the softirq request and the handler if the handler is to start the countdown for the
events it leaves. -/
def Prompt (k : Ktimer α) : Action α → Prop
  | .schedule ticks _ => k.Fits ticks
  | .create ticks _ => ticks = 0#32 ∨ k.Fits ticks
  | .tick => k.kteSoftirq = true → ∀ e ∈ k.eventQueue.tail, k.deltaOf e = 0#32
  | .handle results =>
    match k.eventQueue with
    | [] => True
    | head :: rest =>
      RepeatsFit (head :: rest.takeWhile fun e => decide (k.deltaOf e = 0#32)) results
        { k with kteSoftirq := false
                 eventQueue := rest.dropWhile fun e => decide (k.deltaOf e = 0#32) }

/-! ### The invariant -/

/-- The delta of the head of the queue. -/
def headDelta (k : Ktimer α) : Nat :=
  match k.eventQueue with
  | [] => 0
  | head :: _ => (k.deltaOf head).toNat

theorem headDelta_cons {head : KteRef} (h : k.eventQueue = head :: rest) :
    k.headDelta = (k.deltaOf head).toNat := by
  unfold headDelta
  rw [h]

theorem headDelta_le_delayTo (he : e ∈ k.eventQueue) : k.headDelta ≤ k.delayTo e := by
  obtain ⟨head, rest, hq⟩ := List.exists_cons_of_ne_nil (List.ne_nil_of_mem he)
  rw [headDelta_cons hq]
  unfold delayTo
  rw [hq]
  by_cases hhe : head = e
  · subst hhe
    omega
  · rw [List.takeWhile_cons_of_pos (by simpa using hhe), delay_cons]
    omega

/-- The delay that has passed for the events of a stopped timer: that of the head, which is
due, until the handler has taken the head off. -/
def passed (handling : Bool) (k : Ktimer α) : Nat := if handling then 0 else k.headDelta

/-- No event is late: with the countdown running the delays count from its end, with the
timer off from now. The events that are due are not considered. -/
structure InTime (handling : Bool) (k : Ktimer α) : Prop where
  running : k.enabled = true → ∀ e ∈ k.eventQueue,
    k.now + k.delta.toNat + k.delayTo e ≤ k.requested e + k.headDelta
  atHead : k.enabled = true → k.delta.toNat ≤ k.headDelta + k.time
  stopped : k.enabled = false → ∀ e ∈ k.eventQueue, k.delayTo e ≤ k.passed handling ∨
    k.now + k.delayTo e ≤ k.requested e + k.passed handling
  notBoth : k.enabled = true → k.kteSoftirq = false

/-! ### Scheduling -/

/-- The delays of an event that fits and of those behind it. -/
structure Earlier (k k' : Ktimer α) (ticks : Word) (kte : KteRef) : Prop where
  new : k'.delayTo kte + k.time ≤ ticks.toNat
  others : ∀ e ∈ k.eventQueue, k'.delayTo e ≤ k.delayTo e

theorem Fits.earlier (h : k.Fits ticks) (ht : ticks ≠ 0#32) (hnd : k.eventQueue.Nodup)
    (hk : kte ∉ k.eventQueue) : Earlier k (k.eventSchedule ticks kte).2 ticks kte := by
  have hs := eventSchedule_spec ht hnd hk
  have hf := place_found k.deltaOf (k.relative ticks) k.eventQueue
  have hd := newDelta_le k ticks
  have hover := h.noOverflow
  have hrel : (k.relative ticks).toNat = ticks.toNat - k.time := by
    have htime := h.elapsed
    unfold relative
    rw [BitVec.toNat_sub_of_le, BitVec.toNat_ofNat, Nat.mod_eq_of_lt (by omega)]
    rw [BitVec.le_def, BitVec.toNat_ofNat, Nat.mod_eq_of_lt (by omega)]
    exact htime
  -- no delta behind the new event wraps
  have hle : ∀ e ∈ (place k.deltaOf (k.relative ticks) k.eventQueue).2.2,
      k.newDelta ticks ≤ k.deltaOf e := by
    intro e he
    rw [BitVec.le_def]
    rcases h.noWrap with hc | hw
    · obtain ⟨head, rest, hq⟩ := List.exists_cons_of_ne_nil hc.1
      rw [(newDelta_eq_zero_iff hq).mpr hc.2]
      exact Nat.zero_le _
    · have := hw e he
      rw [BitVec.le_def] at this
      omega
  constructor
  · have hmem : kte ∉ (place k.deltaOf (k.relative ticks) k.eventQueue).1 := fun hb =>
      hk (by rw [hs.queue]; exact List.mem_append_left _ hb)
    have hbefore := delay_congr fun x hx => hs.kept hnd hk (e := x) hx
    rw [delayTo_eq hs.queue' hmem, hs.new, hbefore]
    have h1 := hf.le
    have h2 := hf.dist
    have h3 := h.elapsed
    omega
  · intro e he
    rw [hs.queue] at he
    rcases List.mem_append.mp he with he | he
    · rw [hs.delayTo_before hnd hk he]
    · obtain ⟨pre, post, ha⟩ := List.append_of_mem he
      obtain ⟨h1, h2⟩ := hs.delayTo_after hnd hk ha
      have hsub : ∀ x ∈ (place k.deltaOf (k.relative ticks) k.eventQueue).2.2,
          ((k.eventSchedule ticks kte).2.deltaOf x).toNat =
            (k.deltaOf x).toNat - (k.newDelta ticks).toNat := by
        intro x hx
        rw [hs.behind x hx, BitVec.toNat_sub_of_le (hle x hx)]
      have hpre : delay (k.eventSchedule ticks kte).2.deltaOf pre ≤ delay k.deltaOf pre :=
        delay_mono fun x hx => by
          rw [hsub x (by rw [ha]; exact List.mem_append_left _ hx)]
          exact Nat.sub_le _ _
      have := hsub e he
      have := hle e he
      rw [BitVec.le_def] at this
      omega

theorem eventSchedule_inTime {handling : Bool} (h : InTime handling k) (hfit : k.Fits ticks)
    (ht : ticks ≠ 0#32) (hnd : k.eventQueue.Nodup) (hk : kte ∉ k.eventQueue)
    (hidle : k.enabled = false → k.time = 0)
    (hqueued : k.enabled = true ∨ k.kteSoftirq = true → k.eventQueue ≠ [])
    (hhandling : k.eventQueue ≠ [] → k.enabled = false → k.kteSoftirq = false →
      handling = true ∧ 0 < k.headDelta) :
    InTime handling (k.eventSchedule ticks kte).2 := by
  have hs := eventSchedule_spec ht hnd hk
  have he := hfit.earlier ht hnd hk
  have hnew : (k.eventSchedule ticks kte).2.requested kte = k.now + ticks.toNat := by
    rw [hs.requested, if_pos rfl]
  have hold : ∀ e ∈ k.eventQueue, (k.eventSchedule ticks kte).2.requested e = k.requested e := by
    intro e hq
    have hek : e ≠ kte := fun hek => hk (hek ▸ hq)
    rw [hs.requested, if_neg hek]
  have hmem : ∀ e ∈ (k.eventSchedule ticks kte).2.eventQueue, e = kte ∨ e ∈ k.eventQueue := by
    intro e hq
    rw [hs.queue'] at hq
    rw [hs.queue]
    grind
  by_cases hb : (place k.deltaOf (k.relative ticks) k.eventQueue).1 = []
  · -- at the head: the timer is off, and is started for the new event
    rw [hb] at hs
    have hoff : k.enabled = false ∧ k.kteSoftirq = false ∧
        k.newDelta ticks = k.relative ticks := by
      by_cases hq : k.eventQueue = []
      · refine ⟨?_, ?_, ?_⟩
        · by_contra hon
          exact hqueued (.inl (by simpa using hon)) hq
        · by_contra hon
          exact hqueued (.inr (by simpa using hon)) hq
        · unfold newDelta
          rw [hq]
      · obtain ⟨h1, h2, h3⟩ := hfit.atHead hq hb
        obtain ⟨head, rest, hcons⟩ := List.exists_cons_of_ne_nil hq
        refine ⟨h1, h2, ?_⟩
        have hplace := (place_head hb (by rw [hcons]; rfl)).2
        have hc : ¬ (k.relative ticks).slt configKtimerMinticks = true := by
          intro hslt
          exact h3 ⟨hq, by rw [hplace]; exact hslt⟩
        unfold newDelta
        rw [hcons]
        dsimp only
        rw [← hcons, hplace]
        unfold coalesce
        rw [if_neg hc]
    obtain ⟨hoff, hirq, hd⟩ := hoff
    obtain ⟨hon', hdelta', htime'⟩ := hs.started rfl hoff
    have hhead : (k.eventSchedule ticks kte).2.headDelta = (k.relative ticks).toNat := by
      rw [headDelta_cons hs.queue', hs.new, hd]
    have hrel : k.relative ticks = ticks := relative_of_idle (hidle hoff)
    refine ⟨?_, ?_, fun h' => absurd (hon'.symm.trans h') (by simp), ?_⟩
    · intro _ e hq
      rw [hs.now, hdelta', hhead]
      rcases hmem e hq with rfl | hq
      · have := he.new
        omega
      · have h1 := he.others e hq
        have h2 := headDelta_le_delayTo hq
        obtain ⟨hhand, hpos⟩ := hhandling (List.ne_nil_of_mem hq) hoff hirq
        have h3 := h.stopped hoff e hq
        rw [hhand] at h3
        unfold passed at h3
        rw [if_pos rfl] at h3
        rw [hold e hq]
        omega
    · intro _
      rw [hdelta', hhead]
      exact Nat.le_add_right _ _
    · intro _
      rw [hs.kteSoftirq]
      exact hirq
  · -- behind the head: the countdown goes on as before
    obtain ⟨hen', hdelta', htime'⟩ := hs.running (.inl hb)
    obtain ⟨b, before, hbe⟩ := List.exists_cons_of_ne_nil hb
    have hhead : (k.eventSchedule ticks kte).2.headDelta = k.headDelta := by
      have h1 := hs.queue
      have h2 := hs.queue'
      rw [hbe, List.cons_append] at h1 h2
      rw [headDelta_cons h1, headDelta_cons h2,
        hs.kept hnd hk (by rw [hbe]; exact List.mem_cons_self)]
    have hpassed : (k.eventSchedule ticks kte).2.passed handling = k.passed handling := by
      unfold passed
      rw [hhead]
    refine ⟨?_, ?_, ?_, ?_⟩
    · intro hon e hq
      rw [hen'] at hon
      rw [hs.now, hdelta', hhead]
      rcases hmem e hq with rfl | hq
      · have h1 := he.new
        have h2 := h.atHead hon
        omega
      · have h1 := he.others e hq
        have h2 := h.running hon e hq
        rw [hold e hq]
        omega
    · intro hon
      rw [hdelta', hhead, htime']
      exact h.atHead (hen'.symm.trans hon)
    · intro hoff e hq
      rw [hen'] at hoff
      rw [hs.now, hpassed]
      rcases hmem e hq with rfl | hq
      · have h1 := he.new
        omega
      · have h1 := he.others e hq
        have h2 := h.stopped hoff e hq
        rw [hold e hq]
        omega
    · intro hon
      rw [hs.kteSoftirq]
      exact h.notBoth (hen'.symm.trans hon)

theorem Alive.handling_false (h : Alive k) (hq : k.eventQueue ≠ []) (hoff : k.enabled = false)
    (hirq : k.kteSoftirq = false) : False := by
  rcases h.served hq with hon | hon
  · exact absurd (hon.symm.trans hoff) (by simp)
  · exact absurd (hon.symm.trans hirq) (by simp)

theorem eventCreate_inTime {handler : α} (h : InTime false k) (hk : Alive k)
    (hfit : ticks = 0#32 ∨ k.Fits ticks) : InTime false (k.eventCreate ticks handler).2 := by
  rcases eventCreate_cases k ticks handler with heq | ⟨e, table, halloc, heq⟩
  · rw [heq]
    exact h
  · obtain ⟨h1, hmem⟩ := alloc_alive handler hk halloc
    -- the new slot changes no delta
    have hdelta : deltaOf { k with
        eventTable := table.write e { table.data e with handler := handler } } = k.deltaOf :=
      deltaOf_alloc handler halloc
    have hin : InTime false { k with
        eventTable := table.write e { table.data e with handler := handler } } := by
      refine ⟨?_, ?_, ?_, h.notBoth⟩
      · unfold delayTo headDelta
        rw [hdelta]
        exact h.running
      · unfold headDelta
        rw [hdelta]
        exact h.atHead
      · unfold delayTo passed headDelta
        rw [hdelta]
        exact h.stopped
    rw [heq]
    rcases hfit with rfl | hfit
    · exact hin
    · by_cases ht : ticks = 0#32
      · rw [ht, eventSchedule_zero]
        exact hin
      · have hfit' : Fits { k with
            eventTable := table.write e { table.data e with handler := handler } } ticks := by
          obtain ⟨hf1, hf2, hf3, hf4⟩ := hfit
          refine ⟨hf1, ?_, ?_, ?_⟩
          · rw [hdelta]
            exact hf2
          · unfold Coalesced
            rw [hdelta]
            exact hf3
          · unfold Coalesced
            rw [hdelta]
            exact hf4
        exact eventSchedule_inTime hin hfit' ht h1.nodup hmem h1.idle h1.queued
          fun hq hoff hirq => (h1.handling_false hq hoff hirq).elim

/-! ### Ticks -/

theorem delayTo_due (he : e ∈ k.eventQueue) (h : ∀ x ∈ k.eventQueue.tail, k.deltaOf x = 0#32) :
    k.delayTo e ≤ k.headDelta := by
  obtain ⟨head, rest, hq⟩ := List.exists_cons_of_ne_nil (List.ne_nil_of_mem he)
  rw [headDelta_cons hq]
  rw [hq, List.tail_cons] at h
  rw [hq] at he
  unfold delayTo
  rw [hq]
  by_cases hhe : head = e
  · subst hhe
    rw [List.takeWhile_cons_of_neg (by simp), delay_nil, Nat.zero_add]
  · have her : e ∈ rest := (List.mem_cons.mp he).resolve_left fun h' => hhe h'.symm
    rw [List.takeWhile_cons_of_pos (by simpa using hhe), delay_cons, h e her,
      delay_zero fun x hx => h x ((List.takeWhile_sublist _).mem hx)]
    exact Nat.le_refl _

theorem tick_inTime (h : InTime false k) (hk : Alive k)
    (hdue : k.kteSoftirq = true → ∀ e ∈ k.eventQueue.tail, k.deltaOf e = 0#32) :
    InTime false k.tick := by
  by_cases hon : k.enabled = true
  · have hpos : 0#32 < k.delta := by
      exact Nat.pos_of_ne_zero fun h0 => hk.counting hon (BitVec.eq_of_toNat_eq h0)
    have hsub : (k.delta - 1#32).toNat = k.delta.toNat - 1 := by
      rw [BitVec.toNat_sub_of_le (by rw [BitVec.le_def]; exact BitVec.lt_def.mp hpos)]
      rfl
    have hpos' : 0 < k.delta.toNat := BitVec.lt_def.mp hpos
    unfold tick
    dsimp only
    rw [if_pos (by simp [hon, hpos])]
    split
    · -- the countdown ends
      rename_i hzero
      rw [hzero] at hsub
      have hone : k.delta.toNat = 1 := by
        have : (0#32).toNat = 0 := rfl
        omega
      refine ⟨fun hf => absurd hf (by simp), fun hf => absurd hf (by simp), fun _ e he => .inr ?_,
        fun hf => absurd hf (by simp)⟩
      have := h.running hon e he
      rw [hone] at this
      exact this
    · refine ⟨fun _ e he => ?_, fun _ => ?_, fun hf => absurd (hon.symm.trans hf) (by simp),
        fun _ => h.notBoth hon⟩
      · have := h.running hon e he
        show k.now + 1 + (k.delta - 1#32).toNat + k.delayTo e ≤ k.requested e + k.headDelta
        omega
      · have := h.atHead hon
        show (k.delta - 1#32).toNat ≤ k.headDelta + (k.time + 1)
        omega
  · have hoff : k.enabled = false := by simpa using hon
    unfold tick
    rw [if_neg (by simp [hoff])]
    refine ⟨fun hf => absurd hf hon, fun hf => absurd hf hon, fun _ e he => .inl ?_,
      fun hf => absurd hf hon⟩
    -- what is left of the queue is due
    have hirq : k.kteSoftirq = true := (hk.served (List.ne_nil_of_mem he)).resolve_left hon
    exact delayTo_due he (hdue hirq)

/-! ### The handler -/

theorem Handling.headDelta_pos {es : List KteRef} (h : Handling es k) (hq : k.eventQueue ≠ [])
    (hoff : k.enabled = false) : 0 < k.headDelta := by
  obtain ⟨head, rest, hcons⟩ := List.exists_cons_of_ne_nil hq
  rw [headDelta_cons hcons]
  exact Nat.pos_of_ne_zero fun h0 =>
    h.head hoff head (by rw [hcons]; rfl) (BitVec.eq_of_toNat_eq h0)

theorem handleEvents_inTime (es : List KteRef) (results rest : List Word) (k k' : Ktimer α)
    (h : handleEvents nextResult es results k = .ok (rest, k')) (hh : Handling es k)
    (hin : InTime true k) (hfit : RepeatsFit es results k) : Handling [] k' ∧ InTime true k' := by
  induction es generalizing results rest k k' with
  | nil =>
    injection h with h
    injection h with _ hk
    rw [← hk]
    exact ⟨hh, hin⟩
  | cons e es ih =>
    unfold RepeatsFit at hfit
    have h : (if results.headD 0#32 ≠ 0#32 then
        handleEvents nextResult es results.tail (k.eventSchedule (results.headD 0#32) e).2
      else handleEvents nextResult es results.tail
        { k with eventTable := k.eventTable.free e }) = .ok (rest, k') := h
    by_cases hr : results.headD 0#32 ≠ 0#32
    · rw [if_pos hr] at h hfit
      have hnd := hh.nodup
      rw [List.cons_append, List.nodup_cons, List.mem_append, not_or] at hnd
      obtain ⟨⟨_, he⟩, hnd⟩ := hnd
      refine ih _ _ _ _ h (eventSchedule_handling hh hr) ?_ hfit.2
      refine eventSchedule_inTime hin hfit.1 hr (List.nodup_append.mp hnd).2.1 he hh.idle ?_
        fun hq hoff _ => ⟨rfl, hh.headDelta_pos hq hoff⟩
      rintro (hon | hirq)
      · exact hh.queued hon
      · exact absurd (hirq.symm.trans hh.kteSoftirq) (by simp)
    · rw [if_neg hr] at h hfit
      exact ih _ _ _ _ h (free_handling hh)
        ⟨hin.running, hin.atHead, hin.stopped, hin.notBoth⟩ hfit

/-- With the due events off the queue, the delays count from now. -/
theorem InTime.taken {head : KteRef} (h : InTime false k) (hk : Alive k)
    (hirq : k.kteSoftirq = true) (hq : k.eventQueue = head :: rest) :
    InTime true { k with
      kteSoftirq := false
      eventQueue := rest.dropWhile fun e => decide (k.deltaOf e = 0#32) } := by
  have hoff : k.enabled = false := by
    by_contra hon
    exact absurd (hirq.symm.trans (h.notBoth (by simpa using hon))) (by simp)
  refine ⟨fun hf => absurd (hoff.symm.trans hf) (by simp),
    fun hf => absurd (hoff.symm.trans hf) (by simp), fun _ e he => ?_,
    fun hf => absurd (hoff.symm.trans hf) (by simp)⟩
  have hsplit := List.takeWhile_append_dropWhile (p := fun e => decide (k.deltaOf e = 0#32)) (l := rest)
  have hnd := hk.nodup
  obtain ⟨pre, post, hpost⟩ := List.append_of_mem he
  have hq' : k.eventQueue =
      (head :: rest.takeWhile (fun e => decide (k.deltaOf e = 0#32)) ++ pre) ++ e :: post := by
    rw [hq, List.append_assoc, ← hpost, List.cons_append, hsplit]
  rw [hq'] at hnd
  have hmem : e ∉ head :: rest.takeWhile (fun e => decide (k.deltaOf e = 0#32)) ++ pre :=
    fun hep => (List.nodup_append.mp hnd).2.2 e hep e List.mem_cons_self rfl
  have hdue : delay k.deltaOf (rest.takeWhile fun e => decide (k.deltaOf e = 0#32)) = 0 := by
    refine delay_zero fun x hx => ?_
    have := List.mem_takeWhile_imp hx
    exact of_decide_eq_true this
  have hfull := delayTo_eq hq' hmem
  rw [delay_append, delay_cons, hdue] at hfull
  have hrest : delayTo { k with
      kteSoftirq := false
      eventQueue := rest.dropWhile fun e => decide (k.deltaOf e = 0#32) } e =
      delay k.deltaOf pre + (k.deltaOf e).toNat :=
    delayTo_eq hpost fun hep => hmem (List.mem_append_right _ hep)
  have hst := h.stopped hoff e (by rw [hq']; simp)
  unfold passed at hst ⊢
  rw [if_neg (by simp), headDelta_cons hq, hfull] at hst
  show _ ∨ k.now + _ ≤ k.requested e + 0
  omega

theorem eventHandler_inTime {results rest' : List Word} (h : InTime false k) (hk : Alive k)
    (hirq : k.kteSoftirq = true)
    (hrun : eventHandler nextResult results { k with kteSoftirq := false } = .ok (rest', k'))
    (hfit : k.Prompt (.handle results)) : InTime false k' := by
  rcases eventHandler_cases hrun with ⟨hnil, _⟩ | ⟨head, rest, k1, hq, hloop, hend⟩
  · exact absurd hnil (hk.queued (.inr hirq))
  · unfold Prompt at hfit
    rw [hq] at hfit
    obtain ⟨hh, hin⟩ := handleEvents_inTime _ _ _ _ _ hloop (hk.handling hirq hq)
      (h.taken hk hirq hq) hfit
    rcases hend with ⟨hnil, rfl⟩ | ⟨event, tail, hq1, rfl⟩
    · refine ⟨hin.running, hin.atHead, ?_, hin.notBoth⟩
      rw [hnil]
      exact fun _ e he => absurd he (by simp)
    · by_cases hon : k1.enabled = true
      · rw [enable_of_enabled hon]
        exact ⟨hin.running, hin.atHead, fun hf => absurd (hon.symm.trans hf) (by simp),
          hin.notBoth⟩
      · have hoff : k1.enabled = false := by simpa using hon
        rw [enable_of_disabled hoff]
        refine ⟨fun _ e he => ?_, fun _ => ?_, fun hf => absurd hf (by simp),
          fun _ => hh.kteSoftirq⟩
        · -- started for the head, from which all delays count
          have h1 := hin.stopped hoff e he
          have h2 := hh.headDelta_pos (List.ne_nil_of_mem he) hoff
          have h3 := headDelta_le_delayTo (k := k1) he
          have h4 := headDelta_cons hq1
          unfold passed at h1
          rw [if_pos rfl] at h1
          show k1.now + (k1.deltaOf event).toNat + k1.delayTo e ≤ k1.requested e + k1.headDelta
          omega
        · show (k1.deltaOf event).toNat ≤ k1.headDelta + 0
          rw [headDelta_cons hq1]
          exact Nat.le_refl _

theorem reachable_inTime (h : (system α).Reachable Prompt k) : Alive k ∧ InTime false k := by
  refine TSys.Reachable.invariant (I := fun k => Alive k ∧ InTime false k) ?_ ?_ h
  · rintro k ⟨event, rfl⟩
    refine ⟨initial_alive event, ?_⟩
    exact ⟨fun hf => absurd hf (by simp [initial]), fun hf => absurd hf (by simp [initial]),
      fun _ e he => absurd he (by simp [initial]), fun hf => absurd hf (by simp [initial])⟩
  · rintro k a k' ⟨hk, hin⟩ hp hstep
    cases hstep with
    | schedule ht hmem htab =>
      exact ⟨eventSchedule_alive hk ht hmem htab,
        eventSchedule_inTime hin hp ht hk.nodup hmem hk.idle hk.queued
          fun hq hoff hirq => (hk.handling_false hq hoff hirq).elim⟩
    | create => exact ⟨eventCreate_alive hk, eventCreate_inTime hin hk hp⟩
    | tick => exact ⟨tick_alive hk, tick_inTime hin hk hp⟩
    | handle hirq hrun =>
      exact ⟨eventHandler_alive hk hirq hrun, eventHandler_inTime hin hk hirq hrun hp⟩

end Ktimer

open Ktimer in
/-- In every run of prompt steps the countdown, while it runs, ends no later than the
requested time of any queued event. -/
theorem timer_never_late {α : Type} {k : Ktimer α}
    (h : (Ktimer.system α).Reachable Ktimer.Prompt k) (hon : k.enabled = true) :
    ∀ e ∈ k.eventQueue, k.now + k.delta.toNat ≤ k.requested e := by
  intro e he
  have h1 := (reachable_inTime h).2.running hon e he
  have h2 := headDelta_le_delayTo he
  omega

/-- An event is queued behind another; the first one comes due, and the countdown is started
again for the second. -/
theorem timer_never_late_second : ∃ k : Ktimer Unit,
    (Ktimer.system Unit).Reachable Ktimer.Prompt k ∧ k.eventQueue = [1] ∧ k.enabled = true ∧
    ∀ e ∈ k.eventQueue, k.now + k.delta.toNat ≤ k.requested e := by
  have h1 : (Ktimer.system Unit).Reachable Ktimer.Prompt
      ((Ktimer.initial ⟨(), 0#32⟩).eventCreate 1#32 ()).2 :=
    .step (s := Ktimer.initial ⟨(), 0#32⟩) (a := Ktimer.Action.create 1#32 ()) (.init ⟨_, rfl⟩)
      (Or.inr ⟨by decide, by decide, .inr (by decide), fun hq => absurd rfl hq⟩) .create
  have h2 := TSys.Reachable.step (a := Ktimer.Action.create 201#32 ()) h1
    (Or.inr ⟨by decide, by decide, .inr (by decide), fun _ hb => absurd hb (by decide)⟩) .create
  have h3 := TSys.Reachable.step (a := Ktimer.Action.tick) h2 (fun hirq => absurd hirq (by decide)) .tick
  obtain ⟨⟨rest, k⟩, hrun, hk⟩ := okWith_iff.mp (by decide +kernel : okWith
    (fun p => p.2.eventQueue == [1] && p.2.enabled) (Ktimer.eventHandler Ktimer.nextResult []
      { (((Ktimer.initial ⟨(), 0#32⟩).eventCreate 1#32 ()).2.eventCreate 201#32 ()).2.tick with
        kteSoftirq := false }) = true)
  have h4 := TSys.Reachable.step (a := Ktimer.Action.handle []) h3 trivial (.handle (by decide) hrun)
  rw [Bool.and_eq_true, beq_iff_eq] at hk
  exact ⟨k, h4, hk.1, hk.2, timer_never_late h4 hk.2⟩

/-- With a countdown of 1000 running, an event asked for in 200 ticks does not shorten it. -/
theorem timer_late : ∃ k : Ktimer Unit,
    (Ktimer.system Unit).Reachable (fun _ _ => True) k ∧ k.enabled = true ∧
    1 ∈ k.eventQueue ∧ k.now = 0 ∧ k.requested 1 = 200 ∧ k.delta = 1000#32 := by
  have h1 : (Ktimer.system Unit).Reachable (fun _ _ => True)
      ((Ktimer.initial ⟨(), 0#32⟩).eventCreate 1000#32 ()).2 :=
    .step (.init ⟨_, rfl⟩) trivial .create
  have h2 := TSys.Reachable.step h1 trivial (@Ktimer.Step.create Unit _ 200#32 ())
  exact ⟨_, h2, by decide, by decide, by decide, by decide, by decide⟩

end F9
