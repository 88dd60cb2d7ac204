import Mathlib.Data.List.Nodup
import F9.Kernel.Ktimer
import F9.Lib.Result

/-!
# The event queue

Where `ktimer_event_schedule` puts an event and what it changes (`Scheduled`). The
search is a function of the deltas on the queue (`place`); the events behind the new
one lose its delta, all others keep theirs.
-/

namespace F9

open Result

variable {l : List KteRef} {e : KteRef} {pre post rest : List KteRef} {head : KteRef}

namespace Ktimer

variable {α σ : Type} {k k' k'' : Ktimer α} {ticks : Word} {kte : KteRef} {delta' : KteRef → Word}

/-! ## Updates -/

theorem deltaOf_setDelta (k : Ktimer α) (e x : KteRef) (d : Word) :
    (k.setDelta e d).deltaOf x = if x = e then d else k.deltaOf x := by
  unfold deltaOf setDelta
  by_cases h : x = e
  · rw [if_pos h, h]
    simp
  · rw [if_neg h]
    show ((k.eventTable.write e _).data x).delta = _
    rw [KTable.write_data_ne _ _ h]

/-- A change of the deltas, and of nothing else. -/
structure Retimed (k k' : Ktimer α) : Prop where
  queue : k'.eventQueue = k.eventQueue
  now : k'.now = k.now
  enabled : k'.enabled = k.enabled
  delta : k'.delta = k.delta
  time : k'.time = k.time
  kteSoftirq : k'.kteSoftirq = k.kteSoftirq
  requested : k'.requested = k.requested
  num : k'.eventTable.num = k.eventTable.num
  live : ∀ e, k'.eventTable.live e = k.eventTable.live e

theorem Retimed.refl (k : Ktimer α) : Retimed k k :=
  ⟨rfl, rfl, rfl, rfl, rfl, rfl, rfl, rfl, fun _ => rfl⟩

theorem Retimed.trans (h1 : Retimed k k') (h2 : Retimed k' k'') : Retimed k k'' :=
  ⟨h2.queue.trans h1.queue, h2.now.trans h1.now, h2.enabled.trans h1.enabled,
    h2.delta.trans h1.delta, h2.time.trans h1.time, h2.kteSoftirq.trans h1.kteSoftirq,
    h2.requested.trans h1.requested, h2.num.trans h1.num,
    fun e => (h2.live e).trans (h1.live e)⟩

theorem setDelta_retimed (k : Ktimer α) (e : KteRef) (d : Word) : Retimed k (k.setDelta e d) :=
  ⟨rfl, rfl, rfl, rfl, rfl, rfl, rfl, rfl, fun _ => rfl⟩

theorem recalc_retimed (l : List KteRef) (k : Ktimer α) (d : Word) : Retimed k (k.recalc l d) := by
  induction l generalizing k d with
  | nil => exact .refl k
  | cons e l ih =>
    exact (setDelta_retimed k e _).trans (ih _ d)

/-- `ktimer_event_recalc` takes the new delta off every event of the list. -/
theorem deltaOf_recalc (l : List KteRef) (k : Ktimer α) (d : Word) (x : KteRef) (hnd : l.Nodup) :
    (k.recalc l d).deltaOf x = if x ∈ l then k.deltaOf x - d else k.deltaOf x := by
  induction l generalizing k d x with
  | nil => rfl
  | cons e l ih =>
    obtain ⟨he, hnd⟩ := List.nodup_cons.mp hnd
    show ((k.setDelta e (k.deltaOf e - d)).recalc l d).deltaOf x = _
    rw [ih _ _ _ hnd, deltaOf_setDelta]
    by_cases hx : x = e
    · subst hx
      rw [if_neg he, if_pos rfl, if_pos List.mem_cons_self]
    · simp [hx]

/-! ## Delays -/

/-- The delay of the last event of a part of the queue from its head, in ticks. -/
def delay (delta : KteRef → Word) (l : List KteRef) : Nat := (l.map fun e => (delta e).toNat).sum

@[simp] theorem delay_nil (delta : KteRef → Word) : delay delta [] = 0 := rfl

@[simp] theorem delay_cons (delta : KteRef → Word) (e : KteRef) (l : List KteRef) :
    delay delta (e :: l) = (delta e).toNat + delay delta l := rfl

@[simp] theorem delay_append (delta : KteRef → Word) (l m : List KteRef) :
    delay delta (l ++ m) = delay delta l + delay delta m := by
  simp [delay]

theorem delay_congr {delta : KteRef → Word} (h : ∀ e ∈ l, delta' e = delta e) :
    delay delta' l = delay delta l := by
  unfold delay
  rw [List.map_congr_left fun e he => by rw [h e he]]

theorem delay_zero {delta : KteRef → Word} (h : ∀ e ∈ l, delta e = 0#32) : delay delta l = 0 := by
  have heq : delay delta l = delay (fun _ => 0#32) l := delay_congr h
  rw [heq]
  unfold delay
  simp

theorem delay_mono {delta : KteRef → Word} (h : ∀ e ∈ l, (delta' e).toNat ≤ (delta e).toNat) :
    delay delta' l ≤ delay delta l := by
  induction l with
  | nil => exact Nat.le_refl _
  | cons e l ih =>
    have h1 := h e List.mem_cons_self
    have h2 := ih fun x hx => h x (List.mem_cons_of_mem _ hx)
    simp only [delay_cons]
    omega

/-- The cumulative delay of a queued event: the sum of the deltas from the head of the
queue up to and including its own. -/
def delayTo (k : Ktimer α) (e : KteRef) : Nat :=
  delay k.deltaOf (k.eventQueue.takeWhile fun x => decide (x ≠ e)) + (k.deltaOf e).toNat

theorem delayTo_eq (h : k.eventQueue = pre ++ e :: post) (he : e ∉ pre) :
    k.delayTo e = delay k.deltaOf pre + (k.deltaOf e).toNat := by
  have htake : (pre ++ e :: post).takeWhile (fun x => decide (x ≠ e)) = pre := by
    rw [List.takeWhile_append_of_pos, List.takeWhile_cons_of_neg (by simp), List.append_nil]
    intro x hx
    exact decide_eq_true fun hxe => he (hxe ▸ hx)
  unfold delayTo
  rw [h, htake]

/-! ## The search -/

/-- The events before the new one, its distance from the last of them, and the events
behind it. -/
def place (delta : KteRef → Word) (ticks : Word) :
    List KteRef → List KteRef × Word × List KteRef
  | [] => ([], ticks, [])
  | head :: rest =>
    if delta head ≤ ticks then scheduleSearch delta ticks 0#32 (head :: rest)
    else ([], ticks, head :: rest)

section

variable (delta : KteRef → Word)
include delta

theorem scheduleSearch_append (ticks : Word) (l : List KteRef) (etime : Word) :
    (scheduleSearch delta ticks etime l).1 ++ (scheduleSearch delta ticks etime l).2.2 = l := by
  induction l generalizing etime with
  | nil => rfl
  | cons e l ih =>
    unfold scheduleSearch
    cases l with
    | nil => rfl
    | cons next l =>
      dsimp only
      split
      · show e :: (_ ++ _) = _
        rw [ih]
      · rfl

theorem scheduleSearch_ne_nil (ticks etime : Word) (e : KteRef) (l : List KteRef) :
    (scheduleSearch delta ticks etime (e :: l)).1 ≠ [] := by
  unfold scheduleSearch
  cases l with
  | nil => simp
  | cons next l =>
    dsimp only
    split <;> simp

theorem place_cons (ticks : Word) (head : KteRef) (rest : List KteRef) :
    place delta ticks (head :: rest) =
      if delta head ≤ ticks then scheduleSearch delta ticks 0#32 (head :: rest)
      else ([], ticks, head :: rest) := rfl

theorem place_append (ticks : Word) (l : List KteRef) :
    (place delta ticks l).1 ++ (place delta ticks l).2.2 = l := by
  cases l with
  | nil => rfl
  | cons e l =>
    rw [place_cons]
    split
    · exact scheduleSearch_append delta ticks _ _
    · rfl

end

/-- A place for an event that is due after `ticks`: `d` is the distance from the event
before it, and no more than that of the next one. The sum of the delays before it is the
one the machine computes. -/
structure Found (delta : KteRef → Word) (ticks : Word) (start : Nat) (before : List KteRef)
    (d : Word) (after : List KteRef) : Prop where
  le : (start + delay delta before) % 2 ^ 32 ≤ ticks.toNat
  dist : d.toNat = ticks.toNat - (start + delay delta before) % 2 ^ 32
  next : ∀ e, after.head? = some e → d.toNat ≤ (delta e).toNat

theorem scheduleSearch_found (delta : KteRef → Word) (ticks : Word) :
    ∀ (l : List KteRef) (e : KteRef) (etime : Word), etime + delta e ≤ ticks →
      Found delta ticks etime.toNat (scheduleSearch delta ticks etime (e :: l)).1
        (scheduleSearch delta ticks etime (e :: l)).2.1
        (scheduleSearch delta ticks etime (e :: l)).2.2 := by
  intro l
  induction l with
  | nil =>
    intro e etime hle
    have hd : (ticks - (etime + delta e)).toNat =
        ticks.toNat - (etime.toNat + (delta e).toNat) % 2 ^ 32 := by
      rw [BitVec.toNat_sub_of_le (by rw [BitVec.le_def, BitVec.toNat_add]; exact hle),
        BitVec.toNat_add]
    exact ⟨hle, hd, fun x hx => absurd hx (by simp [scheduleSearch])⟩
  | cons next l ih =>
    intro e etime hle
    unfold scheduleSearch
    dsimp only
    split
    · rename_i hlt
      have hrec := ih next (etime + delta e) (BitVec.le_of_lt hlt)
      have hsum : ∀ n, ((etime + delta e).toNat + n) % 2 ^ 32 =
          (etime.toNat + ((delta e).toNat + n)) % 2 ^ 32 := by
        intro n
        rw [BitVec.toNat_add, Nat.mod_add_mod, Nat.add_assoc]
      refine ⟨?_, ?_, hrec.next⟩
      · rw [delay_cons, ← hsum]
        exact hrec.le
      · rw [delay_cons, ← hsum]
        exact hrec.dist
    · rename_i hge
      rw [BitVec.not_lt, BitVec.le_def, BitVec.toNat_add] at hge
      have hd : (ticks - (etime + delta e)).toNat =
          ticks.toNat - (etime.toNat + (delta e).toNat) % 2 ^ 32 := by
        rw [BitVec.toNat_sub_of_le hle, BitVec.toNat_add]
      refine ⟨hle, hd, ?_⟩
      intro x hx
      injection hx with hx
      subst hx
      -- the wrapped sum is no more than the exact one
      have := Nat.mod_le ((etime + delta e).toNat + (delta next).toNat) (2 ^ 32)
      rw [BitVec.toNat_add] at this hge
      show (ticks - (etime + delta e)).toNat ≤ (delta next).toNat
      omega

theorem place_found (delta : KteRef → Word) (ticks : Word) (l : List KteRef) :
    Found delta ticks 0 (place delta ticks l).1 (place delta ticks l).2.1
      (place delta ticks l).2.2 := by
  cases l with
  | nil => exact ⟨by simp [place], by simp [place], fun e he => absurd he (by simp [place])⟩
  | cons e l =>
    rw [place_cons]
    split
    · rename_i hle
      have := scheduleSearch_found delta ticks l e 0#32 (by rw [BitVec.zero_add]; exact hle)
      rwa [BitVec.toNat_ofNat, Nat.zero_mod] at this
    · rename_i hlt
      rw [BitVec.not_le, BitVec.lt_def] at hlt
      refine ⟨by simp, by simp, fun x hx => ?_⟩
      injection hx with hx
      subst hx
      exact hlt.le

/-- An event at the head of the queue is due before the old head. -/
theorem place_head {delta : KteRef → Word} (h : (place delta ticks l).1 = [])
    (he : l.head? = some e) : ticks < delta e ∧ (place delta ticks l).2 = (ticks, l) := by
  obtain ⟨rest, rfl⟩ := List.head?_eq_some_iff.mp he
  rw [place_cons] at h ⊢
  by_cases hle : delta e ≤ ticks
  · rw [if_pos hle] at h
    exact absurd h (scheduleSearch_ne_nil _ _ _ _ _)
  · rw [if_neg hle]
    exact ⟨BitVec.not_le.mp hle, rfl⟩

/-! ## Rounding -/

/-- The coalescing of `ktimer_event_schedule`. The comparison is signed. -/
def coalesce (d : Word) : Word := if d.slt configKtimerMinticks then 0#32 else d

theorem coalesce_toNat (d : Word) : (coalesce d).toNat =
    if 128 ≤ d.toNat ∧ d.toNat < 2 ^ 31 then d.toNat else 0 := by
  have hslt : d.slt configKtimerMinticks = true ↔ ¬ (128 ≤ d.toNat ∧ d.toNat < 2 ^ 31) := by
    rw [BitVec.slt_eq_decide, decide_eq_true_eq]
    have h128 : configKtimerMinticks.toInt = 128 := rfl
    rw [h128, BitVec.toInt_eq_toNat_cond]
    split <;> omega
  unfold coalesce
  by_cases h : 128 ≤ d.toNat ∧ d.toNat < 2 ^ 31
  · rw [if_pos h, if_neg (fun hs => hslt.mp hs h)]
  · rw [if_neg h, if_pos (hslt.mpr h)]
    rfl

theorem coalesce_le (d : Word) : (coalesce d).toNat ≤ d.toNat := by
  rw [coalesce_toNat]
  split
  · exact Nat.le_refl _
  · exact Nat.zero_le _

/-! ## What scheduling does -/

/-- The ticks from the start of the countdown to the requested time, as the source
computes them. -/
def relative (k : Ktimer α) (ticks : Word) : Word := ticks - BitVec.ofNat 32 k.time

/-- `kte` has been put between `before` and `after` at distance `d`. -/
structure Scheduled (k k' : Ktimer α) (ticks : Word) (kte : KteRef) (before : List KteRef)
    (d : Word) (after : List KteRef) : Prop where
  queue : k.eventQueue = before ++ after
  queue' : k'.eventQueue = before ++ kte :: after
  new : k'.deltaOf kte = d
  behind : ∀ e ∈ after, k'.deltaOf e = k.deltaOf e - d
  others : ∀ e, e ≠ kte → e ∉ after → k'.deltaOf e = k.deltaOf e
  now : k'.now = k.now
  kteSoftirq : k'.kteSoftirq = k.kteSoftirq
  requested : ∀ e, k'.requested e = if e = kte then k.now + ticks.toNat else k.requested e
  num : k'.eventTable.num = k.eventTable.num
  live : ∀ e, k'.eventTable.live e = k.eventTable.live e
  started : before = [] → k.enabled = false →
    k'.enabled = true ∧ k'.delta = k.relative ticks ∧ k'.time = 0
  running : before ≠ [] ∨ k.enabled = true →
    k'.enabled = k.enabled ∧ k'.delta = k.delta ∧ k'.time = k.time

theorem enable_of_enabled {d : Word} (h : k.enabled = true) : k.enable d = k := by
  unfold enable
  rw [if_pos h]

theorem enable_of_disabled {d : Word} (h : k.enabled = false) :
    k.enable d = { k with delta := d, time := 0, enabled := true } := by
  unfold enable
  rw [if_neg (by rw [h]; simp)]

/-- The delta that the new event gets. -/
def newDelta (k : Ktimer α) (ticks : Word) : Word :=
  match k.eventQueue with
  | [] => k.relative ticks
  | _ :: _ => coalesce (place k.deltaOf (k.relative ticks) k.eventQueue).2.1

theorem newDelta_le (k : Ktimer α) (ticks : Word) : (k.newDelta ticks).toNat ≤
    (place k.deltaOf (k.relative ticks) k.eventQueue).2.1.toNat := by
  unfold newDelta
  cases hq : k.eventQueue with
  | nil => exact Nat.le_refl _
  | cons head rest => exact coalesce_le _

/-- The new event is coalesced: there is a queue, and the distance from the event before the
place is below `CONFIG_KTIMER_MINTICKS` as a signed number. -/
def Coalesced (k : Ktimer α) (ticks : Word) : Prop :=
  k.eventQueue ≠ [] ∧
    (place k.deltaOf (k.relative ticks) k.eventQueue).2.1.slt configKtimerMinticks = true

instance (k : Ktimer α) (ticks : Word) : Decidable (k.Coalesced ticks) := by
  unfold Coalesced
  infer_instance

/-- Chaining the event in, with the recalculation of those behind it. -/
def chainIn (k : Ktimer α) (kte : KteRef) (before : List KteRef) (d : Word)
    (after : List KteRef) : Ktimer α :=
  recalc (setDelta { k with eventQueue := before ++ kte :: after } kte d) after d

theorem chainIn_retimed (k : Ktimer α) (kte : KteRef) (before : List KteRef) (d : Word)
    (after : List KteRef) :
    Retimed { k with eventQueue := before ++ kte :: after } (k.chainIn kte before d after) :=
  (setDelta_retimed _ kte d).trans (recalc_retimed after _ d)

theorem deltaOf_chainIn {before after : List KteRef} {d : Word} (x : KteRef) (hnd : after.Nodup)
    (hk : kte ∉ after) : (k.chainIn kte before d after).deltaOf x =
      if x ∈ after then k.deltaOf x - d else if x = kte then d else k.deltaOf x := by
  unfold chainIn
  rw [deltaOf_recalc _ _ _ _ hnd, deltaOf_setDelta]
  have hrest : deltaOf { k with eventQueue := before ++ kte :: after } x = k.deltaOf x := rfl
  rw [hrest]
  by_cases hx : x ∈ after
  · have hne : x ≠ kte := fun h => hk (by rw [← h]; exact hx)
    rw [if_pos hx, if_pos hx, if_neg hne]
  · rw [if_neg hx, if_neg hx]

/-- The record of the request. -/
def request (k : Ktimer α) (ticks : Word) (kte : KteRef) : Ktimer α :=
  { k with requested := fun e => if e = kte then k.now + ticks.toNat else k.requested e }

/-- The countdown is started, if it does not run, for an event at the head. -/
def startAtHead (k : Ktimer α) (ticks : Word) (before : List KteRef) : Ktimer α :=
  if before = [] then k.enable ticks else k

theorem eventSchedule_eq (ht : ticks ≠ 0#32) : (k.eventSchedule ticks kte).2 =
    ((k.request ticks kte).startAtHead (k.relative ticks)
      (place k.deltaOf (k.relative ticks) k.eventQueue).1).chainIn kte
        (place k.deltaOf (k.relative ticks) k.eventQueue).1 (k.newDelta ticks)
        (place k.deltaOf (k.relative ticks) k.eventQueue).2.2 := by
  unfold eventSchedule
  rw [if_neg ht]
  obtain ⟨table, queue, now, enabled, delta, time, softirq, requested⟩ := k
  cases queue with
  | nil => cases enabled <;> rfl
  | cons head rest =>
    unfold newDelta
    dsimp only
    rw [place_cons]
    split
    · rename_i hle
      have hle' : deltaOf ⟨table, head :: rest, now, enabled, delta, time, softirq, requested⟩
          head ≤ relative ⟨table, head :: rest, now, enabled, delta, time, softirq, requested⟩
            ticks := hle
      rw [if_pos hle']
      unfold startAtHead
      rw [if_neg (scheduleSearch_ne_nil _ _ _ _ _)]
      rfl
    · rename_i hle
      have hle' : ¬ deltaOf ⟨table, head :: rest, now, enabled, delta, time, softirq, requested⟩
          head ≤ relative ⟨table, head :: rest, now, enabled, delta, time, softirq, requested⟩
            ticks := hle
      rw [if_neg hle']
      rfl

/-- What `ktimer_event_schedule` does with an event that is not queued. -/
theorem eventSchedule_spec (ht : ticks ≠ 0#32) (hnd : k.eventQueue.Nodup)
    (hk : kte ∉ k.eventQueue) :
    Scheduled k (k.eventSchedule ticks kte).2 ticks kte
      (place k.deltaOf (k.relative ticks) k.eventQueue).1 (k.newDelta ticks)
      (place k.deltaOf (k.relative ticks) k.eventQueue).2.2 := by
  have happ := place_append k.deltaOf (k.relative ticks) k.eventQueue
  rw [eventSchedule_eq ht]
  generalize k.newDelta ticks = d
  generalize hb : (place k.deltaOf (k.relative ticks) k.eventQueue).1 = before at happ ⊢
  generalize ha : (place k.deltaOf (k.relative ticks) k.eventQueue).2.2 = after at happ ⊢
  rw [← happ] at hnd hk
  have hnd' : after.Nodup := (List.nodup_append.mp hnd).2.1
  have hk' : kte ∉ after := fun h => hk (List.mem_append_right _ h)
  generalize hk1 : (k.request ticks kte).startAtHead (k.relative ticks) before = k1
  have hre := chainIn_retimed k1 kte before d after
  -- starting the countdown touches neither the table nor the record of requests
  have htable : k1.eventTable = k.eventTable ∧ k1.now = k.now ∧ k1.kteSoftirq = k.kteSoftirq ∧
      k1.requested = (k.request ticks kte).requested := by
    rw [← hk1]
    unfold startAtHead enable
    split
    · split <;> exact ⟨rfl, rfl, rfl, rfl⟩
    · exact ⟨rfl, rfl, rfl, rfl⟩
  obtain ⟨htable, hnow, hirq, hreq⟩ := htable
  have hdelta : ∀ x, k1.deltaOf x = k.deltaOf x := fun x => by
    unfold deltaOf
    rw [htable]
  refine ⟨happ.symm, hre.queue, ?_, ?_, ?_, hre.now.trans hnow, hre.kteSoftirq.trans hirq, ?_,
    ?_, ?_, ?_, ?_⟩
  · rw [deltaOf_chainIn _ hnd' hk', if_neg hk', if_pos rfl]
  · intro e he
    rw [deltaOf_chainIn _ hnd' hk', if_pos he, hdelta]
  · intro e hne he
    rw [deltaOf_chainIn _ hnd' hk', if_neg he, if_neg hne, hdelta]
  · intro e
    rw [hre.requested, hreq]
    rfl
  · rw [hre.num]
    show k1.eventTable.num = _
    rw [htable]
  · intro e
    rw [hre.live]
    show k1.eventTable.live e = _
    rw [htable]
  · intro hnil hoff
    rw [hre.enabled, hre.delta, hre.time, ← hk1]
    unfold startAtHead
    rw [if_pos hnil, enable_of_disabled (by exact hoff)]
    exact ⟨rfl, rfl, rfl⟩
  · intro hrun
    rw [hre.enabled, hre.delta, hre.time, ← hk1]
    unfold startAtHead
    by_cases hnil : before = []
    · rw [if_pos hnil, enable_of_enabled (by exact hrun.resolve_left fun h => h hnil)]
      exact ⟨rfl, rfl, rfl⟩
    · rw [if_neg hnil]
      exact ⟨rfl, rfl, rfl⟩

section

variable {before after : List KteRef} {d : Word} (h : Scheduled k k' ticks kte before d after)
include h

theorem Scheduled.nodup (hnd : k.eventQueue.Nodup) (hk : kte ∉ k.eventQueue) :
    k'.eventQueue.Nodup := by
  rw [h.queue] at hnd hk
  rw [h.queue']
  exact List.nodup_middle.mpr (List.nodup_cons.mpr ⟨hk, hnd⟩)

theorem Scheduled.perm : k'.eventQueue.Perm (kte :: k.eventQueue) := by
  rw [h.queue, h.queue']
  exact List.perm_middle

/-- An event of a scheduled queue that is not behind the new one keeps its delta. -/
theorem Scheduled.kept (hnd : k.eventQueue.Nodup) (hk : kte ∉ k.eventQueue) (he : e ∈ before) :
    k'.deltaOf e = k.deltaOf e := by
  rw [h.queue] at hnd hk
  refine h.others e ?_ ?_
  · rintro rfl
    exact hk (List.mem_append_left _ he)
  · intro hafter
    exact (List.nodup_append.mp hnd).2.2 e he e hafter rfl

end

section

variable {before after : List KteRef} {d : Word}

theorem Scheduled.delayTo_before (h : Scheduled k k' ticks kte before d after)
    (hnd : k.eventQueue.Nodup) (hk : kte ∉ k.eventQueue) (he : e ∈ before) :
    k'.delayTo e = k.delayTo e := by
  obtain ⟨pre, post, rfl⟩ := List.append_of_mem he
  have hpre : e ∉ pre := by
    intro hep
    have := h.queue
    rw [this, List.append_assoc] at hnd
    exact (List.nodup_append.mp hnd).2.2 e hep e (by simp) rfl
  have hkept : ∀ x ∈ pre ++ [e], k'.deltaOf x = k.deltaOf x := by
    intro x hx
    refine h.kept hnd hk ?_
    grind
  have hq : k.eventQueue = pre ++ e :: (post ++ after) := by
    rw [h.queue]
    simp
  have hq' : k'.eventQueue = pre ++ e :: (post ++ kte :: after) := by
    rw [h.queue']
    simp
  rw [delayTo_eq hq hpre, delayTo_eq hq' hpre, hkept e (by simp),
    delay_congr fun x hx => hkept x (by simp [hx])]

/-- The delays of the events behind the new one: the sum of the deltas between counts. -/
theorem Scheduled.delayTo_after (h : Scheduled k k' ticks kte before d after)
    (hnd : k.eventQueue.Nodup) (hk : kte ∉ k.eventQueue) (ha : after = pre ++ e :: post) :
    k.delayTo e = delay k.deltaOf before + (delay k.deltaOf pre + (k.deltaOf e).toNat) ∧
      k'.delayTo e = delay k.deltaOf before + d.toNat +
        (delay k'.deltaOf pre + (k'.deltaOf e).toNat) := by
  have hq : k.eventQueue = (before ++ pre) ++ e :: post := by
    rw [h.queue, ha]
    simp
  have hq' : k'.eventQueue = (before ++ kte :: pre) ++ e :: post := by
    rw [h.queue', ha]
    simp
  have hmem : e ∈ k.eventQueue := by rw [hq]; simp
  have hnd' := hnd
  rw [hq] at hnd'
  have hpre : e ∉ before ++ pre := fun hep =>
    (List.nodup_append.mp hnd').2.2 e hep e List.mem_cons_self rfl
  have hek : e ≠ kte := fun hek => hk (hek ▸ hmem)
  have hbefore : delay k'.deltaOf before = delay k.deltaOf before :=
    delay_congr fun x hx => h.kept hnd hk hx
  constructor
  · rw [delayTo_eq hq hpre, delay_append]
    omega
  · rw [delayTo_eq hq', delay_append, delay_cons, hbefore, h.new]
    · omega
    · simp only [List.mem_append, List.mem_cons, not_or] at hpre ⊢
      exact ⟨hpre.1, hek, hpre.2⟩

theorem newDelta_eq_zero_iff (hq : k.eventQueue = head :: rest) : k.newDelta ticks = 0#32 ↔
      (place k.deltaOf (k.relative ticks) k.eventQueue).2.1.slt configKtimerMinticks = true := by
  unfold newDelta
  rw [hq]
  dsimp only
  rw [← hq]
  generalize (place k.deltaOf (k.relative ticks) k.eventQueue).2.1 = dist
  unfold coalesce
  by_cases h : dist.slt configKtimerMinticks = true
  · simp [h]
  · rw [if_neg h]
    constructor
    · rintro rfl
      exact absurd rfl h
    · exact fun hs => absurd hs h

end

theorem relative_of_idle (h : k.time = 0) : k.relative ticks = ticks := by
  unfold relative
  rw [h]
  simp

theorem eventSchedule_zero : (k.eventSchedule 0#32 kte).2 = k := by
  unfold eventSchedule
  rw [if_pos rfl]

/-! ## The handler -/

theorem eventCreate_cases (k : Ktimer α) (ticks : Word) (handler : α) :
    (k.eventCreate ticks handler).2 = k ∨
    ∃ e table, k.eventTable.alloc = some (e, table) ∧ (k.eventCreate ticks handler).2 =
      (eventSchedule { k with
        eventTable := table.write e { table.data e with handler := handler } } ticks e).2 := by
  unfold eventCreate
  cases halloc : k.eventTable.alloc with
  | none => exact .inl rfl
  | some p => exact .inr ⟨p.1, p.2, rfl, rfl⟩

theorem due_append {p : KteRef → Bool} (hq : k.eventQueue = head :: rest) :
    head :: rest.takeWhile p ++ rest.dropWhile p = k.eventQueue := by
  rw [List.cons_append, List.takeWhile_append_dropWhile, hq]

/-- The stages of a run of the handler. -/
theorem eventHandler_cases {run : σ → α → Except Fault (Word × σ)} {st st' : σ}
    (h : eventHandler run st k = .ok (st', k')) :
    (k.eventQueue = [] ∧ st' = st ∧ k' = k.disable) ∨
    ∃ head rest k1, k.eventQueue = head :: rest ∧
      handleEvents run (head :: rest.takeWhile fun e => decide (k.deltaOf e = 0#32)) st
        { k with eventQueue := rest.dropWhile fun e => decide (k.deltaOf e = 0#32) } =
          .ok (st', k1) ∧
      ((k1.eventQueue = [] ∧ k' = k1) ∨
        ∃ event tail, k1.eventQueue = event :: tail ∧ k' = k1.enable (k1.deltaOf event)) := by
  unfold eventHandler at h
  cases hq : k.eventQueue with
  | nil =>
    rw [hq] at h
    injection h with h
    injection h with hst hk
    exact .inl ⟨rfl, hst.symm, hk.symm⟩
  | cons head rest =>
    rw [hq] at h
    obtain ⟨⟨st1, k1⟩, hloop, h⟩ := bind_ok.mp h
    dsimp only at h
    right
    cases hq1 : k1.eventQueue with
    | nil =>
      rw [hq1] at h
      obtain ⟨h1, h2⟩ := pure_pair.mp h
      subst h1
      exact ⟨head, rest, k1, rfl, hloop, .inl ⟨hq1, h2.symm⟩⟩
    | cons event tail =>
      rw [hq1] at h
      obtain ⟨h1, h2⟩ := pure_pair.mp h
      subst h1
      exact ⟨head, rest, k1, rfl, hloop, .inr ⟨event, tail, hq1, h2.symm⟩⟩

end Ktimer

end F9
