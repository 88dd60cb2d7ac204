import F9.Logic.TimerInv

/-!
# Insertion into the event queue

The insertion into a delta queue has to take the new delta off the next event.
`ktimer_event_recalc` takes it off all events behind the new one, so the second and
later ones move. `timer_insert_frame` says for every queue when nothing moves.

Deltas count from the start of the countdown, so a request made later has to be
lengthened by the elapsed time. `ktimer_event_schedule` shortens it instead, and the
event is due too early by twice that time (`expiry_eventSchedule`).
`timer_event_on_time` says when the event is due when asked.
-/

namespace F9

namespace Ktimer

variable {α : Type} {k k' : Ktimer α} {ticks : Word} {kte : KteRef}

/-- The events that were queued keep their cumulative delays, and no subtraction of
deltas wraps. -/
structure OthersKept (k k' : Ktimer α) (ticks : Word) (kte : KteRef) : Prop where
  delays : ∀ e ∈ k.eventQueue, k'.delayTo e = k.delayTo e
  noWrap : ∀ e ∈ k.eventQueue, k'.deltaOf e ≤ k.deltaOf e
  new : k'.deltaOf kte ≤ k.relative ticks

/-- At most one event is behind the place of the new one, or this place is so close to the
event before it that the delta is rounded to 0. -/
def OneBehind (k : Ktimer α) (ticks : Word) : Prop :=
  (place k.deltaOf (k.relative ticks) k.eventQueue).2.2.length ≤ 1 ∨
    (place k.deltaOf (k.relative ticks) k.eventQueue).2.1.slt configKtimerMinticks = true

instance (k : Ktimer α) (ticks : Word) : Decidable (k.OneBehind ticks) := by
  unfold OneBehind
  infer_instance

theorem reachable_creates (ts : List Word) : (system Unit).Reachable (fun _ _ => True)
    (ts.foldl (fun k t => (k.eventCreate t ()).2) (initial ⟨(), 0#32⟩)) := by
  have hrun : ∀ k, (system Unit).Reachable (fun _ _ => True) k → (system Unit).Reachable
      (fun _ _ => True) (ts.foldl (fun k t => (k.eventCreate t ()).2) k) := by
    induction ts with
    | nil => exact fun _ hk => hk
    | cons t ts ih => exact fun k hk => ih _ (.step hk trivial .create)
  exact hrun _ (.init ⟨_, rfl⟩)

end Ktimer

open Ktimer in
/-- Scheduling an event leaves the delays of all others as they are if and only if it has
at most one event behind it or is coalesced. -/
theorem timer_insert_frame {α : Type} {k : Ktimer α} {ticks : Word} {kte : KteRef}
    (ht : ticks ≠ 0#32) (hnd : k.eventQueue.Nodup) (hk : kte ∉ k.eventQueue) :
    OthersKept k (k.eventSchedule ticks kte).2 ticks kte ↔ k.OneBehind ticks := by
  have hs := eventSchedule_spec ht hnd hk
  have hf := place_found k.deltaOf (k.relative ticks) k.eventQueue
  have hd := newDelta_le k ticks
  have hle : k.newDelta ticks ≤ k.relative ticks := by
    have := hf.dist
    rw [BitVec.le_def]
    omega
  have hnext : ∀ e, (place k.deltaOf (k.relative ticks) k.eventQueue).2.2.head? = some e →
      k.newDelta ticks ≤ k.deltaOf e := by
    intro e he
    have := hf.next e he
    rw [BitVec.le_def]
    omega
  have hzero : k.eventQueue ≠ [] → (k.newDelta ticks = 0#32 ↔
      (place k.deltaOf (k.relative ticks) k.eventQueue).2.1.slt configKtimerMinticks = true) := by
    intro hne
    obtain ⟨head, rest, hq⟩ := List.exists_cons_of_ne_nil hne
    exact newDelta_eq_zero_iff hq
  unfold OneBehind
  clear hd hf
  generalize k.newDelta ticks = d at hs hle hnext hzero
  generalize (place k.deltaOf (k.relative ticks) k.eventQueue).1 = before at hs
  generalize (place k.deltaOf (k.relative ticks) k.eventQueue).2.2 = after at hs hnext ⊢
  generalize (k.eventSchedule ticks kte).2 = k' at hs ⊢
  constructor
  · intro hkept
    by_contra hno
    rw [not_or] at hno
    -- two events behind: the second one loses the delta
    obtain ⟨a, b, rest, rfl⟩ : ∃ a b rest, after = a :: b :: rest := by
      rcases after with _ | ⟨a, _ | ⟨b, rest⟩⟩
      · exact absurd (Nat.zero_le 1) hno.1
      · exact absurd (Nat.le_refl 1) hno.1
      · exact ⟨a, b, rest, rfl⟩
    have hne : k.eventQueue ≠ [] := by rw [hs.queue]; simp
    have hd : d ≠ 0#32 := fun hd => hno.2 ((hzero hne).mp hd)
    obtain ⟨h1, h2⟩ := hs.delayTo_after (e := b) hnd hk (List.singleton_append).symm
    have hdelay := hkept.delays b (by rw [hs.queue]; simp)
    have ha : (k'.deltaOf a).toNat = (k.deltaOf a).toNat - d.toNat := by
      rw [hs.behind a (by simp), BitVec.toNat_sub_of_le (hnext a rfl)]
    have hda := hnext a rfl
    rw [BitVec.le_def] at hda
    have hsame : k'.deltaOf b = k.deltaOf b := by
      apply BitVec.eq_of_toNat_eq
      simp only [delay_cons, delay_nil] at h1 h2
      omega
    rw [hs.behind b (by simp)] at hsame
    exact hd (by bv_omega)
  · intro hone
    -- the events behind lose a delta of 0, or there is only one of them
    have hbehind : ∀ pre e post, after = pre ++ e :: post → k'.deltaOf e ≤ k.deltaOf e ∧
        d.toNat + (delay k'.deltaOf pre + (k'.deltaOf e).toNat) =
          delay k.deltaOf pre + (k.deltaOf e).toNat := by
      intro pre e post ha
      have hne : k.eventQueue ≠ [] := by rw [hs.queue, ha]; simp
      rcases hone with hlen | hslt
      · have hpre : pre = [] := by
          rw [ha, List.length_append, List.length_cons] at hlen
          exact List.length_eq_zero_iff.mp (by omega)
        subst hpre
        have hde := hnext e (by rw [ha]; rfl)
        rw [hs.behind e (by rw [ha]; simp), BitVec.le_def, BitVec.toNat_sub_of_le hde]
        rw [BitVec.le_def] at hde
        simp only [delay_nil]
        omega
      · have hd := (hzero hne).mpr hslt
        have hsame : ∀ x ∈ after, k'.deltaOf x = k.deltaOf x := by
          intro x hx
          rw [hs.behind x hx, hd, BitVec.sub_zero]
        rw [hsame e (by rw [ha]; simp),
          delay_congr fun x hx => hsame x (by rw [ha]; exact List.mem_append_left _ hx), hd]
        exact ⟨BitVec.le_refl _, Nat.zero_add _⟩
    refine ⟨?_, ?_, by rw [hs.new]; exact hle⟩
    · intro e he
      rw [hs.queue] at he
      rcases List.mem_append.mp he with he | he
      · exact hs.delayTo_before hnd hk he
      · obtain ⟨pre, post, ha⟩ := List.append_of_mem he
        obtain ⟨h1, h2⟩ := hs.delayTo_after hnd hk ha
        have := (hbehind pre e post ha).2
        omega
    · intro e he
      rw [hs.queue] at he
      rcases List.mem_append.mp he with he | he
      · rw [hs.kept hnd hk he]
        exact BitVec.le_refl _
      · obtain ⟨pre, post, ha⟩ := List.append_of_mem he
        exact (hbehind pre e post ha).1

/-- An event between the two that are queued. -/
theorem timer_insert_frame_between : ∃ k : Ktimer Unit,
    (Ktimer.system Unit).Reachable (fun _ _ => True) k ∧ k.eventQueue = [0, 1] ∧
    Ktimer.OthersKept k (k.eventSchedule 1500#32 2).2 1500#32 2 := by
  exact ⟨_, Ktimer.reachable_creates [1000#32, 2000#32], by decide,
    (timer_insert_frame (by decide) (by decide) (by decide)).mpr (by decide)⟩

/-- Three events at 1000, 2000 and 2200: one at 500 moves the second to 1500, and the delta
of the third wraps. -/
theorem timer_insert_moves_others : ∃ k : Ktimer Unit,
    (Ktimer.system Unit).Reachable (fun _ _ => True) k ∧ k.eventQueue = [0, 1, 2] ∧
    k.delayTo 1 = 2000 ∧ (k.eventSchedule 500#32 3).2.delayTo 1 = 1500 ∧
    k.deltaOf 2 = 200#32 ∧ (k.eventSchedule 500#32 3).2.deltaOf 2 = 0xfffffed4#32 := by
  exact ⟨_, Ktimer.reachable_creates [1000#32, 2000#32, 2200#32], by decide, by decide, by decide,
    by decide, by decide⟩

/-! ## The new event -/

namespace Ktimer

variable {α : Type} {k k' : Ktimer α} {ticks : Word} {kte : KteRef}

/-- When a queued event expires. -/
def expiry (k : Ktimer α) (e : KteRef) : Int := k.now - k.time + k.delayTo e

/-- The new event expires when asked, or less than `CONFIG_KTIMER_MINTICKS` before that
because it has been coalesced. -/
def OnTime (k k' : Ktimer α) (ticks : Word) (kte : KteRef) : Prop :=
  k'.expiry kte = k.now + ticks.toNat ∨
    (k'.deltaOf kte = 0#32 ∧ k'.expiry kte < k.now + ticks.toNat ∧
      k.now + ticks.toNat < k'.expiry kte + configKtimerMinticks.toNat)

/-- By how many ticks the new event is too early: twice the elapsed time, and the distance
that coalescing drops. Each time the machine wraps around, in the subtraction of the elapsed
time or in the sum of the delays, makes it `2 ^ 32` ticks less. -/
def lost (k : Ktimer α) (ticks : Word) : Int :=
  2 * k.time +
    (if k.Coalesced ticks then
      (place k.deltaOf (k.relative ticks) k.eventQueue).2.1.toNat else 0 : Nat) -
    2 ^ 32 * ((if ticks.toNat < k.time then 1 else 0) +
      delay k.deltaOf (place k.deltaOf (k.relative ticks) k.eventQueue).1 / 2 ^ 32 : Nat)

theorem relative_toNat (ticks : Word) (h : k.time < 2 ^ 32) : ((k.relative ticks).toNat : Int) =
    ticks.toNat - k.time + 2 ^ 32 * (if ticks.toNat < k.time then 1 else 0 : Nat) := by
  unfold relative
  rw [BitVec.toNat_sub, BitVec.toNat_ofNat, Nat.mod_eq_of_lt h]
  split
  · omega
  · have : 2 ^ 32 - k.time + ticks.toNat = ticks.toNat - k.time + 2 ^ 32 := by omega
    omega

theorem newDelta_toNat (k : Ktimer α) (ticks : Word) :
    (k.newDelta ticks).toNat + (if k.Coalesced ticks then
      (place k.deltaOf (k.relative ticks) k.eventQueue).2.1.toNat else 0) =
      (place k.deltaOf (k.relative ticks) k.eventQueue).2.1.toNat := by
  by_cases hc : k.Coalesced ticks
  · obtain ⟨head, rest, hcons⟩ := List.exists_cons_of_ne_nil hc.1
    rw [if_pos hc, (newDelta_eq_zero_iff hcons).mpr hc.2]
    exact Nat.zero_add _
  · rw [if_neg hc, Nat.add_zero]
    unfold newDelta
    split
    · rename_i hq
      rw [hq]
      rfl
    · rename_i head rest hq
      unfold coalesce
      rw [if_neg fun hs => hc ⟨by rw [hq]; exact List.cons_ne_nil _ _, hs⟩]

theorem newDelta_zero_iff (h : Alive k) (ht : ticks ≠ 0#32) :
    k.newDelta ticks = 0#32 ↔ k.Coalesced ticks := by
  by_cases hq : k.eventQueue = []
  · have hoff : k.enabled = false := by
      by_contra hon
      exact h.queued (.inl (by simpa using hon)) hq
    have hnew : k.newDelta ticks = ticks := by
      unfold newDelta
      rw [hq]
      exact relative_of_idle (h.idle hoff)
    rw [hnew]
    exact ⟨fun h0 => absurd h0 ht, fun hc => absurd hq hc.1⟩
  · obtain ⟨head, rest, hcons⟩ := List.exists_cons_of_ne_nil hq
    rw [newDelta_eq_zero_iff hcons]
    exact ⟨fun hs => ⟨hq, hs⟩, fun hc => hc.2⟩

theorem expiry_eventSchedule (h : Alive k) (ht : ticks ≠ 0#32) (hk : kte ∉ k.eventQueue) :
    (k.eventSchedule ticks kte).2.expiry kte = k.now + ticks.toNat - k.lost ticks := by
  have hs := eventSchedule_spec ht h.nodup hk
  have hf := place_found k.deltaOf (k.relative ticks) k.eventQueue
  have hd := newDelta_toNat k ticks
  have htime : k.time < 2 ^ 32 := by
    by_cases hon : k.enabled = true
    · have := h.elapsed hon
      omega
    · rw [h.idle (by simpa using hon)]
      decide
  have hrel := relative_toNat ticks htime
  -- the elapsed time is the same after the call
  have htime' : (k.eventSchedule ticks kte).2.time = k.time := by
    by_cases hrun : (place k.deltaOf (k.relative ticks) k.eventQueue).1 ≠ [] ∨ k.enabled = true
    · exact (hs.running hrun).2.2
    · rw [not_or, not_not] at hrun
      have hoff : k.enabled = false := by simpa using hrun.2
      rw [(hs.started hrun.1 hoff).2.2, h.idle hoff]
  have hmem : kte ∉ (place k.deltaOf (k.relative ticks) k.eventQueue).1 := fun hb =>
    hk (by rw [hs.queue]; exact List.mem_append_left _ hb)
  have hdelay : delay (k.eventSchedule ticks kte).2.deltaOf
      (place k.deltaOf (k.relative ticks) k.eventQueue).1 =
      delay k.deltaOf (place k.deltaOf (k.relative ticks) k.eventQueue).1 :=
    delay_congr fun x hx => hs.kept h.nodup hk hx
  unfold expiry lost
  rw [delayTo_eq hs.queue' hmem, hs.new, hs.now, htime', hdelay]
  have hle := hf.le
  have hdist := hf.dist
  omega

end Ktimer

open Ktimer in
/-- In every state the timer can reach: a new event is due when asked if and only if no
ticks are lost, or so few by coalescing. -/
theorem timer_event_on_time {α : Type} {k : Ktimer α} {ticks : Word} {kte : KteRef}
    (h : (Ktimer.system α).Reachable (fun _ _ => True) k) (ht : ticks ≠ 0#32)
    (hk : kte ∉ k.eventQueue) :
    OnTime k (k.eventSchedule ticks kte).2 ticks kte ↔
      k.lost ticks = 0 ∨ (k.Coalesced ticks ∧ 0 < k.lost ticks ∧
        k.lost ticks < configKtimerMinticks.toNat) := by
  have hk1 := reachable_alive h
  have hs := eventSchedule_spec ht hk1.nodup hk
  unfold OnTime
  rw [hs.new, newDelta_zero_iff hk1 ht, expiry_eventSchedule hk1 ht hk]
  constructor
  · rintro (h1 | ⟨h1, h2, h3⟩)
    · exact .inl (by omega)
    · exact .inr ⟨h1, by omega, by omega⟩
  · rintro (h1 | ⟨h1, h2, h3⟩)
    · exact .inl (by omega)
    · exact .inr ⟨h1, by omega, by omega⟩

/-- An event between two others, with no tick elapsed. -/
theorem timer_event_on_time_between : ∃ k : Ktimer Unit,
    (Ktimer.system Unit).Reachable (fun _ _ => True) k ∧ k.eventQueue = [0, 1] ∧
    Ktimer.OnTime k (k.eventSchedule 1500#32 2).2 1500#32 2 := by
  have h2 := Ktimer.reachable_creates [1000#32, 2000#32]
  exact ⟨_, h2, by decide,
    (timer_event_on_time h2 (by decide) (by decide)).mpr (.inl (by decide))⟩

/-- One tick after the countdown for 1000 was started, an event is asked for in 500 ticks
and is due in 498. -/
theorem timer_event_early : ∃ k : Ktimer Unit,
    (Ktimer.system Unit).Reachable (fun _ _ => True) k ∧ k.eventQueue = [0] ∧ k.now = 1 ∧
    (k.eventSchedule 500#32 1).2.deltaOf 1 = 499#32 ∧
    (k.eventSchedule 500#32 1).2.expiry 1 = 499 := by
  have h1 := Ktimer.reachable_creates [1000#32]
  have h2 := TSys.Reachable.step h1 trivial Ktimer.Step.tick
  exact ⟨_, h2, by decide, by decide, by decide, by decide⟩

end F9
