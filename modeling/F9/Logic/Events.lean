import F9.Logic.Timer

/-!
# Stored events

An event that is queued, or that the handler is about to run, has an element of the event
table of its own (`Stored`). As long as it has, nothing but its own run changes its handler.
-/

namespace F9

open Result

variable {es : List KteRef} {e : KteRef} {σ : Type}

namespace Ktimer

variable {α : Type} {k k' : Ktimer α} {ticks : Word}

/-! ## Handlers -/

/-- The handler of an event. -/
def handlerOf (k : Ktimer α) (e : KteRef) : α := (k.eventTable.data e).handler

theorem handlerOf_setDelta (k : Ktimer α) (e x : KteRef) (d : Word) :
    (k.setDelta e d).handlerOf x = k.handlerOf x := by
  unfold handlerOf setDelta
  by_cases h : x = e
  · rw [h]
    simp
  · show ((k.eventTable.write e _).data x).handler = _
    rw [KTable.write_data_ne _ _ h]

theorem handlerOf_recalc (x : KteRef) (l : List KteRef) (k : Ktimer α) (d : Word) :
    (k.recalc l d).handlerOf x = k.handlerOf x := by
  induction l generalizing k d with
  | nil => rfl
  | cons e l ih =>
    show (recalc (k.setDelta e _) l d).handlerOf x = _
    rw [ih, handlerOf_setDelta]

theorem handlerOf_enable (k : Ktimer α) (d : Word) (x : KteRef) :
    (k.enable d).handlerOf x = k.handlerOf x := by
  unfold enable
  split <;> rfl

theorem handlerOf_eventSchedule (k : Ktimer α) (ticks : Word) (kte x : KteRef) :
    (k.eventSchedule ticks kte).2.handlerOf x = k.handlerOf x := by
  by_cases ht : ticks = 0#32
  · rw [ht, eventSchedule_zero]
  · rw [eventSchedule_eq ht]
    unfold chainIn startAtHead
    rw [handlerOf_recalc, handlerOf_setDelta]
    split
    · exact handlerOf_enable (k.request ticks kte) _ x
    · rfl

/-! ## Storage -/

/-- The events in `es` and on the queue are different and allocated. -/
structure Stored (es : List KteRef) (k : Ktimer α) : Prop where
  nodup : (es ++ k.eventQueue).Nodup
  live : ∀ e ∈ es ++ k.eventQueue, k.eventTable.live e = true

theorem Stored.congr (h : Stored es k) (hq : k'.eventQueue = k.eventQueue)
    (hlive : ∀ e, k'.eventTable.live e = k.eventTable.live e) : Stored es k' := by
  refine ⟨by rw [hq]; exact h.nodup, fun e he => ?_⟩
  rw [hq] at he
  rw [hlive]
  exact h.live e he

/-- Scheduling the next event moves it to the queue. -/
theorem Stored.scheduled (h : Stored (e :: es) k) (ht : ticks ≠ 0#32) :
    (es ++ (k.eventSchedule ticks e).2.eventQueue).Perm (e :: es ++ k.eventQueue) ∧
      ∀ x, (k.eventSchedule ticks e).2.eventTable.live x = k.eventTable.live x := by
  have hnd := h.nodup
  rw [List.cons_append, List.nodup_cons, List.mem_append, not_or] at hnd
  obtain ⟨⟨_, he⟩, hnd⟩ := hnd
  have hs := eventSchedule_spec ht (List.nodup_append.mp hnd).2.1 he
  exact ⟨(hs.perm.append_left es).trans List.perm_middle, hs.live⟩

theorem Stored.schedule (h : Stored (e :: es) k) (ht : ticks ≠ 0#32) :
    Stored es (k.eventSchedule ticks e).2 := by
  obtain ⟨hperm, hlive⟩ := h.scheduled ht
  refine ⟨hperm.nodup_iff.mpr h.nodup, fun x hx => ?_⟩
  rw [hlive]
  exact h.live x (hperm.mem_iff.mp hx)

theorem Stored.free (h : Stored (e :: es) k) :
    Stored es { k with eventTable := k.eventTable.free e } := by
  have hnd := h.nodup
  rw [List.cons_append, List.nodup_cons] at hnd
  refine ⟨hnd.2, fun x hx => ?_⟩
  show (k.eventTable.free e).live x = true
  rw [KTable.free_live, h.live x (List.mem_cons_of_mem _ hx)]
  have hne : x ≠ e := fun hxe => hnd.1 (hxe ▸ hx)
  simp [hne]

theorem Stored.due {q : List KteRef} (h : Stored [] k) (happ : es ++ q = k.eventQueue) :
    Stored es { k with eventQueue := q } :=
  ⟨happ.symm ▸ h.nodup, happ.symm ▸ h.live⟩

theorem tick_queue (k : Ktimer α) :
    k.tick.eventQueue = k.eventQueue ∧ k.tick.eventTable = k.eventTable := by
  unfold tick
  dsimp only
  split
  · split <;> exact ⟨rfl, rfl⟩
  · exact ⟨rfl, rfl⟩

theorem enable_queue (k : Ktimer α) (d : Word) :
    (k.enable d).eventQueue = k.eventQueue ∧ (k.enable d).eventTable = k.eventTable := by
  unfold enable
  split <;> exact ⟨rfl, rfl⟩

/-! ## Creation -/

/-- The element that `ktimer_event_create` takes, before the event is scheduled. -/
theorem Stored.alloc (handler : α) {table : KTable (KtimerEvent α)} (h : Stored [] k)
    (halloc : k.eventTable.alloc = some (e, table)) :
    e ∉ k.eventQueue ∧ Stored [e] { k with
      eventTable := table.write e { table.data e with handler := handler } } := by
  obtain ⟨hfree, _, _, _, hlive⟩ := KTable.alloc_spec halloc
  have he : e ∉ k.eventQueue := by
    intro he
    rw [h.live e he] at hfree
    simp at hfree
  refine ⟨he, List.nodup_cons.mpr ⟨he, h.nodup⟩, fun x hx => ?_⟩
  show (table.write e _).live x = true
  rw [KTable.write_live, hlive, Bool.or_eq_true, decide_eq_true_eq]
  rcases List.mem_cons.mp hx with rfl | hx
  · exact .inr rfl
  · exact .inl (h.live x hx)

theorem handlerOf_alloc (handler : α) {table : KTable (KtimerEvent α)}
    (halloc : k.eventTable.alloc = some (e, table)) (x : KteRef) :
    handlerOf { k with
      eventTable := table.write e { table.data e with handler := handler } } x =
        if x = e then handler else k.handlerOf x := by
  obtain ⟨_, _, _, hdata, _⟩ := KTable.alloc_spec halloc
  unfold handlerOf
  by_cases hx : x = e
  · rw [if_pos hx, hx]
    simp
  · rw [if_neg hx]
    show ((table.write e _).data x).handler = _
    rw [KTable.write_data_ne _ _ hx, hdata]

/-- What `ktimer_event_create` does: nothing without room; with 0 ticks the queue stays as it is;
otherwise the new event is on it. The queued events keep their handlers. -/
theorem Stored.create (h : Stored [] k) (ticks : Word) (handler : α) :
    Stored [] (k.eventCreate ticks handler).2 ∧
    (∀ x ∈ k.eventQueue, (k.eventCreate ticks handler).2.handlerOf x = k.handlerOf x) ∧
    ((ticks = 0#32 ∨ k.eventTable.alloc = none) →
      (k.eventCreate ticks handler).2.eventQueue = k.eventQueue) ∧
    (ticks ≠ 0#32 → ∀ e table, k.eventTable.alloc = some (e, table) →
      e ∉ k.eventQueue ∧ (k.eventCreate ticks handler).2.handlerOf e = handler ∧
      (k.eventCreate ticks handler).2.eventQueue.Perm (e :: k.eventQueue)) := by
  unfold eventCreate
  cases halloc : k.eventTable.alloc with
  | none =>
    refine ⟨h, fun _ _ => rfl, fun _ => rfl, fun _ e table hf => ?_⟩
    simp at hf
  | some p =>
    obtain ⟨e, table⟩ := p
    obtain ⟨he, h1⟩ := h.alloc handler halloc
    refine ⟨?_, fun x hx => ?_, fun hno => ?_, fun ht e' table' heq => ?_⟩
    · by_cases ht : ticks = 0#32
      · rw [ht, eventSchedule_zero]
        exact ⟨(List.nodup_cons.mp h1.nodup).2, fun x hx => h1.live x (List.mem_cons_of_mem _ hx)⟩
      · exact h1.schedule ht
    · rw [handlerOf_eventSchedule, handlerOf_alloc handler halloc, if_neg]
      rintro rfl
      exact he hx
    · rw [hno.resolve_right (by simp), eventSchedule_zero]
    · obtain ⟨rfl, rfl⟩ : e = e' ∧ table = table' := by simpa using heq
      refine ⟨he, ?_, (h1.scheduled ht).1⟩
      rw [handlerOf_eventSchedule, handlerOf_alloc handler halloc, if_pos rfl]

/-! ## Runs of the handler -/

section

variable {run : σ → α → Except Fault (Word × σ)} {I : List KteRef → σ → Ktimer α → Prop}
  {P : σ → KteRef → α → Prop}
  (hdue : ∀ es q st k, es ++ q = k.eventQueue → I [] st k → I es st { k with eventQueue := q })
  (hcall : ∀ e es st k r st', run st (k.handlerOf e) = .ok (r, st') → I (e :: es) st k →
    (r ≠ 0#32 → I es st' (k.eventSchedule r e).2) ∧
    (r = 0#32 → I es st' { k with eventTable := k.eventTable.free e }))

include hcall

/-- What every callback keeps holds after the loop. The rest of the events is in the statement, so
that it may say that they are stored. -/
theorem handleEvents_rule (es : List KteRef) (st st' : σ) (k k' : Ktimer α)
    (h : handleEvents run es st k = .ok (st', k')) (hI : I es st k) : I [] st' k' := by
  induction es generalizing st st' k k' with
  | nil =>
    injection h with h
    injection h with hst hk
    rw [← hst, ← hk]
    exact hI
  | cons e es ih =>
    obtain ⟨⟨r, st1⟩, hrun, h⟩ := bind_ok.mp h
    obtain ⟨hagain, hdone⟩ := hcall e es st k r st1 hrun hI
    dsimp only at h
    split at h
    · rename_i hr
      exact ih _ _ _ _ h (hagain hr)
    · rename_i hr
      exact ih _ _ _ _ h (hdone (not_not.mp hr))

/-- The same for the calls: each of them starts in a state that the calls before it leave. -/
theorem handleCalls_rule (hP : ∀ e es st k, I (e :: es) st k → P st e (k.handlerOf e))
    (es : List KteRef) (st : σ) (k : Ktimer α) (hI : I es st k) :
    ∀ c ∈ handleCalls run es st k, P c.1 c.2.1 c.2.2 := by
  induction es generalizing st k with
  | nil =>
    intro c hc
    simp [handleCalls] at hc
  | cons e es ih =>
    intro c hc
    rcases List.mem_cons.mp hc with rfl | hc
    · exact hP e es st k hI
    · split at hc
      · simp at hc
      · rename_i r st1 hrun
        obtain ⟨hagain, hdone⟩ := hcall e es st k r st1 hrun hI
        split at hc
        · rename_i hr
          exact ih _ _ (hagain hr) c hc
        · rename_i hr
          exact ih _ _ (hdone (not_not.mp hr)) c hc

include hdue

/-- What every callback keeps, `ktimer_event_handler` keeps. -/
theorem eventHandler_rule
    (hcongr : ∀ st k k', k'.eventQueue = k.eventQueue → k'.eventTable = k.eventTable →
      I [] st k → I [] st k') {st st' : σ} (h : eventHandler run st k = .ok (st', k'))
    (hI : I [] st k) : I [] st' k' := by
  rcases eventHandler_cases h with ⟨_, rfl, rfl⟩ | ⟨head, rest, k1, hq, hloop, hend⟩
  · exact hcongr _ k _ rfl rfl hI
  · have h1 := handleEvents_rule hcall _ _ _ _ _ hloop (hdue _ _ _ _ (due_append hq) hI)
    rcases hend with ⟨_, rfl⟩ | ⟨event, _, _, rfl⟩
    · exact h1
    · obtain ⟨hq1, ht1⟩ := enable_queue k1 (k1.deltaOf event)
      exact hcongr _ _ _ hq1 ht1 h1

theorem handlerCalls_rule (hP : ∀ e es st k, I (e :: es) st k → P st e (k.handlerOf e)) {st : σ}
    (hI : I [] st k) : ∀ c ∈ handlerCalls run st k, P c.1 c.2.1 c.2.2 := by
  intro c hc
  unfold handlerCalls at hc
  split at hc
  · simp at hc
  · rename_i head rest hq
    exact handleCalls_rule hcall hP _ _ _ (hdue _ _ _ _ (due_append hq) hI) c hc

end

end Ktimer

end F9
