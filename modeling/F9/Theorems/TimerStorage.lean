import F9.Logic.Events

/-!
# The storage of timer events

`ktimer_event_create` takes an element of the event table before it knows whether the event
can be scheduled. A request for 0 ticks is refused by `ktimer_event_schedule`, and the element
is neither queued nor given back. `timer_storage_exact` says that this is the only leak: the
events in the table are those on the queue as long as no such request finds a free element.
-/

namespace F9

variable {es : List KteRef} {e kte : KteRef}

namespace Ktimer

variable {α σ : Type} {k k' : Ktimer α} {ticks : Word}

/-- The events of the table that are allocated are exactly those on the queue. -/
def StorageExact (k : Ktimer α) : Prop := ∀ e, k.eventTable.live e = true ↔ e ∈ k.eventQueue

/-- A call of `ktimer_event_create` that returns -1 has allocated and queued nothing. -/
def RefusalClean (k : Ktimer α) : Use α → Prop
  | .create ticks handler => (k.eventCreateOpt ticks handler).1 = -1 →
      (k.eventCreateOpt ticks handler).2.eventQueue = k.eventQueue ∧
      ∀ e, (k.eventCreateOpt ticks handler).2.eventTable.live e = k.eventTable.live e
  | _ => True

/-- An event is created with a number of ticks, or there is no room for it anyway. -/
def KeepsStorage (k : Ktimer α) : Use α → Prop
  | .create ticks (some _) => ticks ≠ 0#32 ∨ k.eventTable.alloc = none
  | _ => True

/-- While the handler works on `es`: these and the queued events are the allocated ones. -/
structure Owned (es : List KteRef) (k : Ktimer α) : Prop extends Stored es k where
  all : ∀ e, k.eventTable.live e = true → e ∈ es ++ k.eventQueue

theorem Owned.exact (h : Owned [] k) : StorageExact k := fun e => ⟨h.all e, h.live e⟩

theorem Owned.congr (h : Owned es k) (hq : k'.eventQueue = k.eventQueue)
    (hlive : ∀ e, k'.eventTable.live e = k.eventTable.live e) : Owned es k' := by
  refine ⟨h.toStored.congr hq hlive, fun e he => ?_⟩
  rw [hlive] at he
  rw [hq]
  exact h.all e he

theorem Owned.schedule (h : Owned (e :: es) k) (ht : ticks ≠ 0#32) :
    Owned es (k.eventSchedule ticks e).2 := by
  obtain ⟨hperm, hlive⟩ := h.toStored.scheduled ht
  refine ⟨h.toStored.schedule ht, fun x hx => hperm.mem_iff.mpr ?_⟩
  rw [hlive] at hx
  exact h.all x hx

theorem Owned.free (h : Owned (e :: es) k) :
    Owned es { k with eventTable := k.eventTable.free e } := by
  refine ⟨h.toStored.free, fun x hx => ?_⟩
  rw [KTable.free_live, Bool.and_eq_true, decide_eq_true_eq] at hx
  exact (List.mem_cons.mp (h.all x hx.1)).resolve_left hx.2

/-! ## Steps -/

theorem eventHandler_owned {run : σ → α → Except Fault (Word × σ)} {st st' : σ} (h : Owned [] k)
    (hrun : eventHandler run st k = .ok (st', k')) : Owned [] k' := by
  refine eventHandler_rule (I := fun es _ k => Owned es k) ?_ ?_ ?_ hrun h
  · intro es q st k happ hk
    exact ⟨hk.toStored.due happ, fun e he => happ.symm ▸ hk.all e he⟩
  · exact fun e es st k r st' _ hk => ⟨fun hr => hk.schedule hr, fun _ => hk.free⟩
  · exact fun st k k' hq ht hk => hk.congr hq fun e => by rw [ht]

/-- The element that `ktimer_event_create` takes, before the event is scheduled. -/
theorem alloc_owned (handler : α) {table : KTable (KtimerEvent α)} (h : Owned [] k)
    (halloc : k.eventTable.alloc = some (e, table)) :
    Owned [e] { k with
      eventTable := table.write e { table.data e with handler := handler } } := by
  obtain ⟨_, _, _, _, hlive⟩ := KTable.alloc_spec halloc
  refine ⟨(h.toStored.alloc handler halloc).2, fun x hx => ?_⟩
  rw [KTable.write_live, hlive, Bool.or_eq_true, decide_eq_true_eq] at hx
  rcases hx with hx | rfl
  · exact List.mem_cons_of_mem e (h.all x hx)
  · exact List.mem_cons_self

theorem eventSchedule_ret (ht : ticks ≠ 0#32) : (k.eventSchedule ticks kte).1 = 0 := by
  unfold eventSchedule
  rw [if_neg ht]
  dsimp only
  split <;> rfl

theorem create_owned {handler : α} (h : Owned [] k)
    (hkeep : KeepsStorage k (.create ticks (some handler))) :
    Owned [] (k.eventCreate ticks handler).2 ∧ RefusalClean k (.create ticks (some handler)) := by
  unfold RefusalClean eventCreateOpt
  unfold eventCreate
  cases halloc : k.eventTable.alloc with
  | none => exact ⟨h, fun _ => ⟨rfl, fun _ => rfl⟩⟩
  | some p =>
    have ht : ticks ≠ 0#32 := hkeep.resolve_right (by rw [halloc]; simp)
    refine ⟨(alloc_owned handler h halloc).schedule ht, fun hret => ?_⟩
    rw [eventSchedule_ret ht] at hret
    exact absurd hret (by decide)

/-- A request for 0 ticks that finds a free element loses it. -/
theorem create_leaks {handler : α} (h : Owned [] k)
    (hkeep : ¬ KeepsStorage k (.create ticks (some handler))) :
    ¬ StorageExact (k.eventCreate ticks handler).2 := by
  unfold KeepsStorage at hkeep
  rw [not_or, not_not] at hkeep
  obtain ⟨rfl, hroom⟩ := hkeep
  obtain ⟨⟨e, table⟩, halloc⟩ := Option.ne_none_iff_exists'.mp hroom
  obtain ⟨he, h1⟩ := h.toStored.alloc handler halloc
  intro hexact
  unfold eventCreate at hexact
  rw [halloc] at hexact
  exact he ((hexact e).mp (h1.live e List.mem_cons_self))

theorem useStep_owned {a : Use α} (hstep : UseStep k a k') (h : Owned [] k)
    (hkeep : KeepsStorage k a) : Owned [] k' ∧ RefusalClean k a := by
  cases hstep with
  | @create ticks handler =>
    cases handler with
    | none => exact ⟨h, fun _ => ⟨rfl, fun _ => rfl⟩⟩
    | some handler => exact create_owned h hkeep
  | tick =>
    obtain ⟨hq, ht⟩ := tick_queue k
    exact ⟨h.congr hq fun e => by rw [ht], trivial⟩
  | handle hrun =>
    have h0 : Owned [] { k with kteSoftirq := false } := h.congr rfl fun _ => rfl
    exact ⟨eventHandler_owned h0 hrun, trivial⟩

theorem reachable_owned (h : (usage α).Reachable KeepsStorage k) : Owned [] k := by
  refine TSys.Reachable.invariant (I := Owned []) ?_ ?_ h
  · rintro k ⟨event, rfl⟩
    refine ⟨⟨List.nodup_nil, fun e he => absurd he (by simp [initial])⟩, fun e he => ?_⟩
    simp [initial, KTable.live] at he
  · exact fun k a k' hk hkeep hstep => (useStep_owned hstep hk hkeep).1

end Ktimer

open Ktimer in
/-- In every state of a run without requests for 0 ticks that find a free element, the allocated
events are the queued ones; and a next step keeps this, and refuses without a trace, if and only
if it is not such a request. -/
theorem timer_storage_exact {α : Type} {k k' : Ktimer α} {a : Use α}
    (h : (Ktimer.usage α).Reachable KeepsStorage k) (hstep : UseStep k a k') :
    StorageExact k ∧ ((StorageExact k' ∧ RefusalClean k a) ↔ KeepsStorage k a) := by
  have hk := reachable_owned h
  refine ⟨hk.exact, fun ⟨hexact, _⟩ => ?_, fun hkeep => ?_⟩
  · by_contra hkeep
    cases hstep with
    | @create ticks handler =>
      cases handler with
      | none => exact hkeep trivial
      | some handler => exact create_leaks hk hkeep hexact
    | tick => exact hkeep trivial
    | handle _ => exact hkeep trivial
  · obtain ⟨h1, h2⟩ := useStep_owned hstep hk hkeep
    exact ⟨h1.exact, h2⟩

open Ktimer in
/-- Two events are created, and then one with 0 ticks. -/
theorem timer_storage_exact_zero : ∃ k : Ktimer Unit, (Ktimer.usage Unit).Reachable KeepsStorage k ∧
    k.eventQueue = [0, 1] ∧ StorageExact k ∧
    ((StorageExact (k.eventCreateOpt 0#32 (some ())).2 ∧
      RefusalClean k (.create 0#32 (some ()))) ↔ KeepsStorage k (.create 0#32 (some ()))) := by
  have hkeep : ∀ (k : Ktimer Unit) (ticks : Word), ticks ≠ 0#32 →
      KeepsStorage k (.create ticks (some ())) := fun _ _ ht => Or.inl ht
  have h0 : (Ktimer.usage Unit).Reachable KeepsStorage (Ktimer.initial ⟨(), 0#32⟩) :=
    .init ⟨_, rfl⟩
  have h1 := TSys.Reachable.step h0 (hkeep _ 200#32 (by decide)) UseStep.create
  have h2 := TSys.Reachable.step h1 (hkeep _ 400#32 (by decide)) UseStep.create
  have h3 := timer_storage_exact h2 (UseStep.create : UseStep _ (.create 0#32 (some ())) _)
  exact ⟨_, h2, by decide, h3⟩

open Ktimer in
/-- The first event of a fresh timer, with 0 ticks: -1 is returned, nothing is queued, and the
first element of the table is gone. -/
theorem timer_storage_leak : ∃ k : Ktimer Unit, (Ktimer.usage Unit).Reachable (fun _ _ => True) k ∧
    ((Ktimer.initial ⟨(), 0#32⟩).eventCreateOpt 0#32 (some ())).1 = -1 ∧
    k = ((Ktimer.initial ⟨(), 0#32⟩).eventCreateOpt 0#32 (some ())).2 ∧
    k.eventTable.live 0 = true ∧ k.eventQueue = [] ∧ ¬ StorageExact k := by
  refine ⟨_, .step (.init ⟨⟨(), 0#32⟩, rfl⟩) trivial
    (UseStep.create : UseStep _ (.create 0#32 (some ())) _), by decide, rfl, by decide, by decide,
    fun h => ?_⟩
  have hmem := (h 0).mp (by decide)
  exact absurd hmem (by decide)

end F9
