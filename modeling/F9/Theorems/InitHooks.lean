import F9.Kernel.InitHooks
import Mathlib.Data.List.Pairwise

/-!
# Init hooks run once, in the order of the calls

`last_level` is the highest level called and not the last level requested, but no hook has a level
between the two, so each hook is called once, by the first call that reaches its level. Within one
call the hooks run in the order of the table: `init_hooks_in_order` says when this is the order of
their levels.
-/

namespace F9

variable {Hook : Type} {table : List (InitStruct Hook)} {lastLevel requested level : Word}
  {levels : List Word}

/-- The hooks of the levels above `lastLevel` up to `level` are called, in table order. -/
theorem initHookLoop_called (table : List (InitStruct Hook)) (m : Word) :
    (initHookLoop lastLevel level table m).1 =
      table.filter fun h => decide (lastLevel < h.level ∧ h.level ≤ level) := by
  induction table generalizing m with
  | nil => rfl
  | cons ptr rest ih =>
    rw [initHookLoop, List.filter_cons]
    by_cases hp : ptr.level > lastLevel ∧ ptr.level ≤ level
    · rw [if_pos hp, if_pos (decide_eq_true hp), ← ih]
    · rw [if_neg hp, if_neg (by simpa using hp), ih]

/-- `max_called_level` at the end: where it began, or the level of a hook called, and no hook called
has a higher one. -/
theorem initHookLoop_max (lastLevel level : Word) (table : List (InitStruct Hook)) (m : Word) :
    m ≤ (initHookLoop lastLevel level table m).2 ∧
      ((initHookLoop lastLevel level table m).2 = m ∨
        (initHookLoop lastLevel level table m).2 ≤ level) ∧
      ∀ h ∈ table, lastLevel < h.level → h.level ≤ level →
        h.level ≤ (initHookLoop lastLevel level table m).2 := by
  induction table generalizing m with
  | nil => exact ⟨BitVec.le_refl m, .inl rfl, by simp⟩
  | cons ptr rest ih =>
    rw [initHookLoop, List.forall_mem_cons]
    by_cases hp : ptr.level > lastLevel ∧ ptr.level ≤ level
    · rw [if_pos hp]
      generalize hm : (if m > ptr.level then m else ptr.level) = m'
      have hm' : m ≤ m' ∧ ptr.level ≤ m' ∧ (m' = m ∨ m' ≤ level) := by
        split at hm <;> bv_omega
      obtain ⟨hle, hend, hall⟩ := ih m'
      refine ⟨?_, ?_, fun _ _ => ?_, hall⟩ <;> bv_omega
    · rw [if_neg hp]
      obtain ⟨hle, hend, hall⟩ := ih m
      exact ⟨hle, hend, fun hlow hhigh => absurd ⟨hlow, hhigh⟩ hp, hall⟩

/-- Between `lastLevel` and the level that was requested last, the table has no hook. -/
def Settled (table : List (InitStruct Hook)) (lastLevel requested : Word) : Prop :=
  ∀ h ∈ table, h.level ≤ lastLevel ↔ h.level ≤ requested

theorem Settled.next (h : Settled table lastLevel requested) (hle : requested ≤ level) :
    Settled table (runInitHook table lastLevel level).2 level := by
  intro ptr hptr
  have hmax := initHookLoop_max lastLevel level table lastLevel
  have hcalled := hmax.2.2 ptr hptr
  have hprev := h ptr hptr
  unfold runInitHook
  bv_omega

/-- The level of the first call that reaches the level of a hook. -/
def firstCall (levels : List Word) (h : InitStruct Hook) : Option Word :=
  levels.find? fun l => decide (h.level ≤ l)

theorem firstCall_min {h : InitStruct Hook} {l l' : Word} (hsorted : levels.Pairwise (· < ·))
    (hfirst : firstCall levels h = some l) (hl' : l' ∈ levels) (hle : h.level ≤ l') : l ≤ l' := by
  obtain ⟨_, before, after, rfl, hbefore⟩ := List.find?_eq_some_iff_append.mp hfirst
  rcases List.mem_append.mp hl' with hl' | hl'
  · exact absurd hle (by simpa using hbefore l' hl')
  · rcases List.mem_cons.mp hl' with rfl | hl'
    · exact BitVec.le_refl _
    · exact BitVec.le_of_lt
        ((List.pairwise_cons.mp (List.pairwise_append.mp hsorted).2.1).1 l' hl')

/-- A sequence of calls runs each hook in the first call that reaches its level, unless an earlier
sequence has done so. -/
theorem runInitHooks_eq (hset : Settled table lastLevel requested)
    (hle : ∀ l ∈ levels, requested ≤ l) (hsorted : levels.Pairwise (· < ·)) :
    runInitHooks table lastLevel levels = levels.map fun l => (l, table.filter fun h =>
      decide (requested < h.level ∧ firstCall levels h = some l)) := by
  induction levels generalizing lastLevel requested with
  | nil => rfl
  | cons level levels ih =>
    obtain ⟨habove, hsorted⟩ := List.pairwise_cons.mp hsorted
    have hreq := hle level List.mem_cons_self
    have hfirst : ∀ h : InitStruct Hook, firstCall (level :: levels) h =
        if h.level ≤ level then some level else firstCall levels h := fun h => by
      simp only [firstCall, List.find?_cons]
      cases hd : decide (h.level ≤ level) <;> simp_all
    have hself : ∀ h : InitStruct Hook, firstCall levels h ≠ some level := fun h hh =>
      BitVec.lt_irrefl level (habove level (List.mem_of_find?_eq_some hh))
    have hrest := ih (hset.next hreq) (fun l hl => BitVec.le_of_lt (habove l hl)) hsorted
    refine congrArg₂ List.cons (congrArg _ ((initHookLoop_called table lastLevel).trans
      (List.filter_congr fun h hh => ?_))) (hrest.trans (List.map_congr_left fun l hl =>
        congrArg _ (List.filter_congr fun h hh => ?_)))
    · have hprev := hset h hh
      rw [decide_eq_decide, hfirst]
      by_cases hc : h.level ≤ level
      · rw [if_pos hc, eq_self, and_true]
        bv_omega
      · rw [if_neg hc]
        exact iff_of_false (fun h' => hc h'.2) fun h' => hself h h'.2
    · have hl' := habove l hl
      rw [decide_eq_decide, hfirst]
      by_cases hc : h.level ≤ level
      · rw [if_pos hc, Option.some_inj]
        bv_omega
      · rw [if_neg hc]
        exact and_congr_left fun _ => by bv_omega

/-- For every table of hooks and every rising sequence of calls that ends with `INIT_LEVEL_LAST`:
each call runs the hooks whose level it is the first to reach, and every hook has such a call. The
hooks run in the order of their levels exactly if those that run in one call stand in that order in
the table. -/
theorem init_hooks_in_order (table : List (InitStruct Hook)) (levels : List Word)
    (hlevel : ∀ h ∈ table, 1#32 ≤ h.level) (hsorted : levels.Pairwise (· < ·))
    (hlast : levels.getLast? = some INIT_LEVEL_LAST) :
    (∀ h ∈ table, (firstCall levels h).isSome) ∧
    runInitHooks table 0#32 levels =
      (levels.map fun l => (l, table.filter fun h => decide (firstCall levels h = some l))) ∧
    (((runInitHooks table 0#32 levels).flatMap Prod.snd).Pairwise (fun a b => a.level ≤ b.level) ↔
      table.Pairwise fun a b => firstCall levels a = firstCall levels b → a.level ≤ b.level) := by
  have hsome : ∀ h : InitStruct Hook, (firstCall levels h).isSome := by
    intro h
    refine List.find?_isSome.mpr ⟨_, List.mem_of_getLast? hlast, decide_eq_true ?_⟩
    unfold INIT_LEVEL_LAST
    bv_omega
  have hrun : runInitHooks table 0#32 levels =
      levels.map fun l => (l, table.filter fun h => decide (firstCall levels h = some l)) := by
    rw [runInitHooks_eq (fun _ _ => Iff.rfl) (fun l _ => by bv_omega) hsorted]
    refine List.map_congr_left fun l _ => congrArg _ (List.filter_congr fun h hh => ?_)
    have hpos : 0#32 < h.level := by
      have := hlevel h hh
      bv_omega
    simp [hpos]
  refine ⟨fun h _ => hsome h, hrun, ?_⟩
  rw [hrun, List.flatMap_map, List.pairwise_flatMap]
  -- what a later call runs is above the level of this one
  have hcross : levels.Pairwise fun l l' =>
      ∀ a ∈ table.filter (fun h => decide (firstCall levels h = some l)),
      ∀ b ∈ table.filter (fun h => decide (firstCall levels h = some l')), a.level ≤ b.level := by
    refine hsorted.imp_of_mem fun {l l'} hl _ hlt a ha b hb => ?_
    have ha' := List.find?_some (of_decide_eq_true (List.mem_filter.mp ha).2)
    have hb' := of_decide_eq_true (List.mem_filter.mp hb).2
    have hbl : ¬ b.level ≤ l := fun hle =>
      absurd hlt (BitVec.not_lt.mpr (firstCall_min hsorted hb' hl hle))
    simp only [decide_eq_true_eq] at ha'
    bv_omega
  rw [and_iff_left hcross]
  simp only [List.pairwise_filter, decide_eq_true_eq]
  simp only [List.pairwise_iff_forall_sublist]
  constructor
  · intro h a b hab heq
    obtain ⟨l, hl⟩ := Option.isSome_iff_exists.mp (hsome a)
    exact h l (List.mem_of_find?_eq_some hl) hab hl (heq.symm.trans hl)
  · intro h l _ a b hab ha hb
    exact h hab (ha.trans hb.symm)

/-- The levels that the kernel requests. -/
def bootLevels : List Word :=
  [INIT_LEVEL_EARLIEST, INIT_LEVEL_PLATFORM_EARLY, INIT_LEVEL_PLATFORM, INIT_LEVEL_KERNEL_EARLY,
    INIT_LEVEL_KERNEL, INIT_LEVEL_LAST]

/-- Hooks of two requested levels, linked the other way round, are called in order. -/
theorem init_hooks_in_order_linked :
    ((runInitHooks [⟨INIT_LEVEL_KERNEL, 'k'⟩, ⟨INIT_LEVEL_PLATFORM, 'p'⟩] 0#32 bootLevels).flatMap
      Prod.snd).Pairwise (fun a b => a.level ≤ b.level) :=
  (init_hooks_in_order _ bootLevels (by decide) (by decide) rfl).2.2.mpr (by decide)

/-- A hook at `INIT_LEVEL_PLATFORM - 1` that is linked after one at `INIT_LEVEL_PLATFORM`: one call
runs both, the higher one first. -/
theorem init_hooks_swapped :
    (runInitHooks [⟨INIT_LEVEL_PLATFORM, 'p'⟩, ⟨INIT_LEVEL_PLATFORM - 1, 'e'⟩] 0#32
      bootLevels).flatMap Prod.snd =
        [⟨INIT_LEVEL_PLATFORM, 'p'⟩, ⟨INIT_LEVEL_PLATFORM - 1, 'e'⟩] ∧
    ¬ INIT_LEVEL_PLATFORM ≤ INIT_LEVEL_PLATFORM - 1 := by
  decide

end F9
