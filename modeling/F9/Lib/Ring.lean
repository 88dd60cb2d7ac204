import F9.Lib.Linked
import Mathlib.Data.Set.Finite.Basic
import Mathlib.Dynamics.PeriodicPts.Lemmas

/-!
# Rings of links

A set `A` of nodes whose links stay in `A` and never meet (`IsRing`) is a
union of cycles: from every node, following the links comes back to it
(`IsRing.cycle`). Stated with "stay" and "never meet" instead of with
explicit cycles, the invariant survives the three ring operations — adding
nodes of their own (`IsRing.adjoin`), linking a node in after a member
(`IsRing.link`), unlinking a member (`IsRing.unlink`) — without any counting.
-/

namespace Linked

variable {ρ : Type}

/-- The links of `A` stay inside `A` and no two of them meet. -/
structure IsRing (next : ρ → Option ρ) (A : Set ρ) : Prop where
  step : ∀ x ∈ A, ∃ y ∈ A, next x = some y
  inj : ∀ x ∈ A, ∀ y ∈ A, next x = next y → x = y

variable {next next' : ρ → Option ρ} {A : Set ρ} {f p t x : ρ}

/-- The successor of a ring node, as a map of the ring into itself. -/
noncomputable def IsRing.succ (h : IsRing next A) (x : A) : A :=
  ⟨(h.step x x.2).choose, (h.step x x.2).choose_spec.1⟩

theorem IsRing.succ_spec (h : IsRing next A) (x : A) : next x = some (h.succ x : ρ) :=
  (h.step x x.2).choose_spec.2

theorem IsRing.succ_injective (h : IsRing next A) : Function.Injective h.succ := by
  intro x y hxy
  have hn : next x = next y := by rw [h.succ_spec x, h.succ_spec y, hxy]
  exact Subtype.ext (h.inj x x.2 y y.2 hn)

/-- The first `n` nodes from `x` on. -/
noncomputable def IsRing.orbit (h : IsRing next A) (n : Nat) (x : A) : List ρ :=
  (List.range n).map fun i => ((h.succ^[i] x : A) : ρ)

/-- They form a segment that ends at the next one. -/
theorem IsRing.seg_orbit (h : IsRing next A) (n : Nat) (x : A) :
    Seg next (some (x : ρ)) (h.orbit n x) (some ((h.succ^[n] x : A) : ρ)) := by
  induction n generalizing x with
  | zero => exact .nil
  | succ n ih =>
    have hseg := ih (h.succ x)
    rw [← h.succ_spec x] at hseg
    have horb : h.orbit (n + 1) x = (x : ρ) :: h.orbit n (h.succ x) := by
      unfold IsRing.orbit
      rw [List.range_succ_eq_map, List.map_cons, List.map_map]
      rfl
    rw [horb]
    exact .cons hseg

/-- From every node of a finite ring the links lead back to it, without meeting
another node twice. The segment `l` starts with the node itself. -/
theorem IsRing.cycle (h : IsRing next A) (hfin : A.Finite) (hx : x ∈ A) :
    ∃ l : List ρ, l ≠ [] ∧ l.Nodup ∧ Seg next (some x) l (some x) ∧ ∀ y ∈ l, y ∈ A := by
  have : Finite A := hfin
  have hper := h.succ_injective.mem_periodicPts ⟨x, hx⟩
  have hpos := Function.minimalPeriod_pos_of_mem_periodicPts hper
  refine ⟨h.orbit (Function.minimalPeriod h.succ ⟨x, hx⟩) ⟨x, hx⟩, ?_, ?_, ?_, ?_⟩
  · intro hnil
    have hlen := congrArg List.length hnil
    unfold IsRing.orbit at hlen
    rw [List.length_map, List.length_range, List.length_nil] at hlen
    omega
  · refine List.Nodup.map_on ?_ List.nodup_range
    intro i hi j hj hij
    exact Function.iterate_injOn_Iio_minimalPeriod (List.mem_range.mp hi) (List.mem_range.mp hj)
      (Subtype.ext hij)
  · have hseg := h.seg_orbit (Function.minimalPeriod h.succ ⟨x, hx⟩) ⟨x, hx⟩
    rw [Function.iterate_minimalPeriod] at hseg
    exact hseg
  · intro y hy
    obtain ⟨i, _, rfl⟩ := List.mem_map.mp hy
    exact (h.succ^[i] ⟨x, hx⟩).2

/-! ## Operations -/

theorem IsRing.exists_pred (h : IsRing next A) (hfin : A.Finite) (hx : x ∈ A) :
    ∃ y ∈ A, next y = some x := by
  have : Finite A := hfin
  obtain ⟨y, hy⟩ := (Finite.injective_iff_surjective.mp h.succ_injective) ⟨x, hx⟩
  refine ⟨y, y.2, ?_⟩
  rw [h.succ_spec y, hy]

/-- Taking out a set that the links do not leave: it is a union of cycles, so
no link leads into it from outside. -/
theorem IsRing.diff {K : Set ρ} (h : IsRing next A) (hfin : A.Finite)
    (hK : ∀ x ∈ K, ∀ y, next x = some y → y ∈ K) : IsRing next (A \ K) where
  step := by
    have hAK : IsRing next (A ∩ K) := by
      refine ⟨?_, fun x hx y hy hxy => h.inj x hx.1 y hy.1 hxy⟩
      intro x hx
      obtain ⟨y, hy, hxy⟩ := h.step x hx.1
      exact ⟨y, ⟨hy, hK x hx.2 y hxy⟩, hxy⟩
    intro x hx
    obtain ⟨y, hy, hxy⟩ := h.step x hx.1
    refine ⟨y, ⟨hy, fun hyK => ?_⟩, hxy⟩
    obtain ⟨z, hz, hzy⟩ := hAK.exists_pred (hfin.subset Set.inter_subset_left) ⟨hy, hyK⟩
    have hxz := h.inj x hx.1 z hz.1 (by rw [hxy, hzy])
    exact hx.2 (hxz ▸ hz.2)
  inj := fun x hx y hy hxy => h.inj x hx.1 y hy.1 hxy

theorem IsRing.adjoin {B : Set ρ} (h : IsRing next A) (hB : ∀ x ∈ B, x ∉ A)
    (hself : ∀ x ∈ B, next' x = some x) (hA : ∀ x ∈ A, next' x = next x) :
    IsRing next' (A ∪ B) where
  step := by
    intro x hx
    rcases hx with hx | hx
    · obtain ⟨y, hy, hxy⟩ := h.step x hx
      exact ⟨y, .inl hy, by rw [hA x hx, hxy]⟩
    · exact ⟨x, .inr hx, hself x hx⟩
  inj := by
    -- a link of an old member leads to an old member, never to a new one
    have hne : ∀ x ∈ A, ∀ t ∈ B, next' x ≠ some t := by
      intro x hx t ht heq
      obtain ⟨y, hy, hxy⟩ := h.step x hx
      rw [hA x hx, hxy] at heq
      injection heq with heq
      exact hB t ht (heq ▸ hy)
    intro x hx y hy hxy
    rcases hx with hx | hx <;> rcases hy with hy | hy
    · rw [hA x hx, hA y hy] at hxy
      exact h.inj x hx y hy hxy
    · rw [hself y hy] at hxy
      exact absurd hxy (hne x hx y hy)
    · rw [hself x hx] at hxy
      exact absurd hxy.symm (hne y hy x hx)
    · rw [hself x hx, hself y hy] at hxy
      injection hxy

/-- A new node `t` linked in after the member `f`. -/
theorem IsRing.link (h : IsRing next A) (hf : f ∈ A) (ht : t ∉ A)
    (hnt : next' t = next f) (hnf : next' f = some t)
    (hA : ∀ x ∈ A, x ≠ f → next' x = next x) : IsRing next' (insert t A) where
  step := by
    intro x hx
    rcases hx with rfl | hx
    · obtain ⟨y, hy, hfy⟩ := h.step f hf
      exact ⟨y, Set.mem_insert_of_mem x hy, by rw [hnt, hfy]⟩
    · by_cases hxf : x = f
      · subst hxf
        exact ⟨t, Set.mem_insert t A, hnf⟩
      · obtain ⟨y, hy, hxy⟩ := h.step x hx
        exact ⟨y, Set.mem_insert_of_mem t hy, by rw [hA x hx hxf, hxy]⟩
  inj := by
    have hne : ∀ x ∈ A, next x ≠ some t := by
      intro x hx heq
      obtain ⟨y, hy, hxy⟩ := h.step x hx
      rw [hxy] at heq
      injection heq with heq
      exact ht (heq ▸ hy)
    -- `t` takes the old link of `f`, every other member keeps its own
    have hold : ∀ x ∈ A, x ≠ f → next' x ≠ next' t := by
      intro x hx hxf heq
      rw [hA x hx hxf, hnt] at heq
      exact hxf (h.inj x hx f hf heq)
    intro x hx y hy hxy
    rcases hx with rfl | hx <;> rcases hy with rfl | hy
    · rfl
    · by_cases hyf : y = f
      · subst hyf
        rw [hnt, hnf] at hxy
        exact absurd hxy (hne y hf)
      · exact absurd hxy.symm (hold y hy hyf)
    · by_cases hxf : x = f
      · subst hxf
        rw [hnt, hnf] at hxy
        exact absurd hxy.symm (hne x hf)
      · exact absurd hxy (hold x hx hxf)
    · by_cases hxf : x = f <;> by_cases hyf : y = f
      · rw [hxf, hyf]
      · subst hxf
        rw [hnf, hA y hy hyf] at hxy
        exact absurd hxy.symm (hne y hy)
      · subst hyf
        rw [hnf, hA x hx hxf] at hxy
        exact absurd hxy (hne x hx)
      · rw [hA x hx hxf, hA y hy hyf] at hxy
        exact h.inj x hx y hy hxy

/-- The member `f` unlinked: its predecessor `p` takes over its link. -/
theorem IsRing.unlink (h : IsRing next A) (hf : f ∈ A) (hp : p ∈ A)
    (hpf : next p = some f) (hnp : next' p = next f)
    (hA : ∀ x ∈ A, x ≠ p → next' x = next x) : IsRing next' (A \ {f}) where
  step := by
    -- only `p` linked to `f`, and `p` now links past it
    intro x hx
    obtain ⟨hxA, hxf⟩ := hx
    by_cases hxp : x = p
    · subst hxp
      obtain ⟨y, hy, hfy⟩ := h.step f hf
      refine ⟨y, ⟨hy, ?_⟩, by rw [hnp, hfy]⟩
      rintro rfl
      exact hxf (h.inj x hxA y hf (by rw [hpf, hfy]))
    · obtain ⟨y, hy, hxy⟩ := h.step x hxA
      refine ⟨y, ⟨hy, ?_⟩, by rw [hA x hxA hxp, hxy]⟩
      rintro rfl
      exact hxp (h.inj x hxA p hp (by rw [hxy, hpf]))
  inj := by
    intro x hx y hy hxy
    obtain ⟨hxA, hxf⟩ := hx
    obtain ⟨hyA, hyf⟩ := hy
    by_cases hxp : x = p <;> by_cases hyp : y = p
    · rw [hxp, hyp]
    · subst hxp
      rw [hnp, hA y hyA hyp] at hxy
      exact absurd (h.inj f hf y hyA hxy).symm hyf
    · subst hyp
      rw [hnp, hA x hxA hxp] at hxy
      exact absurd (h.inj x hxA f hf hxy) hxf
    · rw [hA x hxA hxp, hA y hyA hyp] at hxy
      exact h.inj x hxA y hyA hxy

end Linked
