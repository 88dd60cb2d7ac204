import F9.Lib.Ring
import F9.Logic.Span
import F9.Logic.Steps

/-!
# Mapping rings

`RingOn s A`: the `map_next` links of the pages `A` form rings within `A`, and
all pages of a ring describe the same block. `RingInv` is the case where `A`
are the allocated pages, with the KIP pages on no list. Each primitive effect
that clones allocated pages only keeps it.
-/

namespace F9

open Linked Result

/-- The allocated pages. -/
def Kernel.liveSet (s : Kernel) : Set FpRef := {x | s.liveFp x = true}

/-- The pages `A` form rings of pages for the same block. -/
structure RingOn (s : Kernel) (A : Set FpRef) : Prop where
  ring : IsRing s.mapNext A
  same : ∀ x ∈ A, ∀ y, s.mapNext x = some y →
    (s.fp y).base = (s.fp x).base ∧ (s.fp y).shift = (s.fp x).shift

variable {mm : Memmap} {s s' : Kernel} {A B : Set FpRef} {f : FpRef}

/-! ## Operations on rings -/

theorem RingOn.closed (h : RingOn s A) : ∀ x ∈ A, ∀ y, s.mapNext x = some y → y ∈ A := by
  intro x hx y hxy
  obtain ⟨z, hz, hxz⟩ := h.ring.step x hx
  rw [hxy] at hxz
  injection hxz with hyz
  exact hyz ▸ hz

/-- The pages `A` describe the same blocks in both states. -/
def SameBlocks (s s' : Kernel) (A : Set FpRef) : Prop :=
  ∀ x ∈ A, (s'.fp x).base = (s.fp x).base ∧ (s'.fp x).shift = (s.fp x).shift

/-- The page that a link of the old state leads to describes the same block in
the new one. -/
theorem RingOn.next_block (h : RingOn s A) (hfp : SameBlocks s s' A) {x y : FpRef} (hx : x ∈ A)
    (hxy : s.mapNext x = some y) :
    (s'.fp y).base = (s.fp x).base ∧ (s'.fp y).shift = (s.fp x).shift := by
  have hy := h.closed x hx y hxy
  rw [(hfp y hy).1, (hfp y hy).2]
  exact h.same x hx y hxy

theorem RingOn.adjoin (h : RingOn s A) (hB : ∀ x ∈ B, x ∉ A)
    (hself : ∀ x ∈ B, s'.mapNext x = some x) (hnext : ∀ x ∈ A, s'.mapNext x = s.mapNext x)
    (hfp : SameBlocks s s' A) : RingOn s' (A ∪ B) := by
  refine ⟨h.ring.adjoin hB hself hnext, ?_⟩
  intro x hx y hxy
  rcases hx with hx | hx
  · rw [hnext x hx] at hxy
    rw [(hfp x hx).1, (hfp x hx).2]
    exact h.next_block hfp hx hxy
  · rw [hself x hx] at hxy
    injection hxy with hxy
    subst hxy
    exact ⟨rfl, rfl⟩

theorem RingOn.congr (h : RingOn s A) (hnext : ∀ x ∈ A, s'.mapNext x = s.mapNext x)
    (hfp : SameBlocks s s' A) : RingOn s' A := by
  have hun : RingOn s' (A ∪ ∅) := h.adjoin (by simp) (by simp) hnext hfp
  rwa [Set.union_empty] at hun

theorem RingOn.link {r : FpRef} (h : RingOn s A) (hr : r ∈ A) (hf : f ∉ A)
    (hnf : s'.mapNext f = s.mapNext r) (hnr : s'.mapNext r = some f)
    (hnext : ∀ x ∈ A, x ≠ r → s'.mapNext x = s.mapNext x) (hfp : SameBlocks s s' A)
    (hcopy : (s'.fp f).base = (s.fp r).base ∧ (s'.fp f).shift = (s.fp r).shift) :
    RingOn s' (insert f A) := by
  refine ⟨h.ring.link hr hf hnf hnr hnext, ?_⟩
  intro x hx y hxy
  rcases hx with rfl | hx
  · rw [hnf] at hxy
    rw [hcopy.1, hcopy.2]
    exact h.next_block hfp hr hxy
  · rw [(hfp x hx).1, (hfp x hx).2]
    by_cases hxr : x = r
    · subst hxr
      rw [hnr] at hxy
      injection hxy with hxy
      subst hxy
      exact hcopy
    · rw [hnext x hx hxr] at hxy
      exact h.next_block hfp hx hxy

theorem RingOn.unlink {r p : FpRef} (h : RingOn s A) (hr : r ∈ A) (hp : p ∈ A)
    (hpr : s.mapNext p = some r) (hnp : s'.mapNext p = s.mapNext r)
    (hnext : ∀ x ∈ A, x ≠ p → s'.mapNext x = s.mapNext x) (hfp : SameBlocks s s' A) :
    RingOn s' (A \ {r}) := by
  refine ⟨h.ring.unlink hr hp hpr hnp hnext, ?_⟩
  intro x hx y hxy
  obtain ⟨hxA, _⟩ := hx
  rw [(hfp x hxA).1, (hfp x hxA).2]
  by_cases hxp : x = p
  · subst hxp
    rw [hnp] at hxy
    obtain ⟨h1, h2⟩ := h.next_block hfp hr hxy
    obtain ⟨h3, h4⟩ := h.same x hp r hpr
    exact ⟨h1.trans h3, h2.trans h4⟩
  · rw [hnext x hxA hxp] at hxy
    exact h.next_block hfp hxA hxy

/-! ## What the rings give -/

/-- From every page the links lead back to it, through pages of `A` for the same
block. -/
theorem RingOn.cycle (h : RingOn s A) (hfin : A.Finite) {x : FpRef} (hx : x ∈ A) :
    ∃ l : List FpRef, l ≠ [] ∧ l.Nodup ∧ Seg s.mapNext (some x) l (some x) ∧
      ∀ y ∈ l, y ∈ A ∧ (s.fp y).base = (s.fp x).base ∧ (s.fp y).shift = (s.fp x).shift := by
  obtain ⟨l, hne, hnd, hseg, hmem⟩ := h.ring.cycle hfin hx
  refine ⟨l, hne, hnd, hseg, ?_⟩
  -- along a segment the block stays the same
  have key : ∀ (l : List FpRef) (y z : FpRef), y ∈ A → Seg s.mapNext (some y) l (some z) →
      ∀ w ∈ l, (s.fp w).base = (s.fp y).base ∧ (s.fp w).shift = (s.fp y).shift := by
    intro l
    induction l with
    | nil => intro y z _ _ w hw; simp at hw
    | cons v l ih =>
      intro y z hy hseg w hw
      obtain ⟨hv, hseg⟩ := seg_cons.mp hseg
      injection hv with hv
      subst hv
      rcases List.mem_cons.mp hw with rfl | hw
      · exact ⟨rfl, rfl⟩
      · obtain ⟨u, hu, hyu⟩ := h.ring.step y hy
        rw [hyu] at hseg
        obtain ⟨h1, h2⟩ := ih u z hu hseg w hw
        obtain ⟨h3, h4⟩ := h.same y hy u hyu
        exact ⟨h1.trans h3, h2.trans h4⟩
  intro y hy
  exact ⟨hmem y hy, key l x x hx hseg y hy⟩

theorem Kernel.liveSet_finite (s : Kernel) : s.liveSet.Finite :=
  (Set.finite_lt_nat s.fpageTable.num).subset fun _ hx => liveFp_lt hx

theorem RingOn.unmapSearch_ok (h : RingOn s s.liveSet) {r : FpRef} (hr : s.liveFp r = true) :
    ∃ p, unmapSearch s r s.walkBound r = .ok p := by
  obtain ⟨l, hne, hnd, hseg, hmem⟩ := h.cycle s.liveSet_finite hr
  have hlen : l.length ≤ s.fpageTable.num :=
    length_le_of_nodup_lt hnd fun x hx => liveFp_lt (hmem x hx).1
  exact unmapSearch_of_seg l s.walkBound r hne hseg (Nat.le_succ_of_le hlen)

/-! ## The invariant -/

/-- All allocated pages form rings; the KIP pages are allocated and on no list. -/
structure RingInv (s : Kernel) : Prop where
  rings : RingOn s s.liveSet
  kip : ∀ r, s.kipFpage = some r ∨ s.kipExtraFpage = some r →
    s.liveFp r = true ∧ ∀ a, s.liveAs a = true → r ∉ s.pages a

/-- Pages that come into a list are fresh, and pages that go were on a list, so
the KIP pages stay as they are. -/
theorem RingInv.kip_of {G : List FpRef} (h : RingInv s)
    (hk : s'.kipFpage = s.kipFpage) (hk' : s'.kipExtraFpage = s.kipExtraFpage)
    (hlive : ∀ r, s.liveFp r = true → (∀ a, s.liveAs a = true → r ∉ s.pages a) →
      s'.liveFp r = true)
    (hfresh : ∀ x ∈ G, s.liveFp x = false)
    (hpages : ∀ a, s'.liveAs a = true → ∀ x ∈ s'.pages a,
      x ∈ G ∨ (s.liveAs a = true ∧ x ∈ s.pages a)) :
    ∀ r, s'.kipFpage = some r ∨ s'.kipExtraFpage = some r →
      s'.liveFp r = true ∧ ∀ a, s'.liveAs a = true → r ∉ s'.pages a := by
  intro r hr
  rw [hk, hk'] at hr
  obtain ⟨h1, h2⟩ := h.kip r hr
  refine ⟨hlive r h1 h2, fun a ha hra => ?_⟩
  rcases hpages a ha r hra with hG | ⟨ha', hra'⟩
  · rw [hfresh r hG] at h1
    simp at h1
  · exact h2 a ha' hra'

/-- A step that keeps the pages, their blocks and the `map_next` links. -/
theorem RingInv.congr (h : RingInv s) (hlive : ∀ x, s'.liveFp x = s.liveFp x)
    (hnext : ∀ x, s'.mapNext x = s.mapNext x) (hfp : SameBlocks s s' Set.univ)
    (hk : s'.kipFpage = s.kipFpage) (hk' : s'.kipExtraFpage = s.kipExtraFpage)
    (hpages : ∀ a, s'.liveAs a = true → ∀ x ∈ s'.pages a, s.liveAs a = true ∧ x ∈ s.pages a) :
    RingInv s' := by
  have hset : s'.liveSet = s.liveSet := by
    ext x
    show s'.liveFp x = true ↔ s.liveFp x = true
    rw [hlive]
  refine ⟨?_, ?_⟩
  · rw [hset]
    exact h.rings.congr (fun x _ => hnext x) fun x _ => hfp x trivial
  · refine h.kip_of (G := []) hk hk' ?_ (by simp) fun a ha x hx => .inr (hpages a ha x hx)
    intro r hr _
    rw [hlive]
    exact hr

section

variable {X : AsRef → Prop} {a : AsRef} {r f : FpRef} {cl cr N : List FpRef}

theorem Cut.ringInv {sp : Word} (hwf : Wf s) (h : RingInv s) (ha : s.liveAs a = true)
    (hr : r ∈ s.pages a) (hc : Cut mm s s' a r (s.pages a) sp cl cr) : RingInv s' := by
  have hlr : r ∈ s.liveSet := hwf.live a ha r hr
  have hold : ∀ x ∈ s.liveSet, x ∉ cl ++ cr := by
    intro x hx hxc
    exact ne_true_of_eq_false (hc.fresh x hxc) hx
  have hnext : ∀ x ∈ s.liveSet, s'.mapNext x = s.mapNext x := by
    intro x hx
    unfold Kernel.mapNext
    rw [hc.frame x (hold x hx)]
  have hfp : SameBlocks s s' s.liveSet := by
    intro x hx
    rw [hc.frame x (hold x hx)]
    exact ⟨rfl, rfl⟩
  have hself : ∀ x ∈ cl ++ cr, s'.mapNext x = some x := by
    intro x hx
    exact (List.mem_append.mp hx).elim hc.left.mapNext hc.right.mapNext
  -- the page that is cut is a ring of its own
  have hout : RingOn s' (s.liveSet \ {r}) :=
    h.rings.unlink hlr hlr hc.alone (hnext r hlr) (fun x hx _ => hnext x hx) hfp
  refine ⟨?_, ?_⟩
  · have hset : s'.liveSet = s.liveSet \ {r} ∪ {x | x ∈ cl ++ cr} := by
      ext x
      show s'.liveFp x = true ↔ (s.liveFp x = true ∧ ¬ x = r) ∨ x ∈ cl ++ cr
      rw [hc.live]
      simp
    rw [hset]
    exact hout.adjoin (fun x hx hxA => hold x hxA.1 hx) hself (fun _ _ => rfl)
      (fun _ _ => ⟨rfl, rfl⟩)
  · refine h.kip_of (G := cl ++ cr) hc.out.kipFpage hc.out.kipExtraFpage ?_ hc.fresh ?_
    · intro x hx hno
      have hxr : x ≠ r := fun hxr => hno a ha (hxr ▸ hr)
      rw [hc.live]
      simp [hx, hxr]
    · intro b hb x hx
      rw [hc.out.liveAs] at hb
      by_cases hba : b = a
      · subst hba
        exact ((hc.mem_pages hwf ha hr).mp hx).imp_right fun hx => ⟨ha, hx.1⟩
      · have hpb := ((hc.lists hwf ha hr).pages_update hc.out.liveAs ha).2 b hb hba
        exact .inr ⟨hb, hpb ▸ hx⟩

theorem Cloned.ringInv {action : MapAction} (hwf : Wf s) (h : RingInv s) (hlr : s.liveFp r = true)
    (ha : s.liveAs a = true) (hc : Cloned s s' a r f action (s.pages a)) : RingInv s' := by
  have hne : ∀ x ∈ s.liveSet, x ≠ f := by
    rintro x hx rfl
    exact ne_true_of_eq_false hc.fresh hx
  have hrf : r ≠ f := hne r hlr
  have hset : s'.liveSet = insert f s.liveSet := by
    ext x
    show s'.liveFp x = true ↔ x = f ∨ s.liveFp x = true
    rw [hc.live, Bool.or_eq_true, decide_eq_true_eq, or_comm]
  refine ⟨?_, ?_⟩
  · rw [hset]
    refine h.rings.link hlr (fun hf => hne f hf rfl) ?_ ?_ ?_ ?_ ?_
    · unfold Kernel.mapNext
      rw [hc.clone, if_neg hrf]
    · unfold Kernel.mapNext
      rw [hc.source hrf]
    · intro x hx hxr
      unfold Kernel.mapNext
      rw [hc.frame x (hne x hx) hxr]
    · intro x hx
      by_cases hxr : x = r
      · subst hxr
        rw [hc.source hrf]
        exact ⟨rfl, rfl⟩
      · rw [hc.frame x (hne x hx) hxr]
        exact ⟨rfl, rfl⟩
    · rw [hc.clone]
      exact ⟨rfl, rfl⟩
  · refine h.kip_of (G := [f]) hc.out.kipFpage hc.out.kipExtraFpage ?_ ?_ ?_
    · intro x hx _
      rw [hc.live, hx, Bool.true_or]
    · intro x hx
      rw [List.mem_singleton.mp hx]
      exact hc.fresh
    · intro b hb x hx
      rw [hc.out.liveAs] at hb
      by_cases hba : b = a
      · subst hba
        rw [hc.pages_eq hwf ha, mem_spliceAt] at hx
        exact hx.imp_right fun hx => ⟨ha, hx⟩
      · exact .inr ⟨hb, hc.pages_ne hwf ha hb hba ▸ hx⟩

theorem Extended.ringInv {m : Nat} {l : List FpRef} (hwf : Wf s) (h : RingInv s)
    (ha : s.liveAs a = true) (he : Extended mm m s s' a (s.pages a) N l) : RingInv s' := by
  have hold : ∀ x ∈ s.liveSet, x ∉ N := by
    intro x hx hxN
    exact ne_true_of_eq_false (he.fresh x hxN) hx
  obtain ⟨hpa, hpb⟩ := (he.lists hwf ha).pages_update he.out.liveAs ha
  refine ⟨?_, ?_⟩
  · have hset : s'.liveSet = s.liveSet ∪ {x | x ∈ N} := by
      ext x
      show s'.liveFp x = true ↔ s.liveFp x = true ∨ x ∈ N
      rw [he.live, Bool.or_eq_true, decide_eq_true_eq]
    rw [hset]
    refine h.rings.adjoin (fun x hx hxA => hold x hxA hx) ?_ ?_ ?_
    · intro x hx
      obtain ⟨b, _, _, hb⟩ := he.page x hx
      unfold Kernel.mapNext
      rw [hb]
      rfl
    · intro x hx
      unfold Kernel.mapNext
      rw [he.frame x (hold x hx)]
    · intro x hx
      rw [he.frame x (hold x hx)]
      exact ⟨rfl, rfl⟩
  · refine h.kip_of (G := N) he.out.kipFpage he.out.kipExtraFpage ?_ he.fresh ?_
    · intro x hx _
      rw [he.live, hx, Bool.true_or]
    · intro b hb x hx
      rw [he.out.liveAs] at hb
      by_cases hba : b = a
      · subst hba
        rw [hpa, he.mem] at hx
        exact hx.symm.imp_right fun hx => ⟨ha, hx⟩
      · exact .inr ⟨hb, hpb b hb hba ▸ hx⟩

section

variable {p : FpRef} {l : List FpRef} (h : Unmapped s s' a r p l)
include h

theorem Unmapped.mapNext (x : FpRef) :
    s'.mapNext x = if x = p then s.mapNext r else s.mapNext x := by
  show (s'.fp x).mapNext = _
  rw [h.fp]

theorem Unmapped.sameBlocks (A : Set FpRef) : SameBlocks s s' A := by
  intro x _
  rw [h.fp]
  exact ⟨rfl, rfl⟩

theorem Unmapped.ringOn (hA : RingOn s A) (hr : r ∈ A) : RingOn s' (A \ {r}) := by
  refine hA.unlink hr (h.reach A hA.closed hr) h.ring ?_ ?_ (h.sameBlocks A)
  · rw [h.mapNext, if_pos rfl]
  · intro x _ hxp
    rw [h.mapNext, if_neg hxp]

end

theorem Unmapped.ringInv {p : FpRef} (hwf : Wf s) (h : RingInv s) (ha : s.liveAs a = true)
    (hr : r ∈ s.pages a) (hu : Unmapped s s' a r p (s.pages a)) : RingInv s' := by
  obtain ⟨hpa, hpb⟩ := (hu.lists hwf ha hr).pages_update hu.out.liveAs ha
  refine ⟨?_, ?_⟩
  · have hset : s'.liveSet = s.liveSet \ {r} := by
      ext x
      show s'.liveFp x = true ↔ s.liveFp x = true ∧ ¬ x = r
      rw [hu.live]
      simp
    rw [hset]
    exact hu.ringOn h.rings (hwf.live a ha r hr)
  · refine h.kip_of (G := []) hu.out.kipFpage hu.out.kipExtraFpage ?_ (by simp) ?_
    · intro x hx hno
      have hxr : x ≠ r := fun hxr => hno a ha (hxr ▸ hr)
      rw [hu.live]
      simp [hx, hxr]
    · intro b hb x hx
      rw [hu.out.liveAs] at hb
      by_cases hba : b = a
      · subst hba
        rw [hpa] at hx
        exact .inr ⟨ha, List.mem_of_mem_erase hx⟩
      · exact .inr ⟨hb, hpb b hb hba ▸ hx⟩

/-- Each primitive effect keeps the rings, if the pages it clones are allocated. -/
theorem Prim.ringInv (hwf : Wf s) (h : RingInv s)
    (hp : Prim mm X (fun s r => s.liveFp r = true) s s') : RingInv s' := by
  cases hp with
  | cut _ ha hr hc => exact hc.ringInv hwf h ha hr
  | clone hlr hd hc => exact hc.ringInv hwf h hlr hd
  | extend ha he => exact he.ringInv hwf h ha
  | unmap _ ha hr hu => exact hu.ringInv hwf h ha hr

theorem Prims.ringInv (h : RingInv s)
    (hp : Prims mm X (fun s r => s.liveFp r = true) s s') : RingInv s' :=
  hp.invariant (fun _ _ hwf hi hp => hp.ringInv hwf hi) h

end

end F9
