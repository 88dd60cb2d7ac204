import F9.Lib.Linked
import Mathlib.Logic.Relation
import Mathlib.Data.Set.Insert

/-!
# Trees in a heap

A node has three links: to its first child, to its next sibling and to its parent. `IsTree k root A
kids` says that the nodes `A` form a tree under `root`, with the chain `kids p` of children of each
node `p`.

* **shape** — a node is not below itself (`IsTree.not_below_self`), and each node but the root is in
  one list of children (`IsTree.disjoint`);
* **adding** a leaf (`IsTree.add`), with the links that do it (`IsTree.add_chain`);
* **removing** a node whose children go to another node `c`. This keeps a tree if and only if there
  are no children, or `c` is neither the node nor below it (`IsTree.remove`, `IsTree.not_remove`);
  the links are those of `IsTree.unlink_chain` and `IsTree.move_chain`.
-/

namespace Linked

variable {ρ : Type}

/-- The links of the nodes. -/
structure Links (ρ : Type) where
  child : ρ → Option ρ
  sibling : ρ → Option ρ
  parent : ρ → Option ρ

/-- The parents of `x` lead to `p`, in one step or more. -/
def Links.Below (k : Links ρ) (p x : ρ) : Prop :=
  Relation.TransGen (fun a b => k.parent a = some b) x p

/-- The nodes `A` form a tree under `root`, where `kids p` are the children of `p`. -/
structure IsTree (k : Links ρ) (root : ρ) (A : Set ρ) (kids : ρ → List ρ) : Prop where
  apart : root ∉ A
  top : k.parent root = none
  chain : ∀ p ∈ insert root A, Chain k.sibling (k.child p) (kids p)
  mem : ∀ p ∈ insert root A, ∀ x, x ∈ kids p ↔ x ∈ A ∧ k.parent x = some p
  parent : ∀ x ∈ A, ∃ p ∈ insert root A, k.parent x = some p
  up : ∀ x ∈ A, k.Below root x

namespace Links.Below

variable {k : Links ρ} {p q x y : ρ}

theorem of_parent (h : k.parent x = some p) : k.Below p x := .single h

theorem step (hx : k.parent x = some q) (h : k.Below p q) : k.Below p x := .head hx h

theorem cases (h : k.Below p x) (hx : k.parent x = some q) : q = p ∨ k.Below p q := by
  rcases Relation.TransGen.head'_iff.mp h with ⟨z, hz, hrest⟩
  rw [hx] at hz
  injection hz with hz
  rw [hz]
  rcases Relation.reflTransGen_iff_eq_or_transGen.mp hrest with heq | htrans
  · exact .inl heq.symm
  · exact .inr htrans

theorem parent_ne_none (h : k.Below p x) : k.parent x ≠ none := by
  rcases Relation.TransGen.head'_iff.mp h with ⟨z, hz, _⟩
  rw [hz]
  simp

/-- What holds of a node and passes on to the parent holds of what the parents lead to. -/
theorem closed {P : ρ → Prop} (h : k.Below p x) (hx : P x)
    (hstep : ∀ y q, P y → k.parent y = some q → P q) : P p := by
  induction h with
  | single h => exact hstep _ _ hx h
  | tail _ h ih => exact hstep _ _ ih h

end Links.Below

namespace IsTree

variable {k k' k'' : Links ρ} {root : ρ} {A : Set ρ} {kids kids' : ρ → List ρ} {x y c p q : ρ}

/-! ## Shape -/

section

variable (h : IsTree k root A kids)
include h

theorem ne_root (hx : x ∈ A) : x ≠ root := by
  rintro rfl
  exact h.apart hx

theorem not_below_root : ¬ k.Below p root :=
  fun hb => hb.parent_ne_none h.top

theorem below_mem (hx : x ∈ A) (hb : k.Below p x) : p ∈ insert root A := by
  refine hb.closed (P := fun y => y ∈ insert root A) (.inr hx) fun y q hy hq => ?_
  rcases hy with rfl | hy
  · rw [h.top] at hq
    simp at hq
  · obtain ⟨p, hp, hyp⟩ := h.parent y hy
    rw [hq] at hyp
    injection hyp with hyp
    rw [hyp]
    exact hp

/-- A parent that is below a node is not the root. -/
theorem parent_mem (hx : x ∈ A) (hy : k.parent x = some y) (hb : k.Below p y) : y ∈ A := by
  rcases h.below_mem hx (.of_parent hy) with heq | hyA
  · rw [heq] at hb
    exact absurd hb h.not_below_root
  · exact hyA

/-- A node below itself would have only nodes below it above it, and the root is not one. -/
theorem not_below_self (hx : x ∈ A) : ¬ k.Below x x := by
  intro hself
  have hall : k.Below x root := by
    refine (h.up x hx).closed (P := fun y => k.Below x y) hself fun y q hy hq => ?_
    rcases hy.cases hq with rfl | hy
    · exact hself
    · exact hy
  exact h.not_below_root hall

theorem parent_ne_self (hx : x ∈ A) : k.parent x ≠ some x :=
  fun heq => h.not_below_self hx (.of_parent heq)

theorem disjoint (hp : p ∈ insert root A) (hq : q ∈ insert root A) (hx : x ∈ kids p)
    (hx' : x ∈ kids q) : p = q := by
  have h1 := ((h.mem p hp x).mp hx).2
  have h2 := ((h.mem q hq x).mp hx').2
  rw [h1] at h2
  exact Option.some.inj h2

theorem kids_mem (hp : p ∈ insert root A) (hx : x ∈ kids p) : x ∈ A :=
  ((h.mem p hp x).mp hx).1

theorem kids_nil_iff (hp : p ∈ insert root A) : kids p = [] ↔ k.child p = none := by
  rw [(h.chain p hp).head_eq, List.head?_eq_none_iff]

end

/-! ## Adding a leaf -/

/-- The lists of children with the leaf `x` at the end of those of `c`. -/
def addLeaf [DecidableEq ρ] (kids : ρ → List ρ) (c x : ρ) (q : ρ) : List ρ :=
  if q = x then [] else if q = c then kids c ++ [x] else kids q

theorem add [DecidableEq ρ] (h : IsTree k root A kids) (hx : x ∉ A) (hxr : x ≠ root)
    (hc : c ∈ insert root A) (hparent : ∀ y ∈ insert root A, k'.parent y = k.parent y)
    (hnew : k'.parent x = some c)
    (hchain : ∀ p ∈ insert root (insert x A), Chain k'.sibling (k'.child p) (addLeaf kids c x p)) :
    IsTree k' root (insert x A) (addLeaf kids c x) := by
  have hsub : ∀ p, p ∈ insert root A → p ∈ insert root (insert x A) := by
    rintro p (rfl | hp)
    · exact .inl rfl
    · exact .inr (.inr hp)
  have hup : ∀ y ∈ A, k'.Below root y := by
    intro y hy
    refine Relation.TransGen.head_induction_on
      (motive := fun y _ => y ∈ A → k'.Below root y) (h.up y hy) ?_ ?_ hy
    · intro y hroot hy
      exact .of_parent (by rw [hparent y (.inr hy)]; exact hroot)
    · intro y z hyz hz ih hy
      exact .step (by rw [hparent y (.inr hy)]; exact hyz) (ih (h.parent_mem hy hyz hz))
  have hcx : c ≠ x := by
    rintro rfl
    rcases hc with hc | hc
    · exact hxr hc
    · exact hx hc
  refine ⟨?_, ?_, hchain, fun p hp y => ?_, ?_, ?_⟩
  · rintro (heq | hroot)
    · exact hxr heq.symm
    · exact h.apart hroot
  · rw [hparent root (.inl rfl)]
    exact h.top
  · -- the leaf is a child of `c` alone, the others of their old parents
    have hold : ∀ y ∈ A, k'.parent y = k.parent y := fun y hy => hparent y (.inr hy)
    unfold addLeaf
    by_cases hpx : p = x
    · rw [if_pos hpx, hpx]
      refine ⟨fun hy => absurd hy (by simp), fun hy => ?_⟩
      rcases hy with ⟨rfl | hy, hyp⟩
      · rw [hnew] at hyp
        exact absurd (Option.some.inj hyp) hcx
      · rw [hold y hy] at hyp
        obtain ⟨q, hq, hyq⟩ := h.parent y hy
        rw [hyp] at hyq
        injection hyq with hyq
        rw [← hyq] at hq
        rcases hq with hq | hq
        · exact absurd hq hxr
        · exact absurd hq hx
    · have hpA : p ∈ insert root A := by
        rcases hp with hp | hp | hp
        · exact .inl hp
        · exact absurd hp hpx
        · exact .inr hp
      have hmem : ∀ y, y ∈ kids p ↔ y ∈ A ∧ k'.parent y = some p := by
        intro y
        rw [h.mem p hpA y]
        exact and_congr_right fun hy => by rw [hold y hy]
      rw [if_neg hpx]
      by_cases hpc : p = c
      · rw [if_pos hpc, List.mem_append, List.mem_singleton, ← hpc, hmem y]
        constructor
        · rintro (⟨hy, hyp⟩ | rfl)
          · exact ⟨.inr hy, hyp⟩
          · exact ⟨.inl rfl, by rw [hnew, hpc]⟩
        · rintro ⟨rfl | hy, hyp⟩
          · exact .inr rfl
          · exact .inl ⟨hy, hyp⟩
      · rw [if_neg hpc, hmem y]
        refine ⟨fun hy => ⟨.inr hy.1, hy.2⟩, ?_⟩
        rintro ⟨rfl | hy, hyp⟩
        · rw [hnew] at hyp
          exact absurd (Option.some.inj hyp).symm hpc
        · exact ⟨hy, hyp⟩
  · rintro y (rfl | hy)
    · exact ⟨c, hsub c hc, hnew⟩
    · obtain ⟨p, hp, hyp⟩ := h.parent y hy
      exact ⟨p, hsub p hp, by rw [hparent y (.inr hy), hyp]⟩
  · rintro y (rfl | hy)
    · rcases hc with rfl | hc
      · exact .of_parent hnew
      · exact .step hnew (hup c hc)
    · exact hup y hy

/-- The links that put the leaf at the end of the list of `c`: into the empty list, or behind the
last child. -/
theorem add_chain [DecidableEq ρ] (h : IsTree k root A kids) (hx : x ∉ A)
    (hc : c ∈ insert root A) (hchild : k'.child x = none) (hsibling : k'.sibling x = none)
    (hlinks : (k.child c = none ∧
        (∀ q, q ≠ x → k'.child q = if q = c then some x else k.child q) ∧
        ∀ y, y ≠ x → k'.sibling y = k.sibling y) ∨
      ∃ cs z, kids c = cs ++ [z] ∧ (∀ q, q ≠ x → k'.child q = k.child q) ∧
        ∀ y, y ≠ x → k'.sibling y = if y = z then some x else k.sibling y) :
    ∀ p ∈ insert root (insert x A), Chain k'.sibling (k'.child p) (addLeaf kids c x p) := by
  intro p hp
  unfold addLeaf
  by_cases hpx : p = x
  · rw [if_pos hpx, hpx, hchild, chain_nil]
  have hpA : p ∈ insert root A := by
    rcases hp with hp | hp | hp
    · exact .inl hp
    · exact absurd hp hpx
    · exact .inr hp
  have hne : ∀ y ∈ kids p, y ≠ x := by
    rintro y hy rfl
    exact hx (h.kids_mem hpA hy)
  rw [if_neg hpx]
  have hold := h.chain p hpA
  rcases hlinks with ⟨hnone, hk, hs⟩ | ⟨cs, z, hcs, hk, hs⟩
  · rw [hk p hpx]
    by_cases hpc : p = c
    · rw [if_pos hpc, if_pos hpc, (h.kids_nil_iff hc).mpr hnone, List.nil_append, chain_cons,
        hsibling, chain_nil]
      exact ⟨rfl, rfl⟩
    · rw [if_neg hpc, if_neg hpc]
      exact hold.congr fun y hy => hs y (hne y hy)
  · rw [hk p hpx]
    by_cases hpc : p = c
    · rw [if_pos hpc, hcs, hpc]
      rw [hpc] at hold hne
      rw [hcs] at hold hne
      have hseg : Seg k'.sibling (k.child c) (cs ++ [z]) (k'.sibling z) := by
        refine Seg.relink_last hold fun y hy => ?_
        rw [hs y (hne y (List.mem_append_left _ hy)), if_neg]
        rintro rfl
        exact hold.not_mem_of_append.1 hy
      rw [hs z (hne z (by simp)), if_pos rfl] at hseg
      refine hseg.append (seg_cons.mpr ⟨rfl, ?_⟩)
      rw [hsibling]
      exact .nil
    · rw [if_neg hpc]
      refine hold.congr fun y hy => ?_
      rw [hs y (hne y hy), if_neg]
      rintro rfl
      exact hpc (h.disjoint hpA hc hy (by rw [hcs]; simp))

/-! ## Removing a node -/

/-- The lists of children without `x`, whose own children go to the front of those of `c`. -/
def without [DecidableEq ρ] (kids : ρ → List ρ) (x c : ρ) (q : ρ) : List ρ :=
  (if q = c then kids x else []) ++ (kids q).erase x

/-- The parents without `x`. -/
def Reparented (k k' : Links ρ) (A : Set ρ) (x c : ρ) : Prop :=
  (∀ y ∈ A, k.parent y = some x → k'.parent y = some c) ∧
    ∀ y ∈ A, y ≠ x → k.parent y ≠ some x → k'.parent y = k.parent y

theorem remove [DecidableEq ρ] (h : IsTree k root A kids) (hx : x ∈ A) (hc : c ∈ insert root A)
    (hok : kids x = [] ∨ (c ≠ x ∧ ¬ k.Below x c)) (hre : Reparented k k' A x c)
    (htop : k'.parent root = none)
    (hchain : ∀ p ∈ insert root (A \ {x}), Chain k'.sibling (k'.child p) (without kids x c p)) :
    IsTree k' root (A \ {x}) (without kids x c) := by
  obtain ⟨hmoved, hkept⟩ := hre
  have hxA : x ∈ insert root A := .inr hx
  have hkid : ∀ y, y ∈ kids x ↔ y ∈ A ∧ k.parent y = some x := h.mem x hxA
  have hnkid : ∀ y, y ∈ kids x → y ≠ x := by
    rintro y hy rfl
    exact h.parent_ne_self hx ((hkid y).mp hy).2
  -- if there are children, their new parent is in the new tree
  have hcne : kids x ≠ [] → c ∈ insert root (A \ {x}) := by
    intro hne
    rcases hc with hc | hc
    · exact .inl hc
    · exact .inr ⟨hc, (hok.resolve_left hne).1⟩
  -- a path that does not meet `x` is not changed
  have hkeep : ∀ y ∈ A, y ≠ x → ¬ k.Below x y → k'.Below root y := by
    intro y hy
    refine Relation.TransGen.head_induction_on
      (motive := fun y _ => y ∈ A → y ≠ x → ¬ k.Below x y → k'.Below root y) (h.up y hy) ?_ ?_ hy
    · intro y hroot hy hyx hb
      have hnx : k.parent y ≠ some x := fun heq => hb (.of_parent heq)
      exact .of_parent (by rw [hkept y hy hyx hnx]; exact hroot)
    · intro y z hyz hz ih hy hyx hb
      have hnx : k.parent y ≠ some x := fun heq => hb (.of_parent heq)
      refine .step (by rw [hkept y hy hyx hnx]; exact hyz)
        (ih (h.parent_mem hy hyz hz) ?_ fun hzx => hb (.step hyz hzx))
      rintro rfl
      exact hnx hyz
  -- a path that meets `x` goes through one of its children, and from there through `c`
  have hup : ∀ y ∈ A, y ≠ x → k'.Below root y := by
    intro y hy
    refine Relation.TransGen.head_induction_on
      (motive := fun y _ => y ∈ A → y ≠ x → k'.Below root y) (h.up y hy) ?_ ?_ hy
    · intro y hroot hy hyx
      refine .of_parent ?_
      rw [hkept y hy hyx]
      · exact hroot
      · rw [hroot]
        intro heq
        exact h.ne_root hx (Option.some.inj heq).symm
    · intro y z hyz hz ih hy hyx
      by_cases hzx : z = x
      · rw [hzx] at hyz
        have hyc := hmoved y hy hyz
        have hne : kids x ≠ [] := List.ne_nil_of_mem ((hkid y).mpr ⟨hy, hyz⟩)
        obtain ⟨hcx, hcb⟩ := hok.resolve_left hne
        rcases hc with hc | hc
        · rw [← hc]
          exact .of_parent hyc
        · exact .step hyc (hkeep c hc hcx hcb)
      · refine .step ?_ (ih (h.parent_mem hy hyz hz) hzx)
        rw [hkept y hy hyx]
        · exact hyz
        · rw [hyz]
          exact fun heq => hzx (Option.some.inj heq)
  refine ⟨fun hroot => h.apart hroot.1, htop, hchain, fun p hp y => ?_, fun y hy => ?_,
    fun y hy => hup y hy.1 hy.2⟩
  · have hpA : p ∈ insert root A := by
      rcases hp with hp | hp
      · exact .inl hp
      · exact .inr hp.1
    have hpx : p ≠ x := by
      rcases hp with rfl | hp
      · exact (h.ne_root hx).symm
      · exact hp.2
    have hnd := (h.chain p hpA).nodup
    rw [without, List.mem_append, hnd.mem_erase_iff, h.mem p hpA y]
    constructor
    · rintro (hy | ⟨hyx, hy, hyp⟩)
      · split at hy
        · rename_i hpc
          obtain ⟨hyA, hyx⟩ := (hkid y).mp hy
          exact ⟨⟨hyA, hnkid y hy⟩, by rw [hpc]; exact hmoved y hyA hyx⟩
        · simp at hy
      · refine ⟨⟨hy, hyx⟩, ?_⟩
        rw [hkept y hy hyx, hyp]
        rw [hyp]
        exact fun heq => hpx (Option.some.inj heq)
    · rintro ⟨⟨hyA, hyx⟩, hyp⟩
      by_cases hkx : k.parent y = some x
      · rw [hmoved y hyA hkx] at hyp
        left
        rw [if_pos (Option.some.inj hyp).symm]
        exact (hkid y).mpr ⟨hyA, hkx⟩
      · right
        rw [hkept y hyA hyx hkx] at hyp
        exact ⟨hyx, hyA, hyp⟩
  · obtain ⟨p, hp, hyp⟩ := h.parent y hy.1
    by_cases hkx : k.parent y = some x
    · have hne : kids x ≠ [] := List.ne_nil_of_mem ((hkid y).mpr ⟨hy.1, hkx⟩)
      exact ⟨c, hcne hne, hmoved y hy.1 hkx⟩
    · refine ⟨p, ?_, by rw [hkept y hy.1 hy.2 hkx, hyp]⟩
      rcases hp with hp | hp
      · exact .inl hp
      · refine .inr ⟨hp, ?_⟩
        rintro rfl
        exact hkx hyp

/-- Taking a node out of its list: from the head, or from behind another child. -/
theorem unlink_chain [DecidableEq ρ] (h : IsTree k root A kids) (hx : x ∈ A)
    (hp : k.parent x = some p)
    (hlinks : (k.child p = some x ∧ k'.sibling = k.sibling ∧
        ∀ q, k'.child q = if q = p then k.sibling x else k.child q) ∨
      ∃ l1 z l2, kids p = l1 ++ z :: x :: l2 ∧ k'.child = k.child ∧
        ∀ y, k'.sibling y = if y = z then k.sibling x else k.sibling y) :
    ∀ q ∈ insert root A, Chain k'.sibling (k'.child q) ((kids q).erase x) := by
  have hpA : p ∈ insert root A := h.below_mem hx (.of_parent hp)
  have hxp : x ∈ kids p := (h.mem p hpA x).mpr ⟨hx, hp⟩
  intro q hq
  have hold := h.chain q hq
  by_cases hqp : q = p
  · rw [hqp] at hold ⊢
    rcases hlinks with ⟨hhead, hs, hk⟩ | ⟨l1, z, l2, hl, hk, hs⟩
    · rw [hhead] at hold
      cases hkids : kids p with
      | nil =>
        rw [hkids] at hxp
        simp at hxp
      | cons y l =>
        rw [hkids] at hold
        obtain ⟨hxy, hrest⟩ := chain_cons.mp hold
        injection hxy with hxy
        rw [← hxy] at hrest ⊢
        rw [List.erase_cons_head, hk p, if_pos rfl, hs]
        exact hrest
    · rw [hl] at hold ⊢
      rw [show l1 ++ z :: x :: l2 = (l1 ++ [z]) ++ x :: l2 by simp] at hold ⊢
      obtain ⟨hx1, hx2⟩ := hold.not_mem_of_append
      rw [List.erase_append_right _ hx1, List.erase_cons_head, hk]
      rw [List.append_assoc, List.singleton_append] at hold ⊢
      have hz := hold.not_mem_of_append
      refine Chain.unlink hold (by rw [hs z, if_pos rfl]) (fun w hw => ?_) fun w hw => ?_
      · rw [hs w, if_neg]
        rintro rfl
        exact hz.1 hw
      · rw [hs w, if_neg]
        rintro rfl
        exact hz.2 (List.mem_cons_of_mem _ hw)
  · have hxq : x ∉ kids q := fun hxq => hqp (h.disjoint hq hpA hxq hxp)
    rw [List.erase_of_not_mem hxq]
    rcases hlinks with ⟨_, hs, hk⟩ | ⟨l1, z, l2, hl, hk, hs⟩
    · rw [hk q, if_neg hqp, hs]
      exact hold
    · rw [hk]
      refine hold.congr fun w hw => ?_
      rw [hs w, if_neg]
      rintro rfl
      exact hqp (h.disjoint hq hpA hw (by rw [hl]; simp))

/-- Putting the children of the node in front of those of `c`. -/
theorem move_chain [DecidableEq ρ] {cs : List ρ} {z : ρ} (h : IsTree k root A kids) (hx : x ∈ A)
    (hc : c ∈ insert root A)
    (hunlinked : ∀ q ∈ insert root A, Chain k'.sibling (k'.child q) ((kids q).erase x))
    (hlast : kids x = cs ++ [z])
    (hsibling : ∀ y, k''.sibling y = if y = z then k'.child c else k'.sibling y)
    (hchild : ∀ q, k''.child q = if q = c then k'.child x else k'.child q) :
    ∀ q ∈ insert root (A \ {x}), Chain k''.sibling (k''.child q) (without kids x c q) := by
  have hxA : x ∈ insert root A := .inr hx
  have hzx : z ∈ kids x := by
    rw [hlast]
    simp
  intro q hq
  have hqA : q ∈ insert root A := by
    rcases hq with hq | hq
    · exact .inl hq
    · exact .inr hq.1
  have hqx : q ≠ x := by
    rcases hq with rfl | hq
    · exact (h.ne_root hx).symm
    · exact hq.2
  have hnz : ∀ y ∈ (kids q).erase x, k''.sibling y = k'.sibling y := by
    intro y hy
    rw [hsibling, if_neg]
    rintro rfl
    exact hqx (h.disjoint hqA hxA (List.mem_of_mem_erase hy) hzx)
  have hold := hunlinked q hqA
  unfold without
  rw [hchild q]
  by_cases hqc : q = c
  · rw [if_pos hqc, if_pos hqc, hlast]
    have hown := hunlinked x hxA
    rw [List.erase_of_not_mem, hlast] at hown
    · have hz := hown.not_mem_of_append.1
      refine Chain.prepend hold hown (by rw [hsibling z, if_pos rfl, hqc]) hnz fun y hy => ?_
      rw [hsibling, if_neg]
      rintro rfl
      exact hz hy
    · exact fun hxx => h.parent_ne_self hx ((h.mem x hxA x).mp hxx).2
  · rw [if_neg hqc, if_neg hqc, List.nil_append]
    exact hold.congr hnz

/-- If the children go to the node itself their parent is not in the tree, and if they go to a node
below it there is no way from there to the root. -/
theorem not_remove (h : IsTree k root A kids) (hx : x ∈ A) (hne : kids x ≠ [])
    (hbad : c = x ∨ (c ∈ A ∧ k.Below x c)) (hre : Reparented k k' A x c) :
    ¬ IsTree k' root (A \ {x}) kids' := by
  obtain ⟨hmoved, hkept⟩ := hre
  have hkid : ∀ y, y ∈ kids x ↔ y ∈ A ∧ k.parent y = some x := h.mem x (.inr hx)
  intro h'
  rcases hbad with rfl | ⟨hc, hcb⟩
  · obtain ⟨y, hy⟩ := List.exists_mem_of_ne_nil _ hne
    obtain ⟨hyA, hyc⟩ := (hkid y).mp hy
    have hyne : y ≠ c := by
      rintro rfl
      exact h.parent_ne_self hx hyc
    obtain ⟨p, hp, hyp⟩ := h'.parent y ⟨hyA, hyne⟩
    rw [hmoved y hyA hyc] at hyp
    injection hyp with hyp
    rw [← hyp] at hp
    rcases hp with hp | hp
    · exact h.ne_root hx hp
    · exact hp.2 rfl
  · have hcx : c ≠ x := by
      rintro rfl
      exact h.not_below_self hc hcb
    have hroot : root ∈ A ∧ k.Below x root := by
      refine (h'.up c ⟨hc, hcx⟩).closed (P := fun y => y ∈ A ∧ k.Below x y) ⟨hc, hcb⟩ ?_
      rintro y q ⟨hy, hyb⟩ hq
      by_cases hkx : k.parent y = some x
      · rw [hmoved y hy hkx] at hq
        injection hq with hq
        rw [← hq]
        exact ⟨hc, hcb⟩
      · have hyx : y ≠ x := by
          rintro rfl
          exact h.not_below_self hy hyb
        rw [hkept y hy hyx hkx] at hq
        have hqb := (hyb.cases hq).resolve_left fun heq => hkx (by rw [hq, heq])
        exact ⟨h.parent_mem hy hq hqb, hqb⟩
    exact h.apart hroot.1

end IsTree

end Linked
