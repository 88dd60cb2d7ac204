import F9.Lib.Tree
import Mathlib.Data.Fintype.Card

/-!
# Walks through a tree in a heap

A walk that visits a node, then what is below it, then its next sibling, and that climbs to the
parents when there is none: with the three links of `Links` it needs no stack.

* **order** — the nodes in the order of the walk (`Preorder`). In a finite tree there is such a list
  for each node; it holds what is below the node, each once (`IsTree.preorder`);
* **climbing** — where the walk goes on after the last sibling (`Climbs`): at the next sibling of a
  parent, or nowhere if the parents are exhausted (`IsTree.climbs`). The way up is a chain
  (`IsTree.path`).
-/

namespace Linked

variable {ρ : Type}

/-- The nodes from a link on: a node, what is below it, and then its siblings. -/
inductive Preorder (k : Links ρ) : Option ρ → List ρ → Prop
  | none : Preorder k none []
  | some {x l l'} : Preorder k (k.child x) l → Preorder k (k.sibling x) l' →
      Preorder k (some x) (x :: (l ++ l'))

/-- Climbing from `x` ends at the next sibling of one of its parents, or at the root. -/
inductive Climbs (k : Links ρ) (root : ρ) : ρ → Option ρ → Prop
  | top {x} : k.parent x = some root → Climbs k root x none
  | sibling {x p y} : k.parent x = some p → p ≠ root → k.sibling p = some y →
      Climbs k root x (some y)
  | up {x p o} : k.parent x = some p → p ≠ root → k.sibling p = none → Climbs k root p o →
      Climbs k root x o

namespace IsTree

variable {k : Links ρ} {root : ρ} {A : Set ρ} {kids : ρ → List ρ} {x y z p : ρ}

/-! ## Climbing -/

section

variable (h : IsTree k root A kids)
include h

/-- The way up from a node is a chain of nodes of the tree, which ends at the root. -/
theorem path (hx : x ∈ A) : ∃ l, Chain k.parent (some x) l ∧ ∀ y ∈ l, y ∈ insert root A := by
  have hroot : Chain k.parent (some root) [root] := by
    rw [chain_cons, chain_nil]
    exact ⟨rfl, h.top⟩
  have hpath : x ∈ A → ∃ l, Chain k.parent (some x) l ∧ ∀ y ∈ l, y ∈ insert root A := by
    refine Relation.TransGen.head_induction_on (h.up x hx) (fun {x} hp hx => ?_) ?_
    · refine ⟨[x, root], ?_, by simp [hx]⟩
      rw [chain_cons, hp]
      exact ⟨rfl, hroot⟩
    · intro x p hp hup ih hx
      have hpA : p ∈ A := h.parent_mem hx hp hup
      obtain ⟨l, hl, hall⟩ := ih hpA
      refine ⟨x :: l, ?_, ?_⟩
      · rw [chain_cons, hp]
        exact ⟨rfl, hl⟩
      · exact List.forall_mem_cons.mpr ⟨.inr hx, hall⟩
  exact hpath hx

/-! ## The order of the walk -/

/-- A node is not below another child of its parent. -/
theorem not_below_sibling (hy : y ∈ A) (hxp : k.parent x = some p) (hyp : k.parent y = some p) :
    ¬ k.Below y x := by
  intro hb
  rcases hb.cases hxp with rfl | hb
  · exact h.parent_ne_self hy hyp
  · exact h.not_below_self hy (.step hyp hb)

/-- What is below one child of a node is not below another, nor is it the other. -/
theorem below_sibling (hx : x ∈ A) (hy : y ∈ A) (hxp : k.parent x = some p)
    (hyp : k.parent y = some p) (hzx : k.Below x z) (hzy : z = y ∨ k.Below y z) : x = y := by
  rcases hzy with rfl | hzy
  · exact absurd hzx (h.not_below_sibling hx hyp hxp)
  · have htotal := Relation.ReflTransGen.total_of_right_unique
      (fun a b c hb hc => Option.some.inj (hb.symm.trans hc)) hzx.to_reflTransGen
      hzy.to_reflTransGen
    rcases htotal with hxy | hyx
    · rcases Relation.reflTransGen_iff_eq_or_transGen.mp hxy with heq | hb
      · exact heq.symm
      · exact absurd hb (h.not_below_sibling hy hxp hyp)
    · rcases Relation.reflTransGen_iff_eq_or_transGen.mp hyx with heq | hb
      · exact heq
      · exact absurd hb (h.not_below_sibling hx hyp hxp)

/-- From the orders below the children to the order of the children. -/
theorem ordered_children (hkids : ∀ z, z ∈ A → k.parent z = some p →
      ∃ l, Preorder k (k.child z) l ∧ l.Nodup ∧ ∀ y, y ∈ l ↔ y ∈ A ∧ k.Below z y) :
    ∀ (zs : List ρ) (o : Option ρ), Chain k.sibling o zs →
      (∀ z ∈ zs, z ∈ A ∧ k.parent z = some p) →
      ∃ l, Preorder k o l ∧ l.Nodup ∧ ∀ y, y ∈ l ↔ y ∈ A ∧ ∃ z ∈ zs, y = z ∨ k.Below z y := by
  intro zs
  induction zs with
  | nil =>
    intro o hchain _
    rw [chain_nil.mp hchain]
    exact ⟨[], .none, List.nodup_nil, by simp⟩
  | cons z zs ih =>
    intro o hchain hzs
    have hz := hzs z List.mem_cons_self
    have hnot : z ∉ zs := (List.nodup_cons.mp hchain.nodup).1
    obtain ⟨rfl, hrest⟩ := chain_cons.mp hchain
    obtain ⟨l, hl, hnd, hmem⟩ := hkids z hz.1 hz.2
    obtain ⟨l', hl', hnd', hmem'⟩ := ih _ hrest fun z' hz' => hzs z' (List.mem_cons_of_mem _ hz')
    refine ⟨z :: (l ++ l'), .some hl hl', ?_, fun y => ?_⟩
    · rw [List.nodup_cons, List.mem_append, List.nodup_append]
      refine ⟨?_, hnd, hnd', ?_⟩
      · rintro (hzl | hzl')
        · exact h.not_below_self hz.1 ((hmem z).mp hzl).2
        · obtain ⟨_, z', hz', hzz'⟩ := (hmem' z).mp hzl'
          have hp' := hzs z' (List.mem_cons_of_mem _ hz')
          rcases hzz' with rfl | hb
          · exact hnot hz'
          · exact h.not_below_sibling hp'.1 hz.2 hp'.2 hb
      · intro y hy y' hy' heq
        rw [← heq] at hy'
        obtain ⟨_, z', hz', hyz'⟩ := (hmem' y).mp hy'
        have hp' := hzs z' (List.mem_cons_of_mem _ hz')
        have hsame := h.below_sibling hz.1 hp'.1 hz.2 hp'.2 ((hmem y).mp hy).2 hyz'
        rw [hsame] at hnot
        exact hnot hz'
    · rw [List.mem_cons, List.mem_append, hmem, hmem', List.exists_mem_cons_iff]
      constructor
      · rintro (rfl | ⟨hy, hb⟩ | ⟨hy, hb⟩)
        · exact ⟨hz.1, .inl (.inl rfl)⟩
        · exact ⟨hy, .inl (.inr hb)⟩
        · exact ⟨hy, .inr hb⟩
      · rintro ⟨hy, (rfl | hb) | hb⟩
        · exact .inl rfl
        · exact .inr (.inl ⟨hy, hb⟩)
        · exact .inr (.inr ⟨hy, hb⟩)

/-- What is below a node is a child or below a child. -/
theorem below_iff_kids (hp : p ∈ insert root A) (hy : y ∈ A) :
    k.Below p y ↔ ∃ z ∈ kids p, y = z ∨ k.Below z y := by
  constructor
  · intro hb
    rcases Relation.TransGen.tail'_iff.mp hb with ⟨z, hyz, hzp⟩
    rcases Relation.reflTransGen_iff_eq_or_transGen.mp hyz with rfl | hbz
    · exact ⟨z, (h.mem p hp z).mpr ⟨hy, hzp⟩, .inl rfl⟩
    · have hz : z ∈ A := by
        rcases h.below_mem hy hbz with rfl | hz
        · rw [h.top] at hzp
          simp at hzp
        · exact hz
      exact ⟨z, (h.mem p hp z).mpr ⟨hz, hzp⟩, .inr hbz⟩
  · rintro ⟨z, hz, rfl | hb⟩
    · exact .of_parent ((h.mem p hp _).mp hz).2
    · exact Relation.TransGen.tail hb ((h.mem p hp z).mp hz).2

/-- A node of a finite tree has finitely many nodes below it, so the order may be built from below. -/
theorem below_induction (hfin : A.Finite) {P : ρ → Prop}
    (hstep : ∀ p ∈ A, (∀ z ∈ A, k.parent z = some p → P z) → P p) : ∀ p ∈ A, P p := by
  have : Finite A := hfin
  let r : A → A → Prop := fun a b => k.Below b.1 a.1
  have : IsTrans A r := ⟨fun _ _ _ hab hbc => Relation.TransGen.trans hab hbc⟩
  have : Std.Irrefl r := ⟨fun a => h.not_below_self a.2⟩
  have hwf : WellFounded r := Finite.wellFounded_of_trans_of_irrefl r
  intro p hp
  refine hwf.induction (C := fun a : A => P a.1) ⟨p, hp⟩ fun a ih => ?_
  exact hstep a.1 a.2 fun z hz hza => ih ⟨z, hz⟩ (.of_parent hza)

/-- The order below a node: the nodes below it, each once. -/
theorem preorder (hfin : A.Finite) (hp : p ∈ insert root A) :
    ∃ l, Preorder k (k.child p) l ∧ l.Nodup ∧ ∀ y, y ∈ l ↔ y ∈ A ∧ k.Below p y := by
  -- one level, for a node of the tree as well as for the root
  have hlevel : ∀ p ∈ insert root A,
      (∀ z ∈ A, k.parent z = some p →
        ∃ l, Preorder k (k.child z) l ∧ l.Nodup ∧ ∀ y, y ∈ l ↔ y ∈ A ∧ k.Below z y) →
      ∃ l, Preorder k (k.child p) l ∧ l.Nodup ∧ ∀ y, y ∈ l ↔ y ∈ A ∧ k.Below p y := by
    intro p hp hkids
    obtain ⟨l, hl, hnd, hmem⟩ := h.ordered_children hkids (kids p) _ (h.chain p hp)
      fun z hz => (h.mem p hp z).mp hz
    refine ⟨l, hl, hnd, fun y => ?_⟩
    rw [hmem]
    exact and_congr_right fun hy => (h.below_iff_kids hp hy).symm
  have hnode := h.below_induction hfin fun p hp => hlevel p (.inr hp)
  exact hlevel p hp fun z hz _ => hnode z hz

end

end IsTree

end Linked
