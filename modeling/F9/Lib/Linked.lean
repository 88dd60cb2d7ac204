import Mathlib.Data.List.Nodup
import Mathlib.Data.Finset.Card
import Mathlib.Data.Finset.Range

/-!
# Linked lists in a heap

A heap of nodes is its link function `next : ρ → Option ρ`. `Seg next p l q`
says that following the links from the pointer `p` visits exactly the nodes
`l` and arrives at the pointer `q`; `Chain` is the case `q = none`, a
terminated list.

* **shape** — a chain is unique (`Chain.unique`) and visits no node twice
  (`Chain.nodup`);
* **frames** — a segment depends only on the links of its own nodes
  (`Seg.congr`);
* **surgery** — the effect of the usual link updates on a chain: prepending a
  chain, inserting one after a node, unlinking a node (`Chain.prepend`,
  `Chain.insert`, `Chain.unlink`);
* **walks** — `walk` collects the nodes with a step budget and agrees with the
  chain when there is one (`Chain.walk_eq`).
-/

namespace Linked

variable {ρ : Type}

/-- Following `next` from `p` visits exactly `l` and arrives at `q`. -/
inductive Seg (next : ρ → Option ρ) : Option ρ → List ρ → Option ρ → Prop
  | nil {p} : Seg next p [] p
  | cons {x l q} : Seg next (next x) l q → Seg next (some x) (x :: l) q

/-- A terminated list. -/
def Chain (next : ρ → Option ρ) (p : Option ρ) (l : List ρ) : Prop := Seg next p l none

variable {next next' : ρ → Option ρ} {p q r : Option ρ} {x y z : ρ} {l m l1 l2 c : List ρ}

/-! ## Shape -/

@[simp] theorem seg_nil : Seg next p [] q ↔ p = q := by
  constructor
  · intro h; cases h; rfl
  · rintro rfl; exact .nil

@[simp] theorem seg_cons : Seg next p (x :: l) q ↔ p = some x ∧ Seg next (next x) l q := by
  constructor
  · intro h
    cases h with
    | cons h => exact ⟨rfl, h⟩
  · rintro ⟨rfl, h⟩; exact .cons h

@[simp] theorem chain_nil : Chain next p [] ↔ p = none := seg_nil

@[simp] theorem chain_cons : Chain next p (x :: l) ↔ p = some x ∧ Chain next (next x) l :=
  seg_cons

/-- Induction along a chain with a budget of more steps than it has nodes. -/
theorem Chain.walk_rec {motive : (l : List ρ) → (n : Nat) → (p : Option ρ) → Chain next p l →
      l.length < n → Prop}
    (nil : ∀ n, motive [] (n + 1) none (chain_nil.mpr rfl) n.succ_pos)
    (cons : ∀ x l n h hn, motive l n (next x) h hn →
      motive (x :: l) (n + 1) (some x) (chain_cons.mpr ⟨rfl, h⟩) (Nat.succ_lt_succ hn))
    (l : List ρ) (n : Nat) (p : Option ρ) (h : Chain next p l) (hn : l.length < n) :
    motive l n p h hn := by
  induction l generalizing n p with
  | nil =>
    obtain ⟨n, rfl⟩ := Nat.exists_eq_add_of_lt hn
    obtain rfl := chain_nil.mp h
    exact nil _
  | cons x l ih =>
    obtain ⟨n, rfl⟩ := Nat.exists_eq_add_of_lt hn
    obtain ⟨rfl, ht⟩ := chain_cons.mp h
    exact cons x l _ ht (Nat.lt_of_succ_lt_succ hn) (ih _ _ ht _)

theorem chain_none : Chain next none l ↔ l = [] := by
  cases l <;> simp

theorem Seg.append (h1 : Seg next p l q) (h2 : Seg next q m r) : Seg next p (l ++ m) r := by
  induction h1 with
  | nil => exact h2
  | cons _ ih => exact .cons (ih h2)

/-- A segment can be cut anywhere. -/
theorem seg_append : Seg next p (l ++ m) r ↔ ∃ q, Seg next p l q ∧ Seg next q m r := by
  constructor
  · intro h
    induction l generalizing p with
    | nil => exact ⟨p, .nil, h⟩
    | cons x l ih =>
      obtain ⟨rfl, ht⟩ := seg_cons.mp h
      obtain ⟨q, h1, h2⟩ := ih ht
      exact ⟨q, .cons h1, h2⟩
  · rintro ⟨q, h1, h2⟩
    exact h1.append h2

/-- The links of a segment lead to its second node, and so on: the link of a
node is the head of what follows. -/
theorem seg_append_cons : Seg next p (l ++ x :: m) r ↔
    Seg next p l (some x) ∧ Seg next (next x) m r := by
  rw [seg_append]
  constructor
  · rintro ⟨q, h1, h2⟩
    obtain ⟨rfl, h3⟩ := seg_cons.mp h2
    exact ⟨h1, h3⟩
  · rintro ⟨h1, h2⟩
    exact ⟨some x, h1, .cons h2⟩

theorem chain_append_cons : Chain next p (l ++ x :: m) ↔
    Seg next p l (some x) ∧ Chain next (next x) m := seg_append_cons

theorem Seg.head_eq (h : Seg next p l q) (hne : l ≠ []) : p = l.head? := by
  cases h with
  | nil => exact absurd rfl hne
  | cons _ => rfl

theorem Chain.head_eq (h : Chain next p l) : p = l.head? := by
  cases h <;> rfl

/-- The links determine the chain. -/
theorem Chain.unique (h1 : Chain next p l) (h2 : Chain next p m) : l = m := by
  induction l generalizing p m with
  | nil =>
    rw [chain_nil] at h1
    subst h1
    exact (chain_none.mp h2).symm
  | cons x l ih =>
    obtain ⟨rfl, ht1⟩ := chain_cons.mp h1
    cases m with
    | nil => exact absurd (chain_nil.mp h2) (by simp)
    | cons y m =>
      obtain ⟨hxy, ht2⟩ := chain_cons.mp h2
      injection hxy with hxy
      subst hxy
      rw [ih ht1 ht2]

theorem Chain.of_mem (h : Chain next p l) (hx : x ∈ l) :
    ∃ l1 l2, l = l1 ++ x :: l2 ∧ Seg next p l1 (some x) ∧ Chain next (next x) l2 := by
  obtain ⟨l1, l2, rfl⟩ := List.append_of_mem hx
  obtain ⟨h1, h2⟩ := chain_append_cons.mp h
  exact ⟨l1, l2, rfl, h1, h2⟩

/-- A terminated list visits no node twice: a second visit would repeat the
whole rest, which has only one length. -/
theorem Chain.nodup (h : Chain next p l) : l.Nodup := by
  induction l generalizing p with
  | nil => exact List.nodup_nil
  | cons x l ih =>
    obtain ⟨rfl, ht⟩ := chain_cons.mp h
    refine List.nodup_cons.mpr ⟨?_, ih ht⟩
    intro hx
    obtain ⟨l1, l2, rfl, _, h2⟩ := ht.of_mem hx
    have heq := ht.unique h2
    have hlen := congrArg List.length heq
    simp only [List.length_append, List.length_cons] at hlen
    omega

/-- A node of a chain cannot have its own link lead back into the part before
it. -/
theorem Chain.not_mem_of_append (h : Chain next p (l1 ++ x :: l2)) : x ∉ l1 ∧ x ∉ l2 := by
  have hnd := h.nodup
  rw [List.nodup_append] at hnd
  obtain ⟨_, h2, h3⟩ := hnd
  refine ⟨fun hx => h3 x hx x List.mem_cons_self rfl, (List.nodup_cons.mp h2).1⟩

/-! ## Frames -/

theorem Seg.congr (h : Seg next p l q) (hl : ∀ x ∈ l, next' x = next x) :
    Seg next' p l q := by
  induction h with
  | nil => exact .nil
  | cons _ ih =>
    rename_i x l q hseg
    have hx : next' x = next x := hl x List.mem_cons_self
    have := ih fun y hy => hl y (List.mem_cons_of_mem x hy)
    rw [← hx] at this
    exact .cons this

theorem Chain.congr (h : Chain next p l) (hl : ∀ x ∈ l, next' x = next x) :
    Chain next' p l := Seg.congr h hl

/-! ## Surgery -/

/-- Redirecting the last link of a segment. -/
theorem Seg.relink_last (h : Seg next p (l ++ [z]) q)
    (hother : ∀ y ∈ l, next' y = next y) : Seg next' p (l ++ [z]) (next' z) := by
  obtain ⟨h1, _⟩ := seg_append_cons.mp h
  exact seg_append_cons.mpr ⟨h1.congr hother, .nil⟩

/-- Prepending the chain `c ++ [z]`: its last link goes to the old head. -/
theorem Chain.prepend (h : Chain next p l) (hc : Chain next q (c ++ [z]))
    (hz : next' z = p) (hl : ∀ y ∈ l, next' y = next y) (hcs : ∀ y ∈ c, next' y = next y) :
    Chain next' q (c ++ [z] ++ l) := by
  have h1 : Seg next' q (c ++ [z]) (next' z) := Seg.relink_last hc hcs
  rw [hz] at h1
  exact h1.append (h.congr hl)

/-- Inserting the chain `c ++ [z]` after the node `x`: the link of `x` goes to
the head of the chain, the last link of the chain to the old successor. -/
theorem Chain.insert (h : Chain next p (l1 ++ x :: l2)) (hc : Chain next q (c ++ [z]))
    (hx : next' x = q) (hz : next' z = next x)
    (hl1 : ∀ y ∈ l1, next' y = next y) (hl2 : ∀ y ∈ l2, next' y = next y)
    (hcs : ∀ y ∈ c, next' y = next y) :
    Chain next' p (l1 ++ x :: (c ++ [z] ++ l2)) := by
  obtain ⟨h1, h2⟩ := chain_append_cons.mp h
  refine chain_append_cons.mpr ⟨h1.congr hl1, ?_⟩
  rw [hx]
  exact Chain.prepend h2 hc hz hl2 hcs

theorem Chain.unlink (h : Chain next p (l1 ++ x :: y :: l2)) (hx : next' x = next y)
    (hl1 : ∀ w ∈ l1, next' w = next w) (hl2 : ∀ w ∈ l2, next' w = next w) :
    Chain next' p (l1 ++ x :: l2) := by
  obtain ⟨h1, h2⟩ := chain_append_cons.mp h
  obtain ⟨_, h3⟩ := chain_cons.mp h2
  refine chain_append_cons.mpr ⟨h1.congr hl1, ?_⟩
  rw [hx]
  exact h3.congr hl2

theorem Chain.after_seg (h : Chain next p l) (h1 : Seg next p l1 q) :
    ∃ l2, l = l1 ++ l2 ∧ Chain next q l2 := by
  induction h1 generalizing l with
  | nil => exact ⟨l, rfl, h⟩
  | @cons x l1 q _ ih =>
    cases l with
    | nil => exact absurd (chain_nil.mp h) (by simp)
    | cons y l =>
      obtain ⟨hxy, ht⟩ := chain_cons.mp h
      obtain rfl := Option.some.inj hxy
      obtain ⟨l2, rfl, h2⟩ := ih ht
      exact ⟨l2, rfl, h2⟩

/-- A chain some of whose nodes now belong to another chain ends there, or where it did. -/
theorem Chain.divert (h : Chain next p l) (hm : Chain next' q m)
    (hl : ∀ x ∈ l, x ∉ m → next' x = next x) :
    ∃ l', Chain next' p l' ∧ ∀ x ∈ l', x ∈ l ∨ x ∈ m := by
  induction l generalizing p with
  | nil =>
    rw [chain_nil] at h
    exact ⟨[], chain_nil.mpr h, by simp⟩
  | cons x l ih =>
    obtain ⟨rfl, ht⟩ := chain_cons.mp h
    by_cases hx : x ∈ m
    · obtain ⟨m1, m2, rfl, _, h2⟩ := hm.of_mem hx
      exact ⟨x :: m2, chain_cons.mpr ⟨rfl, h2⟩, fun y hy => .inr (by simp [List.mem_cons.mp hy])⟩
    · obtain ⟨l', hl', hmem⟩ := ih ht fun y hy => hl y (List.mem_cons_of_mem _ hy)
      refine ⟨x :: l', chain_cons.mpr ⟨rfl, ?_⟩, fun y hy => ?_⟩
      · rw [hl x List.mem_cons_self hx]
        exact hl'
      · rcases List.mem_cons.mp hy with rfl | hy
        · exact .inl List.mem_cons_self
        · exact (hmem y hy).imp_left (List.mem_cons_of_mem _)

/-! ## Walks -/

/-- The nodes met in `n` steps along the links. -/
def walk (next : ρ → Option ρ) : Nat → Option ρ → List ρ
  | 0, _ => []
  | _ + 1, none => []
  | n + 1, some x => x :: walk next n (next x)

theorem length_walk_le (next : ρ → Option ρ) (n : Nat) (p : Option ρ) :
    (walk next n p).length ≤ n := by
  induction n generalizing p with
  | zero => exact Nat.le_refl 0
  | succ n ih =>
    cases p with
    | none => exact Nat.zero_le _
    | some x => exact Nat.succ_le_succ (ih _)

theorem Chain.walk_take (h : Chain next p l) (n : Nat) : walk next n p = l.take n := by
  induction l generalizing p n with
  | nil =>
    rw [chain_nil] at h
    subst h
    cases n <;> rfl
  | cons x l ih =>
    obtain ⟨rfl, ht⟩ := chain_cons.mp h
    cases n with
    | zero => rfl
    | succ n => simp only [walk, ih ht n, List.take_succ_cons]

variable {n : Nat}

theorem Chain.walk_eq (h : Chain next p l) (hn : l.length ≤ n) : walk next n p = l := by
  rw [h.walk_take, List.take_of_length_le hn]

/-- A walk that stops before its budget is used up has come to the end. -/
theorem chain_walk (n : Nat) (p : Option ρ) (h : (walk next n p).length < n) :
    Chain next p (walk next n p) := by
  induction n generalizing p with
  | zero => exact absurd h (Nat.not_lt_zero _)
  | succ n ih =>
    cases p with
    | none => exact .nil
    | some x => exact chain_cons.mpr ⟨rfl, ih _ (Nat.lt_of_succ_lt_succ h)⟩

theorem walk_congr (n : Nat) (p : Option ρ) (h : ∀ x ∈ walk next n p, next' x = next x) :
    walk next' n p = walk next n p := by
  induction n generalizing p with
  | zero => rfl
  | succ n ih =>
    cases p with
    | none => rfl
    | some x =>
      unfold walk at h ⊢
      rw [h x List.mem_cons_self, ih _ fun y hy => h y (List.mem_cons_of_mem _ hy)]

section

variable (h : Chain next p l)
include h

theorem Chain.mem_of_mem_walk (hx : x ∈ walk next n p) : x ∈ l := by
  induction n generalizing p l with
  | zero => simp [walk] at hx
  | succ n ih =>
    cases l with
    | nil =>
      rw [chain_nil] at h
      subst h
      simp [walk] at hx
    | cons y l =>
      obtain ⟨rfl, ht⟩ := chain_cons.mp h
      rcases List.mem_cons.mp hx with rfl | hx
      · exact List.mem_cons_self
      · exact List.mem_cons_of_mem _ (ih ht hx)

theorem Chain.pred (hx : x ∈ l) (hxy : next x = some y) : ∃ l1 l2, l = l1 ++ x :: y :: l2 := by
  obtain ⟨l1, l2, rfl, _, h2⟩ := h.of_mem hx
  rw [hxy] at h2
  cases l2 with
  | nil => exact absurd (chain_nil.mp h2) (by simp)
  | cons z l2 =>
    obtain ⟨hz, _⟩ := chain_cons.mp h2
    injection hz with hz
    subst hz
    exact ⟨l1, l2, rfl⟩

theorem Chain.next_mem (hx : x ∈ l) (hxy : next x = some y) : y ∈ l := by
  obtain ⟨l1, l2, rfl⟩ := h.pred hx hxy
  simp

theorem Chain.next_ne (hx : x ∈ l) (hxy : next x = some y) : y ≠ x := by
  obtain ⟨l1, l2, rfl⟩ := h.pred hx hxy
  rintro rfl
  exact h.not_mem_of_append.2 List.mem_cons_self

/-! ## Erasing -/

/-- The node before `y`, which is in the chain and not its head. -/
theorem Chain.exists_before (hy : y ∈ l) (hh : l.head? ≠ some y) : ∃ x ∈ l, next x = some y := by
  obtain ⟨l1, l2, rfl⟩ := List.append_of_mem hy
  rcases List.eq_nil_or_concat l1 with rfl | ⟨l1, x, rfl⟩
  · exact absurd rfl hh
  · rw [List.concat_eq_append, List.append_assoc] at h ⊢
    obtain ⟨_, h2⟩ := chain_append_cons.mp h
    exact ⟨x, by simp, (chain_cons.mp h2).1⟩

/-- The head of a chain comes after no node of it. -/
theorem Chain.not_before_head (hh : l.head? = some y) (hx : x ∈ l) : next x ≠ some y := by
  intro hxy
  obtain ⟨l1, l2, rfl⟩ := h.pred hx hxy
  have hassoc : l1 ++ x :: y :: l2 = (l1 ++ [x]) ++ y :: l2 := by simp
  rw [hassoc] at h hh
  refine h.not_mem_of_append.1 (List.mem_of_mem_head? ?_)
  cases l1 <;> exact hh

theorem Chain.before_unique (hx : x ∈ l) (hz : z ∈ l) (hxy : next x = some y)
    (hzy : next z = some y) : x = z := by
  induction l generalizing p with
  | nil => simp at hx
  | cons w l ih =>
    obtain ⟨_, ht⟩ := chain_cons.mp h
    rcases List.mem_cons.mp hx with rfl | hx
    · rcases List.mem_cons.mp hz with rfl | hz
      · rfl
      · exact absurd hzy (ht.not_before_head (ht.head_eq.symm.trans hxy) hz)
    · rcases List.mem_cons.mp hz with hz | hz
      · rw [hz] at hzy
        exact absurd hxy (ht.not_before_head (ht.head_eq.symm.trans hzy) hx)
      · exact ih ht hx hz

/-- No walk from the head of a chain meets a node that is not in it. -/
theorem Chain.not_reached : (∀ n, x ∉ walk next n p) ↔ x ∉ l := by
  constructor
  · intro hno hx
    have := hno l.length
    rw [h.walk_eq (Nat.le_refl _)] at this
    exact this hx
  · intro hx n hw
    exact hx (h.mem_of_mem_walk hw)

end

section Erase

variable [DecidableEq ρ]

theorem Chain.erase_second (h : Chain next p (l1 ++ x :: y :: l2)) :
    (l1 ++ x :: y :: l2).erase y = l1 ++ x :: l2 := by
  have hassoc : l1 ++ x :: y :: l2 = (l1 ++ [x]) ++ y :: l2 := by simp
  rw [hassoc] at h ⊢
  rw [List.erase_append_right _ h.not_mem_of_append.1, List.erase_cons_head]
  simp

/-- A link that leads to `y` is redirected past it. -/
theorem Chain.erase_link (h : Chain next p l) (hx : x ∈ l) (hxy : next x = some y)
    (hnext : ∀ w, next' w = if w = x then next y else next w) : Chain next' p (l.erase y) := by
  obtain ⟨l1, l2, rfl⟩ := h.pred hx hxy
  obtain ⟨h1, h2⟩ := h.not_mem_of_append
  rw [h.erase_second]
  refine h.unlink ?_ ?_ ?_
  · rw [hnext, if_pos rfl]
  · intro w hw
    rw [hnext, if_neg fun hwx : w = x => h1 (hwx ▸ hw)]
  · intro w hw
    rw [hnext, if_neg fun hwx : w = x => h2 (hwx ▸ List.mem_cons_of_mem _ hw)]

end Erase

/-- A list without repetition over `n` node numbers has at most `n` elements. -/
theorem length_le_of_nodup_lt {l : List Nat} (hnd : l.Nodup) (hlt : ∀ x ∈ l, x < n) :
    l.length ≤ n := by
  have hsub : l.toFinset ⊆ Finset.range n := by
    intro x hx
    exact Finset.mem_range.mpr (hlt x (List.mem_toFinset.mp hx))
  have hcard := Finset.card_le_card hsub
  rwa [List.toFinset_card_of_nodup hnd, Finset.card_range] at hcard

/-! ## Placing a chain in a list

The list-level counterpart of a search for the first node that satisfies
`stop`, with the chain `c` put in front of it. -/

/-- `c` inserted before the first element that satisfies `stop`. -/
def splice (stop : ρ → Bool) (c l : List ρ) : List ρ :=
  l.takeWhile (fun x => !stop x) ++ c ++ l.dropWhile (fun x => !stop x)

@[simp] theorem splice_nil (stop : ρ → Bool) (c : List ρ) : splice stop c [] = c := by
  simp [splice]

variable {stop : ρ → Bool}

theorem splice_cons_stop (h : stop x = true) : splice stop c (x :: l) = c ++ x :: l := by
  simp [splice, h]

theorem splice_cons_go (h : stop x = false) : splice stop c (x :: l) = x :: splice stop c l := by
  simp [splice, h]

/-- The place is known when no element before it stops the search and all after it do. -/
theorem splice_append (h1 : ∀ x ∈ l1, stop x = false) (h2 : ∀ x ∈ l2, stop x = true) :
    splice stop c (l1 ++ l2) = l1 ++ c ++ l2 := by
  induction l1 with
  | nil =>
    cases l2 with
    | nil => simp
    | cons x l2 =>
      rw [List.nil_append, splice_cons_stop (h2 x List.mem_cons_self), List.nil_append]
  | cons x l1 ih =>
    rw [List.cons_append, splice_cons_go (h1 x List.mem_cons_self),
      ih fun y hy => h1 y (List.mem_cons_of_mem x hy)]
    rfl

@[simp] theorem mem_splice : x ∈ splice stop c l ↔ x ∈ c ∨ x ∈ l := by
  induction l with
  | nil => simp
  | cons y l ih =>
    cases h : stop y with
    | true => rw [splice_cons_stop h]; simp [List.mem_append]
    | false =>
      rw [splice_cons_go h]
      simp only [List.mem_cons, ih]
      constructor
      · rintro (h | h | h)
        · exact .inr (.inl h)
        · exact .inl h
        · exact .inr (.inr h)
      · rintro (h | h | h)
        · exact .inr (.inl h)
        · exact .inl h
        · exact .inr (.inr h)

end Linked
