import F9.Kernel.Sched
import F9.Lib.Traversal
import F9.Logic.ThreadTree

/-!
# What the scheduler selects

On a tree of threads `thread_select` ends: it follows the order of `Preorder` and finds the first
runnable thread of it. What `schedule_select` returns is runnable, and it comes from the first slot
that has one. It can only fail in `thread_select`, since idle is runnable.
-/

namespace F9

open Result Linked

variable {s s' : Core} {root parent x t idle : TcbRef} {o e : Option TcbRef} {A : Set TcbRef}
  {kids : TcbRef → List TcbRef} {slot : SchedSlot}

/-! ## `thread_select` on a tree -/

theorem selectClimb_step {p : TcbRef} (n : Nat) (hp : s.links.parent x = some p) (hne : p ≠ root) :
    selectClimb s root (n + 1) x =
      match s.links.sibling p with
      | some y => .ok (some y)
      | none => selectClimb s root n p := by
  have hp' : (s.tcb x).tParent = some p := hp
  have hroot : some p ≠ some root := fun heq => hne (Option.some.inj heq)
  show (if (s.tcb x).tParent = some root then _ else _) = _
  rw [hp', if_neg hroot]
  show (match (s.tcb p).tSibling with
    | some sibling => pure (some sibling)
    | none => selectClimb s root n p) = _
  unfold Core.links
  dsimp only
  cases (s.tcb p).tSibling <;> rfl

/-- The inner loop ends where climbing does. -/
theorem selectClimb_climbs (h : Climbs s.links root x o) : ∀ (n : Nat) (l : List TcbRef),
      Chain s.links.parent (some x) l → l.length ≤ n → selectClimb s root n x = .ok o := by
  -- there is a pass left, since `x` itself is on the chain
  have hfuel : ∀ {x : TcbRef} {n : Nat} {l : List TcbRef}, Chain s.links.parent (some x) l →
      l.length ≤ n → ∃ n', n = n' + 1 ∧ ∃ l', l = x :: l' ∧ l'.length ≤ n' := by
    intro x n l hchain hn
    cases l with
    | nil => exact absurd (chain_nil.mp hchain) (by simp)
    | cons y l =>
      obtain ⟨heq, _⟩ := chain_cons.mp hchain
      cases n with
      | zero => simp at hn
      | succ n => exact ⟨n, rfl, l, by rw [Option.some.inj heq], by simpa using hn⟩
  induction h with
  | top hp =>
    intro n l hchain hn
    obtain ⟨n, rfl, _⟩ := hfuel hchain hn
    exact if_pos hp
  | sibling hp hne hs =>
    intro n l hchain hn
    obtain ⟨n, rfl, _⟩ := hfuel hchain hn
    rw [selectClimb_step n hp hne, hs]
  | up hp hne hs _ ih =>
    intro n l hchain hn
    obtain ⟨n, rfl, l, rfl, hn'⟩ := hfuel hchain hn
    rw [selectClimb_step n hp hne, hs]
    rw [chain_cons, hp] at hchain
    exact ih n l hchain.2 hn'

theorem selectClimb_tree (htree : IsTree s.links root A kids)
    (hlt : ∀ y ∈ insert root A, y < s.threadTable.num) (hx : x ∈ A)
    (h : Climbs s.links parent x o) : selectClimb s parent s.treeBound x = .ok o := by
  obtain ⟨l, hchain, hl⟩ := htree.path hx
  refine selectClimb_climbs h _ l hchain ?_
  have hle := length_le_of_nodup_lt hchain.nodup fun y hy => hlt y (hl y hy)
  unfold Core.treeBound
  omega

/-- The walk goes on at a thread, or ends without one. -/
def selectFrom (s : Core) (parent : TcbRef) (n : Nat) :
    Option TcbRef → Except Fault (Option TcbRef)
  | none => .ok none
  | some thr => selectLoop s parent n thr

/-- One pass of the outer loop over a thread that is not runnable, with climbing as it ends. -/
theorem selectLoop_next (n : Nat) (hx : threadIsrunnable s x = false)
    (hclimb : selectClimb s parent s.treeBound x = .ok e) :
    selectLoop s parent (n + 1) x =
      selectFrom s parent n ((s.links.child x).or ((s.links.sibling x).or e)) := by
  rw [selectLoop, hx, hclimb]
  unfold Core.links
  dsimp only
  cases (s.tcb x).tChild with
  | some child => rfl
  | none =>
    cases (s.tcb x).tSibling with
    | some sibling => rfl
    | none =>
      cases e <;> rfl

/-- The walk over the threads in order, from a link on. `zs` are the siblings there, and `e` is
where climbing from them ends. The walk finds the first runnable thread among them or below them,
or goes on at `e` when it has seen all. -/
theorem selectLoop_preorder (htree : IsTree s.links root A kids)
    (hlt : ∀ y ∈ insert root A, y < s.threadTable.num) {l : List TcbRef}
    (h : Preorder s.links o l) :
    ∀ (zs : List TcbRef) (e : Option TcbRef), Chain s.links.sibling o zs →
      (∀ z ∈ zs, z ∈ A ∧ s.links.Below parent z ∧ Climbs s.links parent z e) → ∀ n,
      selectFrom s parent (n + l.length) (o.or e) =
        (l.find? (threadIsrunnable s)).elim (selectFrom s parent n e) fun t => .ok (some t) := by
  induction h with
  | none =>
    intro zs e _ _ n
    rfl
  | @some y l1 l2 _ _ ih1 ih2 =>
    intro zs e hchain hzs n
    cases zs with
    | nil => exact absurd (chain_nil.mp hchain) (by simp)
    | cons z zs =>
      obtain ⟨heq, hrest⟩ := chain_cons.mp hchain
      have hyz : y = z := Option.some.inj heq
      subst hyz
      obtain ⟨hy, hbelow, hclimbs⟩ := hzs y List.mem_cons_self
      have hlen : n + (y :: (l1 ++ l2)).length = n + l2.length + l1.length + 1 := by
        simp only [List.length_cons, List.length_append]
        omega
      rw [hlen]
      show selectLoop s parent _ y = _
      cases hrun : threadIsrunnable s y with
      | true =>
        rw [List.find?_cons_of_pos hrun]
        exact if_pos hrun
      | false =>
        have hyA : y ∈ insert root A := .inr hy
        have hne : y ≠ parent := by
          rintro rfl
          exact htree.not_below_self hy hbelow
        -- from the children of `y` one climbs to its next sibling, or to where `y` climbs
        have hkids : ∀ w ∈ kids y, w ∈ A ∧ s.links.Below parent w ∧
            Climbs s.links parent w ((s.links.sibling y).or e) := by
          intro w hw
          obtain ⟨hwA, hwy⟩ := (htree.mem y hyA w).mp hw
          refine ⟨hwA, .step hwy hbelow, ?_⟩
          cases hsib : s.links.sibling y with
          | some v => exact .sibling hwy hne hsib
          | none => exact .up hwy hne hsib hclimbs
        rw [selectLoop_next _ hrun (selectClimb_tree htree hlt hy hclimbs),
          ih1 (kids y) _ (htree.chain y hyA) hkids,
          ih2 zs e hrest fun z hz => hzs z (List.mem_cons_of_mem _ hz),
          List.find?_cons_of_neg (by simp [hrun]), List.find?_append]
        cases l1.find? (threadIsrunnable s) <;> rfl

/-- `thread_select` returns the first runnable thread in the order of what is below a thread of the
tree. -/
theorem threadSelect_preorder (htree : IsTree s.links root A kids)
    (hlt : ∀ y ∈ insert root A, y < s.threadTable.num) (hp : parent ∈ insert root A) :
    ∃ l, Preorder s.links (s.links.child parent) l ∧ l.Nodup ∧
      (∀ y, y ∈ l ↔ y ∈ A ∧ s.links.Below parent y) ∧
      threadSelect s parent = .ok (l.find? (threadIsrunnable s)) := by
  have hfin : A.Finite :=
    (Set.finite_lt_nat s.threadTable.num).subset fun y hy => hlt y (.inr hy)
  obtain ⟨l, hl, hnd, hmem⟩ := htree.preorder hfin hp
  refine ⟨l, hl, hnd, hmem, ?_⟩
  have hle := length_le_of_nodup_lt hnd fun y hy => hlt y (.inr ((hmem y).mp hy).1)
  have hbound : s.treeBound = (s.treeBound - l.length) + l.length := by
    unfold Core.treeBound
    omega
  have hkids : ∀ z ∈ kids parent,
      z ∈ A ∧ s.links.Below parent z ∧ Climbs s.links parent z none := by
    intro z hz
    obtain ⟨hzA, hzp⟩ := (htree.mem parent hp z).mp hz
    exact ⟨hzA, .of_parent hzp, .top hzp⟩
  have hwalk := selectLoop_preorder htree hlt hl (kids parent) none (htree.chain parent hp) hkids
    (s.treeBound - l.length)
  have hstart : threadSelect s parent = selectFrom s parent s.treeBound (s.links.child parent) := by
    unfold threadSelect Core.links
    dsimp only
    cases (s.tcb parent).tChild <;> rfl
  rw [hstart, ← Option.or_none (o := s.links.child parent), hbound, hwalk]
  cases l.find? (threadIsrunnable s) <;> rfl

/-- On a tree `thread_select` returns: a runnable thread of the tree, or `NULL` if there is none. -/
theorem threadSelect_tree (h : ThreadTree s root) :
    ∃ o, threadSelect s root = .ok o ∧
      (∀ t, o = some t → t ∈ s.created ∧ (s.tcb t).state = .runnable) ∧
      (o = none → ∀ t ∈ s.created, (s.tcb t).state ≠ .runnable) := by
  obtain ⟨kids, htree⟩ := h.tree
  obtain ⟨l, _, _, hmem, hsel⟩ := threadSelect_preorder htree h.lt (.inl rfl)
  refine ⟨_, hsel, fun t ht => ?_, fun hnone t ht hrun => ?_⟩
  · have hrun : threadIsrunnable s t = true := List.find?_some ht
    exact ⟨((hmem t).mp (List.mem_of_find?_eq_some ht)).1, of_decide_eq_true hrun⟩
  · exact List.find?_eq_none.mp hnone t ((hmem t).mpr ⟨ht, htree.up t ht⟩) (decide_eq_true hrun)

/-! ## `thread_select` on any links -/

theorem selectClimb_ne_panic : ∀ (n : Nat) (x : TcbRef),
    selectClimb s root n x ≠ .error .panic := by
  intro n
  induction n with
  | zero =>
    intro x h
    injection h with h
    exact absurd h (by decide)
  | succ n ih =>
    intro x h
    unfold selectClimb at h
    split at h
    · simp at h
    · cases hp : (s.tcb x).tParent with
      | none =>
        rw [hp] at h
        injection h with h
        exact absurd h (by decide)
      | some p =>
        rw [hp] at h
        change (match (s.tcb p).tSibling with
          | some sibling => pure (some sibling)
          | none => selectClimb s root n p) = _ at h
        split at h
        · injection h
        · exact ih p h

/-- What the walk returns is runnable, and it does not panic. -/
theorem selectLoop_spec (n : Nat) (x : TcbRef) :
    selectLoop s root n x ≠ .error .panic ∧
      ∀ t, selectLoop s root n x = .ok (some t) → (s.tcb t).state = .runnable := by
  induction n generalizing x with
  | zero =>
    refine ⟨fun h => ?_, fun t h => ?_⟩
    · injection h with h
      exact absurd h (by decide)
    · simp [selectLoop] at h
  | succ n ih =>
    cases hrun : threadIsrunnable s x with
    | true =>
      have hloop : selectLoop s root (n + 1) x = .ok (some x) := if_pos hrun
      rw [hloop]
      refine ⟨by simp, fun t ht => ?_⟩
      rw [← Option.some.inj (ok_ok.mp ht)]
      exact of_decide_eq_true hrun
    | false =>
      cases hclimb : selectClimb s root s.treeBound x with
      | ok e =>
        rw [selectLoop_next n hrun hclimb]
        cases (s.links.child x).or ((s.links.sibling x).or e) with
        | none => exact ⟨by simp [selectFrom], by simp [selectFrom]⟩
        | some y => exact ih y
      | error f =>
        have hf : f ≠ .panic := fun heq =>
          selectClimb_ne_panic _ x (by rw [hclimb, heq])
        rw [selectLoop, hrun, hclimb]
        cases (s.tcb x).tChild with
        | some c => exact ih c
        | none =>
          cases (s.tcb x).tSibling with
          | some y => exact ih y
          | none =>
            refine ⟨fun h => ?_, fun t h => by injection h⟩
            injection h with h
            exact hf h

theorem threadSelect_spec : threadSelect s root ≠ .error .panic ∧
    ∀ t, threadSelect s root = .ok (some t) → (s.tcb t).state = .runnable := by
  unfold threadSelect
  split
  · exact ⟨by simp, by simp⟩
  · exact selectLoop_spec _ _

/-! ## `schedule_select` -/

/-- No slot of these has a runnable thread. -/
def NoneRunnable (s : Core) (slots : List SchedSlot) : Prop :=
  ∀ i ∈ slots, ∀ u, s.slots i = some u → (s.tcb u).state ≠ .runnable

theorem slot_runnable (h : (s.slots slot).filter (threadIsrunnable s) = some t) :
    s.slots slot = some t ∧ (s.tcb t).state = .runnable := by
  rw [Option.filter_eq_some_iff] at h
  exact ⟨h.1, of_decide_eq_true h.2⟩

theorem slot_not_runnable {u : TcbRef} (h : (s.slots slot).filter (threadIsrunnable s) = none)
    (hu : s.slots slot = some u) : (s.tcb u).state ≠ .runnable := by
  rw [Option.filter_eq_none_iff] at h
  exact fun hrun => h u hu (decide_eq_true hrun)

/-- Where the selected thread comes from: it is in the first slot with a runnable thread, or
`thread_select` has found it and it is put into its slot. -/
theorem selectSlot_ok :
    ∀ (slots : List SchedSlot),
    selectSlot root s slots = .ok (t, s') →
    (s.tcb t).state = .runnable ∧ ∃ before slot after, slots = before ++ slot :: after ∧
      NoneRunnable s before ∧ ((s.slots slot = some t ∧ s' = s) ∨
        (threadSelect s root = .ok (some t) ∧ slot = .normalThread ∧
          s' = s.schedSlotDispatch slot t)) := by
  intro slots
  induction slots with
  | nil =>
    intro h
    simp [selectSlot] at h
  | cons slot slots ih =>
    intro h
    -- the slot has nothing: what was taken comes from a later one
    have hlater : (s.slots slot).filter (threadIsrunnable s) = none →
        selectSlot root s slots = .ok (t, s') →
        (s.tcb t).state = .runnable ∧ ∃ before i after, slot :: slots = before ++ i :: after ∧
          NoneRunnable s before ∧ ((s.slots i = some t ∧ s' = s) ∨
            (threadSelect s root = .ok (some t) ∧ i = .normalThread ∧
              s' = s.schedSlotDispatch i t)) := by
      intro hnone h
      obtain ⟨hrun, before, i, after, hsplit, hbefore, hway⟩ := ih h
      refine ⟨hrun, slot :: before, i, after, by rw [hsplit]; rfl, ?_, hway⟩
      intro j hj u hu
      rcases List.mem_cons.mp hj with rfl | hj
      · exact slot_not_runnable hnone hu
      · exact hbefore j hj u hu
    unfold selectSlot at h
    cases hslot : (s.slots slot).filter (threadIsrunnable s) with
    | some scheduled =>
      rw [hslot] at h
      obtain ⟨rfl, rfl⟩ := Prod.mk.inj (ok_ok.mp h)
      obtain ⟨hs, hrun⟩ := slot_runnable hslot
      exact ⟨hrun, [], slot, slots, rfl, fun _ hi => absurd hi (by simp), .inl ⟨hs, rfl⟩⟩
    | none =>
      rw [hslot] at h
      dsimp only at h
      split at h
      · rename_i hnormal
        obtain ⟨o, hsel, h⟩ := bind_ok.mp h
        cases o with
        | none => exact hlater hslot h
        | some u =>
          obtain ⟨rfl, rfl⟩ := pure_pair.mp h
          exact ⟨threadSelect_spec.2 u hsel, [], slot, slots, rfl,
            fun _ hi => absurd hi (by simp), .inr ⟨hsel, hnormal, rfl⟩⟩
      · exact hlater hslot h

/-- If the idle thread is runnable, `schedule_select` fails only as `thread_select` does. -/
theorem selectSlot_idle (hslot : s.slots .idle = some idle) (hidle : (s.tcb idle).state = .runnable)
    (slots : List SchedSlot) (hmem : .idle ∈ slots) :
    (∃ p, selectSlot root s slots = .ok p) ∨ ∃ f, threadSelect s root = .error f ∧
      selectSlot root s slots = .error f := by
  induction slots with
  | nil => simp at hmem
  | cons slot slots ih =>
    unfold selectSlot
    cases hfilter : (s.slots slot).filter (threadIsrunnable s) with
    | some scheduled => exact .inl ⟨_, rfl⟩
    | none =>
      have hne : slot ≠ .idle := by
        rintro rfl
        exact slot_not_runnable hfilter hslot hidle
      have hrest := ih ((List.mem_cons.mp hmem).resolve_left hne.symm)
      dsimp only
      split
      · cases hsel : threadSelect s root with
        | error f => exact .inr ⟨f, rfl, rfl⟩
        | ok o =>
          cases o with
          | some u => exact .inl ⟨_, rfl⟩
          | none =>
            rw [hsel] at hrest
            exact hrest
      · exact hrest

end F9
