import F9.Logic.Boot

/-!
# Creation and removal keep the thread tree

`thread_destroy` gives the children of the thread to the caller, wherever the caller is. If the
caller is the thread itself the children end up under a thread that is gone, and if it is below the
thread they end up under one of themselves. `thread_tree_kept` says that only these removals break
the tree.
-/

namespace F9

open Result Linked

/-- A creation or a removal, by a thread. -/
inductive TreeCall
  | create (caller : TcbRef) (globalid : Word) (utcb : Option Word)
  | destroy (caller thr : TcbRef)

/-- One call that returns. The caller is root or a created thread, and the thread that is destroyed
is a created one. -/
inductive TreeCall.Step (root : TcbRef) : Core → TreeCall → Core → Prop
  | create {s c globalid utcb thr s'} : s.live c = true → c = root ∨ c ∈ s.created →
      threadCreate { s with caller := some c } globalid utcb = .ok (thr, s') →
      Step root s (.create c globalid utcb) s'
  | destroy {s c thr s'} : s.live c = true → c = root ∨ c ∈ s.created → thr ∈ s.created →
      threadDestroy { s with caller := some c } thr = .ok s' → Step root s (.destroy c thr) s'

/-- Creation and removal of threads, from boot on. -/
def treeCalls (root : TcbRef) : TSys Core TreeCall where
  init := fun s => ∃ idle kernel, ThreadsBooted s idle root kernel
  step := TreeCall.Step root

/-- A thread with children is not destroyed by itself or by a thread below it. -/
def KeepsTree (s : Core) : TreeCall → Prop
  | .create _ _ _ => True
  | .destroy c thr => Removable s c thr

/-- A creation that is refused changes no thread. -/
theorem threadCreate_refused {s s' : Core} {id : Word} {utcb : Option Word}
    (h : threadCreate s id utcb = .ok (none, s')) : SameThreads s s' := by
  unfold threadCreate at h
  split at h
  · simp at h
  · split at h
    · obtain ⟨s1, herr, h⟩ := bind_ok.mp h
      have heq := pure_ok.mp h
      simp only [Prod.mk.injEq, true_and] at heq
      obtain ⟨u, f, hs1⟩ := setCallerError_effect herr
      rw [← heq, hs1]
      exact setUtcb_same s u f
    · obtain ⟨⟨p, s1⟩, _, h⟩ := bind_ok.mp h
      obtain ⟨thr, _, h⟩ := bind_ok.mp h
      dsimp only at h
      split at h
      · obtain ⟨t, _, h⟩ := bind_ok.mp h
        exact absurd (pure_ok.mp h) (by simp)
      · exact absurd (pure_ok.mp h) (by simp)

theorem TreeCall.Step.tree {root : TcbRef} {s s' : Core} {a : TreeCall}
    (hstep : TreeCall.Step root s a s') (h : ThreadTree s root) :
    ThreadTree s' root ↔ KeepsTree s a := by
  cases hstep with
  | create hlc hc hrun =>
    rename_i c id utcb thr
    have h0 : ThreadTree { s with caller := some c } root :=
      h.congr rfl (fun _ => rfl) fun _ => rfl
    refine ⟨fun _ => trivial, fun _ => ?_⟩
    cases thr with
    | none => exact h0.same (threadCreate_refused hrun)
    | some thr => exact threadCreate_tree h0 hc rfl hrun
  | destroy hlc hc hthr hrun =>
    rename_i c thr
    have h0 : ThreadTree { s with caller := some c } root :=
      h.congr rfl (fun _ => rfl) fun _ => rfl
    show _ ↔ Removable { s with caller := some c } c thr
    exact threadDestroy_tree h0 hthr hc rfl hrun

/-- In every state of a run in which no thread with children is destroyed by itself or by a thread
below it, the created threads form a tree under root; and a next call keeps this if and only if it
is no such removal. -/
theorem thread_tree_kept {root : TcbRef} {s s' : Core} {a : TreeCall}
    (h : (treeCalls root).Reachable KeepsTree s) (hstep : (treeCalls root).step s a s') :
    ThreadTree s root ∧ (ThreadTree s' root ↔ KeepsTree s a) := by
  have htree : ThreadTree s root := by
    refine TSys.Reachable.invariant (I := fun s => ThreadTree s root) ?_ ?_ h
    · rintro s ⟨_, _, hboot⟩
      exact hboot.tree
    · exact fun s a s' hs hk hstep => (hstep.tree hs).mpr hk
  exact ⟨htree, hstep.tree htree⟩

/-! ## Runs of a small board -/

/-- Carry out a call, if it is allowed and returns. -/
def TreeCall.exec (root : TcbRef) (s : Core) : TreeCall → Option Core
  | .create c globalid utcb =>
    if s.live c = true ∧ (c = root ∨ THREAD_SYS ≤ s.number c) then
      (threadCreate { s with caller := some c } globalid utcb).toOption.map Prod.snd
    else none
  | .destroy c thr =>
    if s.live c = true ∧ (c = root ∨ THREAD_SYS ≤ s.number c) ∧
        s.live thr = true ∧ THREAD_SYS ≤ s.number thr then
      (threadDestroy { s with caller := some c } thr).toOption
    else none

theorem TreeCall.exec_step {root : TcbRef} (s : Core) (a : TreeCall) (s' : Core)
    (h : a.exec root s = some s') : (treeCalls root).step s a s' := by
  cases a with
  | create c globalid utcb =>
    simp only [TreeCall.exec] at h
    split at h
    · rename_i hg
      obtain ⟨⟨thr, s1⟩, h1, rfl⟩ := Option.map_eq_some_iff.mp h
      exact .create hg.1 (hg.2.imp id fun hn => ⟨hg.1, hn⟩) (toOption_some.mp h1)
    · simp at h
  | destroy c thr =>
    simp only [TreeCall.exec] at h
    split at h
    · rename_i hg
      exact .destroy hg.1 (hg.2.1.imp id fun hn => ⟨hg.1, hn⟩) hg.2.2 (toOption_some.mp h)
    · simp at h

/-- A test for removals that keep the tree: there are no children, or the caller has no parent. -/
def keepsTree? (s : Core) : TreeCall → Bool
  | .create _ _ _ => true
  | .destroy c thr => (s.tcb thr).tChild.isNone || (c != thr && (s.tcb c).tParent.isNone)

theorem keepsTree_of_test (s : Core) (a : TreeCall) (h : keepsTree? s a = true) : KeepsTree s a := by
  cases a with
  | create c globalid utcb => trivial
  | destroy c thr =>
    simp only [keepsTree?, Bool.or_eq_true, Bool.and_eq_true, Option.isNone_iff_eq_none,
      bne_iff_ne] at h
    exact h.imp id fun h => ⟨h.1, fun hb => hb.parent_ne_none h.2⟩

/-- A computed run of the small board and one more call, with a property of the state after it. -/
theorem exists_treeRun {P : Core → TreeCall → Prop} {t : Core → TreeCall → Bool}
    (ht : ∀ s a, t s a = true → P s a) (calls : List TreeCall) (a : TreeCall) (p : Core → Bool)
    (h : ((smallBoot fun _ => 0#8).toOption.any fun s0 =>
      decide (s0.slots .rootThread = some 1) && (TSys.runAll (TreeCall.exec 1) t s0 calls).any
        fun s => (a.exec 1 s).any p) = true) :
    ∃ s s', (treeCalls 1).Reachable P s ∧ (treeCalls 1).step s a s' ∧ p s' = true := by
  obtain ⟨s0, hboot, h⟩ := (Option.any_eq_true _ _).mp h
  rw [Bool.and_eq_true, decide_eq_true_eq] at h
  obtain ⟨s, hrun, hlast⟩ := (Option.any_eq_true _ _).mp h.2
  obtain ⟨s', hlast, hp⟩ := (Option.any_eq_true _ _).mp hlast
  exact ⟨s, s', TSys.Reachable.runAll TreeCall.exec_step ht _
    (.init (smallBoot_root (toOption_some.mp hboot) h.1)) hrun, TreeCall.exec_step s _ s' hlast, hp⟩

/-- Root creates thread 256, 256 creates 257 and 258, and root destroys 256: its children are now
those of root. -/
theorem thread_tree_kept_adoption : ∃ s s' : Core,
    (treeCalls 1).step s (.destroy 1 3) s' ∧ (s'.tcb 1).tChild = some 4 ∧
    ThreadTree s 1 ∧ (ThreadTree s' 1 ↔ KeepsTree s (.destroy 1 3)) := by
  obtain ⟨s, s', hs, hstep, hchild⟩ := exists_treeRun keepsTree_of_test
    [.create 1 (tidToGlobalid 256) none, .create 3 (tidToGlobalid 257) none,
      .create 3 (tidToGlobalid 258) none]
    (.destroy 1 3) (fun s' => decide ((s'.tcb 1).tChild = some 4)) (by decide +kernel)
  exact ⟨s, s', hstep, of_decide_eq_true hchild, thread_tree_kept hs hstep⟩

/-- Root creates 256, 256 creates 257, and 257 destroys 256: it is now its own parent. -/
theorem thread_tree_cycle : ∃ s s' : Core,
    (treeCalls 1).Reachable (fun _ _ => True) s ∧ (treeCalls 1).step s (.destroy 4 3) s' ∧
    s'.live 4 = true ∧ (s'.tcb 4).tParent = some 4 ∧ ¬ ThreadTree s' 1 := by
  obtain ⟨s, s', hs, hstep, hp⟩ := exists_treeRun (t := fun _ _ => true) (fun _ _ _ => trivial)
    [.create 1 (tidToGlobalid 256) none, .create 3 (tidToGlobalid 257) none] (.destroy 4 3)
    (fun s' => decide (s'.live 4 = true ∧ THREAD_SYS ≤ s'.number 4 ∧ (s'.tcb 4).tParent = some 4))
    (by decide +kernel)
  obtain ⟨hlive, hsys, hparent⟩ := of_decide_eq_true hp
  refine ⟨s, s', hs, hstep, hlive, hparent, ?_⟩
  rintro ⟨_, _, kids, htree⟩
  exact htree.parent_ne_self ⟨hlive, hsys⟩ hparent

end F9
