import Mathlib.Data.Set.Finite.Basic
import F9.Lib.Tree
import F9.Logic.ThreadEffects

/-!
# The thread tree

The threads that have been created hang under root by `t_child`, `t_sibling` and `t_parent`
(`ThreadTree`). On a tree the loops of `thread_create` and `thread_destroy` end and find what they
look for; from this it follows which links the two functions set.
-/

namespace F9

open Result Linked

variable {s' : Core} {root c p : TcbRef} {kids : TcbRef → List TcbRef} {id : Word}
  {utcb : Option Word} {z thr : TcbRef} {s1 : Core}

/-! ## The tree -/

/-- The links of the threads. -/
def Core.links (s : Core) : Links TcbRef where
  child := fun t => (s.tcb t).tChild
  sibling := fun t => (s.tcb t).tSibling
  parent := fun t => (s.tcb t).tParent

/-- The threads made by `thread_create`; the kernel's own have lower numbers. -/
def Core.created (s : Core) : Set TcbRef := { t | s.live t = true ∧ THREAD_SYS ≤ s.number t }

/-- The created threads form a finite tree under `root`: each of them is in the list of children of
one thread of the tree, once, and nothing else is in these lists. -/
structure ThreadTree (s : Core) (root : TcbRef) : Prop where
  live : s.live root = true
  finite : s.created.Finite
  tree : ∃ kids, IsTree s.links root s.created kids

variable {s : Core}

theorem live_lt {t : TcbRef} (h : s.live t = true) : t < s.threadTable.num := by
  unfold Core.live KTable.live at h
  rw [Bool.and_eq_true, decide_eq_true_eq] at h
  exact h.1

theorem created_finite (s : Core) : s.created.Finite :=
  (Set.finite_lt_nat s.threadTable.num).subset fun _ ht => live_lt ht.1

theorem ThreadTree.lt (h : ThreadTree s root) :
    ∀ y ∈ insert root s.created, y < s.threadTable.num := by
  rintro y (rfl | hy)
  · exact live_lt h.live
  · exact live_lt hy.1

theorem ThreadTree.congr (h : ThreadTree s root) (hlinks : s'.links = s.links)
    (hlive : ∀ t, s'.live t = s.live t) (hnumber : ∀ t, s'.number t = s.number t) :
    ThreadTree s' root := by
  have hcreated : s'.created = s.created := by
    unfold Core.created
    simp only [hlive, hnumber]
  refine ⟨by rw [hlive]; exact h.live, created_finite s', ?_⟩
  rw [hlinks, hcreated]
  exact h.tree

theorem SameThreads.links (h : SameThreads s s') : s'.links = s.links := by
  unfold Core.links
  simp only [h.tChild, h.tSibling, h.tParent]

theorem ThreadTree.same (h : ThreadTree s root) (hs : SameThreads s s') :
    ThreadTree s' root := h.congr hs.links hs.live hs.number

/-! ## Links after an update -/

section

variable {s : Core} {t : TcbRef} {f : Tcb → Tcb}

theorem child_setTcb (x : TcbRef) : (s.setTcb t f).links.child x =
    if x = t then (f (s.tcb t)).tChild else s.links.child x := by
  show ((s.setTcb t f).tcb x).tChild = _
  rw [Core.tcb_setTcb]
  split <;> rfl

theorem sibling_setTcb (x : TcbRef) : (s.setTcb t f).links.sibling x =
    if x = t then (f (s.tcb t)).tSibling else s.links.sibling x := by
  show ((s.setTcb t f).tcb x).tSibling = _
  rw [Core.tcb_setTcb]
  split <;> rfl

theorem parent_setTcb (x : TcbRef) : (s.setTcb t f).links.parent x =
    if x = t then (f (s.tcb t)).tParent else s.links.parent x := by
  show ((s.setTcb t f).tcb x).tParent = _
  rw [Core.tcb_setTcb]
  split <;> rfl

theorem child_setTcb_same (h : (f (s.tcb t)).tChild = (s.tcb t).tChild) :
    (s.setTcb t f).links.child = s.links.child := by
  funext x
  rw [child_setTcb]
  split
  · rename_i hx
    rw [hx, h]
    rfl
  · rfl

theorem sibling_setTcb_same (h : (f (s.tcb t)).tSibling = (s.tcb t).tSibling) :
    (s.setTcb t f).links.sibling = s.links.sibling := by
  funext x
  rw [sibling_setTcb]
  split
  · rename_i hx
    rw [hx, h]
    rfl
  · rfl

theorem parent_setTcb_same (h : (f (s.tcb t)).tParent = (s.tcb t).tParent) :
    (s.setTcb t f).links.parent = s.links.parent := by
  funext x
  rw [parent_setTcb]
  split
  · rename_i hx
    rw [hx, h]
    rfl
  · rfl

end

/-! ## The loops -/

/-- The walk of `thread_create` ends at the last sibling. -/
theorem lastSibling_chain (n : Nat) (l : List TcbRef) (t : TcbRef)
    (hchain : Chain s.links.sibling (some t) (l ++ [z])) (hn : l.length < n) :
    lastSibling s n t = .ok z := by
  induction n generalizing l t with
  | zero => omega
  | succ n ih =>
    cases l with
    | nil =>
      obtain ⟨ht, hend⟩ := chain_cons.mp hchain
      injection ht with ht
      have hsib : (s.tcb z).tSibling = none := chain_nil.mp hend
      unfold lastSibling
      rw [ht, hsib]
    | cons y l =>
      obtain ⟨ht, hrest⟩ := chain_cons.mp hchain
      injection ht with ht
      unfold lastSibling
      rw [ht]
      cases hsib : (s.tcb y).tSibling with
      | none =>
        have hnone : s.links.sibling y = none := hsib
        rw [hnone, chain_none] at hrest
        simp at hrest
      | some y' =>
        have hsome : s.links.sibling y = some y' := hsib
        rw [hsome] at hrest
        exact ih l y' hrest (by simp at hn; omega)

/-- The search of `thread_destroy` ends at the child before the thread. -/
theorem prevSibling_seg (n : Nat) (l : List TcbRef) (prev : TcbRef) (child : Option TcbRef)
    (hseg : Seg s.links.sibling child l (some thr)) (hnot : thr ∉ l) (hn : l.length < n) :
    ∃ m z, prev :: l = m ++ [z] ∧ prevSibling s thr n prev child = .ok z := by
  induction n generalizing l prev child with
  | zero => omega
  | succ n ih =>
    unfold prevSibling
    cases l with
    | nil => exact ⟨[], prev, rfl, by rw [if_pos (seg_nil.mp hseg)]; rfl⟩
    | cons y l =>
      obtain ⟨hy, hrest⟩ := seg_cons.mp hseg
      have hne : child ≠ some thr := by
        rw [hy]
        intro heq
        exact hnot (by rw [Option.some.inj heq]; exact List.mem_cons_self)
      obtain ⟨m, z, hm, hrun⟩ := ih l y (s.tcb y).tSibling hrest
        (fun hin => hnot (List.mem_cons_of_mem _ hin)) (by simp at hn; omega)
      refine ⟨prev :: m, z, by rw [hm]; rfl, ?_⟩
      rw [if_neg hne, hy]
      exact hrun

/-- The loop of `thread_destroy` over the children gives each of them the new parent. -/
theorem adoptChildren_chain (n : Nat) (l : List TcbRef) (s : Core) (child : TcbRef)
    (hchain : Chain s.links.sibling (some child) (l ++ [z])) (hn : l.length < n) :
    ∃ s', adoptChildren c n s child = .ok (z, s') ∧ s'.links.child = s.links.child ∧
      s'.links.sibling = s.links.sibling ∧
      ∀ y, s'.links.parent y = if y ∈ l ++ [z] then some c else s.links.parent y := by
  induction n generalizing l s child with
  | zero => omega
  | succ n ih =>
    unfold adoptChildren
    generalize hs1 : s.setTcb child (fun tcb => { tcb with tParent := some c }) = s1
    have hchild1 : s1.links.child = s.links.child := by
      rw [← hs1]
      exact child_setTcb_same rfl
    have hsib1 : s1.links.sibling = s.links.sibling := by
      rw [← hs1]
      exact sibling_setTcb_same rfl
    have hpar1 : ∀ y, s1.links.parent y = if y = child then some c else s.links.parent y := by
      intro y
      rw [← hs1, parent_setTcb]
    have hnext : (s1.tcb child).tSibling = s.links.sibling child := by
      rw [← hsib1]
      rfl
    dsimp only
    rw [hnext]
    cases l with
    | nil =>
      obtain ⟨hz, hend⟩ := chain_cons.mp hchain
      injection hz with hz
      rw [hz, chain_nil.mp hend]
      refine ⟨s1, rfl, hchild1, hsib1, fun y => ?_⟩
      rw [hpar1, hz]
      simp
    | cons y l =>
      obtain ⟨hy, hrest⟩ := chain_cons.mp hchain
      injection hy with hy
      rw [hy]
      cases hnext' : s.links.sibling y with
      | none =>
        rw [hnext', chain_none] at hrest
        simp at hrest
      | some y' =>
        rw [hnext', ← hsib1] at hrest
        obtain ⟨s', hrun, hchild', hsib', hpar'⟩ := ih l s1 y' hrest (by simp at hn; omega)
        refine ⟨s', hrun, hchild'.trans hchild1, hsib'.trans hsib1, fun x => ?_⟩
        rw [hpar', hpar1, hy, List.cons_append]
        by_cases hxl : x ∈ l ++ [z]
        · rw [if_pos hxl, if_pos (List.mem_cons_of_mem _ hxl)]
        · rw [if_neg hxl]
          by_cases hxy : x = y
          · rw [if_pos hxy, if_pos (by rw [hxy]; exact List.mem_cons_self)]
          · rw [if_neg hxy, if_neg]
            intro hmem
            rcases List.mem_cons.mp hmem with heq | hmem
            · exact hxy heq
            · exact hxl hmem

theorem kids_length (h : IsTree s.links root s.created kids) (hp : p ∈ insert root s.created) :
    (kids p).length < s.treeBound := by
  have hle := length_le_of_nodup_lt (h.chain p hp).nodup
    fun x hx => live_lt (h.kids_mem hp hx).1
  unfold Core.treeBound
  omega

/-! ## Creation -/

theorem Initted.links {s2 : Core} (h : Initted s s1 id utcb thr)
    (hs2 : s2 = s1.setTcb thr fun tcb => { tcb with tParent := some c }) (x : TcbRef) :
    s2.links.child x = (if x = thr then none else s.links.child x) ∧
      s2.links.sibling x = (if x = thr then none else s.links.sibling x) ∧
      s2.links.parent x = (if x = thr then some c else s.links.parent x) := by
  rw [hs2, child_setTcb, sibling_setTcb, parent_setTcb]
  by_cases hx : x = thr
  · simp only [if_pos hx, h.new]
    exact ⟨trivial, trivial, trivial⟩
  · simp only [if_neg hx]
    unfold Core.links
    simp only [h.others x hx]
    exact ⟨trivial, trivial, trivial⟩

/-- The links that `thread_create` sets in a tree. -/
theorem threadCreate_links (htree : IsTree s.links root s.created kids)
    (hc : c ∈ insert root s.created) (hlc : s.live c = true) (hcaller : s.caller = some c)
    (hrun : threadCreate s id utcb = .ok (some thr, s')) :
    s'.links.child thr = none ∧ s'.links.sibling thr = none ∧
      (∀ x, s'.links.parent x = if x = thr then some c else s.links.parent x) ∧
      ((s.links.child c = none ∧
          (∀ q, q ≠ thr → s'.links.child q = if q = c then some thr else s.links.child q) ∧
          ∀ y, y ≠ thr → s'.links.sibling y = s.links.sibling y) ∨
        ∃ cs z, kids c = cs ++ [z] ∧ (∀ q, q ≠ thr → s'.links.child q = s.links.child q) ∧
          ∀ y, y ≠ thr → s'.links.sibling y = if y = z then some thr else s.links.sibling y) := by
  obtain ⟨_, c', s1, s2, hc', hinit, hs2, hway⟩ := threadCreate_cases hrun
  rw [hcaller] at hc'
  injection hc' with hcc
  rw [← hcc] at hs2 hway
  have hlinks := hinit.links hs2
  have hnew : ∀ t, s.live t = true → t ≠ thr := by
    rintro t ht rfl
    exact ne_true_of_eq_false hinit.fresh ht
  have hchild : (s2.tcb c).tChild = s.links.child c := (hlinks c).1.trans (if_neg (hnew c hlc))
  rcases hway with ⟨child, t, hch, hlast, hs'⟩ | ⟨hch, hs'⟩
  · -- the walk along the children of the caller, none of which is the new thread
    have hchain := htree.chain c hc
    rw [← hchild, hch] at hchain
    have hne : kids c ≠ [] := by
      intro hnil
      rw [hnil, chain_nil] at hchain
      simp at hchain
    obtain ⟨cs, z, hcs⟩ := (List.eq_nil_or_concat (kids c)).resolve_left hne
    rw [List.concat_eq_append] at hcs
    have hkid : ∀ y ∈ cs ++ [z], y ≠ thr := fun y hy =>
      hnew y (htree.kids_mem hc (by rw [hcs]; exact hy)).1
    have hz : t = z := by
      have hkids := kids_length htree hc
      have hnum : s2.treeBound = s.treeBound := by
        rw [hs2]
        exact congrArg (· + 1) hinit.num
      rw [hcs, List.length_append, ← hnum] at hkids
      rw [hcs] at hchain
      have hchain2 : Chain s2.links.sibling (some child) (cs ++ [z]) :=
        hchain.congr fun y hy => (hlinks y).2.1.trans (if_neg (hkid y hy))
      have hrun := lastSibling_chain s2.treeBound cs child hchain2 (by omega)
      rw [hlast] at hrun
      exact ok_ok.mp hrun
    have hzthr : z ≠ thr := hkid z (by simp)
    have hch' : s'.links.child = s2.links.child := by
      rw [hs']
      exact (child_setTcb_same rfl).trans (child_setTcb_same rfl)
    have hpar' : s'.links.parent = s2.links.parent := by
      rw [hs']
      exact (parent_setTcb_same rfl).trans (parent_setTcb_same rfl)
    have hsib' : ∀ y, s'.links.sibling y = if y = z then some thr else s2.links.sibling y := by
      intro y
      rw [hs', sibling_setTcb_same rfl, sibling_setTcb, hz]
    refine ⟨?_, ?_, fun x => ?_, .inr ⟨cs, z, hcs, fun q hq => ?_, fun y hy => ?_⟩⟩
    · rw [hch', (hlinks thr).1, if_pos rfl]
    · rw [hsib', if_neg hzthr.symm, (hlinks thr).2.1, if_pos rfl]
    · rw [hpar', (hlinks x).2.2]
    · rw [hch', (hlinks q).1, if_neg hq]
    · rw [hsib', (hlinks y).2.1, if_neg hy]
  · have hch' : ∀ q, s'.links.child q = if q = c then some thr else s2.links.child q := by
      intro q
      rw [hs', child_setTcb_same rfl, child_setTcb]
    have hpar' : s'.links.parent = s2.links.parent := by
      rw [hs']
      exact (parent_setTcb_same rfl).trans (parent_setTcb_same rfl)
    have hsib' : s'.links.sibling = s2.links.sibling := by
      rw [hs']
      exact (sibling_setTcb_same rfl).trans (sibling_setTcb_same rfl)
    refine ⟨?_, ?_, fun x => ?_, .inl ⟨?_, fun q hq => ?_, fun y hy => ?_⟩⟩
    · rw [hch', if_neg (hnew c hlc).symm, (hlinks thr).1, if_pos rfl]
    · rw [hsib', (hlinks thr).2.1, if_pos rfl]
    · rw [hpar', (hlinks x).2.2]
    · rw [← hchild, hch]
    · rw [hch', (hlinks q).1, if_neg hq]
    · rw [hsib', (hlinks y).2.1, if_neg hy]

theorem threadCreate_created (hrun : threadCreate s id utcb = .ok (some thr, s')) :
    s'.created = insert thr s.created ∧ s.live thr = false ∧
      ∀ t, s'.live t = (s.live t || decide (t = thr)) := by
  obtain ⟨hsys, s1, hinit, hlink⟩ := threadCreate_effect hrun
  have hlive : ∀ t, s'.live t = (s.live t || decide (t = thr)) := fun t => by
    rw [hlink.live, hinit.live]
  refine ⟨?_, hinit.fresh, hlive⟩
  ext t
  have hno : t ≠ thr → s'.number t = s.number t := by
    intro ht
    rw [hlink.number]
    unfold Core.number
    rw [hinit.others t ht]
  have hnew : s'.number thr = globalidToTid id := by
    rw [hlink.number]
    unfold Core.number
    rw [hinit.new]
  show (s'.live t = true ∧ THREAD_SYS ≤ s'.number t) ↔ t = thr ∨ _
  rw [hlive, Bool.or_eq_true, decide_eq_true_eq]
  by_cases ht : t = thr
  · rw [ht, hnew]
    exact ⟨fun _ => .inl rfl, fun _ => ⟨.inr rfl, hsys⟩⟩
  · rw [hno ht]
    constructor
    · rintro ⟨hl | hl, hn⟩
      · exact .inr ⟨hl, hn⟩
      · exact absurd hl ht
    · rintro (heq | ⟨hl, hn⟩)
      · exact absurd heq ht
      · exact ⟨.inl hl, hn⟩

/-- A created thread is a leaf under its creator, behind the other children. -/
theorem threadCreate_tree (h : ThreadTree s root) (hc : c ∈ insert root s.created)
    (hcaller : s.caller = some c) (hrun : threadCreate s id utcb = .ok (some thr, s')) :
    ThreadTree s' root := by
  obtain ⟨kids, htree⟩ := h.tree
  obtain ⟨hcreated, hfresh, hlive⟩ := threadCreate_created hrun
  have hlc : s.live c = true := by
    rcases hc with rfl | hc
    · exact h.live
    · exact hc.1
  have hdead : ¬ s.live thr = true := by
    rw [hfresh]
    simp
  have hthr : thr ∉ s.created := fun ht => hdead ht.1
  have hroot : thr ≠ root := by
    rintro rfl
    exact hdead h.live
  obtain ⟨hchild, hsib, hpar, hlists⟩ := threadCreate_links htree hc hlc hcaller hrun
  refine ⟨by rw [hlive, h.live]; rfl, created_finite s', IsTree.addLeaf kids c thr, ?_⟩
  rw [hcreated]
  refine htree.add hthr hroot hc (fun y hy => ?_) ?_
    (htree.add_chain hthr hc hchild hsib hlists)
  · rw [hpar, if_neg]
    rintro rfl
    rcases hy with hy | hy
    · exact hroot hy
    · exact hthr hy
  · rw [hpar, if_pos rfl]

/-! ## Removal -/

/-- The first part of `thread_destroy` takes the thread out of the list of its parent. -/
theorem unlinkThread_tree {s : Core} (htree : IsTree s.links root s.created kids)
    (hthr : thr ∈ s.created) :
    ∃ s1, unlinkThread s thr = .ok s1 ∧ s1.links.parent = s.links.parent ∧
      ∀ q ∈ insert root s.created, Chain s1.links.sibling (s1.links.child q) ((kids q).erase thr) := by
  obtain ⟨p, hp, hpar⟩ := htree.parent thr hthr
  have hpar' : (s.tcb thr).tParent = some p := hpar
  have hin : thr ∈ kids p := (htree.mem p hp thr).mpr ⟨hthr, hpar⟩
  have hchain := htree.chain p hp
  unfold unlinkThread
  rw [hpar']
  simp only [nonNull, bind, Except.bind, pure, Except.pure]
  split
  · rename_i hhead
    refine ⟨_, rfl, parent_setTcb_same rfl, ?_⟩
    refine htree.unlink_chain hthr hpar (.inl ⟨hhead, sibling_setTcb_same rfl, fun q => ?_⟩)
    rw [child_setTcb]
    rfl
  · rename_i hhead
    -- the thread is behind the first child
    cases hkids : kids p with
    | nil =>
      rw [hkids] at hin
      simp at hin
    | cons y l =>
      rw [hkids] at hin hchain
      obtain ⟨hy, hrest⟩ := chain_cons.mp hchain
      have hne : thr ≠ y := by
        rintro rfl
        exact hhead hy
      have hinl : thr ∈ l := (List.mem_cons.mp hin).resolve_left hne
      obtain ⟨l1, l2, hl, hseg, _⟩ := hrest.of_mem hinl
      rw [hl] at hrest
      have hbound := kids_length htree hp
      rw [hkids, hl] at hbound
      simp only [List.length_cons, List.length_append] at hbound
      obtain ⟨m, z, hm, hfind⟩ := prevSibling_seg s.treeBound l1 y (s.links.sibling y) hseg
        hrest.not_mem_of_append.1 (by omega)
      have hy' : (s.tcb p).tChild = some y := hy
      have hfind' : prevSibling s thr s.treeBound y (s.tcb y).tSibling = .ok z := hfind
      rw [hy']
      dsimp only
      rw [hfind']
      refine ⟨_, rfl, parent_setTcb_same rfl, ?_⟩
      refine htree.unlink_chain hthr hpar (.inr ⟨m, z, l2, ?_, child_setTcb_same rfl, fun q => ?_⟩)
      · rw [hkids, hl, ← List.cons_append, hm]
        simp
      · rw [sibling_setTcb]
        rfl

/-- The second part of `thread_destroy` gives the children of the thread to the caller. -/
theorem moveChildren_tree {s : Core} (htree : IsTree s.links root s.created kids)
    (hthr : thr ∈ s.created) (hc : c ∈ insert root s.created) (hcaller : s1.caller = some c)
    (hnum : s1.threadTable.num = s.threadTable.num) (hpar : s1.links.parent = s.links.parent)
    (hunlinked : ∀ q ∈ insert root s.created,
      Chain s1.links.sibling (s1.links.child q) ((kids q).erase thr)) :
    ∃ s2, moveChildren s1 thr = .ok s2 ∧
      (∀ y, s2.links.parent y = if y ∈ kids thr then some c else s.links.parent y) ∧
      ∀ q ∈ insert root (s.created \ {thr}),
        Chain s2.links.sibling (s2.links.child q) (IsTree.without kids thr c q) := by
  have hthrA : thr ∈ insert root s.created := .inr hthr
  have hself : thr ∉ kids thr := fun hin =>
    htree.parent_ne_self hthr ((htree.mem thr hthrA thr).mp hin).2
  have hown := hunlinked thr hthrA
  rw [List.erase_of_not_mem hself] at hown
  unfold moveChildren
  cases hchild : (s1.tcb thr).tChild with
  | none =>
    have hnone : s1.links.child thr = none := hchild
    rw [hnone, chain_none] at hown
    refine ⟨s1, rfl, fun y => ?_, fun q hq => ?_⟩
    · rw [hown, if_neg (by simp), hpar]
    · unfold IsTree.without
      rw [hown, ite_self, List.nil_append]
      refine hunlinked q ?_
      rcases hq with hq | hq
      · exact .inl hq
      · exact .inr hq.1
  | some child =>
    have hsome : s1.links.child thr = some child := hchild
    rw [hsome] at hown
    have hne : kids thr ≠ [] := by
      intro hnil
      rw [hnil, chain_nil] at hown
      simp at hown
    obtain ⟨cs, z, hcs⟩ := (List.eq_nil_or_concat (kids thr)).resolve_left hne
    rw [List.concat_eq_append] at hcs
    rw [hcs] at hown
    have hbound := kids_length htree hthrA
    rw [hcs, List.length_append] at hbound
    have hbound' : cs.length < s1.treeBound := by
      unfold Core.treeBound at hbound ⊢
      omega
    obtain ⟨s2, hrun, hchild2, hsib2, hpar2⟩ := adoptChildren_chain (c := c) _ cs s1 child hown hbound'
    simp only [hcaller, nonNull, bind, Except.bind, pure, Except.pure, hrun]
    refine ⟨_, rfl, fun y => ?_, ?_⟩
    · rw [parent_setTcb_same rfl, parent_setTcb_same rfl, hpar2, hcs, hpar]
    · refine htree.move_chain hthr hc hunlinked hcs (fun y => ?_) fun q => ?_
      · rw [sibling_setTcb_same rfl, sibling_setTcb, hsib2, ← hchild2]
        rfl
      · rw [child_setTcb, child_setTcb_same rfl, hchild2]
        show (if q = c then (Core.links _).child thr else _) = _
        rw [child_setTcb_same rfl, hchild2]

theorem created_free (hlive : ∀ t, s'.live t = (s.live t && decide (t ≠ thr)))
    (hnumber : ∀ t, s'.number t = s.number t) : s'.created = s.created \ {thr} := by
  ext t
  show (s'.live t = true ∧ THREAD_SYS ≤ s'.number t) ↔
    (s.live t = true ∧ THREAD_SYS ≤ s.number t) ∧ ¬ t = thr
  rw [hlive, hnumber, Bool.and_eq_true, decide_eq_true_eq]
  exact ⟨fun h => ⟨⟨h.1.1, h.2⟩, h.1.2⟩, fun h => ⟨⟨h.1.1, h.2⟩, h.1.2⟩⟩

/-- A thread may be destroyed by a caller when it has no children, or the caller is neither the
thread nor below it. -/
def Removable (s : Core) (c thr : TcbRef) : Prop :=
  (s.tcb thr).tChild = none ∨ (c ≠ thr ∧ ¬ s.links.Below thr c)

/-- `thread_destroy` keeps the tree if and only if the thread is removable. -/
theorem threadDestroy_tree (h : ThreadTree s root) (hthr : thr ∈ s.created)
    (hc : c ∈ insert root s.created) (hcaller : s.caller = some c)
    (hrun : threadDestroy s thr = .ok s') : ThreadTree s' root ↔ Removable s c thr := by
  obtain ⟨kids, htree⟩ := h.tree
  have hthrA : thr ∈ insert root s.created := .inr hthr
  obtain ⟨s1, hunlink, hrun⟩ := bind_ok.mp hrun
  obtain ⟨s2, hmove, hrun⟩ := bind_ok.mp hrun
  obtain ⟨s1', hrun1, hpar1, hchain1⟩ := unlinkThread_tree htree hthr
  rw [hunlink] at hrun1
  injection hrun1 with hrun1
  rw [← hrun1] at hpar1 hchain1
  have honly1 := unlinkThread_linksOnly hunlink
  obtain ⟨s2', hrun2, hpar2, hchain2⟩ := moveChildren_tree htree hthr hc
    (by rw [honly1.caller, hcaller]) honly1.num hpar1 hchain1
  rw [hmove] at hrun2
  injection hrun2 with hrun2
  rw [← hrun2] at hpar2 hchain2
  have honly2 := honly1.trans (moveChildren_linksOnly hmove)
  obtain ⟨s3, _, hs'⟩ := threadDeinit_effect hrun
  -- what is left of the threads, and their links
  have hlinks : s'.links = s2.links := by
    rw [hs']
    rfl
  have hlive : ∀ t, s'.live t = (s.live t && decide (t ≠ thr)) := by
    intro t
    rw [hs', ← honly2.live]
    exact s2.threadTable.free_live thr t
  have hnumber : ∀ t, s'.number t = s.number t := by
    intro t
    rw [hs', ← honly2.number]
    rfl
  have hcreated := created_free hlive hnumber
  have hkid : ∀ y, y ∈ kids thr ↔ y ∈ s.created ∧ s.links.parent y = some thr :=
    htree.mem thr hthrA
  have hre : IsTree.Reparented s.links s2.links s.created thr c := by
    refine ⟨fun y hy hp => ?_, fun y hy _ hp => ?_⟩
    · rw [hpar2, if_pos ((hkid y).mpr ⟨hy, hp⟩)]
    · rw [hpar2, if_neg fun hin => hp ((hkid y).mp hin).2]
  have hnil : kids thr = [] ↔ (s.tcb thr).tChild = none := htree.kids_nil_iff hthrA
  constructor
  · rintro ⟨_, _, kids', htree'⟩
    by_contra hbad
    unfold Removable at hbad
    rw [not_or, not_and_or, not_not, not_not, ← hnil] at hbad
    rw [hlinks, hcreated] at htree'
    refine htree.not_remove hthr hbad.1 ?_ hre htree'
    rcases hbad.2 with hself | hbelow
    · exact .inl hself
    · rcases hc with rfl | hc
      · exact absurd hbelow htree.not_below_root
      · exact .inr ⟨hc, hbelow⟩
  · intro hok
    have hroot : root ≠ thr := (htree.ne_root hthr).symm
    refine ⟨?_, created_finite s', IsTree.without kids thr c, ?_⟩
    · rw [hlive, h.live]
      simp [hroot]
    · rw [hlinks, hcreated]
      refine htree.remove hthr hc ?_ hre ?_ hchain2
      · rw [hnil]
        exact hok
      · rw [hpar2, if_neg]
        · exact htree.top
        · exact fun hin => htree.apart ((hkid root).mp hin).1

end F9
