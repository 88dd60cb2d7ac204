import F9.Kernel.Memory
import F9.Logic.Sweeps

/-!
# `as_create` and `as_destroy`

`as_destroy` walks the list of the space while it takes it apart: clones are
unmapped and leave the list, owned pages are freed where they stand and stay
linked. `asDestroyLoop_rule` is the invariant rule of that walk, over the
freed pages `dead` still linked and the pages `rest` ahead.
-/

namespace F9

open Linked Result

variable {s s' : Kernel} {id : Word} {a : AsRef} {L : AsRef → List FpRef} {dead rest : List FpRef}
  {r : FpRef}

/-! ## Creation -/

/-- A new space with an empty list. The heads of the MPU lists are those the
slot had before. -/
structure AsCreated (s s' : Kernel) (a : AsRef) (id : Word) : Prop where
  slot : ∃ t, s.allocAs = some (a, t)
  fresh : s.liveAs a = false
  liveAs : ∀ b, s'.liveAs b = (s.liveAs b || decide (b = a))
  as : s'.as a = { s.as a with asSpaceid := id, first := none, shared := 0 }
  frame : ∀ b, b ≠ a → s'.as b = s.as b
  fpageTable : s'.fpageTable = s.fpageTable
  kipFpage : s'.kipFpage = s.kipFpage
  kipExtraFpage : s'.kipExtraFpage = s.kipExtraFpage
  mpu : s'.mpu = s.mpu
  mpuLog : s'.mpuLog = s.mpuLog
  junk : s'.junk = s.junk

theorem asCreate_spec (h : asCreate s id = .ok (a, s')) : AsCreated s s' a id := by
  unfold asCreate at h
  cases halloc : s.asTable.alloc with
  | none =>
    rw [Kernel.allocAs, halloc] at h
    simp at h
  | some q =>
    obtain ⟨b, kt⟩ := q
    have hslot : s.allocAs = some (b, { s with asTable := kt }) := by
      rw [Kernel.allocAs, halloc]
    rw [hslot] at h
    obtain ⟨rfl, rfl⟩ := h
    obtain ⟨h1, _, _, h4, h5⟩ := KTable.alloc_spec halloc
    have has : ∀ c, ({ s with asTable := kt } : Kernel).as c = s.as c := fun c => congrFun h4 c
    refine ⟨⟨_, hslot⟩, h1, h5, ?_, ?_, rfl, rfl, rfl, rfl, rfl, rfl⟩
    · rw [Kernel.setAs_as_self, has]
    · intro c hc
      rw [Kernel.setAs_as_ne _ _ hc, has]

theorem AsCreated.fp (h : AsCreated s s' a id) (x : FpRef) : s'.fp x = s.fp x := by
  unfold Kernel.fp
  rw [h.fpageTable]

theorem AsCreated.liveFp (h : AsCreated s s' a id) (x : FpRef) : s'.liveFp x = s.liveFp x := by
  unfold Kernel.liveFp
  rw [h.fpageTable]

theorem AsCreated.asNext (h : AsCreated s s' a id) (x : FpRef) : s'.asNext x = s.asNext x := by
  unfold Kernel.asNext
  rw [h.fp]

theorem AsCreated.lists (hL : Lists s L) (h : AsCreated s s' a id) :
    Lists s' (Function.update L a []) := by
  have hlive : ∀ b, b ≠ a → s'.liveAs b = true → s.liveAs b = true := by
    intro b hb hlb
    rw [h.liveAs] at hlb
    simpa [hb] using hlb
  refine ⟨?_, ?_, ?_⟩
  · intro b hb
    by_cases hba : b = a
    · subst hba
      rw [Function.update_self, h.as]
      simp
    · rw [Function.update_of_ne hba, h.frame b hba]
      exact (hL.chain b (hlive b hba hb)).congr fun x _ => h.asNext x
  · intro b hb r hr
    by_cases hba : b = a
    · subst hba
      simp at hr
    · rw [Function.update_of_ne hba] at hr
      rw [h.liveFp]
      exact hL.live b (hlive b hba hb) r hr
  · intro b c hb hc hbc r hr
    by_cases hba : b = a
    · subst hba
      simp at hr
    · rw [Function.update_of_ne hba] at hr
      by_cases hca : c = a
      · subst hca
        simp
      · rw [Function.update_of_ne hca]
        exact hL.disj b c (hlive b hba hb) (hlive c hca hc) hbc r hr

/-! ## Destruction -/

/-- The invariant rule of the loop of `as_destroy`. -/
theorem asDestroyLoop_rule {I : Kernel → List FpRef → List FpRef → Prop}
    (hunmap : ∀ s s' dead r rest p, I s dead (r :: rest) →
      Chain s.asNext (s.as a).first (dead ++ r :: rest) →
      Unmapped s s' a r p (dead ++ r :: rest) → I s' dead rest)
    (hfree : ∀ s dead r rest, I s dead (r :: rest) →
      Chain s.asNext (s.as a).first (dead ++ r :: rest) →
      (s.fp r).hasFlag FPAGE_CLONE = false → I (s.freeFp r) (dead ++ [r]) rest) :
    ∀ (n : Nat) (s s' : Kernel) (dead rest : List FpRef), Quiet s →
      Chain s.asNext (s.as a).first (dead ++ rest) → I s dead rest →
      asDestroyLoop a n s rest.head? = .ok s' →
      ∃ dead', Quiet s' ∧ Chain s'.asNext (s'.as a).first dead' ∧ I s' dead' [] := by
  intro n
  induction n with
  | zero =>
    intro s s' dead rest _ _ _ h
    simp [asDestroyLoop] at h
  | succ n ih =>
    intro s s' dead rest hq hl hI h
    cases rest with
    | nil =>
      simp only [List.head?_nil, asDestroyLoop, Except.ok.injEq] at h
      subst h
      rw [List.append_nil] at hl
      exact ⟨dead, hq, hl, hI⟩
    | cons r rest =>
      rw [List.head?_cons] at h
      unfold asDestroyLoop at h
      dsimp only at h
      have hnext : s.asNext r = rest.head? := by
        obtain ⟨_, h2⟩ := chain_append_cons.mp hl
        exact h2.head_eq
      cases hf : (s.fp r).hasFlag FPAGE_CLONE with
      | true =>
        rw [if_pos hf] at h
        obtain ⟨⟨ret, s2⟩, hun, h⟩ := bind_ok.mp h
        obtain ⟨s3, hret, hloop⟩ := bind_ok.mp h
        have hs2 := pure_ok.mp hret
        subst hs2
        rcases unmapFpage_spec hq hl (by simp) hun with ⟨hc, _, _⟩ | ⟨_, p, hu⟩
        · rw [hf] at hc
          simp at hc
        · have hr := hl.not_mem_of_append
          have herase : (dead ++ r :: rest).erase r = dead ++ rest := by
            rw [List.erase_append_right _ hr.1, List.erase_cons_head]
          have hlist := hu.list
          have hlink := hu.links r (by rw [herase]; simp [hr.1, hr.2])
          rw [herase] at hlist
          have hhead : (s2.fp r).asNext = rest.head? := hlink.trans hnext
          rw [hhead] at hloop
          exact ih s2 s' dead rest (hu.out.quiet hq) hlist
            (hunmap _ _ _ _ _ _ hI hl hu) hloop
      | false =>
        rw [if_neg (by rw [hf]; simp)] at h
        obtain ⟨s1, hret, hloop⟩ := bind_ok.mp h
        have hs1 := pure_ok.mp hret
        subst hs1
        have hhead : ((s.freeFp r).fp r).asNext = rest.head? := hnext
        rw [hhead] at hloop
        refine ih (s.freeFp r) s' (dead ++ [r]) rest hq ?_ (hfree _ _ _ _ hI hl hf) hloop
        rw [List.append_assoc, List.singleton_append]
        exact hl

/-- The lists while `a` is being destroyed: those of the other spaces stand. -/
structure Destroying (s : Kernel) (L : AsRef → List FpRef) (a : AsRef)
    (dead rest : List FpRef) : Prop where
  liveRest : ∀ x ∈ rest, s.liveFp x = true
  chain : ∀ b, s.liveAs b = true → b ≠ a → Chain s.asNext (s.as b).first (L b)
  live : ∀ b, s.liveAs b = true → b ≠ a → ∀ x ∈ L b, s.liveFp x = true
  apart : ∀ b, s.liveAs b = true → b ≠ a → ∀ x ∈ L b, x ∉ dead ++ rest
  disj : ∀ b c, s.liveAs b = true → s.liveAs c = true → b ≠ a → c ≠ a → b ≠ c →
    ∀ x ∈ L b, x ∉ L c

theorem Destroying.unmapped {p : FpRef} (h : Destroying s L a dead (r :: rest))
    (hl : Chain s.asNext (s.as a).first (dead ++ r :: rest))
    (hu : Unmapped s s' a r p (dead ++ r :: rest)) : Destroying s' L a dead rest := by
  have hr := hl.not_mem_of_append
  have hout : ∀ b, s'.liveAs b = true → s.liveAs b = true := by
    intro b hb
    rw [hu.out.liveAs] at hb
    exact hb
  have hkeep : ∀ b, s.liveAs b = true → b ≠ a → ∀ x ∈ L b, x ≠ r ∧ s'.asNext x = s.asNext x := by
    intro b hb hba x hx
    have hxn := h.apart b hb hba x hx
    refine ⟨fun hxr => hxn (by simp [hxr]), hu.links x fun hxe => ?_⟩
    exact hxn (List.mem_of_mem_erase hxe)
  refine ⟨?_, ?_, ?_, ?_, ?_⟩
  · intro x hx
    rw [hu.live]
    have hxr : x ≠ r := fun hxr => hr.2 (hxr ▸ hx)
    simp [h.liveRest x (List.mem_cons_of_mem _ hx), hxr]
  · intro b hb hba
    rw [hu.first b hba]
    exact (h.chain b (hout b hb) hba).congr fun x hx => (hkeep b (hout b hb) hba x hx).2
  · intro b hb hba x hx
    rw [hu.live]
    simp [h.live b (hout b hb) hba x hx, (hkeep b (hout b hb) hba x hx).1]
  · intro b hb hba x hx hxm
    refine h.apart b (hout b hb) hba x hx ?_
    rw [List.mem_append] at hxm ⊢
    exact hxm.imp_right (List.mem_cons_of_mem _)
  · intro b c hb hc
    exact h.disj b c (hout b hb) (hout c hc)

theorem Destroying.freed (h : Destroying s L a dead (r :: rest))
    (hl : Chain s.asNext (s.as a).first (dead ++ r :: rest)) :
    Destroying (s.freeFp r) L a (dead ++ [r]) rest := by
  have hr := hl.not_mem_of_append
  have happ : dead ++ [r] ++ rest = dead ++ r :: rest := by simp
  refine ⟨?_, h.chain, ?_, ?_, h.disj⟩
  · intro x hx
    have hxr : x ≠ r := fun hxr => hr.2 (hxr ▸ hx)
    rw [Kernel.freeFp_liveFp]
    simp [h.liveRest x (List.mem_cons_of_mem _ hx), hxr]
  · intro b hb hba x hx
    have hxr : x ≠ r := fun hxr => h.apart b hb hba x hx (by simp [hxr])
    rw [Kernel.freeFp_liveFp]
    simp [h.live b hb hba x hx, hxr]
  · intro b hb hba x hx
    rw [happ]
    exact h.apart b hb hba x hx

theorem Destroying.start (hL : Lists s L) (ha : s.liveAs a = true) : Destroying s L a [] (L a) :=
  ⟨hL.live a ha, fun b hb _ => hL.chain b hb, fun b hb _ => hL.live b hb,
    fun b hb hba => hL.disj b a hb ha hba, fun b c hb hc _ _ => hL.disj b c hb hc⟩

/-- When the space itself is freed, the others are a system of lists again. -/
theorem Destroying.lists (h : Destroying s L a dead []) : Lists (s.freeAs a) L := by
  have hlive : ∀ b, (s.freeAs a).liveAs b = true → s.liveAs b = true ∧ b ≠ a := by
    intro b hb
    rw [Kernel.freeAs_liveAs] at hb
    simpa using hb
  refine ⟨?_, ?_, ?_⟩
  · intro b hb
    exact h.chain b (hlive b hb).1 (hlive b hb).2
  · intro b hb
    exact h.live b (hlive b hb).1 (hlive b hb).2
  · intro b c hb hc
    exact h.disj b c (hlive b hb).1 (hlive c hc).1 (hlive b hb).2 (hlive c hc).2

/-- `as_destroy` of a shared space counts down, otherwise it takes the space
apart and frees it. -/
theorem asDestroy_ok (h : asDestroy s a = .ok s') :
    (0 < (s.as a).shared ∧ s' = s.setAs a fun b => { b with shared := b.shared - 1 }) ∨
    ((s.as a).shared = 0 ∧ ∃ s1, asDestroyLoop a s.walkBound s (s.as a).first = .ok s1 ∧
      s' = s1.freeAs a) := by
  unfold asDestroy at h
  by_cases hs : 0 < (s.as a).shared
  · rw [if_pos hs] at h
    exact .inl ⟨hs, (pure_ok.mp h).symm⟩
  · rw [if_neg hs] at h
    obtain ⟨s1, h1, h2⟩ := bind_ok.mp h
    exact .inr ⟨Nat.eq_zero_of_not_pos hs, s1, h1, (pure_ok.mp h2).symm⟩

theorem setShared_as (s : Kernel) (a b : AsRef) (f : Nat → Nat) :
    ((s.setAs a fun b => { b with shared := f b.shared }).as b).first = (s.as b).first ∧
    ((s.setAs a fun b => { b with shared := f b.shared }).as b).mpuFirst =
      (s.as b).mpuFirst := by
  rw [Kernel.setAs_as]
  by_cases hb : b = a
  · rw [if_pos hb, hb]
    exact ⟨rfl, rfl⟩
  · rw [if_neg hb]
    exact ⟨rfl, rfl⟩

theorem Lists.setShared (hL : Lists s L) (a : AsRef) (f : Nat → Nat) :
    Lists (s.setAs a fun b => { b with shared := f b.shared }) L :=
  hL.same (fun _ => rfl) (fun b => (setShared_as s a b f).1)
    fun b hb r hr => ⟨hL.live b hb r hr, rfl⟩

theorem asDestroy_lists (hq : Quiet s) (hL : Lists s L) (ha : s.liveAs a = true)
    (h : asDestroy s a = .ok s') : Quiet s' ∧ Lists s' L := by
  rcases asDestroy_ok h with ⟨_, rfl⟩ | ⟨_, s1, hloop, rfl⟩
  · exact ⟨hq, hL.setShared a (· - 1)⟩
  · have hl := hL.chain a ha
    rw [hl.head_eq] at hloop
    obtain ⟨dead, hq1, _, hd⟩ := asDestroyLoop_rule
      (I := fun s dead rest => Destroying s L a dead rest)
      (fun _ _ _ _ _ _ hI hl hu => hI.unmapped hl hu)
      (fun _ _ _ _ hI hl _ => hI.freed hl) _ s s1 [] (L a) hq hl (.start hL ha) hloop
    exact ⟨hq1, hd.lists⟩

end F9
