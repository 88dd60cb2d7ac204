import F9.Logic.Rings

/-!
# The mapping rings along a run

Every call keeps the rings of `map_next` links, with two exceptions:

* `as_destroy` frees the pages a space owns without taking them out of their
  rings, so a clone in another space is left with a link to a freed page;
* `map_area` of a range inside one page may cut the page that `first` points
  to and go on with it.

In runs that avoid both, every allocated page is on a finite ring of allocated
pages for the same block, and the search of `unmap_fpage` ends.
-/

namespace F9

open Linked Result

variable {mm : Memmap} {s s' : Kernel} {p : FpRef} {op : MemOp} {id : Word} {c : AsRef}

/-! ## Destruction -/

/-- One step along a ring. -/
def Kernel.ringStep (s : Kernel) (x y : FpRef) : Prop := s.mapNext x = some y

/-- The rings of the pages that `a` owns lie in `a`: nothing it owns is mapped
elsewhere. -/
def RingsInside (s : Kernel) (a : AsRef) : Prop :=
  ∀ r ∈ s.pages a, (s.fp r).hasFlag FPAGE_CLONE = false →
    ∀ x, Relation.ReflTransGen s.ringStep r x → x ∈ s.pages a

/-- While `a` is destroyed: `K` are the rings of its own pages, which go as a
whole, and the other pages form rings as before. -/
structure RingDestroying (s0 : Kernel) (K : Set FpRef) (a : AsRef) (s : Kernel)
    (dead rest : List FpRef) : Prop where
  lists : Destroying s s0.pages a dead rest
  liveAs : ∀ b, s.liveAs b = s0.liveAs b
  sub : ∀ x ∈ rest, x ∈ s0.pages a
  closed : ∀ x ∈ K, ∀ y, s.mapNext x = some y → y ∈ K
  rings : RingOn s (s.liveSet \ K)
  left : ∀ x ∈ K, s.liveFp x = true → x ∈ rest
  owner : ∀ x ∈ rest, (s.fp x).hasFlag FPAGE_CLONE = false → x ∈ K
  keep : ∀ x, x ∉ s0.pages a → s.liveFp x = s0.liveFp x
  kip : s.kipFpage = s0.kipFpage ∧ s.kipExtraFpage = s0.kipExtraFpage

theorem hasFlag_clone_of_clear : ∀ f : BitVec 6,
    (f &&& ~~~FPAGE_MAPPED) &&& FPAGE_CLONE = f &&& FPAGE_CLONE := by
  decide

theorem Unmapped.hasFlag {a : AsRef} {r : FpRef} {l : List FpRef} (h : Unmapped s s' a r p l)
    (x : FpRef) : (s'.fp x).hasFlag FPAGE_CLONE = (s.fp x).hasFlag FPAGE_CLONE := by
  rw [h.fp]
  unfold Fpage.hasFlag
  by_cases hx : x = p
  · simp only [hx, if_true, hasFlag_clone_of_clear]
  · simp only [hx, if_false]

section

variable {s0 : Kernel} {K : Set FpRef} {a : AsRef} {r : FpRef} {dead rest : List FpRef}

theorem liveSet_diff (hlive : ∀ x, s'.liveFp x = true ↔ s.liveFp x = true ∧ x ≠ r) (hr : r ∈ K) :
    s'.liveSet \ K = s.liveSet \ K := by
  ext x
  constructor
  · intro hx
    exact ⟨((hlive x).mp hx.1).1, hx.2⟩
  · intro hx
    exact ⟨(hlive x).mpr ⟨hx.1, fun hxr => hx.2 (hxr ▸ hr)⟩, hx.2⟩

theorem RingDestroying.unmapped (h : RingDestroying s0 K a s dead (r :: rest))
    (hl : Chain s.asNext (s.as a).first (dead ++ r :: rest))
    (hu : Unmapped s s' a r p (dead ++ r :: rest)) : RingDestroying s0 K a s' dead rest := by
  have hlr : r ∈ s.liveSet := h.lists.liveRest r List.mem_cons_self
  have hlive : ∀ x, s'.liveFp x = true ↔ s.liveFp x = true ∧ x ≠ r := by
    intro x
    rw [hu.live]
    simp
  -- the predecessor is in `K` exactly if the page is
  have hring : (∀ x ∈ K, ∀ y, s'.mapNext x = some y → y ∈ K) ∧ RingOn s' (s'.liveSet \ K) := by
    by_cases hrK : r ∈ K
    · have hpK := hu.reach K h.closed hrK
      refine ⟨?_, ?_⟩
      · intro x hx y hxy
        rw [hu.mapNext] at hxy
        by_cases hxp : x = p
        · rw [if_pos hxp] at hxy
          exact h.closed r hrK y hxy
        · rw [if_neg hxp] at hxy
          exact h.closed x hx y hxy
      · rw [liveSet_diff hlive hrK]
        refine h.rings.congr ?_ (hu.sameBlocks _)
        intro x hx
        rw [hu.mapNext, if_neg (fun hxp : x = p => hx.2 (hxp ▸ hpK))]
    · have hrA : r ∈ s.liveSet \ K := ⟨hlr, hrK⟩
      have hpA := hu.reach _ h.rings.closed hrA
      refine ⟨?_, ?_⟩
      · intro x hx y hxy
        rw [hu.mapNext, if_neg (fun hxp : x = p => hpA.2 (hxp ▸ hx))] at hxy
        exact h.closed x hx y hxy
      · have hset : s'.liveSet \ K = (s.liveSet \ K) \ {r} := by
          ext x
          constructor
          · intro hx
            exact ⟨⟨((hlive x).mp hx.1).1, hx.2⟩, ((hlive x).mp hx.1).2⟩
          · intro hx
            exact ⟨(hlive x).mpr ⟨hx.1.1, hx.2⟩, hx.1.2⟩
        rw [hset]
        exact hu.ringOn h.rings hrA
  refine ⟨h.lists.unmapped hl hu, fun b => (hu.out.liveAs b).trans (h.liveAs b),
    fun x hx => h.sub x (List.mem_cons_of_mem _ hx), hring.1, hring.2, ?_, ?_, ?_, ?_⟩
  · intro x hx hxl
    obtain ⟨hxl, hxr⟩ := (hlive x).mp hxl
    exact (List.mem_cons.mp (h.left x hx hxl)).resolve_left hxr
  · intro x hx hown
    rw [hu.hasFlag] at hown
    exact h.owner x (List.mem_cons_of_mem _ hx) hown
  · intro x hx
    have hxr : x ≠ r := fun hxr => hx (hxr ▸ h.sub r List.mem_cons_self)
    rw [hu.live, h.keep x hx]
    simp [hxr]
  · rw [hu.out.kipFpage, hu.out.kipExtraFpage]
    exact h.kip

theorem RingDestroying.freed (h : RingDestroying s0 K a s dead (r :: rest))
    (hl : Chain s.asNext (s.as a).first (dead ++ r :: rest))
    (hown : (s.fp r).hasFlag FPAGE_CLONE = false) :
    RingDestroying s0 K a (s.freeFp r) (dead ++ [r]) rest := by
  have hrK : r ∈ K := h.owner r List.mem_cons_self hown
  have hlive : ∀ x, (s.freeFp r).liveFp x = true ↔ s.liveFp x = true ∧ x ≠ r := by
    intro x
    rw [Kernel.freeFp_liveFp]
    simp
  refine ⟨h.lists.freed hl, h.liveAs, fun x hx => h.sub x (List.mem_cons_of_mem _ hx), h.closed,
    ?_, ?_, fun x hx => h.owner x (List.mem_cons_of_mem _ hx), ?_, h.kip⟩
  · rw [liveSet_diff hlive hrK]
    exact h.rings.congr (fun _ _ => rfl) (fun _ _ => ⟨rfl, rfl⟩)
  · intro x hx hxl
    obtain ⟨hxl, hxr⟩ := (hlive x).mp hxl
    exact (List.mem_cons.mp (h.left x hx hxl)).resolve_left hxr
  · intro x hx
    have hxr : x ≠ r := fun hxr => hx (hxr ▸ h.sub r List.mem_cons_self)
    rw [Kernel.freeFp_liveFp, h.keep x hx]
    simp [hxr]

end

theorem RingInv.setShared (h : RingInv s) (hwf : Wf s) (a : AsRef) (f : Nat → Nat) :
    RingInv (s.setAs a fun b => { b with shared := f b.shared }) := by
  refine h.congr (fun _ => rfl) (fun _ => rfl) (fun _ _ => ⟨rfl, rfl⟩) rfl rfl ?_
  intro b hb x hx
  rw [(Lists.setShared hwf a f).pages_eq hb] at hx
  exact ⟨hb, hx⟩

/-- `as_destroy` keeps the rings if nothing the space owns is mapped elsewhere. -/
theorem asDestroy_ringInv {a : AsRef} (hq : Quiet s) (hwf : Wf s) (h : RingInv s)
    (ha : s.liveAs a = true) (hin : (s.as a).shared = 0 → RingsInside s a)
    (hd : asDestroy s a = .ok s') : RingInv s' := by
  have hL := (asDestroy_lists hq hwf ha hd).2
  rcases asDestroy_ok hd with ⟨_, rfl⟩ | ⟨hsh, s1, hloop, rfl⟩
  · exact h.setShared hwf a (· - 1)
  · -- the pages reached from those the space owns
    let K : Set FpRef := {x | ∃ r ∈ s.pages a, (s.fp r).hasFlag FPAGE_CLONE = false ∧
      Relation.ReflTransGen s.ringStep r x}
    have hK : ∀ x ∈ K, x ∈ s.pages a := by
      rintro x ⟨r, hr, hown, hreach⟩
      exact hin hsh r hr hown x hreach
    have hclosed : ∀ x ∈ K, ∀ y, s.mapNext x = some y → y ∈ K := by
      rintro x ⟨r, hr, hown, hreach⟩ y hxy
      exact ⟨r, hr, hown, hreach.tail hxy⟩
    have hstart : RingDestroying s K a s [] (s.pages a) := by
      refine ⟨.start hwf ha, fun _ => rfl, fun x hx => hx, hclosed,
        ⟨h.rings.ring.diff s.liveSet_finite hclosed, fun x hx => h.rings.same x hx.1⟩,
        fun x hx _ => hK x hx, fun x hx hown => ⟨x, hx, hown, .refl⟩, fun _ _ => rfl, ⟨rfl, rfl⟩⟩
    have hl := hwf.chain a ha
    rw [hl.head_eq] at hloop
    obtain ⟨dead, _, _, hend⟩ := asDestroyLoop_rule
      (I := fun t dead rest => RingDestroying s K a t dead rest)
      (fun _ _ _ _ _ _ hI hl hu => hI.unmapped hl hu)
      (fun _ _ _ _ hI hl hown => hI.freed hl hown) _ s s1 [] (s.pages a) hq hl hstart hloop
    refine ⟨?_, ?_⟩
    · have hset : (s1.freeAs a).liveSet = s1.liveSet \ K := by
        ext x
        constructor
        · intro hx
          exact ⟨hx, fun hxK => absurd (hend.left x hxK hx) (by simp)⟩
        · intro hx
          exact hx.1
      rw [hset]
      exact hend.rings.congr (fun _ _ => rfl) (fun _ _ => ⟨rfl, rfl⟩)
    · intro r hr
      have hr : s1.kipFpage = some r ∨ s1.kipExtraFpage = some r := hr
      rw [hend.kip.1, hend.kip.2] at hr
      obtain ⟨h1, h2⟩ := h.kip r hr
      refine ⟨?_, ?_⟩
      · show s1.liveFp r = true
        rw [hend.keep r (h2 a ha)]
        exact h1
      · intro b hb
        rw [hL.pages_eq hb]
        rw [Kernel.freeAs_liveAs, hend.liveAs, Bool.and_eq_true] at hb
        exact h2 b hb.1

/-! ## The side condition -/

/-- The space, base and size of the range that a call maps from another space. -/
def MemOp.mapsFrom : MemOp → Option (AsRef × Word × Word)
  | .mapArea src dst base size _ _ => if src = dst then none else some (src, base, size)
  | .threadSpace (some c) _ _ utcb => some (c.1, utcb, sizeofUtcb)
  | _ => none

/-- The side condition on a call: the local `end` reads as zero; where a range
is mapped, the MPU list of the source leads to allocated pages and the range
is not inside one unmapped page that has a boundary at `base` and none at its
end; and a space is not destroyed while a page it owns is mapped elsewhere. -/
structure RingSafe (mm : Memmap) (s : Kernel) (op : MemOp) : Prop where
  quiet : Quiet s
  mpu : ∀ src base size, op.mapsFrom = some (src, base, size) → MpuIn s src s.liveSet
  span : ∀ src base size, op.mapsFrom = some (src, base, size) →
    SpanSafe mm s src base (base + size) s.liveSet
  owners : ∀ a, op = .asDestroy a → (s.as a).shared = 0 → RingsInside s a

/-- A sufficient check of the side condition, but for the local `end`: no page
has an MPU link, and what a destroyed space owns is not mapped at all. -/
def MemOp.ringCheck (mm : Memmap) (s : Kernel) (op : MemOp) : Bool :=
  (match op.mapsFrom with
    | none => true
    | some (src, base, size) => (s.as src).mpuFirst.isNone &&
        (List.range s.fpageTable.num).all (fun x => (s.mpuNext x).isNone) &&
        (s.pages src).all fun x =>
          decide (mempoolAlign mm (s.fp x).mpid (base + size) = (s.fp x).base ∨
            mempoolAlign mm (s.fp x).mpid (base + size) = (s.fp x).stop)) &&
  match op with
    | .asDestroy a => (s.pages a).all fun x =>
      (s.fp x).hasFlag FPAGE_CLONE || decide (s.mapNext x = some x)
    | _ => true

theorem RingSafe.of_check (hq : Quiet s) (h : op.ringCheck mm s = true) :
    RingSafe mm s op := by
  unfold MemOp.ringCheck at h
  rw [Bool.and_eq_true] at h
  obtain ⟨hmap, hdest⟩ := h
  refine ⟨hq, ?_, ?_, ?_⟩
  · intro src base size hop
    simp only [hop, Bool.and_eq_true, List.all_eq_true, List.mem_range,
      Option.isNone_iff_eq_none] at hmap
    refine ⟨by simp [hmap.1.1], fun x hx r hr => ?_⟩
    rw [hmap.1.2 x (liveFp_lt hx)] at hr
    simp at hr
  · intro src base size hop x hx _ _ _ _ _
    simp only [hop, Bool.and_eq_true, List.all_eq_true, decide_eq_true_eq] at hmap
    exact hmap.2 x hx
  · rintro a rfl _ r hr hown x hreach
    simp only [List.all_eq_true, Bool.or_eq_true, decide_eq_true_eq] at hdest
    have hself := (hdest r hr).resolve_left (by rw [hown]; simp)
    -- the ring of an unmapped page is the page
    have hx : x = r := by
      induction hreach with
      | refl => rfl
      | tail _ hstep ih =>
        unfold Kernel.ringStep at hstep
        rw [ih, hself] at hstep
        injection hstep with hstep
        exact hstep.symm
    exact hx ▸ hr

theorem MpuStep.ringInv {a : AsRef} {T : Set FpRef} (hwf : Wf s) (h : RingInv s)
    (hm : MpuStep s s' a T) : RingInv s' := by
  refine h.congr hm.live ?_ ?_ hm.kipFpage hm.kipExtraFpage ?_
  · intro x
    show (s'.fp x).mapNext = _
    rw [hm.fp]
    rfl
  · intro x _
    rw [hm.fp]
    exact ⟨rfl, rfl⟩
  · intro b hb x hx
    rw [(hm.lists hwf).pages_eq hb] at hx
    rw [hm.liveAs] at hb
    exact ⟨hb, hx⟩

theorem AsCreated.ringInv {a : AsRef} (hwf : Wf s) (h : RingInv s) (hc : AsCreated s s' a id) :
    RingInv s' := by
  refine h.congr hc.liveFp ?_ ?_ hc.kipFpage hc.kipExtraFpage ?_
  · intro x
    unfold Kernel.mapNext
    rw [hc.fp]
  · intro x _
    rw [hc.fp]
    exact ⟨rfl, rfl⟩
  · intro b hb x hx
    rw [(hc.lists hwf).pages_eq hb] at hx
    by_cases hba : b = a
    · rw [hba, Function.update_self] at hx
      simp at hx
    · rw [Function.update_of_ne hba] at hx
      rw [hc.liveAs] at hb
      exact ⟨by simpa [hba] using hb, hx⟩

/-! ## The pages that are cloned -/

theorem Cloned.keeps {d : AsRef} {r f : FpRef} {action : MapAction} (hwf : Wf s)
    (hd : s.liveAs d = true) (hcl : s.liveAs c = true) (hcd : c ≠ d) (hr : r ∉ s.pages c)
    (h : Cloned s s' d r f action (s.pages d)) :
    s'.pages c = s.pages c ∧ (s'.as c).mpuFirst = (s.as c).mpuFirst ∧
      (∀ x, s.liveFp x = true → s'.liveFp x = true ∧ s'.mpuNext x = s.mpuNext x) ∧
      ∀ x ∈ s.pages c, s'.fp x = { s.fp x with asNext := s'.asNext x } := by
  refine ⟨h.pages_ne hwf hd hcl hcd, by rw [h.as], ?_, ?_⟩
  · intro x hx
    have hxf : x ≠ f := by
      rintro rfl
      exact ne_true_of_eq_false h.fresh hx
    refine ⟨by rw [h.live, hx, Bool.true_or], ?_⟩
    unfold Kernel.mpuNext
    by_cases hxr : x = r
    · subst hxr
      rw [h.source hxf]
    · rw [h.frame x hxf hxr]
  · intro x hx
    have hxf : x ≠ f := fun hxf => hwf.not_mem h.fresh hcl (hxf ▸ hx)
    exact h.frame x hxf fun hxr => hr (hxr ▸ hx)

/-- Preparing a space for a thread leaves the pages of the caller alone. -/
theorem SpaceReady.keeps {s1 : Kernel} {space : Option AsRef} {as : AsRef} (hwf : Wf s)
    (h : RingInv s) (hc : s.liveAs c = true) (hs : SpaceReady s s1 space id as) :
    s1.pages c = s.pages c ∧ (s1.as c).mpuFirst = (s.as c).mpuFirst ∧
      (∀ x, s.liveFp x = true → s1.liveFp x = true ∧ s1.mpuNext x = s.mpuNext x) ∧
      ∀ x ∈ s.pages c, s1.fp x = { s.fp x with asNext := s1.asNext x } := by
  rcases hs with ⟨_, s0, t, hcr, h1, h2⟩ | ⟨_, rfl⟩
  · have hca : c ≠ as := by
      rintro rfl
      exact ne_true_of_eq_false hcr.fresh hc
    have hlive0 : s0.liveAs as = true := by rw [hcr.liveAs]; simp
    have hc0 : s0.liveAs c = true := by rw [hcr.liveAs, hc, Bool.true_or]
    have hL0 := hcr.lists hwf
    have hp0 : s0.pages c = s.pages c := by rw [hL0.pages_eq hc0, Function.update_of_ne hca]
    have hnot : ∀ r, s.kipFpage = some r ∨ s.kipExtraFpage = some r → r ∉ s0.pages c := by
      intro r hr
      rw [hp0]
      exact (h.kip r hr).2 c hc
    obtain ⟨r, f, hr, hcl1⟩ := mapFpage_spec (hL0.wf.chain as hlive0) (hL0.wf.live as hlive0) h1
    rw [hcr.kipFpage] at hr
    obtain ⟨k1, k2, k3, k4⟩ := hcl1.keeps hL0.wf hlive0 hc0 hca (hnot r (.inl hr))
    have hwft := (hcl1.lists hL0.wf hlive0).wf
    have hlivet : t.liveAs as = true := hcl1.out.live hlive0
    obtain ⟨q, g, hq, hcl2⟩ := mapFpage_spec (hwft.chain as hlivet) (hwft.live as hlivet) h2
    rw [hcl1.out.kipExtraFpage, hcr.kipExtraFpage] at hq
    obtain ⟨m1, m2, m3, m4⟩ := hcl2.keeps hwft hlivet (hcl1.out.live hc0) hca
      (by rw [k1]; exact hnot q (.inr hq))
    refine ⟨by rw [m1, k1, hp0], by rw [m2, k2, hcr.frame c hca], ?_, ?_⟩
    · intro x hx
      rw [← hcr.liveFp] at hx
      obtain ⟨hx1, hn1⟩ := k3 x hx
      obtain ⟨hx2, hn2⟩ := m3 x hx1
      refine ⟨hx2, ?_⟩
      rw [hn2, hn1]
      unfold Kernel.mpuNext
      rw [hcr.fp]
    · intro x hx
      rw [m4 x (by rw [k1, hp0]; exact hx), k4 x (by rw [hp0]; exact hx), hcr.fp]
  · refine ⟨?_, (setShared_as s as c (· + 1)).2, fun x hx => ⟨hx, rfl⟩, fun _ _ => rfl⟩
    exact (Lists.setShared hwf as (· + 1)).pages_eq hc

/-- Under the side condition, only allocated pages are cloned. -/
theorem RingSafe.clonesOk (hwf : Wf s) (h : RingInv s) (hv : op.valid s) (hsafe : RingSafe mm s op)
    : ClonesOk mm (fun s r => s.liveFp r = true) s op where
  fpage := by
    rintro dst r action rfl
    exact hv.2
  kip := by
    intro as id s0 r _ hc hr
    rw [hc.liveFp]
    exact (h.kip r (.inl hr)).1
  kipExtra := by
    intro as id s0 t r f q _ hc _ hcl hq
    rw [hcl.live, hc.liveFp, (h.kip q (.inr hq)).1, Bool.true_or]
  area := by
    rintro src dst base size action priv ret s' rfl hmap
    by_cases hsd : src = dst
    · subst hsd
      exact mapArea_self_prims hwf hv.1 hmap
    · have hfrom : (MemOp.mapArea src dst base size action priv).mapsFrom =
          some (src, base, size) := if_neg hsd
      exact mapArea_prims_live hsafe.quiet hwf rfl hv.1 hv.2 (fun _ hx => hx)
        (hsafe.mpu _ _ _ hfrom) (hsafe.span _ _ _ hfrom) hmap
  utcb := by
    rintro c space id utcb as s1 ret s' rfl hready hq1 hwf1 hc1 has hmap
    have hc : s.liveAs c.1 = true := hv.1 c rfl
    obtain ⟨k1, k2, k3, k4⟩ := hready.keeps hwf h hc
    have hin := hsafe.mpu _ _ _ rfl
    refine mapArea_prims_live (T := s.liveSet) hq1 hwf1 ⟨c, rfl, rfl⟩ hc1 has
      (fun x hx => (k3 x hx).1) ⟨?_, ?_⟩ ?_ hmap
    · rw [k2]
      exact hin.head
    · intro x hx
      rw [(k3 x hx).2]
      exact hin.next x hx
    · intro x hx hxT
      rw [k1] at hx
      rw [k4 x hx]
      exact hsafe.span _ _ _ rfl x hx hxT

/-! ## The invariant -/

theorem Effect.ringInv (hwf : Wf s) (h : RingInv s) (hsafe : RingSafe mm s op)
    (he : Effect mm (fun s r => s.liveFp r = true) op s s') : RingInv s' := by
  cases he with
  | prims hp => exact hp.ringInv h
  | created _ hc hp => exact hp.ringInv (hc.ringInv hwf h)
  | shared a hp => exact hp.ringInv (h.setShared hwf a (· + 1))
  | destroyed hop ha hd =>
    exact asDestroy_ringInv hsafe.quiet hwf h ha (hsafe.owners _ hop) hd
  | mpu ha hm => exact (hm Set.univ (by simp) ⟨by simp, by simp⟩).ringInv hwf h

theorem Booted.ringInv {junk : Nat → Bool} (h : Booted mm junk s) : RingInv s := by
  have hself : ∀ x ∈ s.liveSet, s.mapNext x = some x := by
    intro x hx
    obtain ⟨m, n, b, sz, bk, _, hpage⟩ := h.page x hx
    unfold Kernel.mapNext
    rw [hpage]
    rfl
  refine ⟨⟨⟨?_, ?_⟩, ?_⟩, ?_⟩
  · intro x hx
    exact ⟨x, hx, hself x hx⟩
  · intro x hx y hy hxy
    rw [hself x hx, hself y hy] at hxy
    injection hxy
  · intro x hx y hxy
    rw [hself x hx] at hxy
    injection hxy with hxy
    subst hxy
    exact ⟨rfl, rfl⟩
  · intro r hr
    refine ⟨hr.elim (h.kip r) (h.kipExtra r), fun a ha => ?_⟩
    rw [h.liveAs] at ha
    simp at ha

theorem reachable_ringInv {b : Board} (h : (system mm b).Reachable (RingSafe mm) s) :
    Wf s ∧ RingInv s := by
  refine h.invariant (I := fun s => Wf s ∧ RingInv s) ?_ ?_
  · rintro s ⟨junk, hboot⟩
    have hb := threadInitSubsys_booted hboot
    exact ⟨hb.wf, hb.ringInv⟩
  · rintro s op s' ⟨hwf, hring⟩ hsafe ⟨hv, hrun⟩
    have he := MemOp.run_effect hsafe.quiet hwf hv (hsafe.clonesOk hwf hring hv) hrun
    exact ⟨(he.wf hsafe.quiet hwf).2, he.ringInv hwf hring hsafe⟩

/-- The mapping rings: in every run whose calls meet the side condition, the
`map_next` links lead from each allocated page back to it, along allocated
pages for the same block, and the search of `unmap_fpage` ends. -/
theorem mapping_rings {b : Board} (h : (system mm b).Reachable (RingSafe mm) s) {r : FpRef}
    (hr : s.liveFp r = true) :
    (∃ l : List FpRef, l ≠ [] ∧ l.Nodup ∧ Seg s.mapNext (some r) l (some r) ∧
      ∀ x ∈ l, s.liveFp x = true ∧ (s.fp x).base = (s.fp r).base ∧
        (s.fp x).size = (s.fp r).size) ∧
    ∃ p, unmapSearch s r s.walkBound r = .ok p := by
  obtain ⟨_, hring⟩ := reachable_ringInv h
  refine ⟨?_, hring.rings.unmapSearch_ok hr⟩
  obtain ⟨l, hne, hnd, hseg, hmem⟩ := hring.rings.cycle s.liveSet_finite hr
  refine ⟨l, hne, hnd, hseg, fun x hx => ?_⟩
  obtain ⟨h1, h2, h3⟩ := hmem x hx
  refine ⟨h1, h2, ?_⟩
  unfold Fpage.size
  rw [h3]

/-- A page is mapped to a second space, which runs and is destroyed, and then to
the space that takes its place. -/
theorem mapping_rings_remapped :
    ∃ s, (system (memmap stm32f4Board) stm32f4Board).Reachable
        (RingSafe (memmap stm32f4Board)) s ∧ s.liveFp 2 = true ∧ s.mapNext 2 = some 3 ∧
      (∃ l : List FpRef, l ≠ [] ∧ l.Nodup ∧ Seg s.mapNext (some 2) l (some 2) ∧
        ∀ x ∈ l, s.liveFp x = true ∧ (s.fp x).base = (s.fp 2).base ∧
          (s.fp x).size = (s.fp 2).size) ∧
      ∃ p, unmapSearch s 2 s.walkBound 2 = .ok p := by
  obtain ⟨s, hrun, hp⟩ := Option.map_eq_some_iff.mp
    (show (bootRun (memmap stm32f4Board) stm32f4Board
        (fun s op => op.ringCheck (memmap stm32f4Board) s)
        [.asCreate 1#32, .asCreate 2#32, .assignFpages 0 0x20008000#32 0x200#32,
          .mapArea 0 1 0x20008000#32 0x200#32 .map false, .asSetupMpu 1 0#32 0#32 0#32 0#32,
          .asDestroy 1, .asCreate 3#32, .mapArea 0 1 0x20008000#32 0x200#32 .grant false]).map
        (fun s => (s.liveFp 2, s.mapNext 2)) = some (true, some 3) by decide +kernel)
  have hreach := (bootRun_reachable (fun _ _ => RingSafe.of_check) hrun).1
  injection hp with hlive hnext
  exact ⟨s, hreach, hlive, hnext, mapping_rings hreach hlive⟩

/-- A page that links to a freed page is on no ring of allocated pages. -/
theorem not_ring_of_freed {r x : FpRef} (hnext : s.mapNext r = some x)
    (hx : s.liveFp x = false) (hr : s.liveFp r = true) :
    ¬ ∃ l : List FpRef, l ≠ [] ∧ Seg s.mapNext (some r) l (some r) ∧
      ∀ y ∈ l, s.liveFp y = true := by
  rintro ⟨l, hne, hseg, hlive⟩
  obtain ⟨y, l', rfl⟩ := List.exists_cons_of_ne_nil hne
  obtain ⟨hy, hseg⟩ := seg_cons.mp hseg
  injection hy with hy
  subst hy
  rw [hnext] at hseg
  have hxl : s.liveFp x = true := by
    cases l' with
    | nil =>
      have hxr := seg_nil.mp hseg
      injection hxr with hxr
      rw [hxr]
      exact hr
    | cons z l' =>
      obtain ⟨hz, _⟩ := seg_cons.mp hseg
      injection hz with hz
      rw [hz]
      exact hlive z (by simp)
  rw [hx] at hxl
  simp at hxl

/-- Without the side condition it fails: a space is destroyed while a page it
owns is mapped to a second one. The clone then links to the freed page. -/
theorem mapping_rings_owner_destroyed :
    ∃ s, (system (memmap stm32f4Board) stm32f4Board).Reachable (fun _ _ => True) s ∧
      s.liveFp 3 = true ∧
      ¬ ∃ l : List FpRef, l ≠ [] ∧ Seg s.mapNext (some 3) l (some 3) ∧
        ∀ y ∈ l, s.liveFp y = true := by
  obtain ⟨s, hrun, hp⟩ := Option.map_eq_some_iff.mp
    (show (bootRun (memmap stm32f4Board) stm32f4Board (fun _ _ => true)
        [.asCreate 1#32, .asCreate 2#32, .assignFpages 0 0x20008000#32 0x200#32,
          .mapArea 0 1 0x20008000#32 0x200#32 .map false, .asDestroy 0]).map
        (fun s => (s.liveFp 3, s.mapNext 3, s.liveFp 2)) = some (true, some 2, false) by
      decide +kernel)
  simp only [Prod.mk.injEq] at hp
  exact ⟨s, (bootRun_reachable (fun _ _ _ _ => trivial) hrun).1, hp.1,
    not_ring_of_freed hp.2.1 hp.2.2 hp.1⟩

end F9
