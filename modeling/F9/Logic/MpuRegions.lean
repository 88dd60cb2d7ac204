import F9.Logic.MpuOrder

/-!
# What the MPU routines program

* `Kernel.regionOf` — the page each region was set up from last;
* `setupStackRegions_chain`, `setupFifoRegions_seg` — the links that are written;
* `asSetupMpu_ok` — a thread switch: `MpuReady` when the lists are there, `Switched` at the end;
* `mpuSelectLru_ok` — a memory fault that is handled: `Selected`.
-/

namespace F9

open Linked Result

variable {mm : Memmap} {s s' t : Kernel} {a : AsRef} {j n : Nat} {ps qs : List (Option FpRef)}
  {l stack : List FpRef} {β : Type} {sp pc stackBase stackSize addr : Word}

/-! ## Regions -/

/-- The page that region `i` was set up from last. -/
def Kernel.regionOf (s : Kernel) (i : Nat) : Option FpRef :=
  (s.mpuLog.find? fun e => e.1 == i).bind Prod.snd

/-- The registers of a region for a page, or of a clean region. -/
def mpuRegionFor (mm : Memmap) (s : Kernel) : Option FpRef → MpuRegion
  | some r => ⟨(s.fp r).base &&& MPU_REGION_MASK, mpuAttr mm (s.fp r)⟩
  | none => ⟨0#32, 0#32⟩

theorem regionOf_setup (n : Nat) (p : Option FpRef) :
    (mpuSetupRegion mm s n p).regionOf = Function.update s.regionOf n p := by
  funext i
  unfold Kernel.regionOf mpuSetupRegion
  by_cases hi : i = n
  · subst hi
    rw [List.find?_cons_of_pos (by simp), Function.update_self]
    rfl
  · rw [List.find?_cons_of_neg (by simpa using fun h : n = i => hi h.symm),
      Function.update_of_ne hi]

theorem mpu_setup (hn : n < 16) (p : Option FpRef) :
    (mpuSetupRegion mm s n p).mpu = Function.update s.mpu n (mpuRegionFor mm s p) := by
  funext i
  unfold mpuSetupRegion
  dsimp only
  rw [Nat.mod_eq_of_lt hn]
  by_cases hi : i = n
  · rw [if_pos hi, hi, Function.update_self]
    cases p <;> rfl
  · rw [if_neg hi, Function.update_of_ne hi]

/-- Writing a list of values from index `j` on. -/
def programAll {β : Type} : (Nat → β) → Nat → List β → Nat → β
  | f, _, [] => f
  | f, j, p :: ps => programAll (Function.update f j p) (j + 1) ps

theorem programAll_append (ps qs : List β) (f : Nat → β) (j : Nat) :
    programAll f j (ps ++ qs) = programAll (programAll f j ps) (j + ps.length) qs := by
  induction ps generalizing qs f j with
  | nil => rfl
  | cons p ps ih =>
    rw [List.cons_append, programAll, programAll, ih, List.length_cons,
      show j + 1 + ps.length = j + (ps.length + 1) by omega]

theorem programAll_apply (ps : List β) (f : Nat → β) (j i : Nat) :
    programAll f j ps i = if j ≤ i then ps.getD (i - j) (f i) else f i := by
  induction ps generalizing f j i with
  | nil => simp [programAll]
  | cons p ps ih =>
    rw [programAll, ih]
    by_cases hij : i = j
    · subst hij
      rw [if_neg (by omega), if_pos (Nat.le_refl _), Function.update_self, Nat.sub_self]
      rfl
    · rw [Function.update_of_ne hij]
      by_cases hle : j ≤ i
      · rw [if_pos (by omega), if_pos hle, show i - j = (i - (j + 1)) + 1 by omega,
          List.getD_cons_succ]
      · rw [if_neg (by omega), if_neg hle]

/-- The regions from `j` on are set up from `ps`; apart from that only MPU links have changed. -/
structure Programmed (mm : Memmap) (s t : Kernel) (j : Nat) (ps : List (Option FpRef)) : Prop where
  regions : t.regionOf = programAll s.regionOf j ps
  registers : t.mpu = programAll s.mpu j (ps.map (mpuRegionFor mm s))
  page : ∀ x, t.fp x = { s.fp x with mpuNext := t.mpuNext x }
  asTable : t.asTable = s.asTable
  num : t.fpageTable.num = s.fpageTable.num
  log : ∃ new, t.mpuLog = new ++ s.mpuLog ∧ ∀ e ∈ new, e.1 < j + ps.length

theorem Programmed.refl (mm : Memmap) (s : Kernel) (j : Nat) : Programmed mm s s j [] :=
  ⟨rfl, rfl, fun _ => rfl, rfl, rfl, [], rfl, by simp⟩

theorem Programmed.trans {u : Kernel} (h1 : Programmed mm s t j ps)
    (h2 : Programmed mm t u (j + ps.length) qs) : Programmed mm s u j (ps ++ qs) := by
  obtain ⟨new1, hlog1, hin1⟩ := h1.log
  obtain ⟨new2, hlog2, hin2⟩ := h2.log
  have hfor : ∀ p, mpuRegionFor mm t p = mpuRegionFor mm s p := by
    intro p
    cases p with
    | none => rfl
    | some r =>
      unfold mpuRegionFor
      dsimp only
      rw [h1.page]
      rfl
  refine ⟨?_, ?_, fun x => ?_, h2.asTable.trans h1.asTable, h2.num.trans h1.num, new2 ++ new1, ?_,
    ?_⟩
  · rw [h2.regions, h1.regions, programAll_append]
  · rw [h2.registers, h1.registers, List.map_append, programAll_append, List.length_map,
      List.map_congr_left fun p _ => hfor p]
  · rw [h2.page, h1.page]
  · rw [hlog2, hlog1, List.append_assoc]
  · intro e he
    rw [List.length_append]
    rcases List.mem_append.mp he with he | he
    · have := hin2 e he
      omega
    · have := hin1 e he
      omega

theorem Programmed.region (hj : j < 16) (p : Option FpRef) :
    Programmed mm s (mpuSetupRegion mm s j p) j [p] :=
  ⟨regionOf_setup j p, mpu_setup hj p, fun _ => rfl, rfl, rfl, [(j, p)], rfl, by simp⟩

theorem Programmed.setNext (h : Programmed mm s t j ps) (r : FpRef) (p : Option FpRef) :
    Programmed mm s (t.setFp r fun f => { f with mpuNext := p }) j ps := by
  have hrel := MpuRelinked.setNext t r p
  refine ⟨h.regions, h.registers, fun x => ?_, h.asTable, h.num, h.log⟩
  rw [hrel.page, h.page]

theorem Programmed.as (h : Programmed mm s t j ps) (b : AsRef) : t.as b = s.as b := by
  unfold Kernel.as
  rw [h.asTable]

theorem setupStackRegions_programmed (mm : Memmap) (l : List FpRef) (s : Kernel) (j : Nat)
    (hj : j + l.length ≤ 16) : Programmed mm s (setupStackRegions mm s j l) j (l.map some) := by
  induction l generalizing s j with
  | nil => exact .refl mm s j
  | cons r rest ih =>
    rw [List.length_cons] at hj
    have h1 : Programmed mm s (mpuSetupRegion mm s j (some r)) j [some r] :=
      .region (by omega) (some r)
    exact (h1.setNext r rest.head?).trans (ih _ (j + 1) (by omega))

theorem setupFifoRegions_programmed (mm : Memmap) (l : List FpRef) (s : Kernel) (j : Nat)
    (hj : j + l.length ≤ 16) : Programmed mm s (setupFifoRegions mm s j l) j (l.map some) := by
  induction l generalizing s j with
  | nil => exact .refl mm s j
  | cons r rest ih =>
    rw [List.length_cons] at hj
    have h1 : Programmed mm s (mpuSetupRegion mm s j (some r)) j [some r] :=
      .region (by omega) (some r)
    cases rest with
    | nil => exact h1.trans (ih _ (j + 1) (by omega))
    | cons nx rest => exact (h1.setNext r (some nx)).trans (ih _ (j + 1) (by omega))

theorem cleanRegions_programmed (mm : Memmap) (n : Nat) (s : Kernel) (j : Nat) (hj : j + n ≤ 16) :
    Programmed mm s (cleanRegions mm s j n) j (List.replicate n none) := by
  induction n generalizing s j with
  | zero => exact .refl mm s j
  | succ n ih =>
    exact (Programmed.region (show j < 16 by omega) none).trans (ih _ (j + 1) (by omega))

/-! ## Links -/

/-- The stack pages become a list of their own. -/
theorem setupStackRegions_chain (mm : Memmap) (l : List FpRef) (s : Kernel) (j : Nat)
    (hnd : l.Nodup) :
    Chain (setupStackRegions mm s j l).mpuNext l.head? l ∧
      ∀ x, x ∉ l → (setupStackRegions mm s j l).mpuNext x = s.mpuNext x := by
  induction l generalizing s j with
  | nil => exact ⟨.nil, fun _ _ => rfl⟩
  | cons r rest ih =>
    obtain ⟨hr, hnd'⟩ := List.nodup_cons.mp hnd
    unfold setupStackRegions
    have hset := fun x => mpuNext_setFp (mpuSetupRegion mm s j (some r)) r x rest.head?
    obtain ⟨h1, h2⟩ := ih ((mpuSetupRegion mm s j (some r)).setFp r
      fun f => { f with mpuNext := rest.head? }) (j + 1) hnd'
    refine ⟨?_, fun x hx => ?_⟩
    · rw [List.head?_cons, chain_cons]
      refine ⟨rfl, ?_⟩
      rw [h2 r hr, hset, if_pos rfl]
      exact h1
    · rw [List.mem_cons, not_or] at hx
      rw [h2 x hx.2, hset, if_neg hx.1]
      rfl

theorem setupFifoRegions_frame (mm : Memmap) (l : List FpRef) (s : Kernel) (j : Nat) (x : FpRef)
    (hx : x ∉ l) : (setupFifoRegions mm s j l).mpuNext x = s.mpuNext x := by
  induction l generalizing s j x with
  | nil => rfl
  | cons r rest ih =>
    rw [List.mem_cons, not_or] at hx
    unfold setupFifoRegions
    cases rest with
    | nil => exact ih _ _ x hx.2
    | cons nx rest =>
      refine (ih _ _ x hx.2).trans ?_
      rw [mpuNext_setFp, if_neg hx.1]
      rfl

/-- The pages of the fifo are linked in order, the last one keeps its link. -/
theorem setupFifoRegions_seg (mm : Memmap) (l : List FpRef) (s : Kernel) (j : Nat) (hnd : l.Nodup) :
    Seg (setupFifoRegions mm s j l).mpuNext l.head? l (l.getLast?.bind s.mpuNext) := by
  induction l generalizing s j with
  | nil => exact .nil
  | cons r rest ih =>
    obtain ⟨hr, hnd'⟩ := List.nodup_cons.mp hnd
    have hframe := setupFifoRegions_frame mm rest
    unfold setupFifoRegions
    rw [List.head?_cons, seg_cons]
    refine ⟨rfl, ?_⟩
    cases rest with
    | nil =>
      rw [seg_nil]
      rfl
    | cons nx rest =>
      have hset := fun x => mpuNext_setFp (mpuSetupRegion mm s j (some r)) r x (some nx)
      have hseg := ih ((mpuSetupRegion mm s j (some r)).setFp r
        fun f => { f with mpuNext := some nx }) (j + 1) hnd'
      have hlast : ((nx :: rest).getLast?.bind ((mpuSetupRegion mm s j (some r)).setFp r
          fun f => { f with mpuNext := some nx }).mpuNext) =
          (r :: nx :: rest).getLast?.bind s.mpuNext := by
        rw [List.getLast?_cons_cons]
        cases hz : (nx :: rest).getLast? with
        | none => rfl
        | some z =>
          have hzr : z ≠ r := fun hzr => hr (hzr ▸ List.mem_of_getLast? hz)
          rw [Option.bind_some, Option.bind_some, hset, if_neg hzr]
          rfl
      rw [hframe _ _ r hr, hset, if_pos rfl, ← hlast]
      exact hseg

theorem cleanRegions_mpuNext (mm : Memmap) (n : Nat) (s : Kernel) (j : Nat) (x : FpRef) :
    (cleanRegions mm s j n).mpuNext x = s.mpuNext x := by
  induction n generalizing s j x with
  | zero => rfl
  | succ n ih =>
    exact ih _ _ x

/-! ## A thread switch -/

/-- What the last part of `as_setup_mpu` leaves: the regions hold the stack pages and the pages of
the fifo, the rest are clean, and both are linked. -/
structure Switched (mm : Memmap) (s t : Kernel) (a : AsRef) (stack fifo : List FpRef) : Prop where
  regions : ∀ i < 8, t.regionOf i = (stack ++ fifo)[i]?
  registers : ∀ i < 8, t.mpu i = mpuRegionFor mm s (stack ++ fifo)[i]?
  log : ∃ new, t.mpuLog = new ++ s.mpuLog ∧ ∀ e ∈ new, e.1 < 8
  page : ∀ x, t.fp x = { s.fp x with mpuNext := t.mpuNext x }
  space : t.as a = { s.as a with mpuFirst := fifo.head? }
  num : t.fpageTable.num = s.fpageTable.num
  stackChain : Chain t.mpuNext stack.head? stack
  fifoSeg : fifo.Nodup → Seg t.mpuNext fifo.head? fifo (fifo.getLast?.bind s.mpuNext)
  frame : ∀ x, x ∉ stack → x ∉ fifo → t.mpuNext x = s.mpuNext x

/-- The last part of `as_setup_mpu`. -/
def setupRegions (mm : Memmap) (s : Kernel) (a : AsRef) (stack fifo : List FpRef) : Kernel :=
  let s := s.setAs a fun b => { b with mpuFirst := fifo.head? }
  let s := setupStackRegions mm s 0 stack
  let s := setupFifoRegions mm s stack.length fifo
  cleanRegions mm s (stack.length + fifo.length) (8 - (stack.length + fifo.length))

theorem setupRegions_switched (mm : Memmap) (s : Kernel) (a : AsRef) {fifo : List FpRef}
    (hnd : stack.Nodup) (hdis : ∀ x ∈ fifo, x ∉ stack) (hlen : stack.length + fifo.length ≤ 8) :
    Switched mm s (setupRegions mm s a stack fifo) a stack fifo := by
  unfold setupRegions
  dsimp only
  generalize hs0 : (s.setAs a fun b => { b with mpuFirst := fifo.head? }) = s0
  have h1 := setupStackRegions_programmed mm stack s0 0 (by omega)
  obtain ⟨hch1, hfr1⟩ := setupStackRegions_chain mm stack s0 0 hnd
  generalize setupStackRegions mm s0 0 stack = s1 at h1 hch1 hfr1
  have h2 := setupFifoRegions_programmed mm fifo s1 stack.length (by omega)
  have hfr2 := setupFifoRegions_frame mm fifo s1 stack.length
  have hseg2 := setupFifoRegions_seg mm fifo s1 stack.length
  generalize setupFifoRegions mm s1 stack.length fifo = s2 at h2 hfr2 hseg2
  have h3 := cleanRegions_programmed mm (8 - (stack.length + fifo.length)) s2
    (stack.length + fifo.length) (by omega)
  have hfr3 := cleanRegions_mpuNext mm (8 - (stack.length + fifo.length)) s2
    (stack.length + fifo.length)
  generalize cleanRegions mm s2 (stack.length + fifo.length)
    (8 - (stack.length + fifo.length)) = t at h3 hfr3
  -- all eight regions are written
  have h12 : Programmed mm s0 s2 0 (stack.map some ++ fifo.map some) :=
    h1.trans (by rw [List.length_map, Nat.zero_add]; exact h2)
  have hall : Programmed mm s0 t 0 (stack.map some ++ fifo.map some ++
      List.replicate (8 - (stack.length + fifo.length)) none) :=
    h12.trans (by
      rw [List.length_append, List.length_map, List.length_map, Nat.zero_add]
      exact h3)
  have hget : ∀ (i : Nat), i < 8 → (stack.map some ++ fifo.map some ++
      List.replicate (8 - (stack.length + fifo.length)) none)[i]? = some (stack ++ fifo)[i]? := by
    intro i hi
    rw [← List.map_append]
    by_cases hlt : i < (stack ++ fifo).length
    · rw [List.getElem?_append_left (by simpa using hlt), List.getElem?_map,
        List.getElem?_eq_getElem hlt]
      rfl
    · have hge : (stack ++ fifo).length ≤ i := Nat.le_of_not_lt hlt
      rw [List.getElem?_append_right (by simpa using hge), List.getElem?_eq_none hge,
        List.getElem?_replicate, if_pos]
      rw [List.length_append] at hge
      rw [List.length_map, List.length_append]
      omega
  have hnext0 : ∀ x, s0.mpuNext x = s.mpuNext x := fun x => by rw [← hs0]; rfl
  refine ⟨fun i hi => ?_, fun i hi => ?_, ?_, fun x => ?_, ?_, ?_, ?_, fun hfnd => ?_,
    fun x hx1 hx2 => ?_⟩
  · rw [hall.regions, programAll_apply, if_pos (Nat.zero_le _), List.getD_eq_getElem?_getD,
      Nat.sub_zero, hget i hi]
    rfl
  · rw [hall.registers, programAll_apply, if_pos (Nat.zero_le _), List.getD_eq_getElem?_getD,
      Nat.sub_zero, List.getElem?_map, hget i hi, ← hs0]
    rfl
  · obtain ⟨new, hlog, hin⟩ := hall.log
    refine ⟨new, by rw [hlog, ← hs0]; rfl, fun e he => ?_⟩
    have := hin e he
    rw [List.length_append, List.length_append, List.length_map, List.length_map,
      List.length_replicate] at this
    omega
  · rw [hall.page, ← hs0]
    rfl
  · rw [hall.as, ← hs0, Kernel.setAs_as_self]
  · rw [hall.num, ← hs0]
    rfl
  · refine hch1.congr fun x hx => ?_
    rw [hfr3, hfr2 x fun hxf => hdis x hxf hx]
  · have hlast : fifo.getLast?.bind s1.mpuNext = fifo.getLast?.bind s.mpuNext := by
      cases hz : fifo.getLast? with
      | none => rfl
      | some z =>
        rw [Option.bind_some, Option.bind_some, hfr1 z (hdis z (List.mem_of_getLast? hz)), hnext0]
    rw [← hlast]
    exact (hseg2 hfnd).congr fun x _ => hfr3 x
  · rw [hfr3, hfr2 x hx2, hfr1 x hx1, hnext0]

/-- The state in which `as_setup_mpu` collects the pages: the head of the stack pages is written,
and there is an MPU list, the old one or a new one. -/
structure MpuReady (s u : Kernel) (a : AsRef) (pc : Word) (stack l : List FpRef) : Prop where
  page : ∀ x, u.fp x = { s.fp x with mpuNext := u.mpuNext x }
  num : u.fpageTable.num = s.fpageTable.num
  mpuLog : u.mpuLog = s.mpuLog
  mpu : u.mpu = s.mpu
  space : u.as a = { s.as a with mpuFirst := (u.as a).mpuFirst, mpuStackFirst := stack.head? }
  list : ((s.as a).mpuFirst ≠ none ∧ (u.as a).mpuFirst = (s.as a).mpuFirst ∧
      ∀ x, u.mpuNext x = s.mpuNext x) ∨
    ((s.as a).mpuFirst = none ∧ (u.as a).mpuFirst = (mpuOrder s pc l).head? ∧
      Seg u.mpuNext (mpuOrder s pc l).head? (mpuOrder s pc l)
        ((mpuClass s pc 2 l).getLast?.bind s.mpuNext) ∧
      ∀ x, x ∉ l → u.mpuNext x = s.mpuNext x)

/-- The stack pages of a thread in a space with the pages `l`. -/
def stackPages (s : Kernel) (stackBase stackSize : Word) (l : List FpRef) : List FpRef :=
  (stackRun s (stackBase + stackSize) stackBase l).take 8

theorem stackPages_sublist (s : Kernel) (stackBase stackSize : Word) (l : List FpRef) :
    (stackPages s stackBase stackSize l).Sublist l :=
  (List.take_sublist 8 _).trans (stackRun_sublist _ l _)

/-- The part of `as_setup_mpu` behind the lists: the fifo is collected and the regions are set
up. -/
def collectRegions (mm : Memmap) (s : Kernel) (a : AsRef) (stack : List FpRef) :
    Except Fault Kernel := do
  let fifo ← fifoFpages s stack (9 * s.walkBound) (s.as a).mpuFirst []
  if 8 ≤ stack.length then throw .outOfBounds
  return setupRegions mm s a stack fifo

/-- `as_setup_mpu` up to there. -/
theorem asSetupMpu_run (mm : Memmap) (sp pc stackBase stackSize : Word)
    (hl : Chain s.asNext (s.as a).first l) (hlen : l.length < s.walkBound) :
    ∃ u, MpuReady s u a pc (stackPages s stackBase stackSize l) l ∧
      asSetupMpu mm s a sp pc stackBase stackSize =
        collectRegions mm u a (stackPages s stackBase stackSize l) := by
  have hstack : stackFpages s (stackBase + stackSize) s.walkBound (s.as a).first stackBase [] =
      .ok (stackPages s stackBase stackSize l) :=
    stackFpages_eq l _ _ _ [] hl hlen (by simp)
  generalize stackPages s stackBase stackSize l = stack at hstack ⊢
  unfold asSetupMpu
  rw [hstack]
  have hspace : (s.setAs a fun b => { b with mpuStackFirst := stack.head? }).as a =
      { s.as a with mpuStackFirst := stack.head? } := Kernel.setAs_as_self s a _
  have hpage : ∀ x, (s.setAs a fun b => { b with mpuStackFirst := stack.head? }).fp x = s.fp x :=
    fun _ => rfl
  have hnum : (s.setAs a fun b => { b with mpuStackFirst := stack.head? }).fpageTable.num =
    s.fpageTable.num := rfl
  have hlog : (s.setAs a fun b => { b with mpuStackFirst := stack.head? }).mpuLog = s.mpuLog := rfl
  have hmpu : (s.setAs a fun b => { b with mpuStackFirst := stack.head? }).mpu = s.mpu := rfl
  dsimp only [Bind.bind, Except.bind]
  generalize (s.setAs a fun b => { b with mpuStackFirst := stack.head? }) = s1 at *
  cases hfirst : (s.as a).mpuFirst with
  | some y =>
    have hsome : (s1.as a).mpuFirst = some y := by
      rw [hspace]
      exact hfirst
    refine ⟨s1, ⟨fun x => ?_, hnum, hlog, hmpu, ?_, .inl ⟨by simp [hfirst], ?_, fun x => ?_⟩⟩, ?_⟩
    · unfold Kernel.mpuNext
      rw [hpage]
    · rw [hspace]
    · rw [hspace]
    · unfold Kernel.mpuNext
      rw [hpage]
    · conv_lhs => rw [hsome]
      rfl
  | none =>
    have hnone : (s1.as a).mpuFirst = none := by
      rw [hspace]
      exact hfirst
    have hnext : s1.mpuNext = s.mpuNext := by
      funext x
      unfold Kernel.mpuNext
      rw [hpage]
    have hclass : ∀ i, mpuClass s1 pc i l = mpuClass s pc i l := by
      intro i
      unfold mpuClass
      simp only [hpage]
    have horder : mpuOrder s1 pc l = mpuOrder s pc l := by
      unfold mpuOrder
      rw [hclass, hclass, hclass]
    have hl1 : Chain s1.asNext (s1.as a).first l := by
      rw [hspace]
      refine hl.congr fun x _ => ?_
      unfold Kernel.asNext
      rw [hpage]
    have hlen1 : l.length < s1.walkBound := by
      unfold Kernel.walkBound
      rw [hnum]
      exact hlen
    obtain ⟨u, hbuild, hseg, hframe, hrel⟩ := @buildMpuList_eq s1 a l pc hl1 hlen1
    rw [horder] at hbuild hseg
    rw [hclass, hnext] at hseg
    refine ⟨u.setAs a fun b => { b with mpuFirst := (mpuOrder s pc l).head? },
      ⟨fun x => ?_, hrel.num.trans hnum, hrel.mpuLog.trans hlog, hrel.mpu.trans hmpu, ?_,
        .inr ⟨hfirst, ?_, hseg, fun x hx => ?_⟩⟩, ?_⟩
    · refine (hrel.page x).trans ?_
      rw [hpage]
      rfl
    · rw [Kernel.setAs_as_self, hrel.as, hspace]
    · rw [Kernel.setAs_as_self]
    · refine (hframe x hx).trans ?_
      rw [hnext]
    · conv_lhs => rw [hnone]
      rw [hbuild]
      rfl

/-- The fifo holds no stack page and fits into the regions behind the stack pages. -/
theorem fifoFpages_room (n : Nat) (p : Option FpRef) (mpu res : List FpRef)
    (hmpu : ∀ x ∈ mpu, x ∉ stack) (hlen : stack.length + mpu.length ≤ 8)
    (h : fifoFpages s stack n p mpu = .ok res) :
    (∀ x ∈ res, x ∉ stack) ∧ stack.length + res.length ≤ 8 := by
  induction n generalizing p mpu res with
  | zero => simp [fifoFpages] at h
  | succ n ih =>
    cases p with
    | none =>
      simp only [fifoFpages, Except.ok.injEq] at h
      subst h
      exact ⟨hmpu, hlen⟩
    | some fp =>
      unfold fifoFpages at h
      split at h
      · by_cases hfp : fp ∈ stack
        · rw [if_pos hfp] at h
          exact ih _ _ _ hmpu hlen h
        · rw [if_neg hfp] at h
          refine ih _ _ _ ?_ (by rw [List.length_append, List.length_singleton]; omega) h
          intro x hx
          rcases List.mem_append.mp hx with hx | hx
          · exact hmpu x hx
          · rw [List.mem_singleton.mp hx]
            exact hfp
      · injection h with h
        subst h
        exact ⟨hmpu, hlen⟩

theorem asSetupMpu_ok (hl : Chain s.asNext (s.as a).first l) (hlen : l.length < s.walkBound)
    (h : asSetupMpu mm s a sp pc stackBase stackSize = .ok s') :
    ∃ u fifo, MpuReady s u a pc (stackPages s stackBase stackSize l) l ∧
      (stackPages s stackBase stackSize l).length < 8 ∧
      fifoFpages u (stackPages s stackBase stackSize l) (9 * u.walkBound) (u.as a).mpuFirst [] =
        .ok fifo ∧
      Switched mm u s' a (stackPages s stackBase stackSize l) fifo := by
  obtain ⟨u, hu, hrun⟩ := asSetupMpu_run mm sp pc stackBase stackSize hl hlen
  rw [hrun] at h
  obtain ⟨fifo, hfifo, h⟩ := bind_ok.mp h
  by_cases h8 : 8 ≤ (stackPages s stackBase stackSize l).length
  · rw [if_pos h8] at h
    exact absurd h throw_ok
  · rw [if_neg h8] at h
    obtain ⟨hdis, hroom⟩ := fifoFpages_room _ _ _ _ (by simp)
      (show _ + ([] : List FpRef).length ≤ 8 by rw [List.length_nil]; omega) hfifo
    refine ⟨u, fifo, hu, by omega, hfifo, ?_⟩
    rw [← pure_ok.mp h]
    exact setupRegions_switched mm u a
      ((stackPages_sublist s stackBase stackSize l).nodup hl.nodup) hdis hroom

/-! ## A memory fault -/

/-- The page that the search of `mpu_select_lru` finds. -/
theorem lruSearch_find (l : List FpRef) (n : Nat) (p : Option FpRef) (hl : Chain s.asNext p l)
    (hn : l.length < n) :
    lruSearch s addr n p = .ok (l.find? fun x => addrInFpage addr (s.fp x) false) := by
  induction l, n, p, hl, hn using Chain.walk_rec with
  | nil n => rfl
  | cons fp l n _ _ ih =>
    unfold lruSearch
    by_cases hin : addrInFpage addr (s.fp fp) false = true
    · simp [hin]
    · rw [if_neg hin, show (s.fp fp).asNext = s.asNext fp from rfl, ih]
      simp [hin]

theorem stackCount_eq (st : List FpRef) (n : Nat) (p : Option FpRef) (i : Nat)
    (hst : Chain s.mpuNext p st) (hn : st.length < n) :
    stackCount s n p i = .ok (i + st.length) := by
  induction st, n, p, hst, hn using Chain.walk_rec generalizing i with
  | nil n => rfl
  | cons x st n _ _ ih =>
    unfold stackCount
    rw [show (s.fp x).mpuNext = s.mpuNext x from rfl, ih, List.length_cons]
    congr 1
    omega

theorem stackCount_congr (h : ∀ x, t.mpuNext x = s.mpuNext x) : ∀ (n : Nat) (p : Option FpRef)
    (i : Nat), stackCount t n p i = stackCount s n p i := by
  intro n
  induction n with
  | zero =>
    intro p i
    rfl
  | succ n ih =>
    intro p i
    cases p with
    | none => rfl
    | some x =>
      unfold stackCount
      rw [show (t.fp x).mpuNext = (s.fp x).mpuNext from h x]
      exact ih _ _

/-- The loop programs the pages that the links lead to, into `n` regions. -/
theorem lruProgram_programmed (mm : Memmap) (n : Nat) (s : Kernel) (i : Nat) (fp : FpRef)
    (hi : i + n ≤ 16) :
    
      Programmed mm s (lruProgram mm n s i fp) i ((walk s.mpuNext n (s.mpuNext fp)).map some) ∧
      ∀ x, (lruProgram mm n s i fp).mpuNext x = s.mpuNext x := by
  induction n generalizing s i fp with
  | zero => exact ⟨.refl mm s i, fun _ => rfl⟩
  | succ n ih =>
    unfold lruProgram
    have hnext : s.mpuNext fp = (s.fp fp).mpuNext := rfl
    cases hnx : (s.fp fp).mpuNext with
    | none =>
      rw [hnext, hnx]
      exact ⟨.refl mm s i, fun _ => rfl⟩
    | some nx =>
      rw [hnext, hnx]
      obtain ⟨h1, h2⟩ := ih (mpuSetupRegion mm s i (some nx)) (i + 1) nx (by omega)
      have hreg : Programmed mm s (mpuSetupRegion mm s i (some nx)) i [some nx] :=
        .region (by omega) (some nx)
      exact ⟨hreg.trans h1, h2⟩

/-- What a handled fault does: the page comes to the front of the MPU list, and the list is
programmed behind the `i` stack pages. -/
structure Selected (mm : Memmap) (s t : Kernel) (a : AsRef) (fp : FpRef) (i : Nat) : Prop where
  link : ∀ x, t.mpuNext x = if x = fp then (s.as a).mpuFirst else s.mpuNext x
  page : ∀ x, t.fp x = { s.fp x with mpuNext := t.mpuNext x }
  space : t.as a = { s.as a with mpuFirst := some fp }
  num : t.fpageTable.num = s.fpageTable.num
  regions : t.regionOf =
    programAll s.regionOf i ((fp :: walk t.mpuNext (8 - (i + 1)) (t.mpuNext fp)).map some)
  registers : t.mpu = programAll s.mpu i
    ((fp :: walk t.mpuNext (8 - (i + 1)) (t.mpuNext fp)).map fun x => mpuRegionFor mm s (some x))
  log : ∃ new, t.mpuLog = new ++ s.mpuLog ∧
    ∀ e ∈ new, e.1 < i + 1 + (8 - (i + 1))

/-- A call of `mpu_select_lru` that returns: the fault is not handled, or it is. -/
theorem mpuSelectLru_ok {ret : Int} (hl : Chain s.asNext (s.as a).first l)
    (hlen : l.length < s.walkBound) (h : mpuSelectLru mm s (some a) addr = .ok (ret, s')) :
    (s' = s ∧ (addrInMpu s addr = true ∨
      l.find? (fun x => addrInFpage addr (s.fp x) false) = none)) ∨
    ∃ fp i, addrInMpu s addr = false ∧
      l.find? (fun x => addrInFpage addr (s.fp x) false) = some fp ∧
      stackCount (s.setFp fp fun f => { f with mpuNext := (s.as a).mpuFirst }) s.walkBound
        (s.as a).mpuStackFirst 0 = .ok i ∧ (i < 16 → Selected mm s s' a fp i) := by
  unfold mpuSelectLru at h
  dsimp only at h
  by_cases hin : addrInMpu s addr = true
  · rw [if_pos hin] at h
    exact .inl ⟨(congrArg Prod.snd (pure_ok.mp h)).symm, .inl hin⟩
  · rw [if_neg hin] at h
    obtain ⟨res, hfind, h⟩ := bind_ok.mp h
    rw [lruSearch_find l _ _ hl hlen] at hfind
    injection hfind with hfind
    cases res with
    | none => exact .inl ⟨(congrArg Prod.snd (pure_ok.mp h)).symm, .inr hfind⟩
    | some fp =>
      obtain ⟨i, hcount, h⟩ := bind_ok.mp h
      have hs' := congrArg Prod.snd (pure_ok.mp h)
      dsimp only at hs'
      have hsame : ∀ n p i, stackCount ((s.setFp fp fun f => { f with
          mpuNext := (s.as a).mpuFirst }).setAs a fun b => { b with mpuFirst := some fp }) n p i =
          stackCount (s.setFp fp fun f => { f with mpuNext := (s.as a).mpuFirst }) n p i :=
        stackCount_congr fun _ => rfl
      rw [hsame] at hcount
      refine .inr ⟨fp, i, by simpa using hin, hfind, hcount, fun hi => ?_⟩
      generalize hs1 : ((s.setFp fp fun f => { f with mpuNext := (s.as a).mpuFirst }).setAs a
        fun b => { b with mpuFirst := some fp }) = s1 at hs'
      have hnext1 : ∀ x, s1.mpuNext x = if x = fp then (s.as a).mpuFirst else s.mpuNext x := by
        intro x
        rw [← hs1]
        exact mpuNext_setFp s fp x _
      have hpage1 : ∀ x, s1.fp x = { s.fp x with mpuNext := s1.mpuNext x } := by
        intro x
        rw [← hs1]
        exact (MpuRelinked.setNext s fp _).page x
      have hreg : Programmed mm s1 (mpuSetupRegion mm s1 i (some fp)) i [some fp] :=
        .region hi (some fp)
      obtain ⟨h1, h2⟩ := lruProgram_programmed mm (8 - (i + 1))
        (mpuSetupRegion mm s1 i (some fp)) (i + 1) fp (by omega)
      have hall := hreg.trans h1
      rw [hs'] at hall h2
      have hnext : ∀ x, s'.mpuNext x = s1.mpuNext x := fun x => h2 x
      have hwalk : walk (mpuSetupRegion mm s1 i (some fp)).mpuNext (8 - (i + 1))
          ((mpuSetupRegion mm s1 i (some fp)).mpuNext fp) =
          walk s'.mpuNext (8 - (i + 1)) (s'.mpuNext fp) := by
        rw [funext h2]
      rw [hwalk] at hall
      refine ⟨fun x => ?_, fun x => ?_, ?_, ?_, ?_, ?_, ?_⟩
      · rw [hnext, hnext1]
      · rw [hall.page, hpage1]
      · rw [hall.as, ← hs1, Kernel.setAs_as_self]
        rfl
      · rw [hall.num, ← hs1]
        rfl
      · rw [hall.regions, ← hs1]
        rfl
      · have hfor : ∀ x, mpuRegionFor mm s1 (some x) = mpuRegionFor mm s (some x) := by
          intro x
          unfold mpuRegionFor
          dsimp only
          rw [hpage1]
          rfl
        have hmap : ([some fp] ++ (walk s'.mpuNext (8 - (i + 1)) (s'.mpuNext fp)).map some).map
            (mpuRegionFor mm s1) = (fp :: walk s'.mpuNext (8 - (i + 1)) (s'.mpuNext fp)).map
            fun x => mpuRegionFor mm s (some x) := by
          rw [List.singleton_append, ← List.map_cons, List.map_map]
          exact List.map_congr_left fun x _ => hfor x
        rw [hall.registers, hmap, ← hs1]
        rfl
      · obtain ⟨new, hlog, hnew⟩ := hall.log
        refine ⟨new, by rw [hlog, ← hs1]; rfl, fun e he => ?_⟩
        have hlt := hnew e he
        have hle := length_walk_le s'.mpuNext (8 - (i + 1)) (s'.mpuNext fp)
        rw [List.length_append, List.length_singleton, List.length_map] at hlt
        omega

end F9
