import F9.Logic.Cover
import F9.Logic.Steps

/-!
# Granting

`map_fpage` treats the two actions alike but for one flag: mapping marks the source
page as mapped, granting does not. A grant and a map of the same range therefore leave
the same pages in every address space (`mapChain_setFlags`), and the granter keeps
what it gave away.
-/

namespace F9

open Arc Linked Result

/-! ## States that differ in the flags -/

/-- The same state with other flags on the pages. -/
def Kernel.setFlags (s : Kernel) (g : FpRef → BitVec 6) : Kernel :=
  { s with fpageTable :=
    { s.fpageTable with data := fun r => { s.fpageTable.data r with flags := g r } } }

theorem setFlags_setNext (s : Kernel) (g : FpRef → BitVec 6) (r : FpRef) (p : Option FpRef) :
    (s.setFlags g).setFp r (fun f => { f with asNext := p }) =
      (s.setFp r fun f => { f with asNext := p }).setFlags g := by
  unfold Kernel.setFp Kernel.setFlags KTable.write
  congr 2
  funext x
  show (if x = r then { s.fp r with asNext := p, flags := g r } else
      { s.fp x with flags := g x }) =
    { (if x = r then { s.fp r with asNext := p } else s.fp x) with flags := g x }
  by_cases hx : x = r
  · rw [if_pos hx, if_pos hx, hx]
  · rw [if_neg hx, if_neg hx]

/-- The place where pages are inserted does not depend on the flags. -/
theorem insertSearch_setFlags (s : Kernel) (g : FpRef → BitVec 6) (first last : FpRef) (n : Nat)
    (fp : FpRef) :
    insertSearch (s.setFlags g) first last n fp =
      (insertSearch s first last n fp).map (·.setFlags g) := by
  induction n generalizing fp with
  | zero => rfl
  | succ n ih =>
    have hnext : ((s.setFlags g).fp fp).asNext = (s.fp fp).asNext := rfl
    unfold insertSearch
    rw [hnext]
    cases (s.fp fp).asNext with
    | none =>
      rw [setFlags_setNext]
      rfl
    | some nx =>
      dsimp only
      by_cases hlt : (s.fp last).base < (s.fp nx).base
      · have hlt' : ((s.setFlags g).fp last).base < ((s.setFlags g).fp nx).base := hlt
        rw [if_pos hlt', if_pos hlt, setFlags_setNext, setFlags_setNext]
        rfl
      · have hlt' : ¬ ((s.setFlags g).fp last).base < ((s.setFlags g).fp nx).base := hlt
        rw [if_neg hlt', if_neg hlt]
        exact ih nx

theorem insertFpageChainToAs_setFlags (s : Kernel) (g : FpRef → BitVec 6) (a : AsRef)
    (first last : FpRef) : insertFpageChainToAs (s.setFlags g) a first last =
      (insertFpageChainToAs s a first last).map (·.setFlags g) := by
  unfold insertFpageChainToAs
  have has : (s.setFlags g).as a = s.as a := rfl
  rw [has]
  cases (s.as a).first with
  | none => rfl
  | some fp =>
    dsimp only
    by_cases hlt : (s.fp last).base < (s.fp fp).base
    · have hlt' : ((s.setFlags g).fp last).base < ((s.setFlags g).fp fp).base := hlt
      rw [if_pos hlt', if_pos hlt, setFlags_setNext]
      rfl
    · have hlt' : ¬ ((s.setFlags g).fp last).base < ((s.setFlags g).fp fp).base := hlt
      rw [if_neg hlt', if_neg hlt]
      exact insertSearch_setFlags s g first last _ fp

theorem allocFp_setFlags {s s1 : Kernel} {f : FpRef} (g : FpRef → BitVec 6)
    (h : s.allocFp = some (f, s1)) : (s.setFlags g).allocFp = some (f, s1.setFlags g) := by
  have hfree : ∀ (n i : Nat), (s.setFlags g).fpageTable.firstFree i n =
      s.fpageTable.firstFree i n := by
    intro n
    induction n with
    | zero =>
      intro i
      rfl
    | succ n ih =>
      intro i
      unfold KTable.firstFree
      rw [ih]
      rfl
  unfold Kernel.allocFp KTable.alloc at h ⊢
  have hnum : (s.setFlags g).fpageTable.num = s.fpageTable.num := rfl
  rw [hnum, hfree]
  cases hk : s.fpageTable.firstFree 0 s.fpageTable.num with
  | none =>
    rw [hk] at h
    simp at h
  | some i =>
    rw [hk] at h
    simp only [Option.some.injEq, Prod.mk.injEq] at h ⊢
    obtain ⟨rfl, rfl⟩ := h
    exact ⟨rfl, rfl⟩

theorem cloneInto_eq (s : Kernel) (f r : FpRef) (action : MapAction) :
    cloneInto s f r action = { s with fpageTable :=
      { s.fpageTable with data := (cloneInto s f r action).fp } } := by
  cases action <;> rfl

theorem cloneInto_setFlags (s : Kernel) (g : FpRef → BitVec 6) (f r : FpRef) :
    ∃ g', cloneInto (s.setFlags g) f r .map = (cloneInto s f r .grant).setFlags g' := by
  have hfp : ∀ x, (cloneInto (s.setFlags g) f r .map).fp x =
      { (cloneInto s f r .grant).fp x with
        flags := ((cloneInto (s.setFlags g) f r .map).fp x).flags } := by
    intro x
    by_cases hf : x = f
    · subst hf
      rw [cloneInto_clone, cloneInto_clone]
      rfl
    · by_cases hr : x = r
      · subst hr
        rw [cloneInto_source _ _ hf, cloneInto_source _ _ hf]
        rfl
      · rw [cloneInto_frame _ _ hf hr, cloneInto_frame _ _ hf hr]
        rfl
  refine ⟨fun x => ((cloneInto (s.setFlags g) f r .map).fp x).flags, ?_⟩
  refine (cloneInto_eq (s.setFlags g) f r .map).trans ?_
  exact congrArg (fun d => { s with fpageTable := { s.fpageTable with data := d } }) (funext hfp)

/-- A map does what a grant does, but for the flags. -/
theorem mapFpage_setFlags {s s' : Kernel} (g : FpRef → BitVec 6) {d : AsRef} {p : Option FpRef}
    (h : mapFpage s d p .grant = .ok s') :
    ∃ g', mapFpage (s.setFlags g) d p .map = .ok (s'.setFlags g') := by
  obtain ⟨r, f, s1, rfl, halloc, hins⟩ := mapFpage_ok h
  obtain ⟨g', hc⟩ := cloneInto_setFlags s1 g f r
  have hmap : mapFpage (s.setFlags g) d (some r) .map =
      insertFpageChainToAs (cloneInto (s1.setFlags g) f r .map) d f f := by
    unfold mapFpage
    rw [allocFp_setFlags g halloc]
    rfl
  refine ⟨g', ?_⟩
  rw [hmap, hc, insertFpageChainToAs_setFlags, hins]
  rfl

theorem mapChain_setFlags {dst : AsRef} {last : FpRef} (n : Nat) (s s' : Kernel)
    (g : FpRef → BitVec 6) (fp : Option FpRef) (h : mapChain dst .grant last n s fp = .ok s') :
    ∃ g', mapChain dst .map last n (s.setFlags g) fp = .ok (s'.setFlags g') := by
  induction n generalizing s s' g fp with
  | zero => simp [mapChain] at h
  | succ n ih =>
    unfold mapChain at h ⊢
    by_cases hfp : fp = some last
    · rw [if_pos hfp] at h ⊢
      exact mapFpage_setFlags g h
    · rw [if_neg hfp] at h ⊢
      obtain ⟨s1, h1, h⟩ := bind_ok.mp h
      obtain ⟨r, hr, h⟩ := bind_ok.mp h
      obtain ⟨g1, h1'⟩ := mapFpage_setFlags g h1
      obtain ⟨g', h'⟩ := ih s1 s' g1 _ h
      refine ⟨g', ?_⟩
      rw [h1']
      refine bind_ok.mpr ⟨_, rfl, bind_ok.mpr ⟨r, hr, ?_⟩⟩
      exact h'

theorem covers_setFlags (s : Kernel) (g : FpRef → BitVec 6) (a : AsRef) (addr : Word) :
    (s.setFlags g).Covers a addr ↔ s.Covers a addr := by
  exact Iff.rfl

theorem setFlags_flags (s : Kernel) : s.setFlags (fun x => (s.fp x).flags) = s := rfl

/-- A grant, and the same call as a map. -/
theorem mapArea_setFlags {mm : Memmap} {s sg : Kernel} {src dst : AsRef} {base size : Word}
    {priv : Bool} {ret : Int} (h : mapArea mm s src dst base size .grant priv = .ok (ret, sg)) :
    ∃ g, mapArea mm s src dst base size .map priv = .ok (ret, sg.setFlags g) := by
  -- where no page is mapped, the two calls are the same
  have hsame : mapArea mm s src dst base size .map priv = .ok (ret, sg) →
      ∃ g, mapArea mm s src dst base size .map priv = .ok (ret, sg.setFlags g) := fun h =>
    ⟨_, by rw [setFlags_flags]; exact h⟩
  obtain ⟨⟨span, s1⟩, hspan, h⟩ := bind_ok.mp h
  cases span with
  | ret r => exact hsame (bind_ok.mpr ⟨_, hspan, h⟩)
  | span f l =>
    cases f with
    | none => exact hsame (bind_ok.mpr ⟨_, hspan, h⟩)
    | some first0 =>
      cases l with
      | none => exact hsame (bind_ok.mpr ⟨_, hspan, h⟩)
      | some last0 =>
        obtain ⟨⟨first, s2⟩, h1, h⟩ := bind_ok.mp h
        obtain ⟨last1, h2, h⟩ := bind_ok.mp h
        obtain ⟨⟨last, s3⟩, h3, h⟩ := bind_ok.mp h
        cases first with
        | none =>
          exact hsame (bind_ok.mpr ⟨_, hspan, bind_ok.mpr ⟨_, h1, bind_ok.mpr ⟨_, h2,
            bind_ok.mpr ⟨_, h3, h⟩⟩⟩⟩)
        | some first =>
          cases last with
          | none =>
            exact hsame (bind_ok.mpr ⟨_, hspan, bind_ok.mpr ⟨_, h1, bind_ok.mpr ⟨_, h2,
              bind_ok.mpr ⟨_, h3, h⟩⟩⟩⟩)
          | some last =>
            obtain ⟨s4, h4, h⟩ := bind_ok.mp h
            obtain ⟨rfl, rfl⟩ := pure_pair.mp h
            obtain ⟨g, h4'⟩ := mapChain_setFlags _ _ _ (fun x => (s3.fp x).flags) _ h4
            exact ⟨g, bind_ok.mpr ⟨_, hspan, bind_ok.mpr ⟨_, h1, bind_ok.mpr ⟨_, h2,
              bind_ok.mpr ⟨_, h3, bind_ok.mpr ⟨_, h4', rfl⟩⟩⟩⟩⟩⟩

/-- A grant that succeeds has an outcome as a map, with the same addresses in every space.
That the granter has lost the range, and that after the map both have it, is the case
only for the empty range. -/
theorem grant_leaves_source {mm : Memmap} {s sg : Kernel} {src dst : AsRef} {base size : Word}
    {priv : Bool} (h : mapArea mm s src dst base size .grant priv = .ok (0, sg)) :
    ∃ sm, mapArea mm s src dst base size .map priv = .ok (0, sm) ∧
      (∀ a addr, sm.Covers a addr ↔ sg.Covers a addr) ∧
      (((∀ addr, OnArc base size addr → ¬ sg.Covers src addr) ∧
        (∀ addr, OnArc base size addr → sm.Covers src addr ∧ sm.Covers dst addr)) ↔
        size = 0#32) := by
  obtain ⟨g, hm⟩ := mapArea_setFlags h
  refine ⟨_, hm, covers_setFlags sg g, ?_⟩
  constructor
  · rintro ⟨hlost, hboth⟩
    by_contra hsize
    have hbase : OnArc base size base := by
      unfold OnArc
      rw [BitVec.sub_self, BitVec.lt_def]
      exact Nat.pos_of_ne_zero fun h0 => hsize (BitVec.eq_of_toNat_eq (by simpa using h0))
    exact hlost base hbase ((covers_setFlags sg g src base).mp (hboth base hbase).1)
  · rintro rfl
    exact ⟨fun addr ha => absurd ha not_onArc_zero, fun addr ha => absurd ha not_onArc_zero⟩

/-- A page granted to another space, and the same call as a map. -/
theorem grant_leaves_source_page : ∃ s sg sm,
    (system (memmap stm32f4Board) stm32f4Board).Reachable (fun _ _ => True) s ∧
    mapArea (memmap stm32f4Board) s 0 1 0x20008000#32 0x100#32 .grant false = .ok (0, sg) ∧
    mapArea (memmap stm32f4Board) s 0 1 0x20008000#32 0x100#32 .map false = .ok (0, sm) ∧
    ∀ a addr, sm.Covers a addr ↔ sg.Covers a addr := by
  obtain ⟨s, hreach, _, _, hp⟩ := exists_bootRun
    [.asCreate 1#32, .asCreate 2#32, .assignFpages 0 0x20008000#32 0x100#32]
    (fun s => okWith (fun v : Int × Kernel => decide (v.1 = 0))
      (mapArea (memmap stm32f4Board) s 0 1 0x20008000#32 0x100#32 .grant false))
    (by decide +kernel)
  obtain ⟨⟨r, sg⟩, hg, hr⟩ := okWith_iff.mp hp
  obtain rfl : r = 0 := of_decide_eq_true hr
  obtain ⟨sm, hm, hsame, _⟩ := grant_leaves_source hg
  exact ⟨s, sg, sm, hreach, hg, hm, hsame⟩

/-- The granter still has the page it has granted. -/
theorem grant_source_keeps_page : ∃ s sg,
    (system (memmap stm32f4Board) stm32f4Board).Reachable (fun _ _ => True) s ∧
    mapArea (memmap stm32f4Board) s 0 1 0x20008000#32 0x100#32 .grant false = .ok (0, sg) ∧
    OnArc 0x20008000#32 0x100#32 0x20008000#32 ∧ sg.Covers 0 0x20008000#32 ∧
    sg.Covers 1 0x20008000#32 := by
  obtain ⟨s, hreach, _, _, hp⟩ := exists_bootRun
    [.asCreate 1#32, .asCreate 2#32, .assignFpages 0 0x20008000#32 0x100#32]
    (fun s => okWith (fun v : Int × Kernel => decide (v.1 = 0 ∧ v.2.Covers 0 0x20008000#32 ∧
        v.2.Covers 1 0x20008000#32))
      (mapArea (memmap stm32f4Board) s 0 1 0x20008000#32 0x100#32 .grant false))
    (by decide +kernel)
  obtain ⟨⟨r, sg⟩, hg, hr⟩ := okWith_iff.mp hp
  obtain ⟨rfl, h0, h1⟩ : r = 0 ∧ sg.Covers 0 0x20008000#32 ∧ sg.Covers 1 0x20008000#32 :=
    of_decide_eq_true hr
  exact ⟨s, sg, hreach, hg, by decide, h0, h1⟩

end F9
