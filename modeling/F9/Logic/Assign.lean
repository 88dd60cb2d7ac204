import F9.Logic.Map

/-!
# `assign_fpages_ext`

The loop walks the sorted list with a pointer to a link and fills the gaps.
`assignLoop_rule` is its invariant rule: an assertion about the loop state, the
pages passed and the pages ahead survives the loop if it survives skipping a
page and filling a gap in front of one. `Extended` is what every run does, with
the positions of the new pages left open.
-/

namespace F9

open Linked Result

variable {s s' s2 s3 : Kernel} {a : AsRef} {done rest c l N l' : List FpRef} {mm : Memmap}
  {mpid q : Nat} {stop size : Word} {cur : FpRef} {l0 : List FpRef} {pf pl pf' pl' : Option FpRef}
  {ret : Int}

/-! ## The link cursor -/

/-- The link after the pages `done`. -/
def linkOf (done : List FpRef) : AsLink :=
  match done.getLast? with
  | none => .first
  | some z => .nextOf z

theorem linkOf_concat (done : List FpRef) (z : FpRef) : linkOf (done ++ [z]) = .nextOf z := by
  unfold linkOf
  rw [List.getLast?_concat]

theorem write_nextOf (s : Kernel) (a : AsRef) (p : Option FpRef) (y : FpRef) :
    AsLink.write s a p (.nextOf y) = s.setFp y fun f => { f with asNext := p } := rfl

/-- The cursor reads the next page. -/
theorem linkOf_read (h : Chain s.asNext (s.as a).first (done ++ rest)) :
    (linkOf done).read s a = rest.head? := by
  rcases List.eq_nil_or_concat' done with rfl | ⟨d, z, rfl⟩
  · exact h.head_eq
  · rw [linkOf_concat]
    rw [List.append_assoc] at h
    obtain ⟨_, h2⟩ := chain_append_cons.mp h
    exact h2.head_eq

/-- Writing a chain of fresh pages through the cursor, its last link first. -/
theorem linkOf_write {z : FpRef} (h : Chain s.asNext (s.as a).first (done ++ rest))
    (hc : Chain s.asNext (c ++ [z]).head? (c ++ [z])) (hdisj : ∀ x ∈ c ++ [z], x ∉ done ++ rest) :
    AsEdit s ((linkOf done).write
      (s.setFp z fun f => { f with asNext := rest.head? }) a (c ++ [z]).head?) a
      (done ++ (c ++ [z]) ++ rest) := by
  have hzc : z ∉ c := hc.not_mem_of_append.1
  have hz : z ∉ done ++ rest := hdisj z (by simp)
  rcases List.eq_nil_or_concat' done with rfl | ⟨d, y, rfl⟩
  · -- the chain becomes the head of the list
    have hnext : ∀ x, (s.setFp z fun f => { f with asNext := rest.head? }).asNext x =
        if x = z then rest.head? else s.asNext x := fun x => asNext_setFp s z x _
    have hne : ∀ x, x ≠ z → (s.setFp z fun f => { f with asNext := rest.head? }).asNext x =
        s.asNext x := by
      intro x hx
      rw [hnext, if_neg hx]
    refine .setFirst (SameAlloc.setFp _ _ _) (fun x => fp_setFp_asNext s z x _) (fun _ => rfl) ?_ ?_
    · refine Chain.prepend h hc ?_ ?_ ?_
      · rw [hnext, if_pos rfl]
        exact h.head_eq.symm
      · intro y hy
        exact hne y fun hyz => hz (hyz ▸ hy)
      · intro y hy
        exact hne y fun hyz => hzc (hyz ▸ hy)
    · intro x hx
      exact hne x fun hxz => hx (by simp [hxz])
  · -- the chain goes in after `y`
    rw [linkOf_concat, write_nextOf]
    have hyz : z ≠ y := fun hzy => hz (by simp [hzy])
    have hnext : ∀ x, ((s.setFp z fun f => { f with asNext := rest.head? }).setFp y
        fun f => { f with asNext := (c ++ [z]).head? }).asNext x =
          if x = y then (c ++ [z]).head? else if x = z then rest.head? else s.asNext x := by
      intro x
      rw [asNext_setFp, asNext_setFp]
    have hrw : d ++ [y] ++ rest = d ++ y :: rest := by simp
    have hrw2 : d ++ [y] ++ (c ++ [z]) ++ rest = d ++ y :: (c ++ [z] ++ rest) := by simp
    rw [hrw] at h hz hdisj
    rw [hrw2]
    have hy : y ∉ d ∧ y ∉ rest := h.not_mem_of_append
    refine ⟨(SameAlloc.setFp _ _ _).trans (.setFp _ _ _), ?_, fun b => rfl, fun b _ => rfl,
      ?_, ?_⟩
    · intro x
      rw [fp_setFp_asNext, fp_setFp_asNext s z x]
    · refine Chain.insert h hc ?_ ?_ ?_ ?_ ?_
      · rw [hnext, if_pos rfl]
      · rw [hnext, if_neg hyz, if_pos rfl]
        obtain ⟨_, h2⟩ := chain_append_cons.mp h
        exact h2.head_eq.symm
      · intro x hx
        rw [hnext, if_neg (fun hxy : x = y => hy.1 (hxy ▸ hx)), if_neg]
        rintro rfl
        exact hz (by simp [hx])
      · intro x hx
        rw [hnext, if_neg (fun hxy : x = y => hy.2 (hxy ▸ hx)), if_neg]
        rintro rfl
        exact hz (by simp [hx])
      · intro x hx
        rw [hnext, if_neg, if_neg (fun hxz : x = z => hzc (hxz ▸ hx))]
        rintro rfl
        exact hdisj x (by simp [hx]) (by simp)
    · intro x hx
      rw [hnext, if_neg (fun hxy => hx (by simp [hxy])), if_neg (fun hxz => hx (by simp [hxz]))]

/-! ## One pass of the loop -/

/-- The blocks `assign_fpages_ext` creates for the gap `[base, stop)`. -/
def gapBlocks (mm : Memmap) (mpid : Nat) (base stop : Word) : List (Word × Nat) :=
  let size := mempoolAlign mm mpid (stop - base)
  chainBlocks size.toNat (mempoolAlign mm mpid base) size

/-- The gap in front of `cur` is filled with the chain `c`. -/
structure GapFilled (mm : Memmap) (mpid : Nat) (a : AsRef) (stop : Word)
    (st st' : AssignState) (done : List FpRef) (cur : FpRef) (rest c : List FpRef) : Prop where
  gap : st.base < (st.s.fp cur).base
  ne : c ≠ []
  effect : ∃ s1, Built mm mpid st.s s1
      (gapBlocks mm mpid st.base (if stop < (st.s.fp cur).base then stop else (st.s.fp cur).base))
      c ∧ AsEdit s1 st'.s a (done ++ c ++ cur :: rest)
  fp : st'.fp = .nextOf cur
  base : st'.base = (st.s.fp cur).stop
  pfirst : st'.pfirst = (st.pfirst <|> c.head?)
  plast : st'.plast = c.getLast?

/-- The three things one pass does. -/
theorem assignStep_spec {st st' : AssignState}
    (hl : Chain st.s.asNext (st.s.as a).first (done ++ cur :: rest))
    (hlive : ∀ x ∈ done ++ cur :: rest, st.s.liveFp x = true) (hfp : st.fp = linkOf done)
    (h : assignStep mm mpid a stop st cur = .ok st') :
    (∃ c, GapFilled mm mpid a stop st st' done cur rest c) ∨
    (¬ st.base < (st.s.fp cur).base ∧ st.base < (st.s.fp cur).stop ∧
      st' = { st with fp := .nextOf cur, base := (st.s.fp cur).stop,
                      pfirst := st.pfirst <|> some cur, plast := some cur }) ∨
    (¬ st.base < (st.s.fp cur).base ∧ ¬ st.base < (st.s.fp cur).stop ∧
      st' = { st with fp := .nextOf cur }) := by
  unfold assignStep at h
  by_cases hb : st.base < (st.s.fp cur).base
  · left
    rw [if_pos hb] at h
    obtain ⟨⟨first, last, s1⟩, hchain, h⟩ := bind_ok.mp h
    obtain ⟨z, hz, h⟩ := bind_ok.mp h
    obtain ⟨nx, hnx, h⟩ := bind_ok.mp h
    rw [deref_ok] at hz hnx
    obtain ⟨c, hbuilt, hf, hlast⟩ := createFpageChain_spec hchain
    subst hf hlast
    obtain ⟨c, rfl⟩ := List.getLast?_eq_some_iff.mp hz
    have hl1 := hbuilt.keeps hl hlive
    have hedit := linkOf_write hl1 hbuilt.chain (hbuilt.not_mem hlive)
    rw [hfp, linkOf_read hl1] at hnx h
    -- the link after the chain leads to `cur`
    have hnxt : nx = cur := by
      have hc := hedit.list
      rw [show done ++ (c ++ [z]) ++ cur :: rest = (done ++ c) ++ z :: (cur :: rest) by simp]
        at hc
      obtain ⟨_, h2⟩ := chain_append_cons.mp hc
      have := h2.head_eq
      have hread : (AsLink.nextOf z).read ((linkOf done).write
          (s1.setFp z fun f => { f with asNext := (cur :: rest).head? }) a (c ++ [z]).head?) a =
          some cur := this
      rw [hread] at hnx
      injection hnx with hnx
      exact hnx.symm
    subst hnxt
    have hst := pure_ok.mp h
    refine ⟨c ++ [z], hb, by simp, ⟨s1, hbuilt, by rw [← hst]; exact hedit⟩, by rw [← hst], ?_,
      by rw [← hst], by rw [← hst]⟩
    rw [← hst]
    show Fpage.stop (((linkOf done).write _ a _).fp nx) = _
    have hcur : nx ∉ c ++ [z] := fun hx => hbuilt.not_mem hlive nx hx (by simp)
    rw [hedit.fp nx, hbuilt.frame_none hcur]
    rfl
  · right
    rw [if_neg hb] at h
    by_cases hs : st.base < (st.s.fp cur).stop
    · left
      rw [if_pos hs] at h
      exact ⟨hb, hs, (pure_ok.mp h).symm⟩
    · right
      rw [if_neg hs] at h
      exact ⟨hb, hs, (pure_ok.mp h).symm⟩

theorem GapFilled.live {st st' : AssignState} (h : GapFilled mm mpid a stop st st' done cur rest c)
    (hlive : ∀ x ∈ done ++ cur :: rest, st.s.liveFp x = true) :
    ∀ x ∈ done ++ c ++ cur :: rest, st'.s.liveFp x = true := by
  obtain ⟨s1, hbuilt, hedit⟩ := h.effect
  intro x hx
  rw [hedit.same.live, hbuilt.live]
  have hx' : x ∈ c ∨ x ∈ done ++ cur :: rest := by
    simp only [List.mem_append, List.mem_cons] at hx ⊢
    rcases hx with (hx | hx) | hx
    · exact .inr (.inl hx)
    · exact .inl hx
    · exact .inr (.inr hx)
  rcases hx' with hx' | hx'
  · simp [hx']
  · simp [hlive x hx']

/-! ## The loop -/

/-- The invariant rule of the loop. -/
theorem assignLoop_rule {I : AssignState → List FpRef → List FpRef → Prop}
    (hgap : ∀ st st' done cur rest c, I st done (cur :: rest) → st.base < stop →
      GapFilled mm mpid a stop st st' done cur rest c → I st' (done ++ c ++ [cur]) rest)
    (hpage : ∀ st done cur rest, I st done (cur :: rest) → st.base < stop →
      ¬ st.base < (st.s.fp cur).base → st.base < (st.s.fp cur).stop →
      I { st with fp := .nextOf cur, base := (st.s.fp cur).stop,
                  pfirst := st.pfirst <|> some cur, plast := some cur } (done ++ [cur]) rest)
    (hskip : ∀ st done cur rest, I st done (cur :: rest) → st.base < stop →
      ¬ st.base < (st.s.fp cur).base → ¬ st.base < (st.s.fp cur).stop →
      I { st with fp := .nextOf cur } (done ++ [cur]) rest) :
    ∀ (n : Nat) (st st' : AssignState) (done rest : List FpRef),
      Chain st.s.asNext (st.s.as a).first (done ++ rest) →
      (∀ x ∈ done ++ rest, st.s.liveFp x = true) → st.fp = linkOf done → I st done rest →
      assignLoop mm mpid a stop n st = .ok st' →
      ∃ done' rest', Chain st'.s.asNext (st'.s.as a).first (done' ++ rest') ∧
        (∀ x ∈ done' ++ rest', st'.s.liveFp x = true) ∧ st'.fp = linkOf done' ∧
        I st' done' rest' ∧ (st'.base < stop → rest' = []) := by
  intro n
  induction n with
  | zero =>
    intro st st' done rest _ _ _ _ h
    simp [assignLoop] at h
  | succ n ih =>
    intro st st' done rest hl hlive hfp hI h
    unfold assignLoop at h
    by_cases hb : st.base < stop
    · rw [if_pos hb, hfp, linkOf_read hl] at h
      cases rest with
      | nil =>
        injection h with h
        subst h
        exact ⟨done, [], hl, hlive, hfp, hI, fun _ => rfl⟩
      | cons cur rest =>
        obtain ⟨st1, hstep, hloop⟩ := bind_ok.mp h
        have happ : done ++ [cur] ++ rest = done ++ cur :: rest := by simp
        rcases assignStep_spec hl hlive hfp hstep with ⟨c, hg⟩ | ⟨h1, h2, rfl⟩ | ⟨h1, h2, rfl⟩
        · have happ2 : done ++ c ++ [cur] ++ rest = done ++ c ++ cur :: rest := by simp
          obtain ⟨s1, _, hedit⟩ := hg.effect
          refine ih st1 st' (done ++ c ++ [cur]) rest ?_ ?_ ?_
            (hgap _ _ _ _ _ _ hI hb hg) hloop
          · rw [happ2]
            exact hedit.list
          · rw [happ2]
            exact hg.live hlive
          · rw [hg.fp, linkOf_concat]
        · refine ih _ st' (done ++ [cur]) rest ?_ ?_ ?_ (hpage _ _ _ _ hI hb h1 h2) hloop
          · rw [happ]
            exact hl
          · rw [happ]
            exact hlive
          · rw [linkOf_concat]
        · refine ih _ st' (done ++ [cur]) rest ?_ ?_ ?_ (hskip _ _ _ _ hI hb h1 h2) hloop
          · rw [happ]
            exact hl
          · rw [happ]
            exact hlive
          · rw [linkOf_concat]
    · rw [if_neg hb] at h
      injection h with h
      subst h
      exact ⟨done, rest, hl, hlive, hfp, hI, fun hlt => absurd hlt hb⟩

/-! ## The effect of every run -/

/-- The fresh pages `N` of the pool `mpid` are added to the list `l0` of the
space `a`, which becomes `l`. -/
structure Extended (mm : Memmap) (mpid : Nat) (s s' : Kernel) (a : AsRef)
    (l0 N l : List FpRef) : Prop where
  out : SameOut s s'
  fresh : ∀ x ∈ N, s.liveFp x = false
  live : ∀ x, s'.liveFp x = (s.liveFp x || decide (x ∈ N))
  page : ∀ x ∈ N, ∃ b : Word × Nat, b.2 < 32 ∧ 2 ^ b.2 ∣ b.1.toNat ∧
    s'.fp x = { freshFpage mm x b.1 b.2 mpid with asNext := s'.asNext x }
  frame : ∀ x, x ∉ N → s'.fp x = { s.fp x with asNext := s'.asNext x }
  as : ∀ b, s'.as b = { s.as b with first := (s'.as b).first }
  first : ∀ b, b ≠ a → (s'.as b).first = (s.as b).first
  list : Chain s'.asNext (s'.as a).first l
  links : ∀ x, x ∉ l → s'.asNext x = s.asNext x
  mem : ∀ x, x ∈ l ↔ x ∈ l0 ∨ x ∈ N

theorem Extended.refl (h : Chain s.asNext (s.as a).first l) : Extended mm mpid s s a l [] l :=
  ⟨.refl s, by simp, by simp, by simp, fun _ _ => rfl, fun _ => rfl, fun _ _ => rfl, h,
    fun _ _ => rfl, by simp⟩

variable {base : Word}

theorem Built.aligned (h : Built mm mpid s s' (chainBlocks size.toNat base size) c) :
    ∀ x ∈ c, ∃ b : Word × Nat, b.2 < 32 ∧ 2 ^ b.2 ∣ b.1.toNat ∧
      s'.fp x = { freshFpage mm x b.1 b.2 mpid with asNext := s'.asNext x } := by
  intro x hx
  have hp : PagesFor mm mpid s' c (chainBlocks size.toNat base size) := h.pages
  obtain ⟨b, hb, hfp⟩ := hp.mem hx
  obtain ⟨h1, h2⟩ := (chainBlocks_tiles size.toNat base size (Nat.le_refl _)).aligned b hb
  exact ⟨b, h1, h2, hfp⟩

/-- One more chain is built and linked in. -/
theorem Extended.grow {s1 : Kernel} (h : Extended mm mpid s s1 a l0 N l)
    (hb : Built mm mpid s1 s2 (chainBlocks size.toNat base size) c) (he : AsEdit s2 s3 a l')
    (hmem : ∀ x, x ∈ l' ↔ x ∈ l ∨ x ∈ c) : Extended mm mpid s s3 a l0 (N ++ c) l' := by
  have hfresh : ∀ x ∈ c, s.liveFp x = false ∧ x ∉ N := by
    intro x hx
    have := hb.fresh x hx
    rw [h.live, Bool.or_eq_false_iff] at this
    exact ⟨this.1, by simpa using this.2⟩
  refine ⟨(h.out.trans hb.rest.out).trans he.same.out, ?_, ?_, ?_, ?_, ?_, ?_, he.list, ?_, ?_⟩
  · intro x hx
    rcases List.mem_append.mp hx with hx | hx
    · exact h.fresh x hx
    · exact (hfresh x hx).1
  · intro x
    rw [he.same.live, hb.live, h.live, Bool.or_assoc]
    simp [List.mem_append]
  · intro x hx
    by_cases hxc : x ∈ c
    · obtain ⟨b, h1, h2, h3⟩ := hb.aligned x hxc
      exact ⟨b, h1, h2, by rw [he.fp, h3]⟩
    · rcases List.mem_append.mp hx with hx | hx
      · obtain ⟨b, h1, h2, h3⟩ := h.page x hx
        exact ⟨b, h1, h2, by rw [he.fp, hb.frame_none hxc, h3]⟩
      · exact absurd hx hxc
  · intro x hx
    rw [List.mem_append, not_or] at hx
    rw [he.fp, hb.frame_none hx.2, h.frame x hx.1]
  · intro b
    rw [he.as, hb.rest.as, h.as]
  · intro b hba
    rw [he.first b hba, hb.rest.as, h.first b hba]
  · intro x hx
    have hx' := not_or.mp fun hxl => hx ((hmem x).mpr hxl)
    rw [he.frame x hx]
    have : s2.asNext x = s1.asNext x := by
      unfold Kernel.asNext
      rw [hb.frame_none hx'.2]
    rw [this, h.links x hx'.1]
  · intro x
    rw [hmem, h.mem, List.mem_append, or_assoc]

theorem gapBlocks_eq (mm : Memmap) (mpid : Nat) (base stop : Word) :
    gapBlocks mm mpid base stop = chainBlocks (mempoolAlign mm mpid (stop - base)).toNat
      (mempoolAlign mm mpid base) (mempoolAlign mm mpid (stop - base)) := rfl

/-- Writing the last chain: there is no page after it. -/
theorem linkOf_write_last (h : Chain s.asNext (s.as a).first done) (hc : Chain s.asNext c.head? c)
    (hdisj : ∀ x ∈ c, x ∉ done) : AsEdit s ((linkOf done).write s a c.head?) a (done ++ c) := by
  rcases List.eq_nil_or_concat' done with rfl | ⟨d, y, rfl⟩
  · exact .setFirst (.refl s) (fun _ => rfl) (fun _ => rfl) hc fun _ _ => rfl
  · rw [linkOf_concat, write_nextOf]
    have hy : y ∉ d := h.not_mem_of_append.1
    have hyc : y ∉ c := fun hyc => hdisj y hyc (by simp)
    have hne : ∀ x, x ≠ y →
        (s.setFp y fun f => { f with asNext := c.head? }).asNext x = s.asNext x := by
      intro x hx
      rw [asNext_setFp, if_neg hx]
    refine ⟨.setFp _ _ _, fun x => fp_setFp_asNext s y x _, fun b => rfl, fun b _ => rfl, ?_, ?_⟩
    · rw [List.append_assoc, List.singleton_append]
      obtain ⟨h1, _⟩ := chain_append_cons.mp h
      refine chain_append_cons.mpr ⟨h1.congr fun x hx => hne x fun hxy => hy (hxy ▸ hx), ?_⟩
      rw [asNext_setFp, if_pos rfl]
      exact hc.congr fun x hx => hne x fun hxy => hyc (hxy ▸ hx)
    · intro x hx
      exact hne x fun hxy => hx (by simp [hxy])

variable {as : Option AsRef}

/-- A request of no bytes, or outside of the pools, is refused. -/
theorem assignFpagesExt_refuses {mpid : Option Nat}
    (h : assignFpagesExt mm s mpid as base size pf pl = .ok (ret, pf', pl', s')) :
    (ret = -1 ∧ pf' = pf ∧ pl' = pl ∧ s' = s) ∨
      (size ≠ 0#32 ∧ ∃ m, (mpid <|> mempoolSearch mm base size) = some m) := by
  unfold assignFpagesExt at h
  by_cases hs : size = 0#32
  · rw [if_pos hs] at h
    have := pure_ok.mp h
    simp only [Prod.mk.injEq] at this
    exact .inl ⟨this.1.symm, this.2.1.symm, this.2.2.1.symm, this.2.2.2.symm⟩
  · rw [if_neg hs] at h
    cases hm : (mpid <|> mempoolSearch mm base size) with
    | none =>
      simp only [hm] at h
      have := pure_ok.mp h
      simp only [Prod.mk.injEq] at this
      exact .inl ⟨this.1.symm, this.2.1.symm, this.2.2.1.symm, this.2.2.2.symm⟩
    | some m => exact .inr ⟨hs, m, rfl⟩

/-- The invariant rule of `assign_fpages_ext` on an address space: it returns at
once, or the loop ends in a state with the invariant and what is left of the
request is appended to the list. -/
theorem assignFpagesExt_rule {base : Word} {mpid : Option Nat}
    {I : Nat → AssignState → List FpRef → List FpRef → Prop} (hl : Chain s.asNext (s.as a).first l)
    (hlive : ∀ x ∈ l, s.liveFp x = true)
    (h0 : ∀ m, I m { s := s, fp := .first, base := base, pfirst := pf, plast := pl } [] l)
    (hgap : ∀ m st st' done cur rest c, I m st done (cur :: rest) → st.base < base + size →
      GapFilled mm m a (base + size) st st' done cur rest c → I m st' (done ++ c ++ [cur]) rest)
    (hpage : ∀ m st done cur rest, I m st done (cur :: rest) → st.base < base + size →
      ¬ st.base < (st.s.fp cur).base → st.base < (st.s.fp cur).stop →
      I m { st with fp := .nextOf cur, base := (st.s.fp cur).stop,
                    pfirst := st.pfirst <|> some cur, plast := some cur } (done ++ [cur]) rest)
    (hskip : ∀ m st done cur rest, I m st done (cur :: rest) → st.base < base + size →
      ¬ st.base < (st.s.fp cur).base → ¬ st.base < (st.s.fp cur).stop →
      I m { st with fp := .nextOf cur } (done ++ [cur]) rest)
    (h : assignFpagesExt mm s mpid (some a) base size pf pl = .ok (ret, pf', pl', s')) :
    (ret = -1 ∧ pf' = pf ∧ pl' = pl ∧ s' = s) ∨
    (ret = 0 ∧ size ≠ 0#32 ∧ ∃ m st done rest, (mpid <|> mempoolSearch mm base size) = some m ∧
      Chain st.s.asNext (st.s.as a).first (done ++ rest) ∧
      (∀ x ∈ done ++ rest, st.s.liveFp x = true) ∧ I m st done rest ∧
      ((¬ st.base < base + size ∧ pf' = st.pfirst ∧ pl' = st.plast ∧ s' = st.s) ∨
        (st.base < base + size ∧ rest = [] ∧ ∃ s1 c,
          Built mm m st.s s1 (gapBlocks mm m st.base (base + size)) c ∧
          AsEdit s1 s' a (done ++ c) ∧ pf' = (st.pfirst <|> c.head?) ∧ pl' = c.getLast?))) := by
  rcases assignFpagesExt_refuses h with href | ⟨hs, m, hm⟩
  · exact .inl href
  right
  unfold assignFpagesExt at h
  rw [if_neg hs] at h
  simp only [hm] at h
  obtain ⟨st, hloop, h⟩ := bind_ok.mp h
  obtain ⟨done, rest, hl', hlive', hfp, hI, hrest⟩ :=
    assignLoop_rule (hgap m) (hpage m) (hskip m) _
      { s := s, fp := .first, base := base, pfirst := pf, plast := pl } st [] l hl hlive rfl
      (h0 m) hloop
  by_cases hb : st.base < base + size
  · rw [if_pos hb] at h
    obtain ⟨⟨first, last, s1⟩, hchain, h⟩ := bind_ok.mp h
    obtain ⟨c, hbuilt, hf, hlast⟩ := createFpageChain_spec hchain
    have := pure_ok.mp h
    obtain ⟨rfl, rfl, rfl, rfl⟩ := this
    subst hf hlast
    have hr := hrest hb
    subst hr
    rw [List.append_nil] at hl' hlive'
    have hedit := linkOf_write_last (hbuilt.keeps hl' hlive') hbuilt.chain
      (hbuilt.not_mem hlive')
    rw [← hfp] at hedit
    exact ⟨rfl, hs, m, st, done, [], hm, by rwa [List.append_nil],
      by rwa [List.append_nil], hI, .inr ⟨hb, rfl, s1, c, hbuilt, hedit, rfl, rfl⟩⟩
  · rw [if_neg hb] at h
    have := pure_ok.mp h
    obtain ⟨rfl, rfl, rfl, rfl⟩ := this
    exact ⟨rfl, hs, m, st, done, rest, hm, hl', hlive', hI, .inl ⟨hb, rfl, rfl, rfl⟩⟩

theorem assignFpagesExt_ret {mp : Option Nat} (hsize : size ≠ 0#32)
    (hpool : mempoolSearch mm base size = some q) (hmp : mp = none ∨ mp = some q)
    (h : assignFpagesExt mm s mp as base size pf pl = .ok (ret, pf', pl', s')) : ret = 0 := by
  have hm : (mp <|> mempoolSearch mm base size) = some q := by
    rcases hmp with rfl | rfl
    · rw [hpool]
      rfl
    · rfl
  unfold assignFpagesExt at h
  rw [if_neg hsize] at h
  simp only [hm] at h
  cases as with
  | none =>
    obtain ⟨_, _, h⟩ := bind_ok.mp h
    exact (pure_pair.mp h).1.symm
  | some a =>
    obtain ⟨st, _, h⟩ := bind_ok.mp h
    split at h
    · obtain ⟨_, _, h⟩ := bind_ok.mp h
      exact (pure_pair.mp h).1.symm
    · exact (pure_pair.mp h).1.symm

theorem Extended.base_eq {m : Nat} (h : Extended mm m s s' a l0 N l) {x : FpRef}
    (hx : s.liveFp x = true) : (s'.fp x).base = (s.fp x).base ∧ (s'.fp x).stop = (s.fp x).stop := by
  have hxN : x ∉ N := fun hxN => ne_true_of_eq_false (h.fresh x hxN) hx
  rw [h.frame x hxN]
  exact ⟨rfl, rfl⟩

theorem Extended.lists {L : AsRef → List FpRef} (hL : Lists s L) (ha : s.liveAs a = true)
    (h : Extended mm mpid s s' a (L a) N l) : Lists s' (Function.update L a l) := by
  refine hL.step h.out.liveAs (fun _ => h.list) ?_ h.first ?_
  · intro x hx
    rw [h.live]
    rcases (h.mem x).mp hx with hx | hx
    · simp [hL.live a ha x hx]
    · simp [hx]
  · intro b hb hba x hx
    have hxl : x ∉ l := by
      rw [h.mem, not_or]
      exact ⟨hL.disj b a hb ha hba x hx, fun hxN => hL.not_mem (h.fresh x hxN) hb hx⟩
    refine ⟨hxl, ?_, h.links x hxl⟩
    rw [h.live]
    simp [hL.live b hb x hx]

end F9
