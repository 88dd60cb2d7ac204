import F9.Lib.Sweep
import F9.Logic.Assign

/-!
# The walk of `assign_fpages_ext` as a sweep

`assign_fpages_ext` sweeps the request over the pages of the address space, in the sense of
`Sweep.Swept`: the chain for a gap has the blocks `gapBlocks`, and the cursor goes on at
`FPAGE_END`. `assignFpagesExt_swept` gives the list after a run and the two results from the
sweep, for a list in any order.
-/

namespace F9

open Arc Linked Result Sweep

variable {bl : List (Word × Nat)} {s1 : Kernel}

/-- The first address of a page. -/
def Fpage.lo (f : Fpage) : Nat := f.base.toNat

/-- `c` is a chain of pages for the gap `[b, e)`, new since `s0`. -/
structure GapChain (mm : Memmap) (m : Nat) (s0 s : Kernel) (b e : Nat) (c : List FpRef) :
    Prop where
  fresh : ∀ x ∈ c, s0.liveFp x = false
  room : (gapBlocks mm m (BitVec.ofNat 32 b) (BitVec.ofNat 32 e)).length ≤ s0.fpageTable.num
  pages : PagesFor mm m s c (gapBlocks mm m (BitVec.ofNat 32 b) (BitVec.ofNat 32 e))

/-- A state of the sweep of `[b, e)` over pages of `s`. -/
abbrev SweptIn (mm : Memmap) (m : Nat) (s0 s : Kernel) (b e : Nat) (w : State FpRef) : Prop :=
  Swept (fun x => (s.fp x).lo) (fun x => (s.fp x).stop.toNat) (GapChain mm m s0 s) b e w

variable {mm : Memmap} {s0 s s' : Kernel} {a : AsRef} {l c : List FpRef} {m b e : Nat}

theorem orElse_eq_or (o p : Option FpRef) : (o <|> p) = o.or p := by
  cases o <;> rfl

theorem ofNat_toNat_word (x : Word) : BitVec.ofNat 32 x.toNat = x := by
  rw [BitVec.ofNat_toNat, BitVec.setWidth_eq]

/-- A chain takes no more pages than the table has. -/
theorem Built.room (h : Built mm m s s' bl c) : bl.length ≤ s.fpageTable.num := by
  have hlen := h.pages.length_eq
  rw [← hlen]
  refine length_le_of_nodup_lt h.chain.nodup fun x hx => ?_
  rw [← h.rest.num]
  refine liveFp_lt ?_
  rw [h.live, decide_eq_true hx, Bool.or_true]

theorem gapEnd_toNat (x y : Word) : (if x < y then x else y).toNat = min x.toNat y.toNat := by
  by_cases h : x < y
  · rw [if_pos h]
    rw [BitVec.lt_def] at h
    omega
  · rw [if_neg h]
    rw [BitVec.lt_def] at h
    omega

/-- A chain that was built since `s0` and is linked in. -/
theorem Extended.gapChain {N l0 : List FpRef} {b e : Word} (hN : Extended mm m s0 s a l0 N l)
    (h : Built mm m s s1 (gapBlocks mm m b e) c) {l' : List FpRef} (he : AsEdit s1 s' a l') :
    GapChain mm m s0 s' b.toNat e.toNat c := by
  refine ⟨fun x hx => ?_, ?_, ?_⟩
  · have := h.fresh x hx
    rw [hN.live, Bool.or_eq_false_iff] at this
    exact this.1
  · rw [ofNat_toNat_word, ofNat_toNat_word, ← hN.out.num]
    exact h.room
  · rw [ofNat_toNat_word, ofNat_toNat_word]
    exact PagesFor.congr h.pages fun y _ => he.fp y

theorem SweptIn.mono {w : State FpRef} (h : SweptIn mm m s0 s b e w) (hb : Built mm m s s1 bl c)
    (he : AsEdit s1 s' a l) (hlive : ∀ x ∈ w.out, s.liveFp x = true) :
    SweptIn mm m s0 s' b e w := by
  have hfp : ∀ x ∈ w.out, s'.fp x = { s.fp x with asNext := s'.asNext x } := by
    intro x hx
    rw [he.fp, hb.frame_none fun hxc => hb.not_mem hlive x hxc hx]
  refine Swept.mono h (fun x hx => ?_) fun b' e' d hd hchain => ?_
  · rw [hfp x (h.passed_mem x hx)]
    exact ⟨rfl, rfl⟩
  · exact ⟨hchain.fresh, hchain.room, hchain.pages.congr fun x hx => hfp x (hd x hx)⟩

/-- Along the loop the pages `done` are what a sweep has put out. -/
structure SweepInv (mm : Memmap) (s : Kernel) (a : AsRef) (l : List FpRef) (base stop : Word)
    (pf pl : Option FpRef) (m : Nat) (st : AssignState) (done rest : List FpRef) : Prop where
  ext : ∃ N, Extended mm m s st.s a l N (done ++ rest)
  swept : ∃ w, SweptIn mm m s st.s base.toNat stop.toNat w ∧ l = w.passed ++ rest ∧
    w.cursor = st.base.toNat ∧ w.out = done ∧ st.pfirst = pf.or w.first ∧
    st.plast = w.last.or pl

section

variable {base stop : Word} {pf pl : Option FpRef} {st st' : AssignState}
  {done rest c : List FpRef} {cur : FpRef}

theorem SweepInv.live (hlive : ∀ x ∈ l, s.liveFp x = true)
    (h : SweepInv mm s a l base stop pf pl m st done rest) :
    ∀ x ∈ done ++ rest, st.s.liveFp x = true := by
  obtain ⟨N, hN⟩ := h.ext
  intro x hx
  rw [hN.live]
  rcases (hN.mem x).mp hx with hx | hx
  · rw [hlive x hx, Bool.true_or]
  · rw [decide_eq_true hx, Bool.or_true]

theorem SweepInv.gap (hlive : ∀ x ∈ l, s.liveFp x = true)
    (hI : SweepInv mm s a l base stop pf pl m st done (cur :: rest)) (hlt : st.base < stop)
    (hg : GapFilled mm m a stop st st' done cur rest c) :
    SweepInv mm s a l base stop pf pl m st' (done ++ c ++ [cur]) rest := by
  obtain ⟨N, hN⟩ := hI.ext
  obtain ⟨w, hw, hp, hcursor, hout, hfirst, _⟩ := hI.swept
  obtain ⟨s1, hbuilt, hedit⟩ := hg.effect
  have hlive' := hI.live hlive
  have hmem : ∀ x, x ∈ done ++ c ++ cur :: rest ↔ x ∈ done ++ cur :: rest ∨ x ∈ c := by
    intro x
    grind
  have happ : done ++ c ++ [cur] ++ rest = done ++ c ++ cur :: rest := by simp
  have hcur : st'.s.fp cur = { st.s.fp cur with asNext := st'.s.asNext cur } := by
    rw [hedit.fp, hbuilt.frame_none fun hc => hbuilt.not_mem hlive' cur hc (by simp)]
  have hlo : (st'.s.fp cur).lo = (st.s.fp cur).base.toNat := by
    rw [hcur]
    rfl
  have hw' := hw.mono hbuilt hedit fun x hx => hlive' x (by rw [← hout]; simp [hx])
  have hchain : GapChain mm m s st'.s w.cursor (min stop.toNat (st'.s.fp cur).lo) c := by
    rw [hlo, hcursor, ← gapEnd_toNat]
    exact hN.gapChain hbuilt hedit
  refine ⟨⟨_, by rw [happ]; exact hN.grow hbuilt hedit hmem⟩, _,
    Swept.gap hw' (by rw [hcursor]; exact BitVec.lt_def.mp hlt)
      (by rw [hcursor, hlo]; exact BitVec.lt_def.mp hg.gap) hchain hg.ne,
    by rw [hp]; simp, ?_, by rw [hout], ?_, ?_⟩
  · rw [hg.base, hcur]
    rfl
  · rw [hg.pfirst, hfirst, orElse_eq_or, Option.or_assoc]
  · rw [hg.plast]
    cases hc : c.getLast? with
    | none => exact absurd (List.getLast?_eq_none_iff.mp hc) hg.ne
    | some z => rfl

section

variable (hI : SweepInv mm s a l base stop pf pl m st done (cur :: rest)) (hlt : st.base < stop)
  (h1 : ¬ st.base < (st.s.fp cur).base)
include hI hlt h1

theorem SweepInv.page (h2 : st.base < (st.s.fp cur).stop) :
    SweepInv mm s a l base stop pf pl m
      { st with fp := .nextOf cur, base := (st.s.fp cur).stop,
                pfirst := st.pfirst <|> some cur, plast := some cur } (done ++ [cur]) rest := by
  obtain ⟨N, hN⟩ := hI.ext
  obtain ⟨w, hw, hp, hcursor, hout, hfirst, _⟩ := hI.swept
  rw [BitVec.lt_def, ← hcursor] at hlt h1 h2
  refine ⟨⟨N, by rw [List.append_assoc]; exact hN⟩, _,
    Swept.held hw hlt (Nat.not_lt.mp h1) h2, by rw [hp]; simp, rfl, by rw [hout], ?_, rfl⟩
  rw [hfirst, orElse_eq_or, Option.or_assoc]

theorem SweepInv.skip (h2 : ¬ st.base < (st.s.fp cur).stop) :
    SweepInv mm s a l base stop pf pl m { st with fp := .nextOf cur } (done ++ [cur]) rest := by
  obtain ⟨N, hN⟩ := hI.ext
  obtain ⟨w, hw, hp, hcursor, hout, hfirst, hlast⟩ := hI.swept
  rw [BitVec.lt_def, ← hcursor] at hlt h1 h2
  exact ⟨⟨N, by rw [List.append_assoc]; exact hN⟩, _,
    Swept.past hw hlt (Nat.not_lt.mp h1) (Nat.not_lt.mp h2), by rw [hp]; simp, hcursor,
    by rw [hout], hfirst, hlast⟩

end

end

/-- The sweep of a run that returned 0: it stopped behind the request, or it has seen all pages
and the rest of the request is one more gap. -/
def SweepEnds (mm : Memmap) (m : Nat) (s s' : Kernel) (e : Nat) (l l' : List FpRef)
    (w : State FpRef) (pf pl pf' pl' : Option FpRef) : Prop :=
  (e ≤ w.cursor ∧ (∃ rest, l = w.passed ++ rest ∧ l' = w.out ++ rest) ∧ pf' = pf.or w.first ∧
      pl' = w.last.or pl) ∨
    (w.cursor < e ∧ l = w.passed ∧ ∃ c, GapChain mm m s s' w.cursor e c ∧ l' = w.out ++ c ∧
      pf' = pf.or (w.first.or c.head?) ∧ pl' = c.getLast?)

theorem assignFpagesExt_swept {base size : Word} {mpid : Option Nat}
    {pf pl pf' pl' : Option FpRef} {ret : Int}
    (hl : Chain s.asNext (s.as a).first l) (hlive : ∀ x ∈ l, s.liveFp x = true)
    (h : assignFpagesExt mm s mpid (some a) base size pf pl = .ok (ret, pf', pl', s')) :
    (ret = -1 ∧ pf' = pf ∧ pl' = pl ∧ s' = s) ∨
    (ret = 0 ∧ size ≠ 0#32 ∧ ∃ m N l' w, (mpid <|> mempoolSearch mm base size) = some m ∧
      Extended mm m s s' a l N l' ∧ SweptIn mm m s s' base.toNat (base + size).toNat w ∧
      SweepEnds mm m s s' (base + size).toNat l l' w pf pl pf' pl') := by
  rcases assignFpagesExt_rule (I := SweepInv mm s a l base (base + size) pf pl) hl hlive
      (fun m => ⟨⟨[], .refl hl⟩, _, .start, rfl, rfl, rfl, by simp, rfl⟩)
      (fun _ _ _ _ _ _ _ hI hlt hg => hI.gap hlive hlt hg)
      (fun _ _ _ _ _ hI hlt h1 h2 => hI.page hlt h1 h2)
      (fun _ _ _ _ _ hI hlt h1 h2 => hI.skip hlt h1 h2) h with
    h | ⟨hret, hsize, m, st, done, rest, hm, _, _, hI, hend⟩
  · exact .inl h
  · refine .inr ⟨hret, hsize, m, ?_⟩
    obtain ⟨N, hN⟩ := hI.ext
    obtain ⟨w, hw, hp, hcursor, hout, hfirst, hlast⟩ := hI.swept
    rcases hend with ⟨hb, rfl, rfl, rfl⟩ | ⟨hb, rfl, s1, c, hbuilt, hedit, rfl, rfl⟩
    · rw [BitVec.lt_def, ← hcursor, Nat.not_lt] at hb
      exact ⟨N, done ++ rest, w, hm, hN, hw,
        .inl ⟨hb, ⟨rest, hp, by rw [hout]⟩, hfirst, hlast⟩⟩
    · rw [List.append_nil] at hN hp
      rw [BitVec.lt_def, ← hcursor] at hb
      have hlive' : ∀ x ∈ w.out, st.s.liveFp x = true := fun x hx =>
        hI.live hlive x (by rw [← hout]; simp [hx])
      refine ⟨_, done ++ c, w, hm, hN.grow hbuilt hedit fun x => List.mem_append,
        hw.mono hbuilt hedit hlive', .inr ⟨hb, hp, c, ?_, by rw [hout], ?_, rfl⟩⟩
      · rw [hcursor]
        exact hN.gapChain hbuilt hedit
      · rw [hfirst, orElse_eq_or, Option.or_assoc]

theorem GapChain.not_mem (h : GapChain mm m s0 s b e c) (hlive : ∀ x ∈ l, s0.liveFp x = true) :
    ∀ x ∈ c, x ∉ l := by
  intro x hx hxl
  exact ne_true_of_eq_false (h.fresh x hx) (hlive x hxl)

section

variable {base size : Word} {mpid : Option Nat} {pf pl : Option FpRef} {ret : Int}
  (hl : Chain s.asNext (s.as a).first l) (hlive : ∀ x ∈ l, s.liveFp x = true)
  (h : assignFpagesExt mm s mpid (some a) base size none none = .ok (ret, pf, pl, s'))
include hl hlive h

/-- The list after `assign_fpages_ext`, and where the two pointers stand. -/
theorem assignFpagesExt_ends :
    (ret = -1 ∧ pf = none ∧ pl = none ∧ s' = s) ∨
    (ret = 0 ∧ ∃ m N l', Extended mm m s s' a l N l' ∧ (∀ x, pf = some x → x ∈ l') ∧
      (∀ x, pl = some x → x ∈ l') ∧
      ∀ x ∈ l, pf = some x → pl = some x → addrInFpage base (s.fp x) false = true ∧
        addrInFpage (base + size) (s.fp x) true = true) := by
  rcases assignFpagesExt_swept hl hlive h with h | ⟨hret, _, m, N, l', w, _, hN, hw, hend⟩
  · exact .inl h
  · refine .inr ⟨hret, m, N, l', hN, ?_⟩
    have hfirst : ∀ x, w.first = some x → x ∈ w.out := by
      intro x hx
      rcases hw.first_some hx with ⟨hx, _⟩ | ⟨hx, _⟩
      · exact hw.passed_mem x hx
      · exact hx
    rcases hend with ⟨hdone, ⟨rest, _, rfl⟩, rfl, rfl⟩ | ⟨_, _, c, hc, rfl, rfl, rfl⟩
    · rw [Option.none_or, Option.or_none]
      refine ⟨fun x hx => List.mem_append_left _ (hfirst x hx), fun x hx => ?_, ?_⟩
      · refine List.mem_append_left _ ?_
        rcases hw.last_some hx with ⟨hx, _⟩ | ⟨hx, _⟩
        · exact hw.passed_mem x hx
        · exact hx
      · intro x hx hf hla
        obtain ⟨hbase, hstop⟩ := hN.base_eq (hlive x hx)
        rcases hw.first_some hf with ⟨_, h1, h2⟩ | ⟨_, q, _, _, c, hc, hhead⟩
        · rcases hw.last_some hla with ⟨_, h3⟩ | ⟨_, q, _, c, hc, hxc⟩
          · have hne : base.toNat < (base + size).toNat := by
              by_contra hle
              rw [hw.idle (Nat.not_lt.mp hle)] at hf
              simp at hf
            unfold Fpage.lo at h1
            unfold addrInFpage
            simp only [Bool.false_and, Bool.or_false, Bool.and_eq_true, decide_eq_true_eq,
              Bool.true_and, Bool.or_eq_true]
            bv_omega
          · exact absurd hx (hc.not_mem hlive x hxc)
        · exact absurd hx (hc.not_mem hlive x (List.mem_of_mem_head? hhead))
    · refine ⟨fun x hx => ?_, fun x hx => ?_, fun x hx _ hla => ?_⟩
      · cases hf : w.first with
        | none =>
          rw [hf] at hx
          exact List.mem_append_right _ (List.mem_of_mem_head? hx)
        | some y =>
          rw [hf] at hx
          injection hx with hx
          exact List.mem_append_left _ (hx ▸ hfirst y hf)
      · exact List.mem_append_right _ (List.mem_of_mem_getLast? hx)
      · exact absurd hx (hc.not_mem hlive x (List.mem_of_mem_getLast? hla))

/-- `assign_fpages_ext` on an address space extends its list. -/
theorem assignFpagesExt_extended : s' = s ∨ ∃ m N l', Extended mm m s s' a l N l' := by
  rcases assignFpagesExt_ends hl hlive h with ⟨_, _, _, h4⟩ | ⟨_, m, N, l', he, _⟩
  · exact .inl h4
  · exact .inr ⟨m, N, l', he⟩

end

end F9
