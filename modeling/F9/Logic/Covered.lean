import F9.Logic.Gaps

/-!
# Requests inside the space

For a range that a sorted space covers, `assign_fpages_ext` creates nothing: it passes the
pages from the one of `base` to the one of the last address (`assignFpagesExt_covered`).
-/

namespace F9

open Linked Result

variable {mm : Memmap} {s : Kernel} {a : AsRef}

/-- The pages of the space hold every address from `lo` to `hi`. -/
def Kernel.Holds (s : Kernel) (a : AsRef) (lo hi : Nat) : Prop :=
  ∀ n, lo ≤ n → n < hi → ∃ x ∈ s.pages a, (s.fp x).lo ≤ n ∧ n < (s.fp x).hi

section

variable {mpid : Nat} {stop : Word}

theorem assignStep_page {st : AssignState} {cur : FpRef} (h1 : ¬ st.base < (st.s.fp cur).base)
    (h2 : st.base < (st.s.fp cur).stop) : assignStep mm mpid a stop st cur =
      .ok { st with fp := .nextOf cur, base := (st.s.fp cur).stop,
                    pfirst := st.pfirst <|> some cur, plast := some cur } := by
  unfold assignStep
  rw [if_neg h1, if_pos h2]
  rfl

theorem assignStep_skip {st : AssignState} {cur : FpRef} (h1 : ¬ st.base < (st.s.fp cur).base)
    (h2 : ¬ st.base < (st.s.fp cur).stop) : assignStep mm mpid a stop st cur =
      .ok { st with fp := .nextOf cur } := by
  unfold assignStep
  rw [if_neg h1, if_neg h2]
  rfl

/-- Over a held range the loop skips the pages before the cursor, passes the one that holds it and
goes on behind it, up to the page of the last address. -/
theorem assignLoop_covered (mm : Memmap) (mpid : Nat) (hwf : Wf s) (ha : SortedSpace s a)
    (hbelow : ∀ x ∈ s.pages a, (s.fp x).hi < 2 ^ 32) (rest pre : List FpRef) (b : Word)
    (pf pl : Option FpRef) (n : Nat) (hl : s.pages a = pre ++ rest) (hn : rest.length < n)
    (hpre : ∀ x ∈ pre, (s.fp x).hi ≤ b.toNat) (hlt : b.toNat < stop.toNat)
    (hheld : s.Holds a b.toNat stop.toNat) :
    ∃ st P w mid post, assignLoop mm mpid a stop n ⟨s, linkOf pre, b, pf, pl⟩ = .ok st ∧
      st.s = s ∧ st.pfirst = (pf <|> some P) ∧ st.plast = some w ∧ ¬ st.base < stop ∧
      rest = mid ++ P :: post ∧ w ∈ P :: post ∧ (s.fp P).lo ≤ b.toNat ∧ b.toNat < (s.fp P).hi ∧
      (s.fp w).lo < stop.toNat ∧ stop.toNat ≤ (s.fp w).hi := by
  induction rest generalizing pre b pf pl n with
  | nil =>
    obtain ⟨x, hx, _, h2⟩ := hheld _ (Nat.le_refl _) hlt
    rw [hl, List.append_nil] at hx
    have := hpre x hx
    omega
  | cons cur rest ih =>
    obtain ⟨n, rfl⟩ : ∃ m, n = m + 1 := ⟨n - 1, by omega⟩
    have hcm : cur ∈ s.pages a := by rw [hl]; simp
    have hstop := (ha.sized cur hcm).stop_eq (hbelow cur hcm)
    have hcur := (s.fp cur).lo_lt_hi
    have hchain := hwf.chain a ha.live
    rw [hl] at hchain
    have hl' : s.pages a = (pre ++ [cur]) ++ rest := by
      rw [hl]
      simp
    have hrun : ∀ {st st'}, assignStep mm mpid a stop ⟨s, linkOf pre, b, pf, pl⟩ cur = .ok st' →
        assignLoop mm mpid a stop n st' = .ok st →
        assignLoop mm mpid a stop (n + 1) ⟨s, linkOf pre, b, pf, pl⟩ = .ok st := by
      intro st st' hstep hloop
      unfold assignLoop
      rw [if_pos (BitVec.lt_def.mpr hlt), linkOf_read hchain]
      exact bind_ok.mpr ⟨_, hstep, hloop⟩
    have hpre' : ∀ m, b.toNat ≤ m → (s.fp cur).hi ≤ m → ∀ x ∈ pre ++ [cur], (s.fp x).hi ≤ m := by
      intro m hbm hm x hx
      rcases List.mem_append.mp hx with hx | hx
      · exact (hpre x hx).trans hbm
      · rw [List.mem_singleton.mp hx]
        exact hm
    by_cases hpast : (s.fp cur).hi ≤ b.toNat
    · obtain ⟨st, P, w, mid, post, hloop, hs, hpf, hpl, hend, rfl, hres⟩ :=
        ih (pre ++ [cur]) b pf pl n hl' (by simpa using hn) (hpre' _ (Nat.le_refl _) hpast) hlt hheld
      rw [linkOf_concat] at hloop
      refine ⟨st, P, w, cur :: mid, post, hrun (assignStep_skip ?_ ?_) hloop, hs, hpf, hpl, hend,
        rfl, hres⟩
      · show ¬ b.toNat < (s.fp cur).lo
        omega
      · rw [BitVec.lt_def, hstop]
        exact Nat.not_lt.mpr hpast
    · -- no other page can hold the cursor
      have hlo : (s.fp cur).lo ≤ b.toNat := by
        obtain ⟨x, hx, h1, h2⟩ := hheld _ (Nat.le_refl _) hlt
        have hord := ha.ordered
        rw [hl] at hx hord
        rcases List.mem_append.mp hx with hx | hx
        · have := hpre x hx
          omega
        · rcases List.mem_cons.mp hx with rfl | hx
          · exact h1
          · have := (hord.around).2 x hx
            omega
      have hstep : assignStep mm mpid a stop ⟨s, linkOf pre, b, pf, pl⟩ cur =
          .ok ⟨s, .nextOf cur, (s.fp cur).stop, pf <|> some cur, some cur⟩ := by
        refine assignStep_page (Nat.not_lt.mpr hlo) ?_
        rw [BitVec.lt_def, hstop]
        exact Nat.not_le.mp hpast
      by_cases hmore : (s.fp cur).hi < stop.toNat
      · obtain ⟨st, P, w, mid, post, hloop, hs, hpf, hpl, hend, rfl, hw, _, _, hres⟩ :=
          ih (pre ++ [cur]) (s.fp cur).stop (pf <|> some cur) (some cur) n hl' (by simpa using hn)
            (hpre' _ (by omega) (by omega)) (by omega) fun k hk => hheld k (by omega)
        rw [linkOf_concat] at hloop
        refine ⟨st, cur, w, [], mid ++ P :: post, hrun hstep hloop, hs, ?_, hpl, hend, rfl, ?_, hlo,
          by omega, hres⟩
        · rw [hpf]
          cases pf <;> rfl
        · exact List.mem_cons_of_mem _ (List.mem_append_right _ hw)
      · obtain ⟨n, rfl⟩ := Nat.exists_eq_add_of_lt (Nat.lt_of_succ_lt_succ hn)
        have hdone : ¬ (s.fp cur).stop < stop := by
          rw [BitVec.lt_def, hstop]
          exact hmore
        exact ⟨_, cur, cur, [], rest, hrun hstep (if_neg hdone), rfl, rfl, rfl, hdone, rfl,
          List.mem_cons_self, hlo, by omega, by omega, by omega⟩

/-- A range of the space is assigned already: the results are the pages of its first and its
last address. -/
theorem assignFpagesExt_covered {base size : Word} (hwf : Wf s) (ha : SortedSpace s a)
    (hbelow : ∀ x ∈ s.pages a, (s.fp x).hi < 2 ^ 32) (hpos : size ≠ 0#32)
    (hpool : mempoolSearch mm base size ≠ none)
    (hheld : s.Holds a base.toNat (base.toNat + size.toNat)) :
    ∃ P w pre rest, assignFpagesExt mm s none (some a) base size none none =
        .ok (0, some P, some w, s) ∧
      s.pages a = pre ++ P :: rest ∧ w ∈ P :: rest ∧ (s.fp P).lo ≤ base.toNat ∧
      base.toNat < (s.fp P).hi ∧ (base + size).toNat = base.toNat + size.toNat ∧
      (s.fp w).lo < base.toNat + size.toNat ∧ base.toNat + size.toNat ≤ (s.fp w).hi := by
  have hsize : 0 < size.toNat :=
    Nat.pos_of_ne_zero fun h0 => hpos (BitVec.eq_of_toNat_eq (by simpa using h0))
  obtain ⟨y, hym, _, hy2⟩ := hheld (base.toNat + size.toNat - 1) (by omega) (by omega)
  have hE : (base + size).toNat = base.toNat + size.toNat := by
    have := hbelow y hym
    rw [BitVec.toNat_add, Nat.mod_eq_of_lt (by omega)]
  obtain ⟨mpid, hmpid⟩ := Option.ne_none_iff_exists'.mp hpool
  obtain ⟨st, P, w, pre, rest, hloop, hs, hpf, hpl, hend, hl, hw, hP1, hP2, hw1, hw2⟩ :=
    assignLoop_covered mm mpid hwf ha hbelow (s.pages a) [] base none none s.walkBound rfl
      (hwf.length_lt ha.live) (by simp) (show base.toNat < (base + size).toNat by omega)
      (by rw [hE]; exact hheld)
  rw [hE] at hw1 hw2
  refine ⟨P, w, pre, rest, ?_, hl, hw, hP1, hP2, hE, hw1, hw2⟩
  unfold assignFpagesExt
  rw [if_neg hpos, hmpid]
  refine bind_ok.mpr ⟨st, hloop, ?_⟩
  rw [if_neg hend, hpf, hpl, hs]
  rfl

end

end F9
