import F9.Logic.Gaps

/-!
# `assign_fpages_ext` on a sorted list

What `assign_fpages_ext` does to a sorted address space (`Assigned`), for a request that stays
below the end of memory. Only the chain for a gap at the begin of the request can end one unit too
far; if that chain has room, the list stays sorted (`Assigned.sortedSpace`).
-/

namespace F9

open Arc Linked Result Sweep

variable {mm : Memmap} {s t s' : Kernel} {a : AsRef} {m : Nat} {base size : Word}

/-- The request and the pages of the space stay below the end of memory. -/
structure Roomy (s : Kernel) (a : AsRef) (base size : Word) : Prop where
  below : ∀ x ∈ s.pages a, (s.fp x).hi < 2 ^ 32
  fits : roundUp base.toNat + roundUp size.toNat < 2 ^ 32

theorem Roomy.stop_toNat (h : Roomy s a base size) :
    (base + size).toNat = base.toNat + size.toNat := by
  have := h.fits
  unfold roundUp at this
  rw [BitVec.toNat_add, Nat.mod_eq_of_lt (by omega)]

/-- A chain that begins at `base` ends before the next page. It can only fail to do so if
`base` is in no page and not a multiple of 256. -/
def StartClear (s : Kernel) (a : AsRef) (base size : Word) : Prop :=
  256 ∣ base.toNat ∨
  (∃ x ∈ s.pages a, (s.fp x).lo ≤ base.toNat ∧ base.toNat < (s.fp x).hi) ∨
  ∀ x ∈ s.pages a, base.toNat < (s.fp x).lo →
    roundUp base.toNat + roundUp size.toNat ≤ (s.fp x).lo

/-- `x` stands before `y` on the list of `a` in `t`: it begins before `y`, and ends before
it unless it is a new page and the request is not clear. -/
def Follows (s t : Kernel) (a : AsRef) (base size : Word) (x y : FpRef) : Prop :=
  (t.fp x).lo ≤ (t.fp y).lo ∧
    (x ∈ s.pages a ∨ StartClear s a base size → (t.fp x).hi ≤ (t.fp y).lo)

/-- The first page of the request: an old page that holds `base`, or the first of a chain
if no page does. -/
def FirstAt (s t : Kernel) (a : AsRef) (base : Word) (f : FpRef) : Prop :=
  (f ∈ s.pages a ∧ (t.fp f).lo ≤ base.toNat ∧ base.toNat < (t.fp f).hi) ∨
    (f ∉ s.pages a ∧ (t.fp f).lo = roundUp base.toNat ∧
      ∀ x ∈ s.pages a, (s.fp x).hi ≤ base.toNat ∨ base.toNat < (s.fp x).lo)

/-- The request begins in an old page, or an old page begins inside it. -/
def Crossed (s : Kernel) (a : AsRef) (base stop : Word) (f : FpRef) : Prop :=
  f ∈ s.pages a ∨
    ∃ x ∈ s.pages a, base.toNat < (s.fp x).lo ∧ (s.fp x).lo < stop.toNat

/-- The list after `assign_fpages_ext`, with the pages `seg` from `first` to `last`. The
last page holds the end of the request; or `seg` is the one chain that begins at `base`; or
the last gap of the request is in front of its last page, and `last` is the page before
it. -/
structure Assigned (s t : Kernel) (a : AsRef) (base size : Word) (pre seg post : List FpRef)
    (f z : FpRef) : Prop where
  pages : t.pages a = pre ++ seg ++ post
  head : seg.head? = some f
  last : seg.getLast? = some z
  sized : t.Sized a
  below : ∀ x ∈ t.pages a, (t.fp x).hi < 2 ^ 32
  order : (t.pages a).Pairwise (Follows s t a base size)
  first : FirstAt s t a base f
  low : ∀ x ∈ seg, x ≠ f → roundUp base.toNat ≤ (t.fp x).lo
  high : ∀ x ∈ seg, x ≠ z → (t.fp x).hi ≤ roundUp (base + size).toNat
  lastAt :
    ((t.fp z).lo < (base + size).toNat ∧ (base + size).toNat ≤ (t.fp z).hi ∧
      Crossed s a base (base + size) f) ∨
    ((∀ x ∈ seg, x ∉ s.pages a) ∧ (∀ x ∈ post, (base + size).toNat ≤ (t.fp x).lo) ∧
      Fills t seg (roundUp base.toNat) (roundUp base.toNat + roundUp size.toNat)) ∨
    (z ∉ s.pages a ∧ (t.fp z).lo < (base + size).toNat ∧ ∃ cur post', post = cur :: post' ∧
      cur ∈ s.pages a ∧ (t.fp cur).lo < (base + size).toNat ∧
      (base + size).toNat ≤ (t.fp cur).hi ∧ (t.fp z).hi ≤ (t.fp cur).lo + 256)

/-! ## The sweep of a sorted space -/

/-- The pages of `s` in `t`, with room for the request, and a sweep over them with the pages
`rest` ahead. -/
structure Sweeping (mm : Memmap) (m : Nat) (s t : Kernel) (a : AsRef) (base size : Word)
    (w : State FpRef) (rest : List FpRef) : Prop where
  ready : Ready s
  space : SortedSpace s a
  room : Roomy s a base size
  block : ∀ x ∈ s.pages a, (t.fp x).block = (s.fp x).block
  swept : SweptIn mm m s t base.toNat (base + size).toNat w
  list : s.pages a = w.passed ++ rest

section

variable {w v : State FpRef} {rest c : List FpRef}

namespace Sweeping

section

variable (h : Sweeping mm m s t a base size w rest) {e b : Nat} {q : ℕ × ℕ} {f y : FpRef}
include h

theorem sized : ∀ x ∈ s.pages a, (t.fp x).Sized :=
  fun x hx => (h.space.sized x hx).congr (h.block x hx)

theorem below : ∀ x ∈ s.pages a, (t.fp x).hi < 2 ^ 32 := by
  intro x hx
  rw [Fpage.hi_congr (h.block x hx)]
  exact h.room.below x hx

theorem ordered : t.Ordered (w.passed ++ rest) := by
  rw [← h.list]
  exact h.space.ordered.congr h.block

theorem old : ∀ x ∈ w.passed, x ∈ s.pages a := by
  intro x hx
  rw [h.list]
  exact List.mem_append_left _ hx

theorem straight : StraightIn t w.passed := fun x hx =>
  ⟨(h.sized x (h.old x hx)).stop_eq (h.below x (h.old x hx)), (t.fp x).lo_lt_hi⟩

/-- A chain for a gap of the request that begins at `base` or at the end of a page. -/
theorem fills (hc : GapChain mm m s t b e c) (hb : base.toNat ≤ b) (hal : b = base.toNat ∨ 256 ∣ b)
    (hlt : b < e) (he : e ≤ (base + size).toNat) :
    Fills t c (roundUp b) (chainEnd b e) ∧ (∀ x ∈ c, (t.fp x).Sized) ∧ chainEnd b e < 2 ^ 32 := by
  have hE := h.room.stop_toNat
  have hfits := h.room.fits
  have hend : chainEnd b e < 2 ^ 32 := by
    rcases hal with rfl | hal
    · have := chainEnd_mono (b := base.toNat) he
      rw [hE] at this
      unfold chainEnd at this ⊢
      rw [Nat.add_sub_cancel_left] at this
      omega
    · have h1 := roundUp_mono he
      have h2 := (roundUp_add base.toNat size.toNat).1
      rw [chainEnd_aligned hal hlt.le]
      rw [hE] at h1
      omega
  have hsum : chainEnd b e = roundUp b + roundUp (e - b) := rfl
  obtain ⟨hf, hsz⟩ := hc.fills_from h.ready.num hlt (Nat.lt_of_le_of_lt he (base + size).isLt)
    (by omega) (by omega) hend.le
  exact ⟨hf, hsz, hend⟩

theorem gap_fills (hq : q ∈ w.gaps) (hc : GapChain mm m s t q.1 q.2 c) :
    Fills t c (roundUp q.1) (chainEnd q.1 q.2) ∧ (∀ x ∈ c, (t.fp x).Sized) ∧
      chainEnd q.1 q.2 < 2 ^ 32 := by
  obtain ⟨hb, hfrom, _⟩ := h.swept.gap_bounds h.straight q hq
  obtain ⟨hlt, hle⟩ := h.swept.gap_lt q hq
  refine h.fills hc hb (hfrom.imp_right ?_) hlt hle
  rintro ⟨x, hx, hqx⟩
  rw [hqx]
  exact (h.sized x (h.old x hx)).dvd_hi

/-- No page holds the begin of a gap. -/
theorem gap_none (hq : q ∈ w.gaps) : ∀ x ∈ s.pages a, (s.fp x).hi ≤ q.1 ∨ q.1 < (s.fp x).lo := by
  intro x hx
  have hlt := (h.swept.gap_lt q hq).1
  rw [← Fpage.lo_congr (h.block x hx), ← Fpage.hi_congr (h.block x hx)]
  rw [h.list] at hx
  rcases List.mem_append.mp hx with hx | hx
  · have := h.swept.gap_clear h.straight (List.pairwise_append.mp h.ordered).1 q hq x hx
    exact this.imp_right hlt.trans_le
  · exact .inr (hlt.trans_le (h.swept.gap_ahead h.straight h.ordered q hq x hx))

/-- A chain ends before the pages behind its gap if the request is clear, and in them otherwise. -/
theorem chain_before (hq : q ∈ w.gaps) (hy : y ∈ s.pages a) (hle : q.2 ≤ (t.fp y).lo) :
    chainEnd q.1 q.2 ≤ (t.fp y).lo + 256 ∧
      (StartClear s a base size → chainEnd q.1 q.2 ≤ (t.fp y).lo) := by
  obtain ⟨hlt, hqe⟩ := h.swept.gap_lt q hq
  obtain ⟨_, hfrom, _⟩ := h.swept.gap_bounds h.straight q hq
  have hround := roundUp_le (h.sized y hy).dvd_lo hle
  have hend := chainEnd_le hlt.le
  refine ⟨by omega, fun hclear => ?_⟩
  have haligned : 256 ∣ q.1 → chainEnd q.1 q.2 ≤ (t.fp y).lo := by
    intro hal
    rw [chainEnd_aligned hal hlt.le]
    exact hround
  rcases hfrom with hqb | ⟨x, hx, hqx⟩
  · rcases hclear with hal | ⟨x, hx, h1, h2⟩ | hclear
    · exact haligned (hqb ▸ hal)
    · have := h.gap_none hq x hx
      omega
    · have hfar := hclear y hy (by rw [← Fpage.lo_congr (h.block y hy)]; omega)
      rw [← Fpage.lo_congr (h.block y hy)] at hfar
      have hmono := chainEnd_mono (b := q.1) hqe
      rw [h.room.stop_toNat, hqb] at hmono
      rw [hqb]
      refine hmono.trans ?_
      unfold chainEnd
      rw [Nat.add_sub_cancel_left]
      exact hfar
  · exact haligned (hqx ▸ (h.sized x (h.old x hx)).dvd_hi)

theorem fit :
    Swept.Fit (fun x => (t.fp x).lo) (fun x => (t.fp x).hi) (GapChain mm m s t)
      (Follows s t a base size) w rest := by
  have hlive := h.ready.wf.live a h.space.live
  refine ⟨fun q hq c hc => ?_, fun q hq c hc x hx y hy => ?_, fun q hq c hc x hx y hy hle => ?_,
    fun q hq c hc x hx y hy hle => ?_⟩
  · refine (h.gap_fills hq hc).1.ordered.imp fun {x y} hxy => ?_
    have := (t.fp x).lo_lt_hi
    exact ⟨by omega, fun _ => hxy⟩
  · have h1 := ((h.gap_fills hq hc).1.bounds x hx).1
    have h2 := le_roundUp q.1
    have h3 := (t.fp y).lo_lt_hi
    exact ⟨by omega, fun _ => by omega⟩
  · rw [← h.list] at hy
    obtain ⟨hf, hsz, _⟩ := h.gap_fills hq hc
    obtain ⟨h1, h2⟩ := h.chain_before hq hy hle
    have h3 := (hf.bounds x hx).2
    have h4 := (hsz x hx).lo_lt
    refine ⟨by omega, ?_⟩
    rintro (hxl | hclear)
    · exact absurd hxl (hc.not_mem hlive x hx)
    · exact h3.trans (h2 hclear)
  · have h1 := ((h.gap_fills hq hc).1.bounds x hx).2
    have h2 := (h.chain_before hq (h.old y hy) hle).1
    have h3 := (h.sized y (h.old y hy)).lo_lt
    omega

theorem order : (w.out ++ rest).Pairwise (Follows s t a base size) := by
  refine h.swept.pairwise h.straight h.ordered h.fit (h.ordered.imp fun {x y} hxy => ?_)
  have := (t.fp x).lo_lt_hi
  exact ⟨by omega, fun _ => hxy⟩

theorem sized_out : ∀ x ∈ w.out ++ rest, (t.fp x).Sized ∧ (t.fp x).hi < 2 ^ 32 := by
  have hold : ∀ x ∈ s.pages a, (t.fp x).Sized ∧ (t.fp x).hi < 2 ^ 32 := fun x hx =>
    ⟨h.sized x hx, h.below x hx⟩
  intro x hx
  rcases List.mem_append.mp hx with hx | hx
  · rcases h.swept.mem_out x hx with hx | ⟨q, hq, c, hc, hx⟩
    · exact hold x (h.old x hx)
    · obtain ⟨hf, hsz, hend⟩ := h.gap_fills hq hc
      exact ⟨hsz x hx, Nat.lt_of_le_of_lt (hf.bounds x hx).2 hend⟩
  · exact hold x (by rw [h.list]; exact List.mem_append_right _ hx)

theorem firstAt (hf : w.first = some f) : FirstAt s t a base f ∧ f ∈ w.out := by
  rcases h.swept.first_some hf with ⟨hfp, h1, h2⟩ | ⟨hfo, q, hq, hqb, c, hc, hhead⟩
  · have hstop : (t.fp f).stop.toNat = (t.fp f).hi := (h.straight f hfp).1
    exact ⟨.inl ⟨h.old f hfp, h1, hstop ▸ h2⟩, h.swept.passed_mem f hfp⟩
  · have hnew := hc.not_mem (h.ready.wf.live a h.space.live) f (List.mem_of_mem_head? hhead)
    have hlo := (h.gap_fills hq hc).1.head f hhead
    have hnone := h.gap_none hq
    rw [hqb] at hlo hnone
    exact ⟨.inr ⟨hnew, hlo, hnone⟩, hfo⟩

/-- A first page with more of the request behind it. -/
theorem crossed (hf : w.first = some f) (hlt : w.cursor < (base + size).toNat) :
    Crossed s a base (base + size) f := by
  rcases h.swept.first_some hf with ⟨hfp, _⟩ | ⟨_, q, hq, hqb, _⟩
  · exact .inl (h.old f hfp)
  · obtain ⟨_, _, y, hy, hle⟩ := h.swept.gap_bounds h.straight q hq
    have h1 := h.swept.passed_le h.straight hlt y hy
    have h2 := (h.swept.gap_lt q hq).1
    have h3 := (t.fp y).lo_lt_hi
    refine .inr ⟨y, h.old y hy, ?_⟩
    rw [← Fpage.lo_congr (h.block y (h.old y hy))]
    omega

/-- Behind the first page the walk stands at the end of a page. -/
theorem dvd_cursor (hf : w.first = some f) (hlt : w.cursor < (base + size).toNat) :
    256 ∣ w.cursor := by
  have hpast := h.swept.passed_le h.straight hlt
  have hbound : base.toNat < w.cursor := by
    rcases h.swept.first_some hf with ⟨hfp, _, h2⟩ | ⟨_, q, hq, hqb, _⟩
    · have hstop : (t.fp f).stop.toNat = (t.fp f).hi := (h.straight f hfp).1
      have := hpast f hfp
      omega
    · obtain ⟨_, _, y, hy, hle⟩ := h.swept.gap_bounds h.straight q hq
      have h1 := hpast y hy
      have h2 := (h.swept.gap_lt q hq).1
      have h3 := (t.fp y).lo_lt_hi
      omega
  rcases h.swept.cursor_eq h.straight with hb | ⟨x, hx, hcur⟩
  · omega
  · rw [hcur]
    exact (h.sized x (h.old x hx)).dvd_hi

theorem cursor_fills (hc : GapChain mm m s t w.cursor e c) (hlt : w.cursor < e)
    (he : e ≤ (base + size).toNat) :
    Fills t c (roundUp w.cursor) (chainEnd w.cursor e) ∧ (∀ x ∈ c, (t.fp x).Sized) ∧
      chainEnd w.cursor e < 2 ^ 32 := by
  refine h.fills hc (h.swept.le_cursor h.straight) ?_ hlt he
  rcases h.swept.cursor_eq h.straight with hb | ⟨x, hx, hcur⟩
  · exact .inl hb
  · rw [hcur]
    exact .inr (h.sized x (h.old x hx)).dvd_hi

end

end Sweeping

/-! ## The whole call -/

variable {d post : List FpRef} {z : FpRef}

/-- The last page of a chain begins in the request, and the others end in it. -/
theorem Sweeping.chain_high (h : Sweeping mm m s t a base size w rest) {e : Nat}
    (hc : GapChain mm m s t w.cursor e c) (hlt : w.cursor < e) (he : e ≤ (base + size).toNat)
    (hz : c.getLast? = some z) : (t.fp z).hi = chainEnd w.cursor e ∧
      (t.fp z).lo ≤ roundUp e ∧ ∀ x ∈ c, x ≠ z → (t.fp x).hi ≤ roundUp (base + size).toNat := by
  obtain ⟨hf, hsz, _⟩ := h.cursor_fills hc hlt he
  have h1 := hf.last z hz
  have h2 := (hsz z (List.mem_of_mem_getLast? hz)).lo_lt
  have h3 := chainEnd_le hlt.le
  refine ⟨h1, by omega, fun x hx hxz => ?_⟩
  have h4 := hf.before_last hz hx hxz
  have h5 := roundUp_mono he
  omega

/-- The list after the last piece `d` of the request, from an unfinished sweep. -/
theorem Sweeping.assigned (h : Sweeping mm m s t a base size w rest)
    (hlt : w.cursor < (base + size).toNat) (hpages : t.pages a = w.out ++ d ++ post)
    (hsized : ∀ x ∈ t.pages a, (t.fp x).Sized ∧ (t.fp x).hi < 2 ^ 32)
    (hord : (t.pages a).Pairwise (Follows s t a base size)) (hz : d.getLast? = some z)
    (hhigh : ∀ x ∈ d, x ≠ z → (t.fp x).hi ≤ roundUp (base + size).toNat)
    (hfirst : w.first = none → ∀ f, d.head? = some f → FirstAt s t a base f)
    (hlast : ((t.fp z).lo < (base + size).toNat ∧ (base + size).toNat ≤ (t.fp z).hi ∧
        (w.first = none → ∀ f, d.head? = some f → f ∈ s.pages a)) ∨
      (w.first = none ∧ (∀ x ∈ d, x ∉ s.pages a) ∧
        (∀ x ∈ post, (base + size).toNat ≤ (t.fp x).lo) ∧
        Fills t d (roundUp base.toNat) (roundUp base.toNat + roundUp size.toNat)) ∨
      (z ∉ s.pages a ∧ (t.fp z).lo < (base + size).toNat ∧ ∃ cur post', post = cur :: post' ∧
        cur ∈ s.pages a ∧ (t.fp cur).lo < (base + size).toNat ∧
        (base + size).toNat ≤ (t.fp cur).hi ∧ (t.fp z).hi ≤ (t.fp cur).lo + 256)) :
    ∃ pre seg f, w.first.or d.head? = some f ∧ Assigned s t a base size pre seg post f z := by
  have hE := le_roundUp (base + size).toNat
  have hout := h.swept.out_le h.straight h.fit hlt
  -- the pages from the first one on
  obtain ⟨f, pre, tl, hf, hlist, hat, hlast', hmem, hone⟩ : ∃ f pre tl,
      w.first.or d.head? = some f ∧ w.out ++ d = pre ++ f :: tl ∧ FirstAt s t a base f ∧
      (f :: tl).getLast? = some z ∧ (∀ x ∈ f :: tl, x ∈ w.out ∨ x ∈ d) ∧
      (w.first = none → f :: tl = d) := by
    cases hwf : w.first with
    | none =>
      obtain ⟨f, d', rfl⟩ := List.exists_cons_of_ne_nil
        (List.ne_nil_of_mem (List.mem_of_mem_getLast? hz))
      exact ⟨f, w.out, d', rfl, rfl, hfirst hwf f rfl, hz, fun x hx => .inr hx, fun _ => rfl⟩
    | some f =>
      obtain ⟨hat, hfo⟩ := h.firstAt hwf
      obtain ⟨pre, mid, hsplit⟩ := List.append_of_mem hfo
      refine ⟨f, pre, mid ++ d, rfl, by rw [hsplit]; simp, hat, ?_, fun x hx => ?_, by simp⟩
      · rw [← List.cons_append, List.getLast?_append, hz]
        rfl
      · rw [← List.cons_append, List.mem_append] at hx
        refine hx.imp_left fun hx => ?_
        rw [hsplit]
        exact List.mem_append_right _ hx
  refine ⟨pre, f :: tl, f, hf, ⟨by rw [hpages, hlist], rfl, hlast', fun x hx => (hsized x hx).1,
    fun x hx => (hsized x hx).2, hord, hat, fun x hx hxf => ?_, fun x hx hxz => ?_, ?_⟩⟩
  · -- `x` stands behind the first page
    rw [hpages, hlist] at hord
    have hfx := (List.pairwise_cons.mp (List.pairwise_append.mp
      (List.pairwise_append.mp hord).1).2.1).1 x (List.mem_of_ne_of_mem hxf hx)
    rcases hat with ⟨hfl, _, h2⟩ | ⟨_, hlo, _⟩
    · have h1 := hfx.2 (.inl hfl)
      have h3 := roundUp_le (h.sized f hfl).dvd_hi h2.le
      omega
    · exact hlo ▸ hfx.1
  · rcases hmem x hx with hx | hx
    · have := hout x hx
      omega
    · exact hhigh x hx hxz
  · rcases hlast with ⟨h1, h2, hold⟩ | ⟨hnone, hnew, hpost, hfill⟩ | h3
    · refine .inl ⟨h1, h2, ?_⟩
      cases hwf : w.first with
      | none =>
        rw [hwf] at hf
        exact .inl (hold hwf f hf)
      | some g =>
        rw [hwf] at hf
        injection hf with hf
        exact hf ▸ h.crossed hwf hlt
    · rw [hone hnone]
      exact .inr (.inl ⟨hnew, hpost, hfill⟩)
    · exact .inr (.inr h3)

/-- A chain up to the end of the request as the last piece. -/
theorem Sweeping.chain_last (h : Sweeping mm m s t a base size w rest)
    (hc : GapChain mm m s t w.cursor (base + size).toNat c)
    (hlt : w.cursor < (base + size).toNat) (hz : c.getLast? = some z) :
    ((t.fp z).lo < (base + size).toNat ∧ (base + size).toNat ≤ (t.fp z).hi ∧
        (w.first = none → ∀ f, c.head? = some f → f ∈ s.pages a)) ∨
      (w.first = none ∧ (∀ x ∈ c, x ∉ s.pages a) ∧
        Fills t c (roundUp base.toNat) (roundUp base.toNat + roundUp size.toNat)) := by
  obtain ⟨hf, hsz, _⟩ := h.cursor_fills hc hlt (Nat.le_refl _)
  cases hwf : w.first with
  | none =>
    rw [(h.swept.first_none hwf).1, h.room.stop_toNat] at hf
    unfold chainEnd at hf
    rw [Nat.add_sub_cancel_left] at hf
    exact .inr ⟨rfl, hc.not_mem (h.ready.wf.live a h.space.live), hf⟩
  | some f =>
    have h1 := hf.last z hz
    have h2 := (hsz z (List.mem_of_mem_getLast? hz)).lo_lt
    have h3 := le_roundUp (base + size).toNat
    have h4 := roundUp_lt (base + size).toNat
    rw [chainEnd_aligned (h.dvd_cursor hwf hlt) hlt.le] at h1
    exact .inl ⟨by omega, by omega, by simp⟩

/-- The request ends in the page `x`, or in the gap in front of it. -/
theorem Sweeping.assigned_step {v : State FpRef} {x : FpRef}
    (h : Sweeping mm m s t a base size w rest) (hp : w.passed = v.passed ++ [x])
    (hv : SweptIn mm m s t base.toNat (base + size).toNat v)
    (hlt : v.cursor < (base + size).toNat) (hdone : (base + size).toNat ≤ w.cursor)
    (hpages : t.pages a = w.out ++ rest)
    (hstep : (v.cursor < (t.fp x).lo ∧ ∃ c,
        GapChain mm m s t v.cursor (min (base + size).toNat (t.fp x).lo) c ∧ c ≠ [] ∧
        w = ⟨v.passed ++ [x], (t.fp x).stop.toNat,
          v.gaps ++ [(v.cursor, min (base + size).toNat (t.fp x).lo)], v.out ++ c ++ [x],
          v.first.or c.head?, c.getLast?⟩) ∨
      ((t.fp x).lo ≤ v.cursor ∧ v.cursor < (t.fp x).stop.toNat ∧
        w = ⟨v.passed ++ [x], (t.fp x).stop.toNat, v.gaps, v.out ++ [x],
          v.first.or (some x), some x⟩)) :
    ∃ pre seg post f z, w.first = some f ∧ w.last = some z ∧
      Assigned s t a base size pre seg post f z := by
  have hvs : Sweeping mm m s t a base size v (x :: rest) :=
    ⟨h.ready, h.space, h.room, h.block, hv, by rw [h.list, hp]; simp⟩
  have hx : x ∈ s.pages a := by rw [hvs.list]; simp
  have hstop : (t.fp x).stop.toNat = (t.fp x).hi := (h.sized x hx).stop_eq (h.below x hx)
  have hsized := hpages ▸ h.sized_out
  have hord := hpages ▸ h.order
  rcases hstep with ⟨hgap, c, hc, hne, rfl⟩ | ⟨h1, h2, rfl⟩
  · dsimp only at hdone hpages
    obtain ⟨z, hz⟩ : ∃ z, c.getLast? = some z := by
      rw [← Option.isSome_iff_exists, List.getLast?_isSome]
      exact hne
    have hmin : v.cursor < min (base + size).toNat (t.fp x).lo := lt_min hlt hgap
    obtain ⟨hzhi, hzlo, hhigh⟩ := hvs.chain_high hc hmin (Nat.min_le_left _ _) hz
    have hfirst : v.first = none → ∀ f, c.head? = some f → FirstAt s t a base f := by
      intro hn f hf
      refine (h.firstAt ?_).1
      show v.first.or c.head? = some f
      rw [hn, hf]
      rfl
    have hlist : t.pages a = v.out ++ c ++ x :: rest := by
      rw [hpages]
      simp
    have hcase := Nat.lt_or_ge (t.fp x).lo (base + size).toNat
    obtain ⟨pre, seg, f, hf, has⟩ := hvs.assigned hlt hlist hsized hord hz hhigh hfirst (by
        rcases hcase with hin | hge
        · rw [Nat.min_eq_right hin.le] at hc hzhi hzlo hmin
          have hround := roundUp_of_dvd (h.sized x hx).dvd_lo
          have hend := chainEnd_le hmin.le
          refine .inr (.inr ⟨hc.not_mem (h.ready.wf.live a h.space.live) z
            (List.mem_of_mem_getLast? hz), by omega, x, rest, rfl, hx, hin, by omega, by omega⟩)
        · rw [Nat.min_eq_left hge] at hc
          refine (hvs.chain_last hc hlt hz).imp_right fun ⟨h1, h2, h3⟩ => .inl ⟨h1, h2, ?_, h3⟩
          intro y hy
          rcases List.mem_cons.mp hy with rfl | hy
          · exact hge
          · have := (List.pairwise_append.mp h.ordered).2.2 x (by simp) y hy
            omega)
    exact ⟨pre, seg, _, f, z, hf, hz, has⟩
  · dsimp only at hdone hpages
    have hfirst : v.first = none → ∀ f, [x].head? = some f → FirstAt s t a base f := by
      intro hn f hf
      refine (h.firstAt ?_).1
      show v.first.or (some x) = some f
      rw [hn]
      exact hf
    obtain ⟨pre, seg, f, hf, has⟩ := hvs.assigned (d := [x]) (z := x) hlt hpages hsized hord rfl
      (fun y hy hyx => absurd (List.mem_singleton.mp hy) hyx) hfirst
      (.inl ⟨by omega, by omega, fun _ f hf => by injection hf with hf; exact hf ▸ hx⟩)
    exact ⟨pre, seg, rest, f, x, hf, rfl, has⟩

/-- The rest of the request is behind the last page. -/
theorem Sweeping.assigned_last (h : Sweeping mm m s t a base size w [])
    (hlt : w.cursor < (base + size).toNat)
    (hc : GapChain mm m s t w.cursor (base + size).toNat c) (hpages : t.pages a = w.out ++ c) :
    ∃ pre seg post f z, w.first.or c.head? = some f ∧ c.getLast? = some z ∧
      Assigned s t a base size pre seg post f z := by
  obtain ⟨hf, hsz, hend⟩ := h.cursor_fills hc hlt (Nat.le_refl _)
  have hout := h.swept.out_le h.straight h.fit hlt
  have hle := le_roundUp w.cursor
  obtain ⟨z, hz⟩ : ∃ z, c.getLast? = some z := by
    rw [← Option.isSome_iff_exists, List.getLast?_isSome]
    obtain ⟨x, hx, _⟩ := hf.full (roundUp w.cursor) (Nat.le_refl _) (by
      have := le_roundUp ((base + size).toNat - w.cursor)
      unfold chainEnd
      omega)
    exact List.ne_nil_of_mem hx
  have hsized : ∀ x ∈ t.pages a, (t.fp x).Sized ∧ (t.fp x).hi < 2 ^ 32 := by
    intro x hx
    rw [hpages] at hx
    rcases List.mem_append.mp hx with hx | hx
    · exact h.sized_out x (List.mem_append_left _ hx)
    · exact ⟨hsz x hx, Nat.lt_of_le_of_lt (hf.bounds x hx).2 hend⟩
  have hord : (t.pages a).Pairwise (Follows s t a base size) := by
    rw [hpages]
    have hord := h.order
    rw [List.append_nil] at hord
    refine List.pairwise_append.mpr ⟨hord, ?_, fun x hx y hy => ?_⟩
    · refine hf.ordered.imp fun {x y} hxy => ?_
      have := (t.fp x).lo_lt_hi
      exact ⟨by omega, fun _ => hxy⟩
    · have h1 := hout x hx
      have h2 := (hf.bounds y hy).1
      have h3 := (t.fp x).lo_lt_hi
      exact ⟨by omega, fun _ => by omega⟩
  have hfirst : w.first = none → ∀ f, c.head? = some f → FirstAt s t a base f := by
    intro hn f hhead
    obtain ⟨hcur, _, hpast⟩ := h.swept.first_none hn
    refine .inr ⟨hc.not_mem (h.ready.wf.live a h.space.live) f (List.mem_of_mem_head? hhead),
      by rw [← hcur]; exact hf.head f hhead, fun x hx => .inl ?_⟩
    have hxp : x ∈ w.passed := by
      rw [h.list, List.append_nil] at hx
      exact hx
    have hstop : (t.fp x).stop.toNat = (t.fp x).hi := (h.straight x hxp).1
    rw [← Fpage.hi_congr (h.block x hx), ← hstop]
    exact (hpast x hxp).2
  have hlist : t.pages a = w.out ++ c ++ [] := by rw [hpages, List.append_nil]
  obtain ⟨pre, seg, f, hf, has⟩ := h.assigned hlt hlist hsized hord hz
    (h.chain_high hc hlt (Nat.le_refl _) hz).2.2 hfirst
    ((h.chain_last hc hlt hz).imp_right fun ⟨h1, h2, h3⟩ => .inl ⟨h1, h2, by simp, h3⟩)
  exact ⟨pre, seg, [], f, z, hf, hz, has⟩

/-- `assign_fpages_ext` on a sorted space. -/
theorem assignFpagesExt_assigned {ret : Int} {mpid : Option Nat} {pf pl : Option FpRef}
    (hr : Ready s) (ha : SortedSpace s a) (hroom : Roomy s a base size)
    (h : assignFpagesExt mm s mpid (some a) base size none none = .ok (ret, pf, pl, s')) :
    (ret = -1 ∧ pf = none ∧ pl = none ∧ s' = s) ∨
    (ret = 0 ∧ ∃ m N pre seg post f z, Extended mm m s s' a (s.pages a) N (s'.pages a) ∧
      pf = some f ∧ pl = some z ∧ Assigned s s' a base size pre seg post f z) := by
  have hlive := hr.wf.live a ha.live
  rcases assignFpagesExt_swept (hr.wf.chain a ha.live) hlive h with
    h | ⟨hret, hsize, m, N, l', w, _, hN, hw, hend⟩
  · exact .inl h
  · refine .inr ⟨hret, m, N, ?_⟩
    have hpages : s'.pages a = l' := by
      rw [(hN.lists hr.wf ha.live).pages_eq (hN.out.live ha.live),
        Function.update_self]
    have hblock : ∀ x ∈ s.pages a, (s'.fp x).block = (s.fp x).block := fun x hx =>
      hN.block_eq (hlive x hx)
    have hpos : 0 < size.toNat :=
      Nat.pos_of_ne_zero fun h0 => hsize (BitVec.eq_of_toNat_eq (by simpa using h0))
    have hE := hroom.stop_toNat
    rcases hend with ⟨hdone, ⟨rest, hl, rfl⟩, rfl, rfl⟩ | ⟨hlt, hl, c, hc, rfl, rfl, rfl⟩
    · have hsw : Sweeping mm m s s' a base size w rest := ⟨hr, ha, hroom, hblock, hw, hl⟩
      rw [Option.none_or, Option.or_none]
      rcases List.eq_nil_or_concat' w.passed with hp | ⟨p, x, hp⟩
      · rw [hw.eq_start hp] at hdone
        dsimp only at hdone
        omega
      · obtain ⟨v, hv, rfl, hlt, hstep⟩ := hw.last_step hp
        obtain ⟨pre, seg, post, f, z, hf, hz, has⟩ := hsw.assigned_step hp hv hlt hdone hpages (by
          rcases hstep with hstep | hstep | ⟨_, _, hweq⟩
          · exact .inl hstep
          · exact .inr hstep
          · rw [hweq] at hdone
            exact absurd hlt (Nat.not_lt.mpr hdone))
        exact ⟨pre, seg, post, f, z, by rw [hpages]; exact hN, hf, hz, has⟩
    · have hsw : Sweeping mm m s s' a base size w [] :=
        ⟨hr, ha, hroom, hblock, hw, by rw [List.append_nil]; exact hl⟩
      obtain ⟨pre, seg, post, f, z, hf, hz, has⟩ := hsw.assigned_last hlt hc hpages
      exact ⟨pre, seg, post, f, z, by rw [hpages]; exact hN, by rw [Option.none_or]; exact hf, hz,
        has⟩

end

variable {pre seg post : List FpRef} {f z : FpRef}

/-- A clear request leaves the list sorted. -/
theorem Assigned.sortedSpace (h : Assigned s t a base size pre seg post f z)
    (hlive : t.liveAs a = true) (hclear : StartClear s a base size) : SortedSpace t a :=
  ⟨hlive, h.sized, h.order.imp fun hxy => hxy.2 (.inr hclear)⟩

end F9
