import F9.Logic.Cover

/-!
# Sorted address spaces

The comment on `as_t` promises a sorted list of fpages. `Kernel.Ordered s l`: each
page of the list ends before the next ones begin. A cut inside a page of such a list
puts the pieces where the page was (`Cut.ordered`), and the pages of a part of the list
hold the addresses of the list between its two ends (`Kernel.Ordered.between`).
-/

namespace F9

open Arc Linked Result

variable {l c pre post : List FpRef} {f g : Fpage}

/-- Each page ends before the next ones begin. -/
def Kernel.Ordered (s : Kernel) (l : List FpRef) : Prop :=
  l.Pairwise fun x y => (s.fp x).hi ≤ (s.fp y).lo

instance (s : Kernel) (l : List FpRef) : Decidable (s.Ordered l) :=
  inferInstanceAs (Decidable (l.Pairwise fun x y => (s.fp x).hi ≤ (s.fp y).lo))

variable {mm : Memmap} {s s' : Kernel}

theorem Fpage.lo_congr (h : f.block = g.block) : f.lo = g.lo := by
  injection h with hb _
  unfold Fpage.lo
  rw [hb]

theorem Fpage.hi_congr (h : f.block = g.block) : f.hi = g.hi := by
  injection h with hb hk
  unfold Fpage.hi
  rw [hb, hk]

theorem Kernel.Ordered.congr (h : s.Ordered l) (hb : ∀ x ∈ l, (s'.fp x).block = (s.fp x).block) :
    s'.Ordered l := by
  refine List.Pairwise.imp_of_mem ?_ h
  intro x y hx hy hxy
  rw [Fpage.hi_congr (hb x hx), Fpage.lo_congr (hb y hy)]
  exact hxy

theorem Kernel.Ordered.around {r : FpRef} (h : s.Ordered (pre ++ r :: post)) :
    (∀ x ∈ pre, (s.fp x).hi ≤ (s.fp r).lo) ∧ ∀ x ∈ post, (s.fp r).hi ≤ (s.fp x).lo := by
  obtain ⟨_, h2, h3⟩ := List.pairwise_append.mp h
  exact ⟨fun x hx => h3 x hx r List.mem_cons_self, (List.pairwise_cons.mp h2).1⟩

theorem Kernel.Ordered.le_lo {r x : FpRef} (h : s.Ordered (pre ++ r :: post)) (hx : x ∈ r :: post) :
    (s.fp r).lo ≤ (s.fp x).lo := by
  rcases List.mem_cons.mp hx with rfl | hx
  · exact Nat.le_refl _
  · exact (s.fp r).lo_lt_hi.le.trans (h.around.2 x hx)

theorem Kernel.Ordered.apart {x y : FpRef} (h : s.Ordered l) (hx : x ∈ l) (hy : y ∈ l) :
    x = y ∨ (s.fp x).hi ≤ (s.fp y).lo ∨ (s.fp y).hi ≤ (s.fp x).lo := by
  obtain ⟨pre, post, rfl⟩ := List.append_of_mem hx
  obtain ⟨hpre, hpost⟩ := h.around
  rcases List.mem_append.mp hy with hy | hy
  · exact .inr (.inr (hpre y hy))
  · rcases List.mem_cons.mp hy with rfl | hy
    · exact .inl rfl
    · exact .inr (.inl (hpost y hy))

/-! ## Chains -/

/-- The pages of a chain that does not go round follow one another from the base of the
request to its end. -/
structure Fills (s : Kernel) (c : List FpRef) (lo hi : Nat) : Prop where
  ordered : s.Ordered c
  bounds : ∀ x ∈ c, lo ≤ (s.fp x).lo ∧ (s.fp x).hi ≤ hi
  head : ∀ x, c.head? = some x → (s.fp x).lo = lo
  last : ∀ x, c.getLast? = some x → (s.fp x).hi = hi
  full : ∀ n, lo ≤ n → n < hi → ∃ x ∈ c, (s.fp x).lo ≤ n ∧ n < (s.fp x).hi

theorem PagesFor.fills {mpid : Nat} {base size : Word}
    (h : PagesFor mm mpid s c (chainBlocks size.toNat base size))
    (hr : base.toNat + size.toNat ≤ 2 ^ 32) : Fills s c base.toNat (base.toNat + size.toNat) := by
  have ht := chainBlocks_tiles _ base size (Nat.le_refl _)
  refine ⟨?_, fun x hx => ht.bounds hr _ (h.mem_block hx), ?_, ?_, ?_⟩
  · have hp := ht.pairwise hr
    rw [← h.blocks] at hp
    exact List.pairwise_map.mp hp
  · intro x hx
    refine congrArg BitVec.toNat (ht.head_base (s.fp x).block ?_)
    rw [← h.blocks, List.head?_map, hx]
    rfl
  · intro x hx
    refine ht.last_end hr (s.fp x).block ?_
    rw [← h.blocks, List.getLast?_map, hx]
    rfl
  · intro n h1 h2
    have hn : (BitVec.ofNat 32 n).toNat = n := toNat_ofNat32 (by omega)
    have harc : OnArc base size (BitVec.ofNat 32 n) := by
      unfold OnArc
      rw [BitVec.lt_def, toNat_sub_eq, hn, if_pos h1]
      omega
    obtain ⟨x, hx, hh⟩ := (h.holds_chain _).mpr harc
    have := (h.aligned x hx).holds_iff.mp hh
    rw [hn] at this
    exact ⟨x, hx, this⟩

/-! ## Cuts -/

section

variable {a : AsRef} {r : FpRef} {sp : Word} {cl cr pre post : List FpRef} {lo hi : Nat}

theorem Cut.fills (hal : (s.fp r).Aligned) (h1 : (s.fp r).lo < sp.toNat)
    (h2 : sp.toNat < (s.fp r).hi) (h : Cut mm s s' a r l sp cl cr) :
    Fills s' cl (s.fp r).lo sp.toNat ∧ Fills s' cr sp.toNat (s.fp r).hi := by
  have hbase : (s.fp r).base.toNat = (s.fp r).lo := rfl
  have hle := hal.hi_le
  obtain ⟨hleft, hright⟩ := hal.cut_sizes h1 h2
  have hL := h.left.fills (by rw [hleft, hbase]; omega)
  have hR := h.right.fills (by rw [hright]; omega)
  rw [hleft, hbase, Nat.add_sub_cancel' (by omega)] at hL
  rw [hright, Nat.add_sub_cancel' (by omega)] at hR
  exact ⟨hL, hR⟩

/-- A chain goes where its addresses are. -/
theorem spliceAt_between (hc : c ≠ []) (hf : Fills s c lo hi) (hpre : ∀ x ∈ pre, (s.fp x).lo ≤ lo)
    (hpost : ∀ x ∈ post, hi ≤ (s.fp x).lo) : spliceAt s c (pre ++ post) = pre ++ c ++ post := by
  unfold spliceAt
  cases hlast : c.getLast? with
  | none => exact absurd (List.getLast?_eq_none_iff.mp hlast) hc
  | some z =>
    have hz := hf.bounds z (List.mem_of_getLast? hlast)
    have hzlt := (s.fp z).lo_lt_hi
    refine splice_append (fun x hx => ?_) (fun x hx => ?_)
    · have h1 := hpre x hx
      unfold insertStop
      rw [decide_eq_false_iff_not, BitVec.lt_def]
      show ¬ (s.fp z).lo < (s.fp x).lo
      omega
    · have h1 := hpost x hx
      unfold insertStop
      rw [decide_eq_true_eq, BitVec.lt_def]
      show (s.fp z).lo < (s.fp x).lo
      omega

theorem Kernel.Ordered.insert (h : s.Ordered (pre ++ post)) (hf : Fills s c lo hi)
    (hpre : ∀ x ∈ pre, (s.fp x).hi ≤ lo) (hpost : ∀ x ∈ post, hi ≤ (s.fp x).lo) :
    s.Ordered (pre ++ c ++ post) := by
  obtain ⟨h1, h2, h3⟩ := List.pairwise_append.mp h
  refine List.pairwise_append.mpr ⟨List.pairwise_append.mpr ⟨h1, hf.ordered, ?_⟩, h2, ?_⟩
  · intro x hx y hy
    exact (hpre x hx).trans (hf.bounds y hy).1
  · intro x hx y hy
    rcases List.mem_append.mp hx with hx | hx
    · exact h3 x hx y hy
    · exact (hf.bounds x hx).2.trans (hpost y hy)

/-- A cut inside a page puts the pieces where the page was, if the pages before it begin
before it and those behind it begin behind it. -/
theorem Cut.spliced (hnd : l.Nodup) (hlive : ∀ x ∈ l, s.liveFp x = true)
    (hl : l = pre ++ r :: post) (hal : (s.fp r).Aligned)
    (hpre : ∀ x ∈ pre, (s.fp x).lo ≤ (s.fp r).lo) (hpost : ∀ x ∈ post, (s.fp r).hi ≤ (s.fp x).lo)
    (h1 : (s.fp r).lo < sp.toNat) (h2 : sp.toNat < (s.fp r).hi) (h : Cut mm s s' a r l sp cl cr) :
    spliceAt s' cr (spliceAt s' cl (l.erase r)) = pre ++ cl ++ cr ++ post := by
  obtain ⟨hL, hR⟩ := h.fills hal h1 h2
  rw [hl] at hnd
  have herase : l.erase r = pre ++ post := by
    have hrpre : r ∉ pre := by
      obtain ⟨_, _, h3⟩ := List.nodup_append.mp hnd
      exact fun hrp => h3 r hrp r List.mem_cons_self rfl
    rw [hl, List.erase_append_right _ hrpre, List.erase_cons_head]
  have hblock : ∀ x ∈ l, (s'.fp x).block = (s.fp x).block := fun x hx => h.block (h.old hlive hx)
  have hpre' : ∀ x ∈ pre, (s'.fp x).lo ≤ (s.fp r).lo := by
    intro x hx
    rw [Fpage.lo_congr (hblock x (by rw [hl]; simp [hx]))]
    exact hpre x hx
  have hpost' : ∀ x ∈ post, (s.fp r).hi ≤ (s'.fp x).lo := by
    intro x hx
    rw [Fpage.lo_congr (hblock x (by rw [hl]; simp [hx]))]
    exact hpost x hx
  -- the left chain goes between the two parts, the right one after it
  have hpre2 : ∀ x ∈ pre ++ cl, (s'.fp x).lo ≤ sp.toNat := by
    intro x hx
    rcases List.mem_append.mp hx with hx | hx
    · have := hpre' x hx
      omega
    · have := (hL.bounds x hx).2
      have := (s'.fp x).lo_lt_hi
      omega
  have hpost2 : ∀ x ∈ post, sp.toNat ≤ (s'.fp x).lo := by
    intro x hx
    have := hpost' x hx
    omega
  rw [herase, spliceAt_between h.left_ne hL hpre' hpost2,
    spliceAt_between h.right_ne hR hpre2 hpost']

/-- The pieces of a cut inside a page of an ordered list are in order. -/
theorem Cut.ordered_pieces (hlive : ∀ x ∈ l, s.liveFp x = true) (hl : l = pre ++ r :: post)
    (hal : (s.fp r).Aligned) (hord : s.Ordered l) (h1 : (s.fp r).lo < sp.toNat)
    (h2 : sp.toNat < (s.fp r).hi) (h : Cut mm s s' a r l sp cl cr) :
    s'.Ordered (pre ++ cl ++ cr ++ post) := by
  have hr : r ∈ l := by rw [hl]; simp
  obtain ⟨hL, hR⟩ := h.fills hal h1 h2
  have hblock : ∀ x ∈ l, (s'.fp x).block = (s.fp x).block := fun x hx => h.block (h.old hlive hx)
  have hord' : s'.Ordered (pre ++ r :: post) := by
    rw [← hl]
    exact hord.congr hblock
  obtain ⟨hpre, hpost⟩ := hord'.around
  have hbr := hblock r hr
  rw [Fpage.lo_congr hbr] at hpre
  rw [Fpage.hi_congr hbr] at hpost
  have hout : s'.Ordered (pre ++ post) := by
    refine List.Pairwise.sublist ?_ hord'
    exact List.Sublist.append_left (List.sublist_cons_self r post) pre
  have hpre2 : ∀ x ∈ pre ++ cl, (s'.fp x).hi ≤ sp.toNat := by
    intro x hx
    rcases List.mem_append.mp hx with hx | hx
    · have := hpre x hx
      omega
    · exact (hL.bounds x hx).2
  have hpost2 : ∀ x ∈ post, sp.toNat ≤ (s'.fp x).lo := by
    intro x hx
    have := hpost x hx
    omega
  exact (hout.insert hL hpre hpost2).insert hR hpre2 hpost

/-- `Cut.spliced` for the list of a space. -/
theorem Cut.placed (hwf : Wf s) (ha : s.liveAs a = true) (hl : s.pages a = pre ++ r :: post)
    (hal : (s.fp r).Aligned) (hpre : ∀ x ∈ pre, (s.fp x).lo ≤ (s.fp r).lo)
    (hpost : ∀ x ∈ post, (s.fp r).hi ≤ (s.fp x).lo) (h1 : (s.fp r).lo < sp.toNat)
    (h2 : sp.toNat < (s.fp r).hi) (h : Cut mm s s' a r (s.pages a) sp cl cr) :
    s'.pages a = pre ++ cl ++ cr ++ post := by
  have hr : r ∈ s.pages a := by rw [hl]; simp
  have hpages := ((h.lists hwf ha hr).pages_update h.out.liveAs ha).1
  rw [h.spliced (hwf.chain a ha).nodup (hwf.live a ha) hl hal hpre hpost h1 h2] at hpages
  exact hpages

theorem Cut.ordered (hwf : Wf s) (ha : s.liveAs a = true) (hl : s.pages a = pre ++ r :: post)
    (hal : (s.fp r).Aligned) (hord : s.Ordered (s.pages a)) (h1 : (s.fp r).lo < sp.toNat)
    (h2 : sp.toNat < (s.fp r).hi) (h : Cut mm s s' a r (s.pages a) sp cl cr) :
    s'.pages a = pre ++ cl ++ cr ++ post ∧ s'.Ordered (s'.pages a) := by
  have hordl := hord
  rw [hl] at hordl
  obtain ⟨hpre0, hpost0⟩ := hordl.around
  have hpages := h.placed hwf ha hl hal (fun x hx => by
    have := hpre0 x hx
    have := (s.fp x).lo_lt_hi
    omega) hpost0 h1 h2
  refine ⟨hpages, ?_⟩
  rw [hpages]
  exact h.ordered_pieces (hwf.live a ha) hl hal hord h1 h2

end

/-! ## Parts of an ordered list -/

/-- The pages of a part of an ordered list hold what the list holds between the two ends of
the part. -/
theorem Kernel.Ordered.between {seg : List FpRef} {f z : FpRef} (h : s.Ordered (pre ++ seg ++ post))
    (hal : ∀ x ∈ pre ++ seg ++ post, (s.fp x).Aligned) (hf : seg.head? = some f)
    (hz : seg.getLast? = some z) (addr : Word) :
    (∃ x ∈ seg, (s.fp x).Holds addr) ↔
      (∃ x ∈ pre ++ seg ++ post, (s.fp x).Holds addr) ∧
        (s.fp f).lo ≤ addr.toNat ∧ addr.toNat < (s.fp z).hi := by
  obtain ⟨hps, _, hpost⟩ := List.pairwise_append.mp h
  obtain ⟨_, hseg, hpre⟩ := List.pairwise_append.mp hps
  have hfm : f ∈ seg := List.mem_of_mem_head? hf
  have hzm : z ∈ seg := List.mem_of_getLast? hz
  constructor
  · rintro ⟨x, hx, hh⟩
    have hmem : x ∈ pre ++ seg ++ post := by simp [hx]
    obtain ⟨h1, h2⟩ := (hal x hmem).holds_iff.mp hh
    refine ⟨⟨x, hmem, hh⟩, ?_, ?_⟩
    · obtain ⟨tl, rfl⟩ := List.head?_eq_some_iff.mp hf
      rcases List.mem_cons.mp hx with rfl | hx
      · exact h1
      · have := (List.pairwise_cons.mp hseg).1 x hx
        have := (s.fp f).lo_lt_hi
        omega
    · obtain ⟨ini, rfl⟩ := List.getLast?_eq_some_iff.mp hz
      rcases List.mem_append.mp hx with hx | hx
      · have := (List.pairwise_append.mp hseg).2.2 x hx z List.mem_cons_self
        have := (s.fp z).lo_lt_hi
        omega
      · rw [List.mem_singleton] at hx
        rw [← hx]
        exact h2
  · rintro ⟨⟨x, hx, hh⟩, h1, h2⟩
    obtain ⟨h3, h4⟩ := (hal x hx).holds_iff.mp hh
    rcases List.mem_append.mp hx with hx | hx
    · rcases List.mem_append.mp hx with hx | hx
      · have := hpre x hx f hfm
        omega
      · exact ⟨x, hx, hh⟩
    · have := hpost z (List.mem_append_right _ hzm) x hx
      omega

end F9
