import F9.Logic.MpuLinks

/-!
# The span of `map_area`

After the two splits, `map_area` maps the pages from `first` to `last`. The
second split may free the page that `first` points to: this happens only if
both pointers are the same page, which the first split left whole
(`SplitStage.first_listed`). A piece that the first split made cannot be cut by
the second, since no MPU link leads to it.
-/

namespace F9

open Linked Result

variable {mm : Memmap} {s s' : Kernel} {x f first0 last0 first : FpRef} {src dst : AsRef}
  {base size split stop : Word} {priv rl : Bool} {action : MapAction} {T : Set FpRef}
  {X : AsRef → Prop}

/-! ## Cuts -/

section

variable {a : AsRef} {r : FpRef} {sp : Word} {cl cr : List FpRef} {T : Set FpRef}

theorem Cut.mem_pages (hwf : Wf s) (ha : s.liveAs a = true) (hr : r ∈ s.pages a)
    (h : Cut mm s s' a r (s.pages a) sp cl cr) :
    x ∈ s'.pages a ↔ x ∈ cl ++ cr ∨ (x ∈ s.pages a ∧ x ≠ r) := by
  obtain ⟨hpa, _⟩ := (h.lists hwf ha hr).pages_update h.out.liveAs ha
  rw [hpa, h.mem_list, (hwf.chain a ha).nodup.mem_erase_iff, and_comm (a := x ≠ r)]

theorem Cut.mem_mpu (hin : MpuIn s a T) (h : Cut mm s s' a r (s.pages a) sp cl cr) : r ∈ T :=
  hin.mem_past h.mpuLinks

theorem Cut.mpuIn (hT : ∀ x ∈ T, s.liveFp x = true) (hin : MpuIn s a T)
    (h : Cut mm s s' a r (s.pages a) sp cl cr) : MpuIn s' a T := by
  refine hin.past ?_ h.mpuLinks
  intro x hx hxc
  exact ne_true_of_eq_false (h.fresh x hxc) (hT x hx)

theorem Cut.right_head (hwf : Wf s) (ha : s.liveAs a = true) (hr : r ∈ s.pages a)
    (h : Cut mm s s' a r (s.pages a) sp cl cr) (hf : cr.head? = some f) :
    f ∈ s'.pages a ∧ s.liveFp f = false := by
  have hfc : f ∈ cl ++ cr := List.mem_append_right _ (List.mem_of_mem_head? hf)
  exact ⟨(h.mem_pages hwf ha hr).mpr (.inl hfc), h.fresh f hfc⟩

end

/-! ## The two splits -/

/-- The split of `last` leaves `first` on the list, unless it cuts it. -/
theorem splitFpage_keeps {res : Option FpRef} (hq : Quiet s) (hwf : Wf s) (hs : s.liveAs src = true)
    (hf : f ∈ s.pages src) (h : splitFpage mm s (some src) x split rl = .ok (res, s')) :
    f ∈ s'.pages src ∨ (x = f ∧ ∃ cl cr, Cut mm s s' src f (s.pages src)
      (mempoolAlign mm (s.fp f).mpid split) cl cr ∧
      mempoolAlign mm (s.fp f).mpid split ≠ (s.fp f).base ∧
      mempoolAlign mm (s.fp f).mpid split ≠ (s.fp f).stop) := by
  by_cases hx : x ∈ s.pages src
  · rcases splitFpage_spec hq (hwf.chain src hs) (hwf.live src hs) hx h with
      ⟨_, _, rfl⟩ | ⟨h1, h2, ⟨_, _, rfl⟩ | ⟨cl, cr, hc, _⟩⟩
    · exact .inl hf
    · exact .inl hf
    · by_cases hxf : x = f
      · subst hxf
        exact .inr ⟨rfl, cl, cr, hc, h1, h2⟩
      · exact .inl ((hc.mem_pages hwf hs hx).mpr (.inr ⟨hf, fun hfx => hxf hfx.symm⟩))
  · obtain ⟨rfl, _⟩ := splitFpage_not_mem hq (hwf.chain src hs) (hwf.live src hs) hx h
    exact .inl hf

/-- After both splits `first` is still on the list, unless it was the only page
of the range, had a boundary at `base`, and was cut at `stop`. -/
theorem SplitStage.first_listed {last : Option FpRef} (hq : Quiet s) (hwf : Wf s)
    (hs : s.liveAs src = true) (hP : first0 ∈ s.pages src) (hT : ∀ x ∈ T, s.liveFp x = true)
    (hin : MpuIn s src T) (h : SplitStage mm s s' src base stop first0 last0 (some f) last) :
    f ∈ s'.pages src ∨
    (f = first0 ∧ last0 = first0 ∧ first0 ∈ T ∧
      (mempoolAlign mm (s.fp first0).mpid base = (s.fp first0).base ∨
        mempoolAlign mm (s.fp first0).mpid base = (s.fp first0).stop) ∧
      (s.fp first0).mapNext = some first0 ∧
      mempoolAlign mm (s.fp first0).mpid stop ≠ (s.fp first0).base ∧
      mempoolAlign mm (s.fp first0).mpid stop ≠ (s.fp first0).stop) := by
  obtain ⟨s1, last1, h1, hlast, h2⟩ := h.steps
  rcases splitFpage_spec hq (hwf.chain src hs) (hwf.live src hs) hP h1 with
    ⟨hbd, hres, rfl⟩ | ⟨_, _, ⟨_, hres, _⟩ | ⟨cl, cr, hc, hres⟩⟩
  · -- a boundary: the page is left whole
    injection hres with hres
    subst hres
    rcases splitFpage_keeps hq hwf hs hP h2 with hf | ⟨hx, cl, cr, hc, hn1, hn2⟩
    · exact .inl hf
    · have hpq : last0 = f := by
        by_cases hpq : f = last0
        · exact hpq.symm
        · rw [← mapAreaLast_ne hlast hpq, hx]
      exact .inr ⟨rfl, hpq, hc.mem_mpu hin, hbd, hc.alone, hn1, hn2⟩
  · simp at hres
  · -- cut: `first` is the first piece on the right
    obtain ⟨hf, hfresh⟩ := hc.right_head hwf hs hP hres.symm
    have hwf1 := (hc.lists hwf hs hP).wf
    have hs1 : s1.liveAs src = true := hc.out.live hs
    rcases splitFpage_keeps (hc.out.quiet hq) hwf1 hs1 hf h2 with hf | ⟨_, cl', cr', hc', _⟩
    · exact .inl hf
    · exact absurd (hT f (hc'.mem_mpu (hc.mpuIn hT hin))) (ne_true_of_eq_false hfresh)

/-! ## Calls that map allocated pages only -/

/-- Within the pages `T`: one that holds both ends of the range is not cut at
`stop` when it has a boundary at `base`. -/
def SpanSafe (mm : Memmap) (s : Kernel) (src : AsRef) (base stop : Word) (T : Set FpRef) : Prop :=
  ∀ x ∈ s.pages src, x ∈ T → addrInFpage base (s.fp x) false = true →
    addrInFpage stop (s.fp x) true = true → (s.fp x).mapNext = some x →
    (mempoolAlign mm (s.fp x).mpid base = (s.fp x).base ∨
      mempoolAlign mm (s.fp x).mpid base = (s.fp x).stop) →
    mempoolAlign mm (s.fp x).mpid stop = (s.fp x).base ∨
      mempoolAlign mm (s.fp x).mpid stop = (s.fp x).stop

/-- The pages between which `map_area` works are on the list of the source, in
the state after the first stage; a page of the old list that is both of them
holds both ends of the range. -/
theorem mapAreaSpan_listed {last : FpRef} (hwf : Wf s) (hs : s.liveAs src = true)
    (h : mapAreaSpan mm s src dst base size priv = .ok (.span (some first) (some last), s')) :
    first ∈ s'.pages src ∧ last ∈ s'.pages src ∧
      (first ∈ s.pages src → last = first → addrInFpage base (s.fp first) false = true ∧
        addrInFpage (base + size) (s.fp first) true = true) ∧
      (s'.as src).mpuFirst = (s.as src).mpuFirst ∧
      ∀ x, s.liveFp x = true → s'.liveFp x = true ∧
        s'.fp x = { s.fp x with asNext := s'.asNext x } ∧
        (x ∈ s'.pages src → x ∈ s.pages src) := by
  cases priv with
  | true =>
    obtain ⟨r, f, l, hext, hspan⟩ := mapAreaSpan_true h
    by_cases hsd : src = dst
    · rw [if_pos hsd] at hspan
      simp at hspan
    · rw [if_neg hsd] at hspan
      injection hspan with hf hl
      subst hf hl
      rcases assignFpagesExt_ends (hwf.chain src hs) (hwf.live src hs) hext with
        ⟨_, hnone, _⟩ | ⟨_, m, N, l', he, hfirst, hlast, hends⟩
      · simp at hnone
      · obtain ⟨hpa, _⟩ := (he.lists hwf hs).pages_update he.out.liveAs hs
        rw [hpa]
        refine ⟨hfirst first rfl, hlast last rfl, ?_, by rw [he.as], ?_⟩
        · intro hold heq
          exact hends first hold rfl (by rw [heq])
        · intro x hx
          have hxN : x ∉ N := fun hxN => ne_true_of_eq_false (he.fresh x hxN) hx
          refine ⟨by rw [he.live, hx, Bool.true_or], he.frame x hxN, fun hxl => ?_⟩
          exact ((he.mem x).mp hxl).resolve_right hxN
  | false =>
    obtain ⟨rfl, _, hsp⟩ := mapAreaSpan_found hwf hs h
    obtain ⟨pre, rest, hlist, _, hbase, hstop, hq⟩ := spanSearch_found _ _ hsp
    have hfirst : first ∈ s'.pages src := by rw [hlist]; simp
    refine ⟨hfirst, ?_, fun _ heq => ⟨hbase, by rw [← heq]; exact hstop⟩, rfl,
      fun x hx => ⟨hx, rfl, id⟩⟩
    rcases hq with rfl | ⟨_, mid, post, rfl, _⟩
    · exact hfirst
    · rw [hlist]
      simp

theorem CloneSeq.prims_live {rs : List FpRef} (h : CloneSeq dst action s rs s') (hwf : Wf s)
    (hd : s.liveAs dst = true) (hrs : ∀ r ∈ rs, s.liveFp r = true) :
    Prims mm X (fun s r => s.liveFp r = true) s s' := by
  induction h with
  | nil => exact .refl
  | cons hc _ ih =>
    have hp : Prim mm X (fun s r => s.liveFp r = true) _ _ :=
      .clone (hrs _ List.mem_cons_self) hd hc
    refine (Prims.single hwf hp).trans (ih (hp.wf hwf) (hc.out.live hd) ?_)
    intro r hr
    rw [hc.live, hrs r (List.mem_cons_of_mem _ hr), Bool.true_or]

/-- `map_area` maps allocated pages only, if the MPU list of the source leads to
allocated pages and the span is safe. -/
theorem mapArea_prims_live {ret : Int} (hq : Quiet s) (hwf : Wf s) (hX : X src)
    (hs : s.liveAs src = true) (hd : s.liveAs dst = true) (hT : ∀ x ∈ T, s.liveFp x = true)
    (hin : MpuIn s src T) (hsafe : SpanSafe mm s src base (base + size) T)
    (h : mapArea mm s src dst base size action priv = .ok (ret, s')) :
    Prims mm X (fun s r => s.liveFp r = true) s s' := by
  by_cases hsd : src = dst
  · subst hsd
    exact mapArea_self_prims hwf hs h
  obtain ⟨span, s1, hspan, hcases⟩ := mapArea_ok h
  have hp : Prims mm X (fun s r => s.liveFp r = true) s s1 := mapAreaSpan_prims hwf hs hspan
  rcases hcases with ⟨_, rfl⟩ | ⟨_, _, _, _, _, rfl⟩ |
    ⟨first0, last0, first, last, s2, rfl, hstage, hend⟩
  · exact hp
  · exact hp
  · have hwf1 := hp.wf hwf
    have hq1 := hp.out.quiet hq
    have hs1 : s1.liveAs src = true := hp.out.live hs
    have hp2 := hp.trans (hstage.prims hq1 hwf1 hX hs1)
    rcases hend with ⟨_, _, rfl⟩ | ⟨f, l, rfl, rfl, _, hmap⟩
    · exact hp2
    obtain ⟨hfirst, hlast, hends, hhead, hold⟩ := mapAreaSpan_listed hwf hs hspan
    have hT1 : ∀ x ∈ T, s1.liveFp x = true := fun x hx => (hold x (hT x hx)).1
    have hin1 : MpuIn s1 src T := by
      refine ⟨by rw [hhead]; exact hin.head, ?_⟩
      intro x hx
      have : s1.mpuNext x = s.mpuNext x := by
        unfold Kernel.mpuNext
        rw [(hold x (hT x hx)).2.1]
      rw [this]
      exact hin.next x hx
    have hwf2 := hp2.wf hwf
    have hs2 : s2.liveAs src = true := hp2.out.live hs
    have hd2 : s2.liveAs dst = true := hp2.out.live hd
    have hf : f ∈ s2.pages src := by
      rcases hstage.first_listed hq1 hwf1 hs1 hfirst hT1 hin1 with
        hf | ⟨_, heq, hfT, hb, halone, hn1, hn2⟩
      · exact hf
      · obtain ⟨_, hfp, hpage⟩ := hold first0 (hT first0 hfT)
        obtain ⟨hb1, hb2⟩ := hends (hpage hfirst) heq
        rw [hfp] at hb halone hn1 hn2
        rcases hsafe first0 (hpage hfirst) hfT hb1 hb2 halone hb with hc | hc
        · exact absurd hc hn1
        · exact absurd hc hn2
    obtain ⟨pre, post, hl⟩ := List.append_of_mem hf
    obtain ⟨rs, post', hseg, hcs⟩ := mapChain_listed hsd _ _ _ _ _ _ hwf2 hs2 hd2 hl hmap
    refine hp2.trans (hcs.prims_live hwf2 hd2 fun r hr => hwf2.live src hs2 r ?_)
    grind

end F9
