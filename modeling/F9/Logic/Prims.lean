import F9.Logic.MapArea

/-!
# Calls as sequences of primitive effects

Every call except `as_destroy` and the two MPU routines is a sequence of four
effects on well-formed states: a cut, a clone, an extension of a list, and an
unmapping. An invariant is checked against each effect once (`Prims.invariant`).

`Prims mm X C` restricts the effects: pages are cut or unmapped only in spaces
that satisfy `X`, and only pages that satisfy `C` are cloned.
-/

namespace F9

open Linked Result

variable {ret : Int} {base size split stop : Word} {dst src : AsRef} {priv rl : Bool} {a : AsRef}
  {r first0 last0 : FpRef} {action : MapAction} {res pf pl first last : Option FpRef}

/-- One primitive effect. -/
inductive Prim (mm : Memmap) (X : AsRef → Prop) (C : Kernel → FpRef → Prop) :
    Kernel → Kernel → Prop
  | cut {s s' a r sp cl cr} : X a → s.liveAs a = true → r ∈ s.pages a →
      Cut mm s s' a r (s.pages a) sp cl cr → Prim mm X C s s'
  | clone {s s' d r f action} : C s r → s.liveAs d = true →
      Cloned s s' d r f action (s.pages d) → Prim mm X C s s'
  | extend {s s' a m N l} : s.liveAs a = true → Extended mm m s s' a (s.pages a) N l →
      Prim mm X C s s'
  | unmap {s s' a r p} : X a → s.liveAs a = true → r ∈ s.pages a →
      Unmapped s s' a r p (s.pages a) → Prim mm X C s s'

/-- A sequence of primitive effects on well-formed states. -/
inductive Prims (mm : Memmap) (X : AsRef → Prop) (C : Kernel → FpRef → Prop) :
    Kernel → Kernel → Prop
  | refl {s} : Prims mm X C s s
  | tail {s s1 s'} : Prims mm X C s s1 → Wf s1 → Prim mm X C s1 s' → Prims mm X C s s'

variable {mm : Memmap} {X : AsRef → Prop} {C : Kernel → FpRef → Prop} {s s' t : Kernel}
  {p : Option FpRef}

theorem Prim.out (h : Prim mm X C s s') : SameOut s s' := by
  cases h with
  | cut _ _ _ h => exact h.out
  | clone _ _ h => exact h.out
  | extend _ h => exact h.out
  | unmap _ _ _ h => exact h.out

theorem Prim.wf (hwf : Wf s) (h : Prim mm X C s s') : Wf s' := by
  cases h with
  | cut _ ha hr h => exact (Cut.lists hwf ha hr h).wf
  | clone _ hd h => exact (Cloned.lists hwf hd h).wf
  | extend ha h => exact (Extended.lists hwf ha h).wf
  | unmap _ ha hr h => exact (Unmapped.lists hwf ha hr h).wf

theorem Prims.single (hwf : Wf s) (h : Prim mm X C s s') : Prims mm X C s s' :=
  .tail .refl hwf h

theorem Prims.trans (h1 : Prims mm X C s s') (h2 : Prims mm X C s' t) : Prims mm X C s t := by
  induction h2 with
  | refl => exact h1
  | tail _ hwf hp ih => exact ih.tail hwf hp

theorem Prims.invariant {I : Kernel → Prop}
    (hI : ∀ s s', Wf s → I s → Prim mm X C s s' → I s') (h : Prims mm X C s s') (hs : I s) :
    I s' := by
  induction h with
  | refl => exact hs
  | tail _ hwf hp ih => exact hI _ _ hwf ih hp

theorem Prims.wf (h : Prims mm X C s s') (hwf : Wf s) : Wf s' :=
  h.invariant (fun _ _ _ hw hp => hp.wf hw) hwf

theorem Prims.out (h : Prims mm X C s s') : SameOut s s' := by
  induction h with
  | refl => exact .refl _
  | tail _ _ hp ih => exact ih.trans hp.out

/-! ## The routines -/

theorem splitFpage_prims (hq : Quiet s) (hwf : Wf s) (hX : X a) (ha : s.liveAs a = true)
    (h : splitFpage mm s (some a) r split rl = .ok (res, s')) : Prims mm X C s s' := by
  by_cases hr : r ∈ s.pages a
  · rcases splitFpage_spec hq (hwf.chain a ha) (hwf.live a ha) hr h with
      ⟨_, _, rfl⟩ | ⟨_, _, ⟨_, _, rfl⟩ | ⟨cl, cr, hcut, _⟩⟩
    · exact .refl
    · exact .refl
    · exact .single hwf (.cut hX ha hr hcut)
  · obtain ⟨rfl, _⟩ := splitFpage_not_mem hq (hwf.chain a ha) (hwf.live a ha) hr h
    exact .refl

theorem unmapFpage_prims (hq : Quiet s) (hwf : Wf s) (hX : X a) (ha : s.liveAs a = true)
    (hr : r ∈ s.pages a) (h : unmapFpage s a r = .ok (ret, s')) :
    Prims mm X C s s' := by
  rcases unmapFpage_spec hq (hwf.chain a ha) hr h with ⟨_, _, rfl⟩ | ⟨_, p, hu⟩
  · exact .refl
  · exact .single hwf (.unmap hX ha hr hu)

theorem mapFpage_prims {d : AsRef} (hwf : Wf s) (hC : ∀ r, p = some r → C s r)
    (hd : s.liveAs d = true) (h : mapFpage s d p action = .ok s') : Prims mm X C s s' := by
  obtain ⟨r, f, hr, hc⟩ := mapFpage_spec (hwf.chain d hd) (hwf.live d hd) h
  exact .single hwf (.clone (hC r hr) hd hc)

theorem assignFpagesExt_prims {mpid : Option Nat} (hwf : Wf s) (ha : s.liveAs a = true)
    (h : assignFpagesExt mm s mpid (some a) base size none none = .ok (ret, pf, pl, s')) :
    Prims mm X C s s' := by
  rcases assignFpagesExt_extended (hwf.chain a ha) (hwf.live a ha) h with rfl | ⟨m, N, l, he⟩
  · exact .refl
  · exact .single hwf (.extend ha he)

theorem assignFpages_prims (hwf : Wf s) (ha : s.liveAs a = true)
    (h : assignFpages mm s (some a) base size = .ok (ret, s')) : Prims mm X C s s' := by
  obtain ⟨⟨r, pf, pl, s1⟩, hext, h⟩ := bind_ok.mp h
  obtain ⟨_, h2⟩ := pure_pair.mp h
  subst h2
  exact assignFpagesExt_prims hwf ha hext

theorem mapUserPool_prims {mp : Mempool} (hwf : Wf s) (ha : s.liveAs a = true)
    (h : mapUserPool mm a s mp = .ok s') : Prims mm X C s s' := by
  have hassign : ∀ p, assignFpages mm s (some a) mp.start (mp.stop - mp.start) = .ok p →
      p.2 = s' → Prims mm X C s s' := by
    rintro ⟨r, s1⟩ h1 rfl
    exact assignFpages_prims hwf ha h1
  unfold mapUserPool at h
  cases ht : mp.tag with
  | userData =>
    rw [ht] at h
    obtain ⟨p, h1, h⟩ := bind_ok.mp h
    exact hassign p h1 (pure_ok.mp h)
  | userText =>
    rw [ht] at h
    obtain ⟨p, h1, h⟩ := bind_ok.mp h
    exact hassign p h1 (pure_ok.mp h)
  | devices =>
    rw [ht] at h
    obtain ⟨p, h1, h⟩ := bind_ok.mp h
    exact hassign p h1 (pure_ok.mp h)
  | _ =>
    rw [ht] at h
    have := pure_ok.mp h
    subst this
    exact .refl

theorem asMapUser_prims (hwf : Wf s) (ha : s.liveAs a = true) (h : asMapUser mm s a = .ok s') :
    Prims mm X C s s' := by
  -- `mm` is both the table that is folded over and the map of the pools
  have key : ∀ (ps : List Mempool) (s s' : Kernel), Wf s → s.liveAs a = true →
      ps.foldlM (mapUserPool mm a) s = .ok s' → Prims mm X C s s' := by
    intro ps
    induction ps with
    | nil =>
      intro s s' _ _ h
      have := pure_ok.mp h
      subst this
      exact .refl
    | cons mp ps ih =>
      intro s s' hwf ha h
      obtain ⟨s1, h1, h2⟩ := bind_ok.mp h
      have hp : Prims mm X C s s1 := mapUserPool_prims hwf ha h1
      exact hp.trans (ih s1 s' (hp.wf hwf) (hp.out.live ha) h2)
  exact key mm s s' hwf ha h

theorem CloneSeq.prims {rs : List FpRef} (h : CloneSeq dst action s rs s') (hwf : Wf s)
    (hd : s.liveAs dst = true) (hC : ∀ s r, C s r) : Prims mm X C s s' := by
  induction h with
  | nil => exact .refl
  | cons hc _ ih =>
    have hp : Prim mm X C _ _ := .clone (hC _ _) hd hc
    exact (Prims.single hwf hp).trans (ih (hp.wf hwf) (hc.out.live hd))

theorem mapAreaSpan_prims {span : MapSpan} (hwf : Wf s) (hs : s.liveAs src = true)
    (h : mapAreaSpan mm s src dst base size priv = .ok (span, s')) : Prims mm X C s s' := by
  cases priv with
  | true =>
    obtain ⟨r, f, l, hext, _⟩ := mapAreaSpan_true h
    exact assignFpagesExt_prims hwf hs hext
  | false =>
    rw [(mapAreaSpan_false h).1]
    exact .refl

theorem SplitStage.prims (hq : Quiet s) (hwf : Wf s) (hX : X src) (hs : s.liveAs src = true)
    (h : SplitStage mm s s' src base stop first0 last0 first last) : Prims mm X C s s' := by
  obtain ⟨s1, last1, h1, _, h2⟩ := h.steps
  have hp : Prims mm X C s s1 := splitFpage_prims hq hwf hX hs h1
  exact hp.trans (splitFpage_prims (hp.out.quiet hq) (hp.wf hwf) hX
    (hp.out.live hs) h2)

/-- `map_area` of a space to itself only creates pages. -/
theorem mapArea_self_prims (hwf : Wf s) (ha : s.liveAs a = true)
    (h : mapArea mm s a a base size action priv = .ok (ret, s')) : Prims mm X C s s' := by
  obtain ⟨span, s1, hspan, hcases⟩ := mapArea_ok h
  have hp : Prims mm X C s s1 := mapAreaSpan_prims hwf ha hspan
  have hret : span = .ret 0 := by
    cases priv with
    | true =>
      obtain ⟨r, f, l, _, hsp⟩ := mapAreaSpan_true hspan
      rw [hsp, if_pos rfl]
    | false =>
      obtain ⟨_, ⟨_, hsp⟩ | ⟨hne, _⟩⟩ := mapAreaSpan_false hspan
      · exact hsp
      · exact absurd rfl hne
  rcases hcases with ⟨_, rfl⟩ | ⟨_, _, hsp, _⟩ | ⟨_, _, _, _, _, hsp, _⟩
  · exact hp
  · exact absurd (hret.symm.trans hsp) (by simp)
  · exact absurd (hret.symm.trans hsp) (by simp)

/-- `map_area` cuts pages of the source only. -/
theorem mapArea_prims (hq : Quiet s) (hwf : Wf s) (hX : X src) (hC : ∀ s r, C s r)
    (hs : s.liveAs src = true) (hd : s.liveAs dst = true)
    (h : mapArea mm s src dst base size action priv = .ok (ret, s')) : Prims mm X C s s' := by
  obtain ⟨span, s1, hspan, hcases⟩ := mapArea_ok h
  have hp : Prims mm X C s s1 := mapAreaSpan_prims hwf hs hspan
  rcases hcases with ⟨_, rfl⟩ | ⟨_, _, _, _, _, rfl⟩ |
    ⟨first0, last0, first, last, s2, _, hstage, hend⟩
  · exact hp
  · exact hp
  · have hp2 : Prims mm X C s s2 := hp.trans (hstage.prims (hp.out.quiet hq) (hp.wf hwf) hX
      (hp.out.live hs))
    rcases hend with ⟨_, _, rfl⟩ | ⟨f, l, _, _, _, hmap⟩
    · exact hp2
    · have hd2 : s2.liveAs dst = true := hp2.out.live hd
      obtain ⟨rs, hrs⟩ := mapChain_seq _ _ _ _ (hp2.wf hwf) hd2 hmap
      exact hp2.trans (hrs.prims (hp2.wf hwf) hd2 hC)

end F9
