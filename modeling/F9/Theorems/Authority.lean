import F9.Logic.Cover
import F9.Logic.Steps

/-!
# No authority from nothing

An unprivileged `map_area` moves authority, it makes none. The two splits leave the
addresses of the source as they are (`splitFpage_inside`), since the split points
lie in the pages that are cut. The mapping loop clones pages of the source. If the
second split has freed the page that `first` points to, the loop starts at a freed slot,
but that still describes a part of the source, and its link leads back to the list
(`mapChain_within`).
-/

namespace F9

open Linked Result

variable {mm : Memmap} {s s' t : Kernel} {src dst : AsRef} {stop base : Word} {y : FpRef}
  {action : MapAction}

/-! ## The splits -/

/-- What a split leaves alone. -/
structure SplitKeeps (s s' : Kernel) (src : AsRef) : Prop where
  out : SameOut s s'
  wf : Wf s'
  covers : ∀ addr, s'.Covers src addr ↔ s.Covers src addr
  others : ∀ b, s.liveAs b = true → b ≠ src → Unchanged s s' b

theorem SplitKeeps.refl (hwf : Wf s) (src : AsRef) : SplitKeeps s s src :=
  ⟨.refl s, hwf, fun _ => Iff.rfl, fun b _ _ => .refl s b⟩

theorem SplitKeeps.trans (h1 : SplitKeeps s s' src) (h2 : SplitKeeps s' t src) :
    SplitKeeps s t src := by
  refine ⟨h1.out.trans h2.out, h2.wf, fun addr => (h2.covers addr).trans (h1.covers addr), ?_⟩
  intro b hb hne
  exact (h1.others b hb hne).trans (h2.others b (h1.out.live hb) hne)

section

variable {x : FpRef} {split : Word} {rl : Bool} {res : Option FpRef} (hq : Quiet s) (hwf : Wf s)
  (hnum : s.fpageTable.num = configMaxFpages) (hs : s.liveAs src = true) (hsz : s.Sized src)
include hq hwf hnum hs hsz

theorem splitFpage_inside (hin : x ∈ s.pages src → addrInFpage split (s.fp x) true = true)
    (h : splitFpage mm s (some src) x split rl = .ok (res, s')) : SplitKeeps s s' src := by
  by_cases hx : x ∈ s.pages src
  · rcases splitFpage_spec hq (hwf.chain src hs) (hwf.live src hs) hx h with
      ⟨_, _, rfl⟩ | ⟨h1, h2, ⟨_, _, rfl⟩ | ⟨cl, cr, hc, _⟩⟩
    · exact .refl hwf src
    · exact .refl hwf src
    · have hplace := hc.inside hnum (hwf.live src hs x hx) (hsz x hx) (hin hx) h1 h2
      exact ⟨hc.out, (hc.lists hwf hs hx).wf, hc.covers hwf hs hx hplace,
        fun b hb hne => hc.unchanged hwf hs hx hb hne⟩
  · obtain ⟨rfl, _⟩ := splitFpage_not_mem hq (hwf.chain src hs) (hwf.live src hs) hx h
    exact .refl hwf src

/-- A split at an address of the page leaves pages of the smallest size or more: a page at
the end of memory, which could be cut elsewhere, holds no address for `addr_in_fpage`. -/
theorem splitFpage_sized (hx : x ∈ s.pages src) (hin : addrInFpage split (s.fp x) false = true)
    (h : splitFpage mm s (some src) x split rl = .ok (res, s')) :
    s'.Sized src ∧ (s' = s ∨ x ∉ s'.pages src) ∧
      ∀ y, y ≠ x → s.liveFp y = true → (s'.fp y).block = (s.fp y).block := by
  rcases splitFpage_spec hq (hwf.chain src hs) (hwf.live src hs) hx h with
    ⟨_, _, rfl⟩ | ⟨h1, h2, ⟨_, _, rfl⟩ | ⟨cl, cr, hc, _⟩⟩
  · exact ⟨hsz, .inl rfl, fun _ _ _ => rfl⟩
  · exact ⟨hsz, .inl rfl, fun _ _ _ => rfl⟩
  · have hlive := hwf.live src hs x hx
    have hfresh : ∀ y, s.liveFp y = true → y ∉ cl ++ cr := by
      intro y hy hyc
      exact ne_true_of_eq_false (hc.fresh y hyc) hy
    obtain ⟨_, _, hhi⟩ := (hsz x hx).addrIn_iff.mp hin
    refine ⟨?_, .inr ?_, fun y _ hy => hc.block (hfresh y hy)⟩
    · intro y hy
      rcases (hc.mem_pages hwf hs hx).mp hy with hyc | ⟨hys, _⟩
      · rcases hc.place hnum hlive (hsz x hx) (addrInFpage_end hin) h1 h2 with
          ⟨_, _, hv, hl, hr⟩ | ⟨htop, _⟩
        · refine hc.sized (hsz x hx) ?_ (by rw [hv]; exact hl) (by rw [hv]; exact hr) y hyc
          rw [hv]
          exact Nat.dvd_mul_left 256 _
        · omega
      · exact (hsz y hys).congr (hc.block (hfresh y (hwf.live src hs y hys)))
    · intro hx'
      rcases (hc.mem_pages hwf hs hx).mp hx' with hxc | ⟨_, hne⟩
      · exact hfresh x hlive hxc
      · exact hne rfl

end

theorem lastSearch_holds (n : Nat) (p : Option FpRef) (h : lastSearch s stop n p = .ok (some y)) :
    addrInFpage stop (s.fp y) true = true := by
  induction n generalizing p with
  | zero => simp [lastSearch] at h
  | succ n ih =>
    cases p with
    | none => simp [lastSearch] at h
    | some x =>
      unfold lastSearch at h
      split at h
      · rename_i hx
        simp only [Except.ok.injEq, Option.some.injEq] at h
        rw [← h]
        exact hx
      · exact ih _ h

/-- A slot from which the mapping loop may go on: it describes addresses of `S`, and it is
on one of the two lists, or free with a link to the list of the source. -/
structure LoopAt (s : Kernel) (src dst : AsRef) (S : Word → Prop) (r : FpRef) : Prop where
  within : ∀ addr, (s.fp r).Holds addr → S addr
  place : r ∈ s.pages src ∨ r ∈ s.pages dst ∨
    (s.liveFp r = false ∧ ∀ y, s.asNext r = some y → y ∈ s.pages src)

/-- Both splits leave the addresses of the source alone, and the loop can start. -/
theorem SplitStage.keeps {first0 last0 : FpRef} {first last : Option FpRef} (hq : Quiet s)
    (hwf : Wf s) (hnum : s.fpageTable.num = configMaxFpages) (hs : s.liveAs src = true)
    (hsz : s.Sized src) (hf : first0 ∈ s.pages src) (hl : last0 ∈ s.pages src)
    (hbase : addrInFpage base (s.fp first0) false = true)
    (hstop : addrInFpage stop (s.fp last0) true = true)
    (h : SplitStage mm s s' src base stop first0 last0 first last) (dst : AsRef) :
    SplitKeeps s s' src ∧ ∀ f, first = some f → LoopAt s' src dst (s.Covers src) f := by
  obtain ⟨s1, last1, h1, hlast, h2⟩ := h.steps
  have hbase' := addrInFpage_end hbase
  have hk1 : SplitKeeps s s1 src := splitFpage_inside hq hwf hnum hs hsz (fun _ => hbase') h1
  obtain ⟨hsz1, hcut, hblock⟩ := splitFpage_sized hq hwf hnum hs hsz hf hbase h1
  have hs1 : s1.liveAs src = true := hk1.out.live hs
  have hq1 := hk1.out.quiet hq
  -- the second split is at an address of the page it cuts
  have hin : last1 ∈ s1.pages src → addrInFpage stop (s1.fp last1) true = true := by
    intro hmem
    have hkeep : last1 = last0 → addrInFpage stop (s1.fp last1) true = true := by
      intro heq
      subst heq
      rcases hcut with rfl | hgone
      · exact hstop
      · have hne : last1 ≠ first0 := fun heq => hgone (heq ▸ hmem)
        rw [addrInFpage_congr (hblock last1 hne (hwf.live src hs last1 hl))]
        exact hstop
    unfold mapAreaLast at hlast
    split at hlast
    · obtain ⟨y, hy, hlast⟩ := bind_ok.mp hlast
      cases y with
      | none => exact hkeep (pure_ok.mp hlast).symm
      | some y =>
        rw [← pure_ok.mp hlast]
        exact lastSearch_holds _ _ hy
    · exact hkeep (pure_ok.mp hlast).symm
  have hk2 : SplitKeeps s1 s' src :=
    splitFpage_inside hq1 hk1.wf (by rw [hk1.out.num]; exact hnum) hs1 hsz1 hin h2
  have hk := hk1.trans hk2
  refine ⟨hk, fun f hfirst => ?_⟩
  have hf1 : f ∈ s1.pages src := by
    subst hfirst
    rcases splitFpage_spec hq (hwf.chain src hs) (hwf.live src hs) hf h1 with
      ⟨_, hres, rfl⟩ | ⟨_, _, ⟨_, hres, _⟩ | ⟨cl, cr, hc, hres⟩⟩
    · injection hres with hres
      rw [hres]
      exact hf
    · simp at hres
    · exact (hc.right_head hwf hs hf hres.symm).1
  rcases splitFpage_keeps hq1 hk1.wf hs1 hf1 h2 with hf2 | ⟨rfl, cl, cr, hc, _⟩
  · exact ⟨fun addr hh => (hk.covers addr).mp ⟨f, hf2, hh⟩, .inl hf2⟩
  · -- the second split has freed the page, which keeps its record
    have hfc : last1 ∉ cl ++ cr := fun hfc => hk1.wf.not_mem (hc.fresh last1 hfc) hs1 hf1
    refine ⟨fun addr hh => (hk1.covers addr).mp ⟨last1, hf1, ?_⟩, .inr (.inr ⟨?_, ?_⟩)⟩
    · exact (Fpage.holds_congr (hc.block hfc) addr).mp hh
    · rw [hc.live, decide_eq_false hfc, decide_eq_false (by simp), Bool.and_false,
        Bool.or_false]
    · intro y hy
      rw [hc.links last1 ?_ hfc] at hy
      · have hchain := hk1.wf.chain src hs1
        have hys : y ∈ s1.pages src := hchain.next_mem hf1 hy
        refine (hc.mem_pages hk1.wf hs1 hf1).mpr (.inr ⟨hys, ?_⟩)
        exact hchain.next_ne hf1 hy
      · rw [(hk1.wf.chain src hs1).nodup.mem_erase_iff]
        exact fun hmem => hmem.1 rfl

/-! ## The mapping loop -/

theorem LoopAt.next {S : Word → Prop} {r f : FpRef} (hne : src ≠ dst) (hwf : Wf s)
    (hs : s.liveAs src = true) (hd : s.liveAs dst = true) (h : LoopAt s src dst S r)
    (hc : Cloned s s' dst r f action (s.pages dst)) (hsrc : ∀ addr, s'.Covers src addr → S addr)
    (hdst : ∀ addr, s'.Covers dst addr → S addr) (hy : s'.asNext r = some y) :
    LoopAt s' src dst S y := by
  have hwf' := (hc.lists hwf hd).wf
  have hs' : s'.liveAs src = true := hc.out.live hs
  have hd' : s'.liveAs dst = true := hc.out.live hd
  have hps : s'.pages src = s.pages src := hc.pages_ne hwf hd hs hne
  have hon : y ∈ s'.pages src ∨ y ∈ s'.pages dst := by
    by_cases hr : r ∈ s'.pages dst
    · exact .inr ((hwf'.chain dst hd').next_mem hr hy)
    · left
      have hmem : r ∉ s.pages dst ∧ r ≠ f := by
        rw [hc.pages_eq hwf hd, mem_spliceAt, List.mem_singleton, not_or] at hr
        exact ⟨hr.2, hr.1⟩
      rcases h.place with hrs | hrd | ⟨_, hlink⟩
      · exact (hwf'.chain src hs').next_mem (by rw [hps]; exact hrs) hy
      · exact absurd hrd hmem.1
      · rw [hps]
        refine hlink y ?_
        rw [← hc.links r hmem.1 hmem.2]
        exact hy
  rcases hon with hon | hon
  · exact ⟨fun addr hh => hsrc addr ⟨y, hon, hh⟩, .inl hon⟩
  · exact ⟨fun addr hh => hdst addr ⟨y, hon, hh⟩, .inr (.inl hon)⟩

/-- The mapping loop gives `dst` addresses of `S` only. -/
theorem mapChain_within {S : Word → Prop} {last : FpRef} (hne : src ≠ dst) (n : Nat) (s s' : Kernel)
    (r : FpRef) (hwf : Wf s) (hs : s.liveAs src = true) (hd : s.liveAs dst = true)
    (hS : ∀ addr, s.Covers src addr → S addr) (hD : ∀ addr, s.Covers dst addr → S addr)
    (hr : LoopAt s src dst S r) (h : mapChain dst action last n s (some r) = .ok s') :
    (∀ addr, s'.Covers dst addr → S addr) ∧
      (∀ addr, s'.Covers src addr ↔ s.Covers src addr) ∧
      ∀ b, s.liveAs b = true → b ≠ src → b ≠ dst → Unchanged s s' b := by
  induction n generalizing s s' r with
  | zero => simp [mapChain] at h
  | succ n ih =>
    obtain ⟨f, s1, hc, hstep⟩ := mapChain_step hwf hd h
    have hD1 : ∀ addr, s1.Covers dst addr → S addr := by
      intro addr ha
      rcases (hc.covers hwf hd addr).mp ha with ha | ha
      · exact hD addr ha
      · exact hr.within addr ha
    have hsame : ∀ addr, s1.Covers src addr ↔ s.Covers src addr := by
      refine covers_congr (hc.pages_ne hwf hd hs hne) fun y hy => ?_
      have hyf : y ≠ f := fun hyf => hwf.not_mem hc.fresh hs (hyf ▸ hy)
      rw [hc.block, if_neg hyf]
    have hothers : ∀ b, s.liveAs b = true → b ≠ src → b ≠ dst → Unchanged s s1 b := by
      intro b hb hbs hbd
      refine hc.unchanged hwf hd hb hbd fun hrb => ?_
      rcases hr.place with hrs | hrd | ⟨hdead, _⟩
      · exact hwf.disj b src hb hs hbs r hrb hrs
      · exact hwf.disj b dst hb hd hbd r hrb hrd
      · exact hwf.not_mem hdead hb hrb
    rcases hstep with ⟨_, rfl⟩ | ⟨_, y, hnx, hloop⟩
    · exact ⟨hD1, hsame, hothers⟩
    · have hwf1 := (hc.lists hwf hd).wf
      have hs1 : s1.liveAs src = true := hc.out.live hs
      have hd1 : s1.liveAs dst = true := hc.out.live hd
      have hS1 : ∀ addr, s1.Covers src addr → S addr := fun addr ha =>
        hS addr ((hsame addr).mp ha)
      obtain ⟨h1, h2, h3⟩ := ih s1 s' y hwf1 hs1 hd1 hS1 hD1
        (hr.next hne hwf hs hd hc hS1 hD1 hnx) hloop
      refine ⟨h1, fun addr => (h2 addr).trans (hsame addr), fun b hb hbs hbd => ?_⟩
      exact (hothers b hb hbs hbd).trans (h3 b (hc.out.live hb) hbs hbd)

/-! ## The call -/

/-- No address is gained that the two spaces did not have: what a call with source `src`,
destination `dst` and result `ret` keeps. -/
structure NoNewAuthority (s s' : Kernel) (src dst : AsRef) (ret : Int) : Prop where
  within : ∀ addr, s'.Covers dst addr → s.Covers dst addr ∨ s.Covers src addr
  source : ∀ addr, s'.Covers src addr ↔ s.Covers src addr
  others : ∀ b, s.liveAs b = true → b ≠ src → b ≠ dst → Unchanged s s' b
  failed : ret = -1 → ∀ addr, s'.Covers dst addr ↔ s.Covers dst addr

theorem NoNewAuthority.refl (s : Kernel) (src dst : AsRef) (ret : Int) :
    NoNewAuthority s s src dst ret :=
  ⟨fun _ ha => .inl ha, fun _ => Iff.rfl, fun b _ _ _ => .refl s b, fun _ _ => Iff.rfl⟩

end F9
