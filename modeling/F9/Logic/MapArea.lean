import F9.Logic.Destroy

/-!
# `map_area`, stage by stage

The searches of `map_area` as functions on the list of the source space, the
stages of a call that returns (`mapArea_ok`), and where the pointers `first`
and `last` stand after each of them.
-/

namespace F9

open Linked Result

variable {a src dst : AsRef} {base stop size : Word} {x last : FpRef} {mm : Memmap}
  {action : MapAction} {q : FpRef} {pre post : List FpRef} {priv : Bool} {n : Nat}

/-! ## Searches -/

theorem Lists.length_lt {s : Kernel} {L : AsRef → List FpRef} (hL : Lists s L)
    (ha : s.liveAs a = true) : (L a).length < s.walkBound :=
  Nat.lt_succ_of_le (length_le_of_nodup_lt (hL.chain a ha).nodup
    fun x hx => liveFp_lt (hL.live a ha x hx))

/-- The search for the first and the last page, on the list. -/
def spanSearch (s : Kernel) (base stop : Word) :
    List FpRef → Option FpRef → Word → Option (Option FpRef × Option FpRef)
  | [], first, _ => some (first, none)
  | fp :: l, first, probe =>
    let first := if first.isNone && addrInFpage base (s.fp fp) false then some fp else first
    if addrInFpage stop (s.fp fp) true then some (first, some fp)
    else if first.isSome then
      if addrInFpage probe (s.fp fp) true then
        spanSearch s base stop l first (probe + (s.fp fp).size)
      else none
    else spanSearch s base stop l first probe

theorem mapAreaSearch_eq {s : Kernel} (l : List FpRef) (n : Nat) (p first : Option FpRef)
    (probe : Word) (hl : Chain s.asNext p l) (hn : l.length < n) :
    mapAreaSearch s base stop n p first probe = .ok (spanSearch s base stop l first probe) := by
  induction l, n, p, hl, hn using Chain.walk_rec generalizing first probe with
  | nil n => rfl
  | cons fp l n _ _ ih =>
    unfold mapAreaSearch spanSearch
    dsimp only
    generalize (if (first.isNone && addrInFpage base (s.fp fp) false) = true
      then some fp else first) = first'
    split
    · rfl
    · split
      · split
        · exact ih _ _
        · rfl
      · exact ih _ _

/-- The checks of the search: each page holds the probe, which then moves on by
the size of the page. -/
def probes (s : Kernel) : Word → List FpRef → Prop
  | _, [] => True
  | probe, x :: l => addrInFpage probe (s.fp x) true = true ∧ probes s (probe + (s.fp x).size) l

/-- With `first` found, the search looks for the first page that holds `stop`
and checks the pages before it. -/
theorem spanSearch_some {s : Kernel} (l : List FpRef) (f : Option FpRef) (probe : Word)
    (h : spanSearch s base stop l (some x) probe = some (f, some q)) :
    f = some x ∧ ∃ mid post, l = mid ++ q :: post ∧ addrInFpage stop (s.fp q) true = true ∧
      (∀ y ∈ mid, addrInFpage stop (s.fp y) true = false) ∧ probes s probe mid := by
  induction l generalizing f probe with
  | nil => simp [spanSearch] at h
  | cons y l ih =>
    unfold spanSearch at h
    simp only [Option.isNone_some, Bool.false_and, Bool.false_eq_true, if_false,
      Option.isSome_some, if_true] at h
    cases hy : addrInFpage stop (s.fp y) true with
    | true =>
      rw [if_pos hy] at h
      obtain ⟨rfl, rfl⟩ := h
      exact ⟨rfl, [], l, rfl, hy, by simp, trivial⟩
    | false =>
      rw [if_neg (by rw [hy]; simp)] at h
      split at h
      · rename_i hp
        obtain ⟨hf, mid, post, rfl, h1, h2, h3⟩ := ih f _ h
        exact ⟨hf, y :: mid, post, rfl, h1, List.forall_mem_cons.mpr ⟨hy, h2⟩, ⟨hp, h3⟩⟩
      · simp at h

/-- What a successful search has found: the first page that holds `base`, no
later than the first that holds `stop`, and the pages between pass the checks. -/
theorem spanSearch_found {s : Kernel} : ∀ (l : List FpRef)
    (probe : Word), spanSearch s base stop l none probe = some (some x, some q) →
    ∃ pre rest, l = pre ++ x :: rest ∧
      (∀ y ∈ pre, addrInFpage base (s.fp y) false = false ∧
        addrInFpage stop (s.fp y) true = false) ∧
      addrInFpage base (s.fp x) false = true ∧ addrInFpage stop (s.fp q) true = true ∧
      (q = x ∨ (addrInFpage stop (s.fp x) true = false ∧ ∃ mid post, rest = mid ++ q :: post ∧
        (∀ y ∈ mid, addrInFpage stop (s.fp y) true = false) ∧ probes s probe (x :: mid))) := by
  intro l
  induction l with
  | nil =>
    intro probe h
    simp [spanSearch] at h
  | cons y l ih =>
    intro probe h
    unfold spanSearch at h
    simp only [Option.isNone_none, Bool.true_and] at h
    cases hb : addrInFpage base (s.fp y) false with
    | true =>
      simp only [hb, if_true, Option.isSome_some] at h
      cases hy : addrInFpage stop (s.fp y) true with
      | true =>
        rw [if_pos hy] at h
        obtain ⟨rfl, rfl⟩ := h
        exact ⟨[], l, rfl, by simp, hb, hy, .inl rfl⟩
      | false =>
        rw [if_neg (by rw [hy]; simp)] at h
        split at h
        · rename_i hp
          obtain ⟨hf, mid, post, rfl, h1, h2, h3⟩ := spanSearch_some l _ _ h
          injection hf with hf
          subst hf
          exact ⟨[], _, rfl, by simp, hb, h1, .inr ⟨hy, mid, post, rfl, h2, hp, h3⟩⟩
        · simp at h
    | false =>
      simp only [hb, Bool.false_eq_true, if_false, Option.isSome_none] at h
      cases hy : addrInFpage stop (s.fp y) true with
      | true =>
        rw [if_pos hy] at h
        simp at h
      | false =>
        rw [if_neg (by rw [hy]; simp)] at h
        obtain ⟨pre, rest, rfl, h1, h2⟩ := ih probe h
        exact ⟨y :: pre, rest, rfl, List.forall_mem_cons.mpr ⟨⟨hb, hy⟩, h1⟩, h2⟩

theorem lastSearch_eq {s : Kernel} (l : List FpRef) (n : Nat) (p : Option FpRef)
    (hl : Chain s.asNext p l) (hn : l.length < n) :
    lastSearch s stop n p = .ok (l.find? fun x => addrInFpage stop (s.fp x) true) := by
  induction l, n, p, hl, hn using Chain.walk_rec with
  | nil n => rfl
  | cons fp l n _ _ ih =>
    unfold lastSearch
    cases hf : addrInFpage stop (s.fp fp) true with
    | true => rw [if_pos rfl, List.find?_cons_of_pos (by simpa using hf)]
    | false =>
      rw [if_neg (by simp), List.find?_cons_of_neg (by simp [hf])]
      exact ih

theorem lastSearch_listed {s : Kernel} (hwf : Wf s) (ha : s.liveAs a = true)
    (hl : s.pages a = pre ++ x :: post) :
    lastSearch s stop s.walkBound (some x) =
      .ok ((x :: post).find? fun y => addrInFpage stop (s.fp y) true) := by
  have hchain := hwf.chain a ha
  have hlen := hwf.length_lt ha
  rw [hl] at hchain hlen
  refine lastSearch_eq _ _ _ (chain_cons.mpr ⟨rfl, (chain_append_cons.mp hchain).2⟩) ?_
  rw [List.length_append] at hlen
  omega

/-- `last` stays if it is not the page of `first`. -/
theorem mapAreaLast_ne {f z y : FpRef} {o : Option FpRef}
    (h : mapAreaLast s stop (f == z) o z = .ok y) (hne : f ≠ z) : y = z := by
  unfold mapAreaLast at h
  rw [if_neg (by simpa using hne)] at h
  exact (pure_ok.mp h).symm

/-- Otherwise it is searched for from `first` on. -/
theorem mapAreaLast_listed {f z : FpRef} (hwf : Wf s) (ha : s.liveAs a = true)
    (hl : s.pages a = pre ++ x :: post) : mapAreaLast s stop (f == f) (some x) z =
      .ok (((x :: post).find? fun y => addrInFpage stop (s.fp y) true).getD z) := by
  unfold mapAreaLast
  rw [if_pos (by simp), lastSearch_listed hwf ha hl]
  generalize (x :: post).find? _ = found
  cases found <;> rfl

/-- A page that is left whole and holds the end is found again. -/
theorem mapAreaLast_whole {f z y : FpRef} (hwf : Wf s) (ha : s.liveAs a = true)
    (hf : f ∈ s.pages a) (hin : addrInFpage stop (s.fp z) true = true)
    (h : mapAreaLast s stop (f == z) (some f) z = .ok y) : y = z := by
  by_cases hfz : f = z
  · subst hfz
    obtain ⟨pre, post, hl⟩ := List.append_of_mem hf
    rw [mapAreaLast_listed hwf ha hl, List.find?_cons_of_pos (by exact hin)] at h
    exact (ok_ok.mp h).symm
  · exact mapAreaLast_ne h hfz

/-! ## Stages -/

/-- The two splits of `map_area`, with the search for an invalidated `last`
between them. -/
structure SplitStage (mm : Memmap) (s s' : Kernel) (src : AsRef) (base stop : Word)
    (first0 last0 : FpRef) (first last : Option FpRef) : Prop where
  steps : ∃ s1 last1, splitFpage mm s (some src) first0 base true = .ok (first, s1) ∧
    mapAreaLast s1 stop (first0 == last0) first last0 = .ok last1 ∧
    splitFpage mm s1 (some src) last1 stop false = .ok (last, s')

/-- The first stage of a privileged call assigns the range. -/
theorem mapAreaSpan_true {s s1 : Kernel} {span : MapSpan}
    (h : mapAreaSpan mm s src dst base size true = .ok (span, s1)) :
    ∃ r f l, assignFpagesExt mm s none (some src) base size none none = .ok (r, f, l, s1) ∧
      span = if src = dst then .ret 0 else .span f l := by
  obtain ⟨⟨r, f, l, s2⟩, hext, h⟩ := bind_ok.mp h
  dsimp only at h
  refine ⟨r, f, l, ?_⟩
  by_cases hsd : src = dst
  · rw [if_pos hsd] at h ⊢
    obtain ⟨rfl, rfl⟩ := pure_pair.mp h
    exact ⟨hext, rfl⟩
  · rw [if_neg hsd] at h ⊢
    obtain ⟨rfl, rfl⟩ := pure_pair.mp h
    exact ⟨hext, rfl⟩

theorem mapAreaSpan_false {s s1 : Kernel} {span : MapSpan}
    (h : mapAreaSpan mm s src dst base size false = .ok (span, s1)) :
    s1 = s ∧ ((src = dst ∧ span = .ret 0) ∨ (src ≠ dst ∧ ∃ res,
      mapAreaSearch s base (base + size) s.walkBound (s.as src).first none base = .ok res ∧
      span = match res with
        | none => .ret (-1)
        | some (first, last) => .span first last)) := by
  unfold mapAreaSpan at h
  by_cases hsd : src = dst
  · rw [if_pos hsd] at h
    obtain ⟨h1, h2⟩ := pure_pair.mp h
    exact ⟨h2.symm, .inl ⟨hsd, h1.symm⟩⟩
  · rw [if_neg hsd] at h
    obtain ⟨res, hres, h⟩ := bind_ok.mp h
    cases res <;>
      · obtain ⟨h1, h2⟩ := pure_pair.mp h
        exact ⟨h2.symm, .inr ⟨hsd, _, hres, h1.symm⟩⟩

/-- The first stage of an unprivileged call finds pages of the source that hold `base` and
`stop`. -/
theorem mapAreaSpan_found {s s' : Kernel} {first : FpRef} (hwf : Wf s) (hs : s.liveAs src = true)
    (h : mapAreaSpan mm s src dst base size false = .ok (.span (some first) (some last), s')) :
    s' = s ∧ src ≠ dst ∧ spanSearch s base (base + size) (s.pages src) none base =
      some (some first, some last) := by
  obtain ⟨rfl, ⟨_, hspan⟩ | ⟨hne, res, hsearch, hspan⟩⟩ := mapAreaSpan_false h
  · simp at hspan
  · rw [mapAreaSearch_eq _ _ _ _ _ (hwf.chain src hs) (hwf.length_lt hs)] at hsearch
    obtain rfl := ok_ok.mp hsearch
    refine ⟨rfl, hne, ?_⟩
    cases hsp : spanSearch s' base (base + size) (s'.pages src) none base with
    | none =>
      rw [hsp] at hspan
      simp at hspan
    | some q =>
      rw [hsp] at hspan
      injection hspan with h1 h2
      rw [h1, h2]

theorem mapArea_ok {s s' : Kernel} {ret : Int}
    (h : mapArea mm s src dst base size action priv = .ok (ret, s')) :
    ∃ span s1, mapAreaSpan mm s src dst base size priv = .ok (span, s1) ∧
      ((span = .ret ret ∧ s' = s1) ∨
       (∃ f l, span = .span f l ∧ (f = none ∨ l = none) ∧ ret = -1 ∧ s' = s1) ∨
       (∃ first0 last0 first last s2, span = .span (some first0) (some last0) ∧
          SplitStage mm s1 s2 src base (base + size) first0 last0 first last ∧
          (((first = none ∨ last = none) ∧ ret = -1 ∧ s' = s2) ∨
            ∃ f l, first = some f ∧ last = some l ∧ ret = 0 ∧
              mapChain dst action l s2.walkBound s2 (some f) = .ok s'))) := by
  obtain ⟨⟨span, s1⟩, hspan, h⟩ := bind_ok.mp h
  refine ⟨span, s1, hspan, ?_⟩
  cases span with
  | ret r =>
    obtain ⟨h1, h2⟩ := pure_pair.mp h
    exact .inl ⟨by rw [h1], h2.symm⟩
  | span f l =>
    right
    cases f with
    | none =>
      obtain ⟨h1, h2⟩ := pure_pair.mp h
      exact .inl ⟨none, l, rfl, .inl rfl, h1.symm, h2.symm⟩
    | some first0 =>
      cases l with
      | none =>
        obtain ⟨h1, h2⟩ := pure_pair.mp h
        exact .inl ⟨some first0, none, rfl, .inr rfl, h1.symm, h2.symm⟩
      | some last0 =>
        right
        obtain ⟨⟨first, s2⟩, hs1, h⟩ := bind_ok.mp h
        obtain ⟨last1, hl1, h⟩ := bind_ok.mp h
        obtain ⟨⟨last, s3⟩, hs2, h⟩ := bind_ok.mp h
        refine ⟨first0, last0, first, last, s3, rfl, ⟨⟨s2, last1, hs1, hl1, hs2⟩⟩, ?_⟩
        cases first with
        | none =>
          obtain ⟨h1, h2⟩ := pure_pair.mp h
          exact .inl ⟨.inl rfl, h1.symm, h2.symm⟩
        | some f =>
          cases last with
          | none =>
            obtain ⟨h1, h2⟩ := pure_pair.mp h
            exact .inl ⟨.inr rfl, h1.symm, h2.symm⟩
          | some l =>
            obtain ⟨s4, hmap, h⟩ := bind_ok.mp h
            obtain ⟨h1, h2⟩ := pure_pair.mp h
            subst h2
            exact .inr ⟨f, l, rfl, rfl, h1.symm, hmap⟩

/-- `map_area` between two spaces returns 0 behind the mapping loop only. -/
theorem mapArea_zero {s s' : Kernel} (hne : src ≠ dst) :
    mapArea mm s src dst base size action priv = .ok (0, s') ↔ ∃ P Q f l s1 s2,
      mapAreaSpan mm s src dst base size priv = .ok (.span (some P) (some Q), s1) ∧
      SplitStage mm s1 s2 src base (base + size) P Q (some f) (some l) ∧
      mapChain dst action l s2.walkBound s2 (some f) = .ok s' := by
  constructor
  · intro h
    obtain ⟨span, s1, hspan, hcases⟩ := mapArea_ok h
    rcases hcases with ⟨rfl, _⟩ | ⟨_, _, _, _, hret, _⟩ |
      ⟨P, Q, first, last, s2, rfl, hstage, ⟨_, hret, _⟩ | ⟨f, l, rfl, rfl, _, hloop⟩⟩
    · -- the result of the first stage is 0 only for the same space
      cases priv with
      | true =>
        obtain ⟨_, _, _, _, hres⟩ := mapAreaSpan_true hspan
        simp [hne] at hres
      | false =>
        obtain ⟨_, ⟨hsd, _⟩ | ⟨_, res, _, hres⟩⟩ := mapAreaSpan_false hspan
        · exact absurd hsd hne
        · cases res <;> simp at hres
    · simp at hret
    · simp at hret
    · exact ⟨P, Q, f, l, s1, s2, hspan, hstage, hloop⟩
  · rintro ⟨P, Q, f, l, s1, s2, hspan, hstage, hloop⟩
    obtain ⟨t, y, h1, h2, h3⟩ := hstage.steps
    unfold mapArea
    refine bind_ok.mpr ⟨_, hspan, bind_ok.mpr ⟨_, h1, bind_ok.mpr ⟨y, h2, bind_ok.mpr ⟨_, h3, ?_⟩⟩⟩⟩
    exact bind_ok.mpr ⟨s', hloop, rfl⟩

/-! ## The mapping loop -/

/-- The pages of the list are cloned into `dst`, one after the other. -/
inductive CloneSeq (dst : AsRef) (action : MapAction) : Kernel → List FpRef → Kernel → Prop
  | nil {s} : CloneSeq dst action s [] s
  | cons {s s1 s' r f rs} : Cloned s s1 dst r f action (s.pages dst) →
      CloneSeq dst action s1 rs s' → CloneSeq dst action s (r :: rs) s'

/-- The mapping loop does not return from `NULL`. -/
theorem mapChain_some {s s' : Kernel} {p : Option FpRef} (hwf : Wf s) (hd : s.liveAs dst = true)
    (h : mapChain dst action last n s p = .ok s') : ∃ r, p = some r := by
  cases n with
  | zero => simp [mapChain] at h
  | succ n =>
    unfold mapChain at h
    by_cases hp : p = some last
    · exact ⟨last, hp⟩
    · rw [if_neg hp] at h
      obtain ⟨s1, hmap, _⟩ := bind_ok.mp h
      obtain ⟨r, _, hr, _⟩ := mapFpage_spec (hwf.chain dst hd) (hwf.live dst hd) hmap
      exact ⟨r, hr⟩

theorem mapChain_step {s s' : Kernel} {r : FpRef} (hwf : Wf s) (hd : s.liveAs dst = true)
    (h : mapChain dst action last (n + 1) s (some r) = .ok s') :
    ∃ f s1, Cloned s s1 dst r f action (s.pages dst) ∧
      ((r = last ∧ s' = s1) ∨ (r ≠ last ∧ ∃ y, s1.asNext r = some y ∧
        mapChain dst action last n s1 (some y) = .ok s')) := by
  unfold mapChain at h
  by_cases hr : r = last
  · rw [if_pos (congrArg some hr)] at h
    obtain ⟨_, f, hx, hc⟩ := mapFpage_spec (hwf.chain dst hd) (hwf.live dst hd) h
    obtain rfl := Option.some.inj hx
    exact ⟨f, s', hc, .inl ⟨hr, rfl⟩⟩
  · rw [if_neg fun hp => hr (Option.some.inj hp)] at h
    obtain ⟨s1, hmap, h⟩ := bind_ok.mp h
    obtain ⟨x, hx, h⟩ := bind_ok.mp h
    obtain ⟨_, f, hy, hc⟩ := mapFpage_spec (hwf.chain dst hd) (hwf.live dst hd) hmap
    obtain rfl := Option.some.inj hy
    obtain rfl := Option.some.inj (deref_ok.mp hx)
    obtain ⟨y, hnx⟩ := mapChain_some (hc.lists hwf hd).wf (hc.out.live hd) h
    rw [hnx] at h
    exact ⟨f, s1, hc, .inr ⟨hr, y, hnx, h⟩⟩

/-- A mapping loop that returns has cloned some pages, `last` at the end. -/
theorem mapChain_seq (n : Nat) (s s' : Kernel) (p : Option FpRef) (hwf : Wf s)
    (hd : s.liveAs dst = true) (h : mapChain dst action last n s p = .ok s') :
    ∃ rs, CloneSeq dst action s (rs ++ [last]) s' := by
  induction n generalizing s s' p with
  | zero => simp [mapChain] at h
  | succ n ih =>
    obtain ⟨r, rfl⟩ := mapChain_some hwf hd h
    obtain ⟨f, s1, hc, ⟨rfl, rfl⟩ | ⟨_, y, _, hloop⟩⟩ := mapChain_step hwf hd h
    · exact ⟨[], .cons hc .nil⟩
    · obtain ⟨rs, hrs⟩ :=
        ih s1 s' _ (hc.lists hwf hd).wf (hc.out.live hd) hloop
      exact ⟨r :: rs, .cons hc hrs⟩

section

variable {s s' : Kernel} {d : AsRef} {r f : FpRef} (hwf : Wf s) (hd : s.liveAs d = true)
  (h : Cloned s s' d r f action (s.pages d))
include hwf hd h

theorem Cloned.pages_ne (ha : s.liveAs a = true) (had : a ≠ d) : s'.pages a = s.pages a := by
  have hL := h.lists hwf hd
  rw [hL.pages_eq (h.out.live ha), Function.update_of_ne had]

theorem Cloned.pages_eq : s'.pages d = spliceAt s' [f] (s.pages d) := by
  have hL := h.lists hwf hd
  rw [hL.pages_eq (h.out.live hd), Function.update_self]

end

theorem Cloned.next_listed {s s' : Kernel} {r f : FpRef} (hwf : Wf s) (hs : s.liveAs src = true)
    (hd : s.liveAs dst = true) (hne : src ≠ dst) (hl : s.pages src = pre ++ r :: post)
    (h : Cloned s s' dst r f action (s.pages dst)) :
    s'.asNext r = post.head? := by
  have hrs : r ∈ s.pages src := by rw [hl]; simp
  have hrf : r ≠ f := fun hrf => hwf.not_mem h.fresh hs (hrf ▸ hrs)
  have hchain := hwf.chain src hs
  rw [hl] at hchain
  rw [h.links r (hwf.disj src dst hs hd hne r hrs) hrf]
  exact (chain_append_cons.mp hchain).2.head_eq

/-- A mapping loop that starts on the list of another space runs along it up to
`last`. -/
theorem mapChain_listed (hne : src ≠ dst) (n : Nat) (s s' : Kernel) (pre : List FpRef) (r : FpRef)
    (post : List FpRef) (hwf : Wf s) (hs : s.liveAs src = true) (hd : s.liveAs dst = true)
    (hl : s.pages src = pre ++ r :: post) (h : mapChain dst action last n s (some r) = .ok s') :
    ∃ rs post', r :: post = rs ++ last :: post' ∧ CloneSeq dst action s (rs ++ [last]) s' := by
  induction n generalizing s s' pre r post with
  | zero => simp [mapChain] at h
  | succ n ih =>
    obtain ⟨f, s1, hc, ⟨rfl, rfl⟩ | ⟨_, y, hnx, hloop⟩⟩ := mapChain_step hwf hd h
    · exact ⟨[], post, rfl, .cons hc .nil⟩
    · rw [hc.next_listed hwf hs hd hne hl] at hnx
      cases post with
      | nil => simp at hnx
      | cons nx post =>
        obtain rfl := Option.some.inj hnx
        have hl1 : s1.pages src = pre ++ [r] ++ nx :: post := by
          rw [hc.pages_ne hwf hd hs hne, hl]
          simp
        obtain ⟨rs, post', hseg, hcs⟩ := ih s1 s' _ nx post (hc.lists hwf hd).wf
          (hc.out.live hs) (hc.out.live hd) hl1 hloop
        exact ⟨r :: rs, post', by rw [hseg]; rfl, .cons hc hcs⟩

end F9
