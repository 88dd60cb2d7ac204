import F9.Logic.Spaces

/-!
# `map_fpage` and `unmap_fpage`

`Cloned` says what a mapping step does: a fresh slot is filled with a copy of
the page, linked into its mapping ring and inserted into the destination.
`Unmapped` is its inverse.
-/

namespace F9

open Linked Result

variable {s s' : Kernel} {d : AsRef} {action : MapAction} {f r : FpRef} {l : List FpRef}
  {p : Option FpRef} {L : AsRef → List FpRef} {s1 : Kernel}

/-! ## Mapping -/

/-- The flags of a page after it has been mapped. -/
def mappedFlags (action : MapAction) (flags : BitVec 6) : BitVec 6 :=
  if action = .map then flags ||| FPAGE_MAPPED else flags

/-- The page `r` is cloned into slot `f` of the space `d`, whose list was `l`. -/
structure Cloned (s s' : Kernel) (d : AsRef) (r f : FpRef) (action : MapAction)
    (l : List FpRef) : Prop where
  out : SameOut s s'
  fresh : s.liveFp f = false
  live : ∀ x, s'.liveFp x = (s.liveFp x || decide (x = f))
  clone : s'.fp f = { s.fp r with
    asNext := s'.asNext f, mpuNext := none, flags := FPAGE_CLONE,
    mapNext := if r = f then some f else (s.fp r).mapNext }
  source : r ≠ f → s'.fp r = { s.fp r with
    asNext := s'.asNext r, mapNext := some f, flags := mappedFlags action (s.fp r).flags }
  frame : ∀ x, x ≠ f → x ≠ r → s'.fp x = { s.fp x with asNext := s'.asNext x }
  as : ∀ b, s'.as b = { s.as b with first := (s'.as b).first }
  first : ∀ b, b ≠ d → (s'.as b).first = (s.as b).first
  list : Chain s'.asNext (s'.as d).first (spliceAt s' [f] l)
  links : ∀ x, x ∉ l → x ≠ f → s'.asNext x = s.asNext x

/-- The state in which `map_fpage` inserts the clone `f` of `r`. -/
def cloneInto (s : Kernel) (f r : FpRef) (action : MapAction) : Kernel :=
  let s := s.setFp f fun g => { g with asNext := none, mpuNext := none }
  let src := s.fp r
  let s := s.setFp f fun g => { g with base := src.base, mpid := src.mpid,
                                       flags := src.flags, shift := src.shift,
                                       rwx := src.rwx }
  let s := if action = .map then
      s.setFp r fun g => { g with flags := g.flags ||| FPAGE_MAPPED }
    else s
  let s := s.setFp f fun g => { g with flags := FPAGE_CLONE }
  let s := s.setFp f fun g => { g with mapNext := (s.fp r).mapNext }
  s.setFp r fun g => { g with mapNext := some f }

theorem mapFpage_ok (h : mapFpage s d p action = .ok s') :
    ∃ r f s1, p = some r ∧ s.allocFp = some (f, s1) ∧
      insertFpageChainToAs (cloneInto s1 f r action) d f f = .ok s' := by
  unfold mapFpage at h
  cases ha : s.allocFp with
  | none =>
    rw [ha] at h
    exact absurd h throw_ok
  | some q =>
    obtain ⟨f, s1⟩ := q
    rw [ha] at h
    obtain ⟨r, hr, h⟩ := bind_ok.mp h
    exact ⟨r, f, s1, deref_ok.mp hr, rfl, h⟩

theorem cloneInto_rest (s : Kernel) (f r : FpRef) (action : MapAction) :
    SameRest s (cloneInto s f r action) := by
  cases action <;> exact ⟨rfl, rfl, rfl, rfl, rfl, rfl, rfl⟩

theorem cloneInto_live (s : Kernel) (f r : FpRef) (action : MapAction) (x : FpRef) :
    (cloneInto s f r action).liveFp x = s.liveFp x := by
  cases action <;> rfl

theorem cloneInto_frame (s : Kernel) {x : FpRef} (action : MapAction) (hf : x ≠ f) (hr : x ≠ r) :
    (cloneInto s f r action).fp x = s.fp x := by
  unfold cloneInto
  cases action <;> simp [Kernel.setFp_fp, hf, hr]

theorem cloneInto_clone (s : Kernel) (f r : FpRef) (action : MapAction) :
    (cloneInto s f r action).fp f = { s.fp r with
      asNext := none, mpuNext := none, flags := FPAGE_CLONE,
      mapNext := if r = f then some f else (s.fp r).mapNext } := by
  unfold cloneInto
  by_cases h : r = f
  · subst h
    cases action <;> simp
  · cases action <;> simp [Kernel.setFp_fp, h, Ne.symm h]

theorem cloneInto_source (s : Kernel) (action : MapAction) (h : r ≠ f) :
    (cloneInto s f r action).fp r = { s.fp r with
      mapNext := some f, flags := mappedFlags action (s.fp r).flags } := by
  unfold cloneInto mappedFlags
  cases action <;> simp [Kernel.setFp_fp, h]

/-- The links of the pages other than the clone are not touched before the insertion. -/
theorem cloneInto_next {x : FpRef} (ha : Allocated s s1 f) (r : FpRef) (action : MapAction)
    (hx : x ≠ f) : (cloneInto s1 f r action).asNext x = s.asNext x := by
  unfold Kernel.asNext
  by_cases hxr : x = r
  · subst hxr
    rw [cloneInto_source s1 action hx, ha.fp]
  · rw [cloneInto_frame s1 action hx hxr, ha.fp]

theorem cloneInto_chain (ha : Allocated s s1 f) (r : FpRef) (action : MapAction)
    (hl : Chain s.asNext (s.as d).first l) (hfl : f ∉ l) :
    Chain (cloneInto s1 f r action).asNext ((cloneInto s1 f r action).as d).first l := by
  rw [(cloneInto_rest s1 f r action).as, ha.rest.as]
  exact hl.congr fun x hx => cloneInto_next ha r action fun hxf => hfl (hxf ▸ hx)

theorem Allocated.not_mem (ha : Allocated s s1 f) (hlive : ∀ x ∈ l, s.liveFp x = true) : f ∉ l := by
  intro hfl
  exact ne_true_of_eq_false ha.fresh (hlive f hfl)

/-- What a mapping step does. The page `r` need not be allocated any more. -/
theorem mapFpage_spec (hl : Chain s.asNext (s.as d).first l) (hlive : ∀ x ∈ l, s.liveFp x = true)
    (h : mapFpage s d p action = .ok s') : ∃ r f, p = some r ∧ Cloned s s' d r f action l := by
  obtain ⟨r, f, s1, rfl, halloc, hins⟩ := mapFpage_ok h
  have ha := allocFp_spec halloc
  refine ⟨r, f, rfl, ?_⟩
  have hfl := ha.not_mem hlive
  have hl1 := cloneInto_chain ha r action hl hfl
  have hc1 : Chain (cloneInto s1 f r action).asNext [f].head? [f] := by
    rw [List.head?_cons, chain_cons, chain_nil]
    refine ⟨rfl, ?_⟩
    unfold Kernel.asNext
    rw [cloneInto_clone]
  have he := insertFpageChainToAs_list hl1 hc1 rfl rfl (by simpa using hfl) hins
  have hbase : ∀ x, (s'.fp x).base = ((cloneInto s1 f r action).fp x).base := he.base
  refine ⟨?_, ha.fresh, ?_, ?_, ?_, ?_, ?_, ?_, ?_, ?_⟩
  · exact (ha.rest.out.trans (cloneInto_rest s1 f r action).out).trans he.same.out
  · intro x
    rw [he.same.live, cloneInto_live, ha.live]
  · rw [he.fp, cloneInto_clone, ha.fp]
  · intro hrf
    rw [he.fp, cloneInto_source s1 action hrf, ha.fp]
  · intro x hxf hxr
    rw [he.fp, cloneInto_frame s1 action hxf hxr, ha.fp]
  · intro b
    rw [he.as, (cloneInto_rest s1 f r action).as, ha.rest.as]
  · intro b hb
    rw [he.first b hb, (cloneInto_rest s1 f r action).as, ha.rest.as]
  · rw [spliceAt_congr hbase]
    exact he.list
  · intro x hx hxf
    rw [he.frame x (by rw [mem_spliceAt]; simp [hx, hxf]), cloneInto_next ha r action hxf]

theorem Cloned.lists (hL : Lists s L) (hd : s.liveAs d = true)
    (h : Cloned s s' d r f action (L d)) :
    Lists s' (Function.update L d (spliceAt s' [f] (L d))) := by
  refine hL.step h.out.liveAs (fun _ => h.list) ?_ h.first ?_
  · intro x hx
    rw [h.live]
    rcases mem_spliceAt.mp hx with hx | hx
    · simp [List.mem_singleton.mp hx]
    · simp [hL.live d hd x hx]
  · intro b hb hbd x hx
    have hxd : x ∉ L d := hL.disj b d hb hd hbd x hx
    have hxf : x ≠ f := fun hxf => hL.not_mem h.fresh hb (hxf ▸ hx)
    refine ⟨?_, ?_, h.links x hxd hxf⟩
    · simp [hxd, hxf]
    · rw [h.live]
      simp [hL.live b hb x hx]

theorem Cloned.block (h : Cloned s s' d r f action l) (x : FpRef) :
    (s'.fp x).block = if x = f then (s.fp r).block else (s.fp x).block := by
  unfold Fpage.block
  by_cases hxf : x = f
  · rw [if_pos hxf, hxf, h.clone]
  · rw [if_neg hxf]
    by_cases hxr : x = r
    · subst hxr
      rw [h.source hxf]
    · rw [h.frame x hxf hxr]

/-! ## Unmapping -/

/-- The search of `unmap_fpage` ends at a page that links to `r` and that the
links lead to. -/
theorem unmapSearch_spec {p : FpRef} (n : Nat) (q : FpRef) (h : unmapSearch s r n q = .ok p) :
    s.mapNext p = some r ∧
      ∀ K : Set FpRef, (∀ x ∈ K, ∀ y, s.mapNext x = some y → y ∈ K) → q ∈ K → p ∈ K := by
  induction n generalizing q with
  | zero => simp [unmapSearch] at h
  | succ n ih =>
    unfold unmapSearch at h
    by_cases hq : (s.fp q).mapNext = some r
    · rw [if_pos hq] at h
      injection h with h
      subst h
      exact ⟨hq, fun K _ hqK => hqK⟩
    · rw [if_neg hq] at h
      cases hn : (s.fp q).mapNext with
      | none =>
        rw [hn] at h
        simp at h
      | some nx =>
        rw [hn] at h
        obtain ⟨h1, h2⟩ := ih nx h
        exact ⟨h1, fun K hK hqK => h2 K hK (hK q hqK nx hn)⟩

/-- Where the links lead back to the page, the search finds one that links to
it. -/
theorem unmapSearch_of_seg : ∀ (l : List FpRef) (n : Nat) (q : FpRef),
    l ≠ [] → Seg s.mapNext (some q) l (some r) → l.length ≤ n →
    ∃ p, unmapSearch s r n q = .ok p := by
  intro l
  induction l with
  | nil => intro n q hne; exact absurd rfl hne
  | cons x l ih =>
    intro n q _ hseg hn
    cases n with
    | zero => simp at hn
    | succ n =>
      cases hseg with
      | cons hseg =>
        unfold unmapSearch
        by_cases hx : (s.fp x).mapNext = some r
        · exact ⟨x, by rw [if_pos hx]⟩
        · rw [if_neg hx]
          have hl : l ≠ [] := by
            rintro rfl
            exact hx (seg_nil.mp hseg)
          obtain ⟨y, l', rfl⟩ := List.exists_cons_of_ne_nil hl
          have hy : (s.fp x).mapNext = some y := hseg.head_eq hl
          rw [hy]
          have hseg' : Seg s.mapNext (some y) (y :: l') (some r) := by
            rw [← hy]
            exact hseg
          exact ih n y hl hseg' (by simpa using hn)

/-- The clone `r` of the list `l` of `a` is unlinked from its ring, where it
came after `p`, and freed. -/
structure Unmapped (s s' : Kernel) (a : AsRef) (r p : FpRef) (l : List FpRef) : Prop where
  out : SameOut s s'
  isClone : (s.fp r).hasFlag FPAGE_CLONE = true
  ring : s.mapNext p = some r
  reach : ∀ K : Set FpRef, (∀ x ∈ K, ∀ y, s.mapNext x = some y → y ∈ K) → r ∈ K → p ∈ K
  live : ∀ x, s'.liveFp x = (s.liveFp x && decide (x ≠ r))
  fp : ∀ x, s'.fp x = { s.fp x with
    asNext := s'.asNext x, mpuNext := s'.mpuNext x,
    mapNext := if x = p then s.mapNext r else s.mapNext x,
    flags := if x = p then (s.fp x).flags &&& ~~~FPAGE_MAPPED else (s.fp x).flags }
  as : ∀ b, s'.as b = { s.as b with first := (s'.as b).first, mpuFirst := (s'.as b).mpuFirst }
  first : ∀ b, b ≠ a → (s'.as b).first = (s.as b).first
  list : Chain s'.asNext (s'.as a).first (l.erase r)
  links : ∀ x, x ∉ l.erase r → s'.asNext x = s.asNext x
  mpuLinks : MpuPast s s' a r []

/-- The state in which `unmap_fpage` removes the page from its lists. -/
def unring (s : Kernel) (r p : FpRef) : Kernel :=
  let s := s.setFp p fun f => { f with flags := f.flags &&& ~~~FPAGE_MAPPED }
  s.setFp p fun f => { f with mapNext := (s.fp r).mapNext }

theorem unring_fp (s : Kernel) (r p x : FpRef) :
    (unring s r p).fp x = { s.fp x with
      mapNext := if x = p then s.mapNext r else s.mapNext x
      flags := if x = p then (s.fp x).flags &&& ~~~FPAGE_MAPPED else (s.fp x).flags } := by
  unfold unring Kernel.mapNext
  by_cases hx : x = p
  · subst hx
    by_cases hr : r = x
    · subst hr
      simp
    · simp [Kernel.setFp_fp, hr]
  · simp [Kernel.setFp_fp, hx]

theorem unring_links (s : Kernel) (r p x : FpRef) :
    (unring s r p).asNext x = s.asNext x ∧ (unring s r p).mpuNext x = s.mpuNext x := by
  unfold Kernel.asNext Kernel.mpuNext
  rw [unring_fp]
  exact ⟨rfl, rfl⟩

variable {a : AsRef}

theorem unmapFpage_spec {ret : Int} (hq : Quiet s) (hl : Chain s.asNext (s.as a).first l)
    (hr : r ∈ l) (h : unmapFpage s a r = .ok (ret, s')) :
    ((s.fp r).hasFlag FPAGE_CLONE = false ∧ ret = -1 ∧ s' = s) ∨
      (ret = 0 ∧ ∃ p, Unmapped s s' a r p l) := by
  unfold unmapFpage at h
  cases hf : (s.fp r).hasFlag FPAGE_CLONE with
  | false =>
    left
    rw [hf] at h
    obtain ⟨h1, h2⟩ := pure_pair.mp h
    exact ⟨rfl, h1.symm, h2.symm⟩
  | true =>
    right
    rw [hf] at h
    obtain ⟨p, hsearch, h⟩ := bind_ok.mp h
    obtain ⟨s2, hrem, h⟩ := bind_ok.mp h
    obtain ⟨h1, h2⟩ := pure_pair.mp h
    refine ⟨h1.symm, p, ?_⟩
    obtain ⟨hp, hreach⟩ := unmapSearch_spec _ _ hsearch
    have hl1 : Chain (unring s r p).asNext ((unring s r p).as a).first l :=
      hl.congr fun x _ => (unring_links s r p x).1
    have hq1 : Quiet (unring s r p) := hq
    obtain ⟨s1, he, hu⟩ := removeFpageFromAs_spec hq1 hl1 hr hrem
    have hmpuNext : ∀ x, s1.mpuNext x = s.mpuNext x := by
      intro x
      rw [he.mpuNext, (unring_links s r p x).2]
    have hfirst1 : ∀ b, (s1.as b).mpuFirst = (s.as b).mpuFirst := by
      intro b
      rw [he.mpuFirst]
      rfl
    have hbound : s1.walkBound = s.walkBound := by
      unfold Kernel.walkBound
      rw [he.same.num]
      rfl
    subst h2
    refine ⟨?_, hf, hp, hreach, ?_, ?_, ?_, ?_, ?_, ?_, ?_⟩
    · have hun : SameOut s (unring s r p) := ⟨rfl, fun _ => rfl, rfl, rfl, rfl, rfl, id⟩
      exact ((hun.trans he.same.out).trans hu.same.out).trans (SameRest.freeFp s2 r).out
    · intro x
      rw [Kernel.freeFp_liveFp, hu.same.live, he.same.live]
      rfl
    · intro x
      show s2.fp x = _
      rw [hu.fp, he.fp, unring_fp, show (s2.freeFp r).asNext x = s1.asNext x from hu.asNext x]
      rfl
    · intro b
      show s2.as b = _
      rw [hu.as, he.as, show ((s2.freeFp r).as b).first = (s1.as b).first from hu.first b]
      rfl
    · intro b hb
      show (s2.as b).first = _
      rw [hu.first, he.first b hb]
      rfl
    · show Chain s2.asNext (s2.as a).first _
      rw [hu.first]
      exact he.list.congr fun x _ => hu.asNext x
    · intro x hx
      show s2.asNext x = _
      rw [hu.asNext, he.frame x hx, (unring_links s r p x).1]
    · exact hu.past hbound hfirst1 (by simp) (fun x _ => hmpuNext x) (by simp)

theorem Unmapped.lists {p : FpRef} (hL : Lists s L) (ha : s.liveAs a = true) (hr : r ∈ L a)
    (h : Unmapped s s' a r p (L a)) : Lists s' (Function.update L a ((L a).erase r)) := by
  have hnd : (L a).Nodup := (hL.chain a ha).nodup
  refine hL.step h.out.liveAs (fun _ => h.list) ?_ h.first ?_
  · intro x hx
    obtain ⟨hxr, hx⟩ := hnd.mem_erase_iff.mp hx
    rw [h.live]
    simp [hL.live a ha x hx, hxr]
  · intro b hb hba x hx
    have hxa : x ∉ L a := hL.disj b a hb ha hba x hx
    have hxe : x ∉ (L a).erase r := fun hxe => hxa (List.mem_of_mem_erase hxe)
    refine ⟨hxe, ?_, h.links x hxe⟩
    have hxr : x ≠ r := fun hxr => hxa (hxr ▸ hr)
    rw [h.live]
    simp [hL.live b hb x hx, hxr]

end F9
