import F9.Logic.Split

/-!
# The lists of all address spaces

`Lists s L`: the allocated spaces have the lists `L`, made of allocated pages
and with no page on two of them. `Wf` is the same with the lists read off the
state (`Kernel.pages`). Every operation of `fpage.c` keeps it; the lemmas here
say which list each step leaves.
-/

namespace F9

open Linked Result

variable {s s' : Kernel} {r : FpRef} {a : AsRef} {l : List FpRef} {L : AsRef → List FpRef}
  {x : FpRef} {mm : Memmap} {sp : Word} {cl cr : List FpRef}

/-- The lists of the allocated spaces are `L`. -/
structure Lists (s : Kernel) (L : AsRef → List FpRef) : Prop where
  chain : ∀ a, s.liveAs a = true → Chain s.asNext (s.as a).first (L a)
  live : ∀ a, s.liveAs a = true → ∀ r ∈ L a, s.liveFp r = true
  disj : ∀ a b, s.liveAs a = true → s.liveAs b = true → a ≠ b → ∀ r ∈ L a, r ∉ L b

/-- Every allocated space has a terminated list of allocated pages, and no page
is on two lists. -/
def Wf (s : Kernel) : Prop := Lists s s.pages

theorem liveFp_lt (h : s.liveFp r = true) : r < s.fpageTable.num :=
  KTable.live_lt h

theorem pages_eq (hl : Chain s.asNext (s.as a).first l) (hlive : ∀ r ∈ l, s.liveFp r = true) :
    s.pages a = l := by
  have hlen : l.length ≤ s.fpageTable.num :=
    length_le_of_nodup_lt hl.nodup fun x hx => liveFp_lt (hlive x hx)
  exact hl.walk_eq (Nat.le_succ_of_le hlen)

theorem Lists.pages_eq (h : Lists s L) (ha : s.liveAs a = true) : s.pages a = L a :=
  F9.pages_eq (h.chain a ha) (h.live a ha)

theorem Lists.wf (h : Lists s L) : Wf s := by
  refine ⟨?_, ?_, ?_⟩
  · intro a ha
    rw [h.pages_eq ha]
    exact h.chain a ha
  · intro a ha
    rw [h.pages_eq ha]
    exact h.live a ha
  · intro a b ha hb hab
    rw [h.pages_eq ha, h.pages_eq hb]
    exact h.disj a b ha hb hab

/-- The general step: the list of `a` becomes `l`; the links of all pages that
are on no list of another space may change. -/
theorem Lists.step (h : Lists s L) (hliveAs : ∀ b, s'.liveAs b = s.liveAs b)
    (hlist : s.liveAs a = true → Chain s'.asNext (s'.as a).first l)
    (hlive : ∀ r ∈ l, s'.liveFp r = true) (hfirst : ∀ b, b ≠ a → (s'.as b).first = (s.as b).first)
    (hother : ∀ b, s.liveAs b = true → b ≠ a → ∀ r ∈ L b,
      r ∉ l ∧ s'.liveFp r = true ∧ s'.asNext r = s.asNext r) :
    Lists s' (Function.update L a l) := by
  refine ⟨?_, ?_, ?_⟩
  · intro b hb
    rw [hliveAs] at hb
    by_cases hba : b = a
    · subst hba
      rw [Function.update_self]
      exact hlist hb
    · rw [Function.update_of_ne hba, hfirst b hba]
      exact (h.chain b hb).congr fun x hx => (hother b hb hba x hx).2.2
  · intro b hb r hr
    rw [hliveAs] at hb
    by_cases hba : b = a
    · subst hba
      rw [Function.update_self] at hr
      exact hlive r hr
    · rw [Function.update_of_ne hba] at hr
      exact (hother b hb hba r hr).2.1
  · intro b c hb hc hbc r hr
    rw [hliveAs] at hb hc
    by_cases hba : b = a
    · subst hba
      rw [Function.update_self] at hr
      rw [Function.update_of_ne (Ne.symm hbc)]
      exact fun hrc => (hother c hc (Ne.symm hbc) r hrc).1 hr
    · rw [Function.update_of_ne hba] at hr
      by_cases hca : c = a
      · subst hca
        rw [Function.update_self]
        exact (hother b hb hba r hr).1
      · rw [Function.update_of_ne hca]
        exact h.disj b c hb hc hbc r hr

theorem Lists.same (h : Lists s L) (hliveAs : ∀ b, s'.liveAs b = s.liveAs b)
    (hfirst : ∀ b, (s'.as b).first = (s.as b).first) (hpages : ∀ b, s.liveAs b = true → ∀ r ∈ L b,
      s'.liveFp r = true ∧ s'.asNext r = s.asNext r) : Lists s' L := by
  refine ⟨?_, ?_, ?_⟩
  · intro b hb
    rw [hliveAs] at hb
    rw [hfirst]
    exact (h.chain b hb).congr fun x hx => (hpages b hb x hx).2
  · intro b hb r hr
    rw [hliveAs] at hb
    exact (hpages b hb r hr).1
  · intro b c hb hc
    rw [hliveAs] at hb hc
    exact h.disj b c hb hc

theorem Lists.not_mem (h : Lists s L) (hx : s.liveFp x = false) (ha : s.liveAs a = true) :
    x ∉ L a := by
  intro hxa
  have := h.live a ha x hxa
  rw [hx] at this
  simp at this

theorem Cut.mem_list (_h : Cut mm s s' a r l sp cl cr) :
    x ∈ spliceAt s' cr (spliceAt s' cl (l.erase r)) ↔ x ∈ cl ++ cr ∨ x ∈ l.erase r := by
  rw [mem_spliceAt, mem_spliceAt, List.mem_append]
  constructor
  · rintro (h | h | h)
    · exact .inl (.inr h)
    · exact .inl (.inl h)
    · exact .inr h
  · rintro ((h | h) | h)
    · exact .inr (.inl h)
    · exact .inl h
    · exact .inr (.inr h)

theorem Cut.lists (hL : Lists s L) (ha : s.liveAs a = true) (hr : r ∈ L a)
    (h : Cut mm s s' a r (L a) sp cl cr) :
    Lists s' (Function.update L a (spliceAt s' cr (spliceAt s' cl ((L a).erase r)))) := by
  have hnd : (L a).Nodup := (hL.chain a ha).nodup
  refine hL.step h.out.liveAs (fun _ => h.list) ?_ h.first ?_
  · intro x hx
    rw [h.live]
    rcases h.mem_list.mp hx with hx | hx
    · simp [hx]
    · obtain ⟨hxr, hx⟩ := hnd.mem_erase_iff.mp hx
      simp [hL.live a ha x hx, hxr]
  · intro b hb hba x hx
    have hxa : x ∉ L a := hL.disj b a hb ha hba x hx
    have hxc : x ∉ cl ++ cr := by
      intro hxc
      exact hL.not_mem (h.fresh x hxc) hb hx
    have hxe : x ∉ (L a).erase r := fun hxe => hxa (List.mem_of_mem_erase hxe)
    refine ⟨?_, ?_, h.links x hxe hxc⟩
    · rw [h.mem_list, not_or]
      exact ⟨hxc, hxe⟩
    · have hxr : x ≠ r := fun hxr => hxa (hxr ▸ hr)
      rw [h.live]
      simp [hL.live b hb x hx, hxr]

end F9
