import F9.Logic.Prims

/-!
# The links of the MPU lists

The MPU list of a space is cached in `mpu_first` and the `mpu_next` links.
`MpuIn s a T`: the head of `a` and the links of the pages `T` lead to pages of
`T` or to `NULL`. `MpuOwn` is the case where `T` is the list of the space: what
the MPU is programmed from then belongs to the space.

Removing a page redirects one link past it. If a second link leads to the page,
the list keeps it (`MpuOnce` excludes that).
-/

namespace F9

open Linked Result

variable {X : AsRef → Prop} {b : AsRef} {N F l : List FpRef} {mm : Memmap} {s' : Kernel}
  {C : Kernel → FpRef → Prop}

/-- The MPU list of `a` stays within the pages `T`. -/
structure MpuIn (s : Kernel) (a : AsRef) (T : Set FpRef) : Prop where
  head : ∀ r, (s.as a).mpuFirst = some r → r ∈ T
  next : ∀ x ∈ T, ∀ r, s.mpuNext x = some r → r ∈ T

/-- The MPU list of `a` holds pages of `a` only. -/
def MpuOwn (s : Kernel) (a : AsRef) : Prop := MpuIn s a {x | x ∈ s.pages a}

/-- At most one MPU link leads to each page of the space. -/
structure MpuOnce (s : Kernel) (a : AsRef) : Prop where
  head : ∀ r ∈ s.pages a, (s.as a).mpuFirst = some r →
    ∀ x ∈ s.pages a, s.mpuNext x ≠ some r
  next : ∀ r ∈ s.pages a, ∀ x ∈ s.pages a, ∀ y ∈ s.pages a,
    s.mpuNext x = some r → s.mpuNext y = some r → x = y

/-! ## Walks -/

variable {next : FpRef → Option FpRef}

/-- A walk along links that stay in `T` stays in `T`. -/
theorem mem_of_mem_walk {T : Set FpRef} (hnext : ∀ x ∈ T, ∀ r, next x = some r → r ∈ T) (n : Nat)
    (p : Option FpRef) (hp : ∀ r, p = some r → r ∈ T) : ∀ x ∈ walk next n p, x ∈ T := by
  induction n generalizing p with
  | zero =>
    intro x hx
    simp [walk] at hx
  | succ n ih =>
    intro x hx
    cases p with
    | none => simp [walk] at hx
    | some y =>
      have hy := hp y rfl
      rcases List.mem_cons.mp hx with rfl | hx
      · exact hy
      · exact ih (next y) (hnext y hy) x hx

variable {r : FpRef}

/-- A walk reaches a node that is not its first through a link of another. -/
theorem exists_link_of_mem_walk (n : Nat) (p : Option FpRef) (hp : p ≠ some r)
    (hr : r ∈ walk next n p) : ∃ y ∈ walk next n p, y ≠ r ∧ next y = some r := by
  induction n generalizing p with
  | zero => simp [walk] at hr
  | succ n ih =>
    cases p with
    | none => simp [walk] at hr
    | some y =>
      have hyr : y ≠ r := fun hyr => hp (by rw [hyr])
      rcases List.mem_cons.mp hr with hry | hr
      · exact absurd hry.symm hyr
      · by_cases hn : next y = some r
        · exact ⟨y, List.mem_cons_self, hyr, hn⟩
        · obtain ⟨z, hz, hzr⟩ := ih (next y) hn hr
          exact ⟨z, List.mem_cons_of_mem _ hz, hzr⟩

/-! ## Redirecting a link -/

section Past

variable {s s' : Kernel} {a : AsRef} {r : FpRef} {F : List FpRef} {T U : Set FpRef}

theorem MpuIn.cleared (h : MpuIn s a T) (F : List FpRef) : ∀ x ∈ T, ∀ q,
    (fun x => if x ∈ F then none else s.mpuNext x) x = some q → q ∈ T := by
  intro x hx q hq
  by_cases hxF : x ∈ F
  · simp [hxF] at hq
  · simp only [hxF, if_false] at hq
    exact h.next x hx q hq

/-- Only a page of the MPU list can be removed from it. -/
theorem MpuIn.mem_past (h : MpuIn s a T) (hp : MpuPast s s' a r F) : r ∈ T := by
  rcases hp with ⟨h1, _⟩ | ⟨_, _, p, _, hpr, hwalk, _⟩
  · exact h.head r h1
  · exact h.next p (mem_of_mem_walk (h.cleared F) _ _ h.head p hwalk) r hpr

theorem MpuIn.past (h : MpuIn s a T) (hF : ∀ x ∈ T, x ∉ F) (hp : MpuPast s s' a r F) :
    MpuIn s' a T := by
  have hr := h.mem_past hp
  rcases hp with ⟨_, h2, _, h4⟩ | ⟨_, h2, p, _, _, _, h4⟩
  · refine ⟨?_, ?_⟩
    · intro q hq
      rw [h2] at hq
      exact h.next r hr q hq
    · intro x hx q hq
      rw [h4 x (hF x hx)] at hq
      exact h.next x hx q hq
  · refine ⟨?_, ?_⟩
    · intro q hq
      rw [h2] at hq
      exact h.head q hq
    · intro x hx q hq
      rw [h4 x (hF x hx)] at hq
      by_cases hxp : x = p
      · rw [if_pos hxp] at hq
        exact h.next r hr q hq
      · rw [if_neg hxp] at hq
        exact h.next x hx q hq

theorem MpuIn.past_ne (h : MpuIn s a T) (hb : b ≠ a) (hU : MpuIn s b U) (hTU : ∀ x ∈ U, x ∉ T)
    (hF : ∀ x ∈ U, x ∉ F) (hp : MpuPast s s' a r F) : MpuIn s' b U := by
  rcases hp with ⟨_, _, h3, h4⟩ | ⟨_, h2, p, _, _, hwalk, h4⟩
  · refine ⟨?_, ?_⟩
    · intro q hq
      rw [h3 b hb] at hq
      exact hU.head q hq
    · intro x hx q hq
      rw [h4 x (hF x hx)] at hq
      exact hU.next x hx q hq
  · have hpT := mem_of_mem_walk (h.cleared F) _ _ h.head p hwalk
    refine ⟨?_, ?_⟩
    · intro q hq
      rw [h2 b] at hq
      exact hU.head q hq
    · intro x hx q hq
      rw [h4 x (hF x hx), if_neg (fun hxp : x = p => hTU x hx (hxp ▸ hpT))] at hq
      exact hU.next x hx q hq

/-- Without a second link, nothing leads to the removed page any more. -/
theorem MpuPast.unlinked (h : MpuOwn s a) (hone : MpuOnce s a) (hF : ∀ x ∈ s.pages a, x ∉ F)
    (hp : MpuPast s s' a r F) :
    (s'.as a).mpuFirst ≠ some r ∧ ∀ x ∈ s.pages a, x ≠ r → s'.mpuNext x ≠ some r := by
  have hr := MpuIn.mem_past h hp
  rcases hp with ⟨h1, h2, _, h4⟩ | ⟨h1, h2, p, _, hpr, hwalk, h4⟩
  · refine ⟨?_, ?_⟩
    · rw [h2]
      exact hone.head r hr h1 r hr
    · intro x hx _
      rw [h4 x (hF x hx)]
      exact hone.head r hr h1 x hx
  · have hpT := mem_of_mem_walk (MpuIn.cleared h F) _ _ h.head p hwalk
    -- the link that is redirected is not the page's own
    have hpne : p ≠ r := by
      rintro rfl
      obtain ⟨y, hy, hyp, hny⟩ := exists_link_of_mem_walk _ _ h1 hwalk
      have hyT := mem_of_mem_walk (MpuIn.cleared h F) _ _ h.head y hy
      have hny' : s.mpuNext y = some p := by
        simpa [hF y hyT] using hny
      exact hyp (hone.next p hr y hyT p hpT hny' hpr)
    have hself : s.mpuNext r ≠ some r := fun hself => hpne (hone.next r hr p hpT r hr hpr hself)
    refine ⟨?_, ?_⟩
    · rw [h2]
      exact h1
    · intro x hx _
      rw [h4 x (hF x hx)]
      by_cases hxp : x = p
      · rw [if_pos hxp]
        exact hself
      · rw [if_neg hxp]
        exact fun hxr => hxp (hone.next r hr x hx p hpT hxr hpr)

theorem MpuPast.once (h : MpuOwn s a) (hone : MpuOnce s a) (hF : ∀ x ∈ s.pages a, x ∉ F)
    (hp : MpuPast s s' a r F) :
    (∀ q ∈ s.pages a, (s'.as a).mpuFirst = some q →
      ∀ x ∈ s.pages a, x ≠ r → s'.mpuNext x ≠ some q) ∧
    ∀ q ∈ s.pages a, ∀ x ∈ s.pages a, x ≠ r → ∀ y ∈ s.pages a, y ≠ r →
      s'.mpuNext x = some q → s'.mpuNext y = some q → x = y := by
  have hr := MpuIn.mem_past h hp
  rcases hp with ⟨h1, h2, _, h4⟩ | ⟨h1, h2, p, _, hpr, hwalk, h4⟩
  · refine ⟨?_, ?_⟩
    · intro q hq hhead x hx hxr hxq
      rw [h2] at hhead
      rw [h4 x (hF x hx)] at hxq
      exact hxr (hone.next q hq x hx r hr hxq hhead)
    · intro q hq x hx _ y hy _ hxq hyq
      rw [h4 x (hF x hx)] at hxq
      rw [h4 y (hF y hy)] at hyq
      exact hone.next q hq x hx y hy hxq hyq
  · have hcase : ∀ x ∈ s.pages a, ∀ q, s'.mpuNext x = some q →
        (x = p ∧ s.mpuNext r = some q) ∨ (x ≠ p ∧ s.mpuNext x = some q) := by
      intro x hx q hxq
      rw [h4 x (hF x hx)] at hxq
      by_cases hxp : x = p
      · rw [if_pos hxp] at hxq
        exact .inl ⟨hxp, hxq⟩
      · rw [if_neg hxp] at hxq
        exact .inr ⟨hxp, hxq⟩
    refine ⟨?_, ?_⟩
    · intro q hq hhead x hx hxr hxq
      rw [h2] at hhead
      rcases hcase x hx q hxq with ⟨_, hrq⟩ | ⟨_, hxq⟩
      · exact hone.head q hq hhead r hr hrq
      · exact hone.head q hq hhead x hx hxq
    · intro q hq x hx hxr y hy hyr hxq hyq
      rcases hcase x hx q hxq with ⟨hxp, hrq⟩ | ⟨hxp, hxq⟩
      · rcases hcase y hy q hyq with ⟨hyp, _⟩ | ⟨_, hyq⟩
        · rw [hxp, hyp]
        · exact absurd (hone.next q hq y hy r hr hyq hrq) hyr
      · rcases hcase y hy q hyq with ⟨_, hrq⟩ | ⟨_, hyq⟩
        · exact absurd (hone.next q hq x hx r hr hxq hrq) hxr
        · exact hone.next q hq x hx y hy hxq hyq

theorem MpuPast.frame (h : MpuIn s a T) (hp : MpuPast s s' a r F) {x : FpRef} (hx : x ∉ T)
    (hxF : x ∉ F) : s'.mpuNext x = s.mpuNext x := by
  rcases hp with ⟨_, _, _, h4⟩ | ⟨_, _, p, _, _, hwalk, h4⟩
  · exact h4 x hxF
  · have hpT := mem_of_mem_walk (h.cleared F) _ _ h.head p hwalk
    rw [h4 x hxF, if_neg (fun hxp : x = p => hx (hxp ▸ hpT))]

theorem MpuPast.head_ne (hp : MpuPast s s' a r F) (hb : b ≠ a) :
    (s'.as b).mpuFirst = (s.as b).mpuFirst := by
  rcases hp with ⟨_, _, h3, _⟩ | ⟨_, h2, _⟩
  · exact h3 b hb
  · exact h2 b

end Past

/-! ## The effects -/

/-- The spaces' MPU lists hold their own pages, and in the spaces `X` each page
is linked at most once. -/
structure MpuInv (X : AsRef → Prop) (s : Kernel) : Prop where
  own : ∀ a, s.liveAs a = true → MpuOwn s a
  once : ∀ a, X a → s.liveAs a = true → MpuOnce s a

variable {s : Kernel} {a : AsRef}

/-- A space that gains the pages `N`, which are not linked. -/
theorem MpuOwn.grow (h : MpuOwn s a) (hhead : (s'.as a).mpuFirst = (s.as a).mpuFirst)
    (hpages : ∀ x, x ∈ s'.pages a ↔ x ∈ s.pages a ∨ x ∈ N)
    (hold : ∀ x ∈ s.pages a, s'.mpuNext x = s.mpuNext x) (hnew : ∀ x ∈ N, s'.mpuNext x = none) :
    MpuOwn s' a ∧ (MpuOnce s a → MpuOnce s' a) := by
  have hlink : ∀ x ∈ s'.pages a, ∀ r, s'.mpuNext x = some r →
      x ∈ s.pages a ∧ s.mpuNext x = some r := by
    intro x hx r hr
    rcases (hpages x).mp hx with hx | hx
    · rw [hold x hx] at hr
      exact ⟨hx, hr⟩
    · rw [hnew x hx] at hr
      simp at hr
  refine ⟨⟨?_, ?_⟩, ?_⟩
  · intro r hr
    rw [hhead] at hr
    exact (hpages r).mpr (.inl (h.head r hr))
  · intro x hx r hr
    obtain ⟨hx, hr⟩ := hlink x hx r hr
    exact (hpages r).mpr (.inl (h.next x hx r hr))
  · intro hone
    refine ⟨?_, ?_⟩
    · intro r _ hr x hx hxr
      rw [hhead] at hr
      obtain ⟨hx, hxr⟩ := hlink x hx r hxr
      exact hone.head r (h.head r hr) hr x hx hxr
    · intro r _ x hx y hy hxr hyr
      obtain ⟨hx, hxr⟩ := hlink x hx r hxr
      obtain ⟨hy, hyr⟩ := hlink y hy r hyr
      exact hone.next r (h.next x hx r hxr) x hx y hy hxr hyr

/-- A space from which the page `r` is removed, with the fresh pages `F` put in
its place. -/
theorem MpuOwn.shrink (h : MpuOwn s a) (hone : MpuOnce s a) (hp : MpuPast s s' a r F)
    (hpages : ∀ x, x ∈ s'.pages a ↔ x ∈ F ∨ (x ∈ s.pages a ∧ x ≠ r))
    (hnew : ∀ x ∈ F, s'.mpuNext x = none) (hdisj : ∀ x ∈ s.pages a, x ∉ F) :
    MpuOwn s' a ∧ MpuOnce s' a := by
  have hin : MpuIn s' a {x | x ∈ s.pages a} := MpuIn.past h hdisj hp
  obtain ⟨hu1, hu2⟩ := hp.unlinked h hone hdisj
  obtain ⟨ho1, ho2⟩ := hp.once h hone hdisj
  have hlink : ∀ x ∈ s'.pages a, ∀ q, s'.mpuNext x = some q →
      x ∈ s.pages a ∧ x ≠ r ∧ q ∈ s.pages a ∧ q ≠ r := by
    intro x hx q hq
    rcases (hpages x).mp hx with hx | ⟨hx, hxr⟩
    · rw [hnew x hx] at hq
      simp at hq
    · refine ⟨hx, hxr, hin.next x hx q hq, ?_⟩
      rintro rfl
      exact hu2 x hx hxr hq
  have hhead : ∀ q, (s'.as a).mpuFirst = some q → q ∈ s.pages a ∧ q ≠ r := by
    intro q hq
    refine ⟨hin.head q hq, ?_⟩
    rintro rfl
    exact hu1 hq
  refine ⟨⟨?_, ?_⟩, ⟨?_, ?_⟩⟩
  · intro q hq
    exact (hpages q).mpr (.inr (hhead q hq))
  · intro x hx q hq
    exact (hpages q).mpr (.inr (hlink x hx q hq).2.2)
  · intro q _ hq x hx hxq
    obtain ⟨h1, h2, _, _⟩ := hlink x hx q hxq
    exact ho1 q (hhead q hq).1 hq x h1 h2 hxq
  · intro q _ x hx y hy hxq hyq
    obtain ⟨h1, h2, h3, _⟩ := hlink x hx q hxq
    obtain ⟨h4, h5, _, _⟩ := hlink y hy q hyq
    exact ho2 q h3 x h1 h2 y h4 h5 hxq hyq

/-- The page `r` leaves the space `a`, the fresh pages `F` come in. -/
theorem MpuInv.remove (hwf : Wf s) (h : MpuInv X s) (hX : X a) (ha : s.liveAs a = true)
    (hlive : ∀ b, s'.liveAs b = s.liveAs b) (hp : MpuPast s s' a r F)
    (hpa : ∀ x, x ∈ s'.pages a ↔ x ∈ F ∨ (x ∈ s.pages a ∧ x ≠ r))
    (hpb : ∀ b, s.liveAs b = true → b ≠ a → s'.pages b = s.pages b)
    (hnone : ∀ x ∈ F, s'.mpuNext x = none)
    (hfresh : ∀ b, s.liveAs b = true → ∀ x ∈ s.pages b, x ∉ F) : MpuInv X s' := by
  have hown := h.own a ha
  have hshrink := hown.shrink (h.once a hX ha) hp hpa hnone (hfresh a ha)
  have hother : ∀ b, s.liveAs b = true → b ≠ a →
      MpuOwn s' b ∧ (MpuOnce s b → MpuOnce s' b) := by
    intro b hb hba
    refine MpuOwn.grow (N := []) (h.own b hb) (hp.head_ne hba) ?_ ?_ (by simp)
    · intro x
      rw [hpb b hb hba]
      simp
    · intro x hx
      exact hp.frame hown (hwf.disj b a hb ha hba x hx) (hfresh b hb x hx)
  refine ⟨?_, ?_⟩
  · intro b hb
    rw [hlive] at hb
    by_cases hba : b = a
    · rw [hba]; exact hshrink.1
    · exact (hother b hb hba).1
  · intro b hXb hb
    rw [hlive] at hb
    by_cases hba : b = a
    · rw [hba]; exact hshrink.2
    · exact (hother b hb hba).2 (h.once b hXb hb)

theorem MpuInv.add (h : MpuInv X s) (hlive : ∀ b, s'.liveAs b = s.liveAs b)
    (hhead : ∀ b, (s'.as b).mpuFirst = (s.as b).mpuFirst)
    (hpa : ∀ x, x ∈ s'.pages a ↔ x ∈ s.pages a ∨ x ∈ N)
    (hpb : ∀ b, s.liveAs b = true → b ≠ a → s'.pages b = s.pages b)
    (hold : ∀ b, s.liveAs b = true → ∀ x ∈ s.pages b, s'.mpuNext x = s.mpuNext x)
    (hnew : ∀ x ∈ N, s'.mpuNext x = none) : MpuInv X s' := by
  have hgrow : ∀ b, s.liveAs b = true → MpuOwn s' b ∧ (MpuOnce s b → MpuOnce s' b) := by
    intro b hb
    by_cases hba : b = a
    · subst hba
      exact MpuOwn.grow (h.own b hb) (hhead b) hpa (hold b hb) hnew
    · refine MpuOwn.grow (N := []) (h.own b hb) (hhead b) ?_ (hold b hb) (by simp)
      intro x
      rw [hpb b hb hba]
      simp
  refine ⟨?_, ?_⟩
  · intro b hb
    rw [hlive] at hb
    exact (hgrow b hb).1
  · intro b hXb hb
    rw [hlive] at hb
    exact (hgrow b hb).2 (h.once b hXb hb)

theorem Lists.pages_update (hL : Lists s' (Function.update s.pages a l))
    (hlive : ∀ b, s'.liveAs b = s.liveAs b) (ha : s.liveAs a = true) :
    s'.pages a = l ∧ ∀ b, s.liveAs b = true → b ≠ a → s'.pages b = s.pages b := by
  refine ⟨?_, ?_⟩
  · rw [hL.pages_eq (by rw [hlive]; exact ha), Function.update_self]
  · intro b hb hba
    rw [hL.pages_eq (by rw [hlive]; exact hb), Function.update_of_ne hba]

/-- Each primitive effect keeps the MPU lists of the spaces to their own pages. -/
theorem Prim.mpuInv (hwf : Wf s) (h : MpuInv X s) (hp : Prim mm X C s s') : MpuInv X s' := by
  cases hp with
  | cut hX ha hr hc =>
    rename_i a r sp cl cr
    obtain ⟨hpa, hpb⟩ := (hc.lists hwf ha hr).pages_update hc.out.liveAs ha
    refine h.remove hwf hX ha hc.out.liveAs hc.mpuLinks ?_ hpb ?_ ?_
    · intro x
      rw [hpa, hc.mem_list, (hwf.chain a ha).nodup.mem_erase_iff, and_comm (a := x ≠ r)]
    · intro x hx
      rcases List.mem_append.mp hx with hx | hx
      · exact hc.left.mpuNext hx
      · exact hc.right.mpuNext hx
    · intro b hb x hx hxc
      exact hwf.not_mem (hc.fresh x hxc) hb hx
  | unmap hX ha hr hu =>
    rename_i a r p
    obtain ⟨hpa, hpb⟩ := (hu.lists hwf ha hr).pages_update hu.out.liveAs ha
    refine h.remove hwf hX ha hu.out.liveAs hu.mpuLinks ?_ hpb (by simp) (by simp)
    intro x
    rw [hpa, (hwf.chain a ha).nodup.mem_erase_iff, and_comm (a := x ≠ r)]
    simp
  | clone _hC hd hc =>
    rename_i d r f action
    obtain ⟨hpa, hpb⟩ := (hc.lists hwf hd).pages_update hc.out.liveAs hd
    refine h.add (N := [f]) hc.out.liveAs (fun b => by rw [hc.as]) ?_ hpb ?_ ?_
    · intro x
      rw [hpa, mem_spliceAt, or_comm]
    · intro b hb x hx
      have hxf : x ≠ f := fun hxf => hwf.not_mem hc.fresh hb (hxf ▸ hx)
      unfold Kernel.mpuNext
      by_cases hxr : x = r
      · subst hxr
        rw [hc.source hxf]
      · rw [hc.frame x hxf hxr]
    · intro x hx
      rw [List.mem_singleton.mp hx]
      unfold Kernel.mpuNext
      rw [hc.clone]
  | extend ha he =>
    rename_i a m N l
    obtain ⟨hpa, hpb⟩ := (he.lists hwf ha).pages_update he.out.liveAs ha
    refine h.add (N := N) he.out.liveAs (fun b => by rw [he.as]) ?_ hpb ?_ ?_
    · intro x
      rw [hpa, he.mem]
    · intro b hb x hx
      have hxN : x ∉ N := fun hxN => hwf.not_mem (he.fresh x hxN) hb hx
      unfold Kernel.mpuNext
      rw [he.frame x hxN]
    · intro x hx
      obtain ⟨b, _, _, hb⟩ := he.page x hx
      unfold Kernel.mpuNext
      rw [hb]
      rfl

theorem Prims.mpuInv (h : MpuInv X s) (hp : Prims mm X C s s') : MpuInv X s' :=
  hp.invariant (fun _ _ hwf hi hp => hp.mpuInv hwf hi) h

/-- A new space, in a slot that has no MPU list. -/
theorem MpuInv.created {id : Word} (hwf : Wf s) (h : MpuInv X s) (hc : AsCreated s s' a id)
    (hnone : (s.as a).mpuFirst = none) : MpuInv X s' := by
  have hL := hc.lists hwf
  have hpa : s'.pages a = [] := by
    rw [hL.pages_eq (by rw [hc.liveAs]; simp), Function.update_self]
  have hold : ∀ b, b ≠ a → s'.liveAs b = true →
      s.liveAs b = true ∧ s'.pages b = s.pages b := by
    intro b hba hb
    have hb' : s.liveAs b = true := by
      rw [hc.liveAs] at hb
      simpa [hba] using hb
    exact ⟨hb', by rw [hL.pages_eq hb, Function.update_of_ne hba]⟩
  have hgrow : ∀ b, b ≠ a → s'.liveAs b = true → MpuOwn s' b ∧ (MpuOnce s b → MpuOnce s' b) := by
    intro b hba hb
    obtain ⟨hb', hpb⟩ := hold b hba hb
    refine MpuOwn.grow (N := []) (h.own b hb') (by rw [hc.frame b hba]) ?_ ?_ (by simp)
    · intro x
      rw [hpb]
      simp
    · intro x _
      unfold Kernel.mpuNext
      rw [hc.fp]
  refine ⟨?_, ?_⟩
  · intro b hb
    by_cases hba : b = a
    · subst hba
      unfold MpuOwn
      rw [hpa]
      refine ⟨?_, by simp⟩
      intro r hr
      rw [hc.as] at hr
      rw [hnone] at hr
      simp at hr
    · exact (hgrow b hba hb).1
  · intro b hXb hb
    by_cases hba : b = a
    · subst hba
      refine ⟨?_, ?_⟩
      · intro r hr
        rw [hpa] at hr
        simp at hr
      · intro r hr
        rw [hpa] at hr
        simp at hr
    · exact (hgrow b hba hb).2 (h.once b hXb (hold b hba hb).1)

end F9
