import F9.Logic.MpuSetup

/-!
# The lists `as_setup_mpu` runs over

* `stackFpages_eq` — the stack pages are the run of pages that covers the stack (`stackRun`), cut
  off after eight;
* `buildMpuList_eq` — the list of a space that has none: the page of `pc`, the pages that are
  always mapped, the others; the last page keeps the link it had;
* `fifoFpages_eq` — the front of the MPU list without the stack pages.
-/

namespace F9

open Linked Result

variable {mm : Memmap} {s s' t : Kernel} {a : AsRef} {k l m stack : List FpRef} {fp : FpRef}
  {stop pc : Word} {z : FpRef} {u : Kernel} {c : MpuClasses}

/-! ## Stack pages -/

/-- The contiguous run of pages that covers the stack from `start` to `stop`. -/
def stackRun (s : Kernel) (stop : Word) : Word → List FpRef → List FpRef
  | _, [] => []
  | start, fp :: rest =>
    if start < stop then
      if addrInFpage start (s.fp fp) false then fp :: stackRun s stop (s.fp fp).stop rest
      else stackRun s stop start rest
    else []

theorem stackRun_done {start : Word} (h : ¬ start < stop) (l : List FpRef) :
    stackRun s stop start l = [] := by
  cases l with
  | nil => rfl
  | cons fp rest =>
    unfold stackRun
    rw [if_neg h]

theorem stackRun_sublist (stop : Word) (l : List FpRef) (start : Word) :
    (stackRun s stop start l).Sublist l := by
  induction l generalizing start with
  | nil => exact List.Sublist.refl _
  | cons fp rest ih =>
    unfold stackRun
    split
    · split
      · exact (ih _).cons_cons fp
      · exact (ih _).cons fp
    · exact List.nil_sublist _

/-- The loop collects the run, up to eight pages. -/
theorem stackFpages_eq (l : List FpRef) (n : Nat) (p : Option FpRef) (start : Word)
    (mpu : List FpRef) (hl : Chain s.asNext p l) (hn : l.length < n) (hm : mpu.length ≤ 8) :
    stackFpages s stop n p start mpu =
      .ok (mpu ++ (stackRun s stop start l).take (8 - mpu.length)) := by
  induction l, n, p, hl, hn using Chain.walk_rec generalizing start mpu with
  | nil n => simp [stackFpages, stackRun]
  | cons fp rest n _ _ ih =>
    unfold stackFpages
    by_cases hlt : start < stop
    · by_cases h8 : mpu.length < 8
      · rw [if_pos ⟨h8, hlt⟩]
        unfold stackRun
        rw [if_pos hlt]
        by_cases hin : addrInFpage start (s.fp fp) false = true
        · have hlen : (mpu ++ [fp]).length = mpu.length + 1 := by simp
          rw [if_pos hin, if_pos hin, show (s.fp fp).asNext = s.asNext fp from rfl,
            ih _ _ (by omega), hlen,
            show 8 - mpu.length = (8 - (mpu.length + 1)) + 1 by omega, List.take_succ_cons,
            List.append_assoc]
          rfl
        · rw [if_neg hin, if_neg hin]
          exact ih _ _ hm
      · rw [if_neg fun h => h8 h.1, show 8 - mpu.length = 0 by omega, List.take_zero,
          List.append_nil]
    · rw [if_neg fun h => hlt h.2, stackRun_done hlt, List.take_nil, List.append_nil]

/-! ## The MPU list of a space that has none -/

/-- The pages of a class, in list order. -/
def mpuClass (s : Kernel) (pc : Word) (i : Fin 3) (l : List FpRef) : List FpRef :=
  l.filter fun x => mpuPriority pc (s.fp x) = i

/-- The pages of the space in the order of their priority. -/
def mpuOrder (s : Kernel) (pc : Word) (l : List FpRef) : List FpRef :=
  mpuClass s pc 0 l ++ mpuClass s pc 1 l ++ mpuClass s pc 2 l

/-- A list whose nodes are linked in order, with the link of its last node. -/
def Strung (s : Kernel) (k : List FpRef) : Prop :=
  Seg s.mpuNext k.head? k (k.getLast?.bind s.mpuNext)

theorem Strung.congr (h : Strung s k) (hk : ∀ x ∈ k, t.mpuNext x = s.mpuNext x) : Strung t k := by
  unfold Strung at h ⊢
  have hlast : k.getLast?.bind t.mpuNext = k.getLast?.bind s.mpuNext := by
    cases hz : k.getLast? with
    | none => rfl
    | some z => exact hk z (List.mem_of_getLast? hz)
  rw [hlast]
  exact h.congr hk

theorem Strung.relink {p : Option FpRef} (h : Strung s k) (hnd : k.Nodup) (hz : k.getLast? = some z)
    (hp : t.mpuNext z = p) (hk : ∀ x ∈ k, x ≠ z → t.mpuNext x = s.mpuNext x) :
    Seg t.mpuNext k.head? k p := by
  obtain ⟨k', rfl⟩ := List.getLast?_eq_some_iff.mp hz
  rw [← hp]
  refine Seg.relink_last h fun y hy => hk y (by simp [hy]) ?_
  rintro rfl
  exact (List.nodup_append.mp hnd).2.2 y hy y (by simp) rfl

theorem Strung.push (h : Strung s k) (hnd : k.Nodup) (hz : k.getLast? = some z)
    (hp : t.mpuNext z = some fp) (hk : ∀ x ∈ k, x ≠ z → t.mpuNext x = s.mpuNext x) :
    Strung t (k ++ [fp]) := by
  have hseg := h.relink hnd hz hp hk
  unfold Strung
  have hhead : (k ++ [fp]).head? = k.head? := by
    cases k with
    | nil => simp at hz
    | cons y k => rfl
  rw [hhead, List.getLast?_concat]
  exact hseg.append (.cons .nil)

/-- Only MPU links of pages have changed. -/
structure MpuRelinked (s t : Kernel) : Prop where
  page : ∀ x, t.fp x = { s.fp x with mpuNext := t.mpuNext x }
  asTable : t.asTable = s.asTable
  num : t.fpageTable.num = s.fpageTable.num
  mpuLog : t.mpuLog = s.mpuLog
  mpu : t.mpu = s.mpu

theorem MpuRelinked.refl (s : Kernel) : MpuRelinked s s := ⟨fun _ => rfl, rfl, rfl, rfl, rfl⟩

theorem MpuRelinked.trans (h1 : MpuRelinked s t) (h2 : MpuRelinked t u) :
    MpuRelinked s u := by
  refine ⟨fun x => ?_, h2.asTable.trans h1.asTable, h2.num.trans h1.num,
    h2.mpuLog.trans h1.mpuLog, h2.mpu.trans h1.mpu⟩
  rw [h2.page, h1.page]

theorem MpuRelinked.setNext (s : Kernel) (r : FpRef) (p : Option FpRef) :
    MpuRelinked s (s.setFp r fun f => { f with mpuNext := p }) := by
  refine ⟨fun x => ?_, rfl, rfl, rfl, rfl⟩
  rw [mpuNext_setFp, Kernel.setFp_fp]
  by_cases hx : x = r
  · rw [if_pos hx, if_pos hx, hx]
  · rw [if_neg hx, if_neg hx]
    rfl

theorem MpuRelinked.asNext (h : MpuRelinked s t) (x : FpRef) : t.asNext x = s.asNext x := by
  unfold Kernel.asNext
  rw [h.page]

theorem MpuRelinked.as (h : MpuRelinked s t) (b : AsRef) : t.as b = s.as b := by
  unfold Kernel.as
  rw [h.asTable]

/-- The three classes as far as the loop has come: `k i` is strung, the other links are those of
`s`. -/
structure Classified (s t : Kernel) (c : MpuClasses) (k : Fin 3 → List FpRef) : Prop where
  first : ∀ i, c.first i = (k i).head?
  last : ∀ i, c.last i = (k i).getLast?
  strung : ∀ i, Strung t (k i)
  tail : ∀ i z, (k i).getLast? = some z → t.mpuNext z = s.mpuNext z
  frame : ∀ x, (∀ i, x ∉ k i) → t.mpuNext x = s.mpuNext x
  same : MpuRelinked s t

theorem Classified.priority {k : Fin 3 → List FpRef} (h : Classified s t c k) (pc : Word)
    (x : FpRef) : mpuPriority pc (t.fp x) = mpuPriority pc (s.fp x) := by
  rw [h.same.page x]
  rfl

/-- The classes and the pages still to come have nothing in common. -/
structure Apart (k : Fin 3 → List FpRef) (l : List FpRef) : Prop where
  nodup : ∀ i, (k i).Nodup
  classes : ∀ i j, i ≠ j → ∀ x ∈ k i, x ∉ k j
  todo : ∀ i, ∀ x ∈ k i, x ∉ l
  list : l.Nodup

/-- The page `fp` is appended to class `i`. -/
def pushClass (k : Fin 3 → List FpRef) (i : Fin 3) (fp : FpRef) : Fin 3 → List FpRef :=
  fun j => if j = i then k j ++ [fp] else k j

theorem mem_pushClass {k : Fin 3 → List FpRef} {i j : Fin 3} {x : FpRef} :
    x ∈ pushClass k i fp j ↔ x ∈ k j ∨ (j = i ∧ x = fp) := by
  unfold pushClass
  by_cases hj : j = i
  · simp [hj]
  · simp [hj]

theorem Apart.push {k : Fin 3 → List FpRef} (h : Apart k (fp :: l)) (i : Fin 3) :
    Apart (pushClass k i fp) l := by
  obtain ⟨hfp, hl⟩ := List.nodup_cons.mp h.list
  have hnew : ∀ j, fp ∉ k j := fun j hj => h.todo j fp hj List.mem_cons_self
  refine ⟨fun j => ?_, fun j j' hne x hx hx' => ?_, fun j x hx hxl => ?_, hl⟩
  · unfold pushClass
    split
    · refine List.nodup_append.mpr ⟨h.nodup j, by simp, ?_⟩
      rintro x hx y hy rfl
      rw [List.mem_singleton.mp hy] at hx
      exact hnew j hx
    · exact h.nodup j
  · rcases mem_pushClass.mp hx with h1 | ⟨h1, hxfp⟩
    · rcases mem_pushClass.mp hx' with h2 | ⟨_, hxfp⟩
      · exact h.classes j j' hne x h1 h2
      · exact hnew j (hxfp ▸ h1)
    · rcases mem_pushClass.mp hx' with h2 | ⟨h2, _⟩
      · exact hnew j' (hxfp ▸ h2)
      · exact hne (h1.trans h2.symm)
  · rcases mem_pushClass.mp hx with hx | ⟨_, rfl⟩
    · exact h.todo j x hx (List.mem_cons_of_mem _ hxl)
    · exact hfp hxl

/-- One page more: the last page of its class, if there is one, is linked to it. -/
theorem Classified.push {k : Fin 3 → List FpRef} (h : Classified s t c k) (hk : Apart k (fp :: l))
    (i : Fin 3)
    (hlink : ∀ x, u.mpuNext x = if (k i).getLast? = some x then some fp else t.mpuNext x)
    (hu : MpuRelinked t u) :
    Classified s u
      { first := fun j => if j = i then c.first j <|> some fp else c.first j
        last := fun j => if j = i then some fp else c.last j } (pushClass k i fp) := by
  have hnew : ∀ j, fp ∉ k j := fun j hj => hk.todo j fp hj List.mem_cons_self
  have hlast : ∀ x, (k i).getLast? = some x → x ∈ k i := fun x hx => List.mem_of_getLast? hx
  have hfp : u.mpuNext fp = s.mpuNext fp := by
    rw [hlink, if_neg fun hx => hnew i (hlast fp hx), h.frame fp hnew]
  have hother : ∀ j, j ≠ i → ∀ x ∈ k j, u.mpuNext x = t.mpuNext x := by
    intro j hj x hx
    rw [hlink, if_neg fun hz => hk.classes j i hj x hx (hlast x hz)]
  refine ⟨fun j => ?_, fun j => ?_, fun j => ?_, fun j z hz => ?_, fun x hx => ?_,
    h.same.trans hu⟩
  · unfold pushClass
    dsimp only
    by_cases hj : j = i
    · rw [if_pos hj, if_pos hj, h.first, List.head?_append]
      cases k j <;> rfl
    · rw [if_neg hj, if_neg hj, h.first]
  · unfold pushClass
    dsimp only
    by_cases hj : j = i
    · rw [if_pos hj, if_pos hj, List.getLast?_concat]
    · rw [if_neg hj, if_neg hj, h.last]
  · unfold pushClass
    by_cases hj : j = i
    · rw [if_pos hj]
      subst hj
      cases hz : (k j).getLast? with
      | none =>
        rw [List.getLast?_eq_none_iff.mp hz]
        exact .cons .nil
      | some z =>
        refine (h.strung j).push (hk.nodup j) hz ?_ fun x hx hxz => ?_
        · rw [hlink, if_pos hz]
        · rw [hlink, hz, if_neg fun hzx => hxz (Option.some.inj hzx).symm]
    · rw [if_neg hj]
      exact (h.strung j).congr (hother j hj)
  · unfold pushClass at hz
    by_cases hj : j = i
    · rw [if_pos hj, List.getLast?_concat] at hz
      rw [← Option.some.inj hz]
      exact hfp
    · rw [if_neg hj] at hz
      rw [hother j hj z (List.mem_of_getLast? hz)]
      exact h.tail j z hz
  · have hout : ∀ j, x ∉ k j := fun j hj => hx j (mem_pushClass.mpr (.inl hj))
    rw [hlink, if_neg fun hz => hout i (hlast x hz)]
    exact h.frame x hout

theorem pushClass_class (s : Kernel) (pc : Word) (k : Fin 3 → List FpRef) (fp : FpRef)
    (l : List FpRef) :
    (fun i => pushClass k (mpuPriority pc (s.fp fp)) fp i ++ mpuClass s pc i l) =
      fun i => k i ++ mpuClass s pc i (fp :: l) := by
  funext i
  unfold pushClass mpuClass
  by_cases hi : mpuPriority pc (s.fp fp) = i
  · rw [if_pos hi.symm, List.filter_cons_of_pos (by simpa using hi), List.append_assoc]
    rfl
  · rw [if_neg fun h => hi h.symm, List.filter_cons_of_neg (by simpa using hi)]

/-- The loop strings the pages of the list into the three classes. -/
theorem classify_eq (l : List FpRef) (n : Nat) (t : Kernel) (p : Option FpRef) (c : MpuClasses)
    (k : Fin 3 → List FpRef) (hl : Chain t.asNext p l) (hn : l.length < n) (hc : Classified s t c k)
    (hk : Apart k l) :
    ∃ c' t', classify pc n t p c = .ok (c', t') ∧
      Classified s t' c' (fun i => k i ++ mpuClass s pc i l) := by
  induction l generalizing n t p c k with
  | nil =>
    obtain ⟨n, rfl⟩ := Nat.exists_eq_add_of_lt hn
    rw [chain_nil.mp hl]
    refine ⟨c, t, rfl, ?_⟩
    have hk : (fun i => k i ++ mpuClass s pc i []) = k := funext fun i => List.append_nil _
    rw [hk]
    exact hc
  | cons fp l ih =>
    obtain ⟨rfl, ht⟩ := chain_cons.mp hl
    cases n with
    | zero => simp at hn
    | succ n =>
      have hn' : l.length < n := Nat.lt_of_succ_lt_succ hn
      -- the state after this page, and the rest of the loop from there
      have hgo : ∀ u : Kernel,
          (∀ x, u.mpuNext x =
            if (k (mpuPriority pc (s.fp fp))).getLast? = some x then some fp
            else t.mpuNext x) → MpuRelinked t u →
          ∃ c' t', classify pc n u (u.fp fp).asNext
              { first := fun i => if i = mpuPriority pc (s.fp fp)
                  then c.first i <|> some fp else c.first i
                last := fun i => if i = mpuPriority pc (s.fp fp) then some fp else c.last i } =
              .ok (c', t') ∧
            Classified s t' c' (fun i => k i ++ mpuClass s pc i (fp :: l)) := by
        intro u hlink hu
        have hl' : Chain u.asNext (u.fp fp).asNext l := by
          have hfp : (u.fp fp).asNext = t.asNext fp := hu.asNext fp
          rw [hfp]
          exact ht.congr fun x _ => hu.asNext x
        have := ih n u _ _ _ hl' hn' (hc.push hk _ hlink hu) (hk.push _)
        rwa [pushClass_class] at this
      have hpr := hc.priority pc fp
      unfold classify
      dsimp only
      rw [hpr, hc.first]
      cases hz : (k (mpuPriority pc (s.fp fp))).getLast? with
      | none =>
        rw [List.getLast?_eq_none_iff.mp hz]
        refine hgo t (fun x => ?_) (.refl t)
        rw [hz, if_neg (by simp)]
      | some z =>
        have hne : k (mpuPriority pc (s.fp fp)) ≠ [] := by
          intro hnil
          rw [hnil] at hz
          simp at hz
        obtain ⟨y, rest, hy⟩ := List.exists_cons_of_ne_nil hne
        have hd : deref (c.last (mpuPriority pc (s.fp fp))) = .ok z := by
          rw [hc.last, hz]
          rfl
        have hlink : ∀ x, (t.setFp z fun f => { f with mpuNext := some fp }).mpuNext x =
            if (k (mpuPriority pc (s.fp fp))).getLast? = some x then some fp
            else t.mpuNext x := by
          intro x
          rw [mpuNext_setFp, hz]
          by_cases hx : x = z
          · rw [if_pos hx, if_pos (by rw [hx])]
          · rw [if_neg hx, if_neg fun h => hx (Option.some.inj h).symm]
        obtain ⟨c', t', hrun, hres⟩ := hgo _ hlink (.setNext t z _)
        refine ⟨c', t', ?_, hres⟩
        rw [hy, List.head?_cons]
        rw [hd]
        exact hrun

theorem joinClass_eq {q : Option FpRef} (hk : Strung t k) (hnd : k.Nodup)
    (hm : Seg t.mpuNext m.head? m q) (hdis : ∀ x ∈ k, x ∉ m) :
    ∃ u, joinClass t k.head? k.getLast? m.head? = .ok ((k ++ m).head?, u) ∧
      Seg u.mpuNext (k ++ m).head? (k ++ m) q ∧ (∀ x, x ∉ k → u.mpuNext x = t.mpuNext x) ∧
      MpuRelinked t u := by
  cases hz : k.getLast? with
  | none =>
    rw [List.getLast?_eq_none_iff.mp hz, List.nil_append]
    exact ⟨t, rfl, hm, fun _ _ => rfl, .refl t⟩
  | some z =>
    have hzk : z ∈ k := List.mem_of_getLast? hz
    obtain ⟨y, rest, rfl⟩ := List.exists_cons_of_ne_nil (List.ne_nil_of_mem hzk)
    have hother : ∀ x, x ≠ z → (t.setFp z fun f => { f with mpuNext := m.head? }).mpuNext x =
        t.mpuNext x := by
      intro x hx
      rw [mpuNext_setFp, if_neg hx]
    refine ⟨t.setFp z fun f => { f with mpuNext := m.head? }, rfl, ?_, ?_, .setNext t z _⟩
    · have h1 := hk.relink (p := m.head?) (t := t.setFp z fun f => { f with mpuNext := m.head? })
        hnd hz (by rw [mpuNext_setFp, if_pos rfl]) fun x _ hx => hother x hx
      refine h1.append (hm.congr fun x hx => hother x ?_)
      rintro rfl
      exact hdis x hzk hx
    · intro x hx
      exact hother x fun hxz => hx (hxz ▸ hzk)

/-- Building the MPU list of a space. The last page that is neither the page of `pc` nor always
mapped keeps the link it had. -/
theorem buildMpuList_eq (hl : Chain s.asNext (s.as a).first l) (hlen : l.length < s.walkBound) :
    ∃ u, buildMpuList s a pc =
        .ok (u.setAs a fun b => { b with mpuFirst := (mpuOrder s pc l).head? }) ∧
      Seg u.mpuNext (mpuOrder s pc l).head? (mpuOrder s pc l)
        ((mpuClass s pc 2 l).getLast?.bind s.mpuNext) ∧
      (∀ x, x ∉ l → u.mpuNext x = s.mpuNext x) ∧ MpuRelinked s u := by
  have hcl : ∀ i x, x ∈ mpuClass s pc i l ↔ x ∈ l ∧ mpuPriority pc (s.fp x) = i := by
    intro i x
    unfold mpuClass
    rw [List.mem_filter, decide_eq_true_eq]
  have hnd : ∀ i, (mpuClass s pc i l).Nodup := fun i => hl.nodup.filter _
  have hdis : ∀ i j, i ≠ j → ∀ x ∈ mpuClass s pc i l, x ∉ mpuClass s pc j l := by
    intro i j hij x hx hx'
    exact hij (((hcl i x).mp hx).2.symm.trans ((hcl j x).mp hx').2)
  obtain ⟨c, t, hrun, hc⟩ := @classify_eq s pc l s.walkBound s (s.as a).first
    { first := fun _ => none, last := fun _ => none } (fun _ => []) hl hlen
    ⟨fun _ => rfl, fun _ => rfl, fun _ => .nil, fun _ _ h => absurd h (by simp), fun _ _ => rfl,
      .refl s⟩
    ⟨fun _ => by simp, fun _ _ _ x hx => absurd hx (by simp), fun _ x hx => absurd hx (by simp),
      hl.nodup⟩
  obtain ⟨u1, hj1, hs1, hf1, hr1⟩ := joinClass_eq (hc.strung 1) (hnd 1) (hc.strung 2)
    (hdis 1 2 (by decide))
  have h01 : ∀ x ∈ mpuClass s pc 0 l, x ∉ mpuClass s pc 1 l ++ mpuClass s pc 2 l := by
    intro x hx hx'
    rcases List.mem_append.mp hx' with hx' | hx'
    · exact hdis 0 1 (by decide) x hx hx'
    · exact hdis 0 2 (by decide) x hx hx'
  have hs0 : Strung u1 (mpuClass s pc 0 l) :=
    Strung.congr (hc.strung 0) fun x hx => hf1 x (hdis 0 1 (by decide) x hx)
  obtain ⟨u, hj0, hs, hf0, hr0⟩ := joinClass_eq hs0 (hnd 0) hs1 h01
  have hrel : MpuRelinked s u := (hc.same.trans hr1).trans hr0
  refine ⟨u, ?_, ?_, ?_, hrel⟩
  · unfold buildMpuList
    refine bind_ok.mpr ⟨(c, t), hrun, bind_ok.mpr
      ⟨((mpuClass s pc 1 l ++ mpuClass s pc 2 l).head?, u1), ?_, bind_ok.mpr
        ⟨((mpuClass s pc 0 l ++ (mpuClass s pc 1 l ++ mpuClass s pc 2 l)).head?, u), ?_, ?_⟩⟩⟩
    · rw [hc.first, hc.last, hc.first]
      exact hj1
    · rw [hc.first, hc.last]
      exact hj0
    · unfold mpuOrder
      rw [List.append_assoc]
      rfl
  · have hlast : (mpuClass s pc 2 l).getLast?.bind t.mpuNext =
        (mpuClass s pc 2 l).getLast?.bind s.mpuNext := by
      cases hz : (mpuClass s pc 2 l).getLast? with
      | none => rfl
      | some z => exact hc.tail 2 z hz
    unfold mpuOrder
    rw [List.append_assoc, ← hlast]
    exact hs
  · intro x hx
    have hout : ∀ i, x ∉ mpuClass s pc i l := fun i hi => hx ((hcl i x).mp hi).1
    rw [hf0 x (hout 0), hf1 x (hout 1), hc.frame x hout]

/-! ## The pages that are programmed -/

/-- The front of a terminated MPU list without the stack pages. -/
theorem fifoFpages_eq (m : List FpRef) (n : Nat) (p : Option FpRef) (mpu : List FpRef)
    (hm : Chain s.mpuNext p m) (hn : m.length < n) :
    fifoFpages s stack n p mpu =
      .ok (mpu ++ (m.filter (· ∉ stack)).take (8 - stack.length - mpu.length)) := by
  induction m, n, p, hm, hn using Chain.walk_rec generalizing mpu with
  | nil n => simp [fifoFpages]
  | cons fp m n _ _ ih =>
    unfold fifoFpages
    by_cases h8 : stack.length + mpu.length < 8
    · rw [if_pos h8, show (s.fp fp).mpuNext = s.mpuNext fp from rfl, ih]
      by_cases hfp : fp ∈ stack
      · rw [if_pos hfp, List.filter_cons_of_neg (by simpa using hfp)]
      · have hlen : (mpu ++ [fp]).length = mpu.length + 1 := by simp
        rw [if_neg hfp, List.filter_cons_of_pos (by simpa using hfp), hlen,
          show 8 - stack.length - mpu.length = (8 - stack.length - (mpu.length + 1)) + 1 by omega,
          List.take_succ_cons, List.append_assoc]
        rfl
    · rw [if_neg h8, show 8 - stack.length - mpu.length = 0 by omega, List.take_zero,
        List.append_nil]

end F9
