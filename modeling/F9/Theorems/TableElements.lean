import F9.Theorems.BitbandTables

/-!
# Kernel tables hand out each element once

`ktable_alloc` and `ktable_free` with the addresses of the elements, on a plain bitmap. The elements
handed out are a list of addresses; `table_elements` says that `ktable_alloc` returns the first
element of the array that is not in it, for every sequence of calls. `table_index_checks` says which
indices and pointers the routines refuse.
-/

namespace F9

open Result

/-- A table whose elements and bitmap are in memory: `bc_bit` is an `int`. -/
structure TableLayout where
  data : Word
  size : Word
  num : Word
  sized : 0 < size.toNat
  fits : data.toNat + num.toNat * size.toNat ≤ 2 ^ 32
  countable : num.toNat < 2 ^ 31

namespace TableLayout

variable (kt : TableLayout) {i j : Nat}

/-- The address of element `i`. -/
def element (i : Nat) : Word := kt.data + BitVec.ofNat 32 i * kt.size

/-- `ktable_alloc`. -/
def alloc (bitmap : Nat → Word) : Except Fault (Option Word × (Nat → Word)) := do
  let (i, bitmap) ← ktableAlloc plainBitmap kt.num bitmap
  return (i.map kt.element, bitmap)

/-- `ktable_getid`, where the quotient is an `int`. -/
def getid (element : Word) : Option Nat :=
  let i := ((element - kt.data) / kt.size).toInt
  if kt.num < BitVec.ofInt 32 i ∨ i < 0 then none else some i.toNat

/-- `ktable_free`. -/
def free (bitmap : Nat → Word) (element : Word) : Except Fault (Nat → Word) :=
  match kt.getid element with
  | none => .ok bitmap
  | some i => plainBitmap.clearBit bitmap (plainBitmap.cursor i)

/-- A sequence of calls, where `held` are the elements handed out: what `ktable_alloc` returns. -/
def run : (Nat → Word) → List Word → List TableOp → Except Fault (List (Option Word))
  | _, _, [] => .ok []
  | bitmap, held, .alloc :: ops => do
    let (r, bitmap) ← kt.alloc bitmap
    let rs ← run bitmap (held ++ r.toList) ops
    return r :: rs
  | bitmap, held, .free k :: ops =>
    match held[k]? with
    | none => run bitmap held ops
    | some element => do
      let bitmap ← kt.free bitmap element
      run bitmap (held.eraseIdx k) ops

/-- The elements in the order of the array. -/
def elements : List Word := (List.range kt.num.toNat).map kt.element

/-- What the calls are to return: the first element that is not handed out, or `NULL`. -/
def expected : List Word → List TableOp → List (Option Word)
  | _, [] => []
  | held, .alloc :: ops =>
    let r := kt.elements.find? (· ∉ held)
    r :: expected (held ++ r.toList) ops
  | held, .free k :: ops => expected (held.eraseIdx k) ops

/-! ## Addresses -/

theorem element_toNat (hi : i < kt.num.toNat) :
    (kt.element i).toNat = kt.data.toNat + i * kt.size.toNat ∧
      (i + 1) * kt.size.toNat ≤ kt.num.toNat * kt.size.toNat := by
  have hfits := kt.fits
  have hsized := kt.sized
  have hmul : (i + 1) * kt.size.toNat ≤ kt.num.toNat * kt.size.toNat := Nat.mul_le_mul_right _ hi
  refine ⟨?_, hmul⟩
  rw [Nat.add_mul] at hmul
  have hi' : (BitVec.ofNat 32 i).toNat = i := by
    rw [BitVec.toNat_ofNat]
    omega
  unfold element
  rw [BitVec.toNat_add, BitVec.toNat_mul, hi', Nat.mod_eq_of_lt (a := i * kt.size.toNat) (by omega)]
  omega

theorem element_inj (hi : i < kt.num.toNat) (hj : j < kt.num.toNat)
    (h : kt.element i = kt.element j) : i = j := by
  have hnat := congrArg BitVec.toNat h
  rw [(kt.element_toNat hi).1, (kt.element_toNat hj).1] at hnat
  exact Nat.eq_of_mul_eq_mul_right kt.sized (by omega)

theorem getid_element (hi : i < kt.num.toNat) : kt.getid (kt.element i) = some i := by
  have hcount := kt.countable
  have hquot : ((kt.element i - kt.data) / kt.size).toNat = i := by
    have hlt := (kt.element i).isLt
    rw [BitVec.toNat_udiv, BitVec.toNat_sub, (kt.element_toNat hi).1] at *
    rw [show 2 ^ 32 - kt.data.toNat + (kt.data.toNat + i * kt.size.toNat) =
        i * kt.size.toNat + 2 ^ 32 by omega, Nat.add_mod_right, Nat.mod_eq_of_lt (by omega),
      Nat.mul_div_cancel _ kt.sized]
  have hint : ((kt.element i - kt.data) / kt.size).toInt = i := by
    rw [BitVec.toInt_eq_toNat_of_lt (by omega), hquot]
  unfold getid
  rw [hint]
  have hval : BitVec.ofInt 32 i = BitVec.ofNat 32 i := BitVec.ofInt_natCast ..
  have hnot : ¬ (kt.num < BitVec.ofInt 32 (i : Int) ∨ (i : Int) < 0) := by
    rw [hval, BitVec.lt_def, BitVec.toNat_ofNat]
    omega
  rw [if_neg hnot]
  rfl

/-! ## Sequences of calls -/

/-- The bits of the elements are those of the table `t`, and tell which ones are handed out. -/
structure Tracks (bitmap : Nat → Word) (t : KTable Unit) (held : List Word) : Prop where
  num : t.num = kt.num.toNat
  shows : Shows plainBit kt.num.toNat bitmap t
  nodup : held.Nodup
  mem : ∀ p ∈ held, ∃ i < kt.num.toNat, p = kt.element i
  bits : ∀ i < kt.num.toNat, t.bitmap.testBit i = decide (kt.element i ∈ held)

variable {kt} {bitmap bitmap' : Nat → Word} {t : KTable Unit} {held : List Word}

/-- The first free element is that of the first clear bit. -/
theorem Tracks.find (h : kt.Tracks bitmap t held) :
    kt.elements.find? (· ∉ held) = (t.firstFree 0 kt.num.toNat).map kt.element := by
  have hscan : ∀ n i, i + n = kt.num.toNat →
      ((List.range' i n).map kt.element).find? (· ∉ held) = (t.firstFree i n).map kt.element := by
    intro n
    induction n with
    | zero => intro i _; rfl
    | succ n ih =>
      intro i hi
      have hbit := h.bits i (by omega)
      rw [List.range'_succ, List.map_cons, KTable.firstFree]
      by_cases hmem : kt.element i ∈ held
      · rw [List.find?_cons_of_neg (by simpa using hmem), ih (i + 1) (by omega), hbit,
          decide_eq_true hmem]
        rfl
      · rw [List.find?_cons_of_pos (by simpa using hmem), hbit, decide_eq_false hmem]
        rfl
  unfold elements
  rw [List.range_eq_range']
  exact hscan _ 0 (Nat.zero_add _)

theorem Tracks.alloc (h : kt.Tracks bitmap t held) :
    ∃ bitmap' t', kt.alloc bitmap = .ok (kt.elements.find? (· ∉ held), bitmap') ∧
      kt.Tracks bitmap' t' (held ++ (kt.elements.find? (· ∉ held)).toList) := by
  have hB := plainBitmap_faithful kt.num.toNat
  rw [h.find]
  cases hfree : t.firstFree 0 kt.num.toNat with
  | none =>
    refine ⟨bitmap, t, ?_, by simpa using h⟩
    unfold TableLayout.alloc
    rw [hB.alloc_none (Nat.le_refl _) h.shows (Nat.le_refl _) hfree]
    rfl
  | some j =>
    obtain ⟨_, hj, hbit⟩ := t.firstFree_spec _ _ _ hfree
    rw [Nat.zero_add] at hj
    obtain ⟨bitmap', hrun, hshows⟩ := hB.alloc (Nat.le_refl _) h.shows hfree
    have hnew : kt.element j ∉ held := by
      rw [h.bits j hj, decide_eq_false_iff_not] at hbit
      exact hbit
    refine ⟨bitmap', { t with bitmap := t.bitmap ||| 1 <<< j }, ?_, h.num, hshows, ?_, ?_,
      fun i hi => ?_⟩
    · unfold TableLayout.alloc
      rw [hrun]
      rfl
    · exact h.nodup.append (List.nodup_singleton _) (by simpa using hnew)
    · intro p hp
      rcases List.mem_append.mp hp with hp | hp
      · exact h.mem p hp
      · exact ⟨j, hj, by simpa using hp⟩
    · have hinj : kt.element i = kt.element j ↔ j = i :=
        ⟨fun heq => (kt.element_inj hi hj heq).symm, fun heq => by rw [heq]⟩
      rw [Nat.testBit_or, KTable.testBit_mask, h.bits i hi]
      simp [hinj]

theorem Tracks.free {k : Nat} {p : Word} (h : kt.Tracks bitmap t held) (hk : held[k]? = some p) :
    ∃ bitmap' t', kt.free bitmap p = .ok bitmap' ∧ kt.Tracks bitmap' t' (held.eraseIdx k) := by
  obtain ⟨i, hi, rfl⟩ := h.mem p (List.mem_of_getElem? hk)
  obtain ⟨hlt, heq⟩ := List.getElem?_eq_some_iff.mp hk
  obtain ⟨bitmap', hrun, hshows⟩ :=
    (plainBitmap_faithful kt.num.toNat).dealloc (Nat.le_refl _) h.shows hi
  have herase : held.eraseIdx k = held.erase (kt.element i) := by
    rw [← heq]
    exact (h.nodup.erase_getElem k hlt).symm
  have hfree : kt.free bitmap (kt.element i) = .ok bitmap' := by
    rw [← hrun]
    unfold TableLayout.free ktableFree ktableGetid
    rw [kt.getid_element hi, if_neg (by omega)]
  rw [herase]
  refine ⟨bitmap', t.free i, hfree, h.num, hshows, h.nodup.erase _,
    fun q hq => h.mem q (List.mem_of_mem_erase hq), fun j hj => ?_⟩
  have hinj : kt.element j = kt.element i ↔ i = j :=
    ⟨fun heq => (kt.element_inj hj hi heq).symm, fun heq => by rw [heq]⟩
  show (t.bitmap &&& (t.bitmap ^^^ 1 <<< i)).testBit j = _
  rw [Nat.testBit_and, Nat.testBit_xor, KTable.testBit_mask, h.bits j hj]
  simp only [h.nodup.mem_erase_iff, ne_eq, hinj]
  by_cases hij : i = j <;> simp [hij]

end TableLayout

/-- Every sequence of calls on a table whose bitmap is clear: `ktable_alloc` returns the first
element of the array that is not handed out, and `NULL` if all of them are; `ktable_free` takes one
back. The elements are in the array of the table. -/
theorem table_elements (kt : TableLayout) {bitmap : Nat → Word}
    (hclear : ∀ i < kt.num.toNat, plainBit bitmap i = false) (ops : List TableOp) :
    kt.run bitmap [] ops = .ok (kt.expected [] ops) ∧
    ∀ p ∈ kt.elements, kt.data.toNat ≤ p.toNat ∧
      p.toNat + kt.size.toNat ≤ kt.data.toNat + kt.num.toNat * kt.size.toNat := by
  have hrun : ∀ (bitmap : Nat → Word) (t : KTable Unit) (held : List Word),
      kt.Tracks bitmap t held → kt.run bitmap held ops = .ok (kt.expected held ops) := by
    induction ops with
    | nil => intros; rfl
    | cons op ops ih =>
      intro bitmap t held h
      cases op with
      | alloc =>
        obtain ⟨bitmap', t', halloc, h'⟩ := h.alloc
        rw [TableLayout.run, halloc, TableLayout.expected]
        dsimp only [bind, Except.bind]
        rw [ih _ _ _ h']
        rfl
      | free k =>
        rw [TableLayout.run, TableLayout.expected]
        cases hk : held[k]? with
        | none =>
          rw [List.eraseIdx_of_length_le (List.getElem?_eq_none_iff.mp hk)]
          exact ih _ _ _ h
        | some p =>
          obtain ⟨bitmap', t', hfree, h'⟩ := h.free hk
          dsimp only
          rw [hfree]
          exact ih _ _ _ h'
  refine ⟨hrun bitmap ⟨kt.num.toNat, 0, fun _ => ()⟩ []
    ⟨rfl, fun i hi => ?_, .nil, by simp, by simp⟩, fun p hp => ?_⟩
  · rw [hclear i hi, Nat.zero_testBit]
  · obtain ⟨i, hi, rfl⟩ := List.mem_map.mp hp
    obtain ⟨heq, hle⟩ := kt.element_toNat (List.mem_range.mp hi)
    rw [Nat.add_mul] at hle
    omega

/-- A table of 33 elements of 12 bytes: the last one is in the second word of the bitmap, there is
no other, and the one that is freed is handed out again. -/
theorem table_elements_two_words :
    ∃ kt : TableLayout, kt.num = 33#32 ∧
      kt.run (fun _ => 0#32) [] (List.replicate 34 .alloc ++ [.free 5, .alloc]) =
        .ok (kt.expected [] (List.replicate 34 .alloc ++ [.free 5, .alloc])) :=
  ⟨⟨0x20000100#32, 12#32, 33#32, by decide, by decide, by decide⟩, rfl,
    (table_elements _ (by decide) _).1⟩


/-! ## Checks of indices and pointers -/

namespace TableLayout

variable (kt : TableLayout) {i p : Word}

/-- `ktable_is_allocated`: the index is compared as a `size_t`. -/
def isAllocated (bitmap : Nat → Word) (i : Word) : Int :=
  if kt.num < i then -1
  else ((bitmap (i.toNat / 32) >>> (i.toNat % 32)) &&& 1#32).toNat

/-- `ktable_alloc_id`. -/
def allocId (bitmap : Nat → Word) (i : Word) : Option Word × (Nat → Word) :=
  if kt.num < i then (none, bitmap)
  else
    let (clear, bitmap) := testAndSetBit bitmap i.toNat
    (if clear then some (kt.element i.toNat) else none, bitmap)

/-- The pointer is not in the array of the table. -/
def Outside (p : Word) : Prop :=
  p.toNat < kt.data.toNat ∨ kt.data.toNat + kt.num.toNat * kt.size.toNat ≤ p.toNat

instance (p : Word) : Decidable (kt.Outside p) := inferInstanceAs (Decidable (_ ∨ _))

/-- An index that is out of range as an `int` is not below the capacity as a `size_t`. -/
theorem num_lt_iff (h : i.toInt < 0 ∨ kt.num.toNat ≤ i.toInt) : kt.num < i ↔ i ≠ kt.num := by
  have hcount := kt.countable
  have hle : kt.num.toNat ≤ i.toNat := by
    rw [BitVec.toInt_eq_toNat_cond] at h
    split at h <;> omega
  rw [BitVec.lt_def]
  refine ⟨fun hlt heq => ?_, fun hne => Nat.lt_of_le_of_ne hle fun heq => ?_⟩
  · rw [heq] at hlt
    exact Nat.lt_irrefl _ hlt
  · exact hne (BitVec.eq_of_toNat_eq heq.symm)

/-- A pointer that is not in the array has a quotient out of range: below `data` the difference
wraps. -/
theorem Outside.quotient (h : kt.Outside p) : ((p - kt.data) / kt.size).toInt < 0 ∨
    kt.num.toNat ≤ ((p - kt.data) / kt.size).toInt := by
  have hfits := kt.fits
  have hp := p.isLt
  have hle : kt.num.toNat ≤ ((p - kt.data) / kt.size).toNat := by
    rw [BitVec.toNat_udiv, BitVec.toNat_sub, Nat.le_div_iff_mul_le kt.sized]
    rcases h with h | h
    · rw [Nat.mod_eq_of_lt (by omega)]
      omega
    · rw [show 2 ^ 32 - kt.data.toNat + p.toNat = p.toNat - kt.data.toNat + 2 ^ 32 by omega,
        Nat.add_mod_right, Nat.mod_eq_of_lt (by omega)]
      omega
  rw [BitVec.toInt_eq_toNat_cond]
  split <;> omega

theorem Outside.getid_iff (h : kt.Outside p) :
    kt.getid p = none ↔ (p - kt.data) / kt.size ≠ kt.num := by
  have hcount := kt.countable
  have hiff := kt.num_lt_iff h.quotient
  unfold getid
  dsimp only
  generalize (p - kt.data) / kt.size = q at hiff ⊢
  rw [BitVec.ofInt_toInt]
  split
  · rename_i hrefused
    refine iff_of_true rfl (hrefused.elim hiff.mp fun hneg heq => ?_)
    rw [heq, BitVec.toInt_eq_toNat_of_lt (by omega)] at hneg
    omega
  · rename_i hpassed
    exact iff_of_false (by simp) fun hne => hpassed (.inl (hiff.mpr hne))

end TableLayout

/-- An index out of range is refused if and only if it is not `num`, and a pointer outside of the
array if and only if it is not in the place of an element behind the last one. -/
theorem table_index_checks (kt : TableLayout) (bitmap : Nat → Word) :
    (∀ i : Word, i.toInt < 0 ∨ kt.num.toNat ≤ i.toInt →
      (kt.isAllocated bitmap i = -1 ↔ i ≠ kt.num) ∧
      (i ≠ kt.num → kt.allocId bitmap i = (none, bitmap))) ∧
    ∀ p : Word, kt.Outside p →
      (kt.getid p = none ↔ (p - kt.data) / kt.size ≠ kt.num) ∧
      ((p - kt.data) / kt.size ≠ kt.num → kt.free bitmap p = .ok bitmap) := by
  refine ⟨fun i hi => ?_, fun p hp => ⟨hp.getid_iff, fun hne => ?_⟩⟩
  · rw [← kt.num_lt_iff hi]
    refine ⟨?_, fun hlt => if_pos hlt⟩
    unfold TableLayout.isAllocated
    split
    · exact iff_of_true rfl ‹_›
    · refine iff_of_false ?_ ‹_›
      omega
  · unfold TableLayout.free
    rw [hp.getid_iff.mpr hne]

/-- In a table of 33 elements the index 33 is taken for a free element: `ktable_alloc_id` returns
the address behind the array, and `ktable_free` of it clears a bit. -/
theorem table_index_past : ∃ kt : TableLayout, kt.num = 33#32 ∧
    kt.isAllocated (fun _ => 0#32) 33#32 = 0 ∧
    (kt.allocId (fun _ => 0#32) 33#32).1 = some (kt.element 33) ∧
    kt.Outside (kt.element 33) ∧ kt.getid (kt.element 33) = some 33 ∧
    ∃ bitmap, kt.free (fun _ => 2#32) (kt.element 33) = .ok bitmap ∧ bitmap 1 ≠ 2#32 :=
  ⟨⟨0x20000100#32, 12#32, 33#32, by decide, by decide, by decide⟩, rfl, by decide, by decide,
    by decide, by decide, _, rfl, by decide⟩

end F9
