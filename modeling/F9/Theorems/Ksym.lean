import F9.Kernel.Ksym
import Mathlib.Algebra.Group.Nat.Defs

/-!
# Does `ksym_lookup` find the symbol?

The comparison takes the last symbol for equal to every address. A search that always moves to the
right ends with the last symbol alone or with the last two. Of two it probes the last one, which it
finds even if the address belongs to the other. Which it is depends on how many symbols are
searched, hence on the symbol found before. Besides, a difference from `2 ^ 31` on is a negative
`int`.
`ksym_lookup_exact`: these, and tables of one or two symbols, are all the errors.
-/

namespace F9

namespace Ksyms

variable (t : Ksyms) {prev : Nat}

/-- The property: the greatest index whose address is not above, `none` if there is none. -/
def IsLookup (addr : Nat) : Option Nat → Prop
  | none => addr < t.addr 0
  | some i => i < t.count ∧ t.addr i ≤ addr ∧ ∀ j, j < t.count → t.addr j ≤ addr → j ≤ i

/-- A search of `lim` symbols that always moves to the right comes to the last two. -/
def ComesToTwo (lim : Nat) : Prop := ∃ k, 3 * 2 ^ k ≤ lim + 1 ∧ lim + 1 < 4 * 2 ^ k

/-- The search of the last `lim` symbols, from `base` on, has none of the errors. -/
def Searchable (addr base lim : Nat) : Prop :=
  (lim ≤ 2 ∨ addr < t.addr (base + lim / 2) + 2 ^ 31) ∧
  ¬ (ComesToTwo lim ∧ t.addr (t.count - 2) ≤ addr ∧ addr < t.addr (t.count - 1)) ∧
  ¬ (t.count ≤ 2 ∧ addr < t.addr 0)

variable {t} {i j : Nat}

theorem mono (hij : i ≤ j) (hj : j < t.count) : t.addr i ≤ t.addr j := by
  rcases Nat.eq_or_lt_of_le hij with rfl | hlt
  · exact Nat.le_refl _
  · exact (t.increasing i j hlt hj).le

section

variable {addr i p lim base : Nat}

theorem isLookup_some (hi : i < t.count) (hle : t.addr i ≤ addr)
    (hlt : i + 1 < t.count → addr < t.addr (i + 1)) : t.IsLookup addr (some i) := by
  refine ⟨hi, hle, fun j hj hjle => ?_⟩
  by_contra hij
  have := t.mono (show i + 1 ≤ j by omega) hj
  omega

variable (h32 : addr < 2 ^ 32)

include h32

/-- What the comparison says of a symbol before the last one. -/
theorem cmpKey_sign (hp : p + 1 < t.count) :
    (t.cmpKey addr p = 0 ↔ t.addr p ≤ addr ∧ addr < t.addr (p + 1)) ∧
    (0 < t.cmpKey addr p ↔ t.addr (p + 1) ≤ addr ∧ addr < t.addr p + 2 ^ 31) := by
  have := t.increasing p (p + 1) (by omega) hp
  have := t.below (p + 1) hp
  unfold cmpKey
  split
  · omega
  · rw [Int.bmod_def]
    split <;> omega

/-! ## The search -/

/-- Before a symbol above the address the search is right. -/
theorem bsearch_before (n base lim : Nat) (hn : lim ≤ n) (hend : base + lim < t.count)
    (hbase : base = 0 ∨ t.addr base ≤ addr) (hlt : addr < t.addr (base + lim)) :
    t.IsLookup addr (bsearch (t.cmpKey addr) n base lim) := by
  induction n generalizing base lim with
  | zero =>
    obtain rfl : lim = 0 := by omega
    rw [Nat.add_zero] at hlt
    obtain rfl : base = 0 := by omega
    exact hlt
  | succ n ih =>
    unfold bsearch
    split
    · rename_i h0
      rw [h0, Nat.add_zero] at hlt
      obtain rfl : base = 0 := by omega
      exact hlt
    · dsimp only
      have hbelow := t.below _ hend
      have hp : base + lim / 2 + 1 < t.count := by omega
      obtain ⟨hzero, hpos⟩ := cmpKey_sign h32 hp
      split
      · rename_i hc
        exact isLookup_some (by omega) (hzero.mp hc).1 fun _ => (hzero.mp hc).2
      · split
        · rename_i hc
          have hright : base + lim / 2 + 1 + (lim - 1) / 2 = base + lim := by omega
          exact ih _ _ (by omega) (by omega) (.inr (hpos.mp hc).1) (by rw [hright]; exact hlt)
        · exact ih _ _ (by omega) (by omega) hbase (by omega)

/-- Before a symbol that is too far below the address nothing is found. -/
theorem bsearch_far (n base lim : Nat) (hend : base + lim < t.count)
    (hfar : t.addr (base + lim) + 2 ^ 31 ≤ addr) : bsearch (t.cmpKey addr) n base lim = none := by
  induction n generalizing base lim with
  | zero => rfl
  | succ n ih =>
    unfold bsearch
    split
    · rfl
    · have hp : base + lim / 2 + 1 < t.count := by omega
      have hbelow := t.below _ hp
      have hle := t.mono (show base + lim / 2 ≤ base + lim by omega) hend
      obtain ⟨hzero, hpos⟩ := cmpKey_sign h32 hp
      rw [if_neg (by omega), if_neg (by omega)]
      exact ih base (lim / 2) (by omega) (by omega)

omit h32 in
theorem comesToTwo_half (h : 3 ≤ lim) : ComesToTwo ((lim - 1) / 2) ↔ ComesToTwo lim := by
  constructor
  · rintro ⟨k, h1, h2⟩
    exact ⟨k + 1, by rw [Nat.pow_succ]; omega, by rw [Nat.pow_succ]; omega⟩
  · rintro ⟨k, h1, h2⟩
    cases k with
    | zero => omega
    | succ k =>
      exact ⟨k, by omega, by omega⟩

omit h32 in
theorem searchable_two (h1 : 1 ≤ lim) (h2 : lim ≤ 2) (hend : base + lim = t.count)
    (hbase : base = 0 ∨ t.addr base ≤ addr) :
    t.IsLookup addr (some (t.count - 1)) ↔ t.Searchable addr base lim := by
  have hlook : t.IsLookup addr (some (t.count - 1)) ↔ t.addr (t.count - 1) ≤ addr :=
    ⟨fun h => h.2.1, fun h => isLookup_some (by omega) h fun hlt => by omega⟩
  have htwo : ComesToTwo lim ↔ lim = 2 := by
    refine ⟨fun ⟨k, h3, _⟩ => ?_, fun h => ⟨0, by omega, by omega⟩⟩
    omega
  have hfirst := t.mono (Nat.zero_le (t.count - 1)) (by omega)
  have hb := t.mono (Nat.zero_le base) (by omega)
  unfold Searchable
  rw [hlook, htwo]
  obtain ⟨hc, rfl⟩ | ⟨hc, rfl⟩ : t.count - 2 = base ∧ lim = 2 ∨ t.count - 1 = base ∧ lim = 1 := by
    omega
  · rw [hc]
    rcases hbase with rfl | hbase <;> omega
  · rw [hc]
    rcases hbase with rfl | hbase <;> omega

/-- The search of the last symbols is right if and only if it has none of the errors. -/
theorem bsearch_last (n base lim : Nat) (hn : lim ≤ n) (h1 : 1 ≤ lim) (hend : base + lim = t.count)
    (hbase : base = 0 ∨ t.addr base ≤ addr) :
    (t.IsLookup addr (bsearch (t.cmpKey addr) n base lim) ↔ t.Searchable addr base lim) := by
  induction n generalizing base lim with
  | zero => omega
  | succ n ih =>
    unfold bsearch
    rw [if_neg (by omega)]
    dsimp only
    by_cases h2 : lim ≤ 2
    · have hp : base + lim / 2 = t.count - 1 := by omega
      have hc : t.cmpKey addr (base + lim / 2) = 0 := if_pos hp
      rw [if_pos hc, hp]
      exact searchable_two h1 h2 hend hbase
    · have hp : base + lim / 2 + 1 < t.count := by omega
      have hbelow := t.below _ hp
      obtain ⟨hzero, hpos⟩ := cmpKey_sign h32 hp
      split
      · rename_i hc
        obtain ⟨hle, hgt⟩ := hzero.mp hc
        refine iff_of_true (isLookup_some (by omega) hle fun _ => hgt)
          ⟨.inr (by omega), ?_, by omega⟩
        rintro ⟨⟨k, h3, h4⟩, h5, _⟩
        by_cases hq : base + lim / 2 = t.count - 2
        · -- the last but one is probed among three or four
          cases k with
          | zero => omega
          | succ k =>
            omega
        · have := t.mono (show base + lim / 2 + 1 ≤ t.count - 2 by omega) (by omega)
          omega
      · split
        · rename_i hc
          obtain ⟨hge, hnear⟩ := hpos.mp hc
          have := t.mono (show base + lim / 2 ≤ base + lim / 2 + 1 + (lim - 1) / 2 / 2 by omega)
            (by omega)
          rw [ih _ ((lim - 1) / 2) (by omega) (by omega) (by omega) (.inr hge)]
          unfold Searchable
          rw [comesToTwo_half (by omega)]
          exact and_congr_left' (iff_of_true (.inr (by omega)) (.inr hnear))
        · by_cases hlt : addr < t.addr (base + lim / 2)
          · have := t.mono (show base + lim / 2 ≤ t.count - 2 by omega) (by omega)
            exact iff_of_true (bsearch_before h32 n base _ (by omega) (by omega) hbase hlt)
              ⟨.inr (by omega), by omega, by omega⟩
          · have := t.mono (Nat.zero_le (base + lim / 2)) (by omega)
            rw [bsearch_far h32 n base _ (by omega) (by omega)]
            refine iff_of_false (fun h : addr < t.addr 0 => ?_) fun h => ?_
            · omega
            · have := h.1
              omega

end

/-! ## Sequences of lookups -/

theorem bsearch_lt {compar : Nat → Int} {i : Nat} (n base lim : Nat)
    (h : bsearch compar n base lim = some i) : i < base + lim := by
  induction n generalizing base lim with
  | zero => simp [bsearch] at h
  | succ n ih =>
    unfold bsearch at h
    dsimp only at h
    split at h
    · simp at h
    · split at h
      · injection h with h
        omega
      · split at h
        · have := ih _ _ h
          omega
        · have := ih _ _ h
          omega

theorem ksymLookup_lt (addr : Nat) (hprev : prev < t.count) :
    (t.ksymLookup prev addr).2 < t.count := by
  unfold ksymLookup
  generalize hf : (if t.addr prev < addr then _ else _) = found
  cases found with
  | none => exact hprev
  | some i =>
    show i < t.count
    split at hf
    · have := bsearch_lt _ _ _ hf
      omega
    · have := bsearch_lt _ _ _ hf
      omega

theorem prevIndex_lt (t : Ksyms) (addrs : List Word) : t.prevIndex addrs < t.count := by
  have hrun : ∀ prev, prev < t.count →
      addrs.foldl (fun prev addr => (t.ksymLookup prev addr.toNat).2) prev < t.count := by
    induction addrs with
    | nil => exact fun _ h => h
    | cons addr addrs ih => exact fun prev hprev => ih _ (ksymLookup_lt _ hprev)
  exact hrun 0 t.positive

end Ksyms

/-- For every table, every sequence of lookups and every address looked up after it: the result is
right if and only if the search, from the symbol found last or from the first one, has none of the
errors. -/
theorem ksym_lookup_exact (t : Ksyms) (addrs : List Word) (addr : Word) :
    t.IsLookup addr.toNat (t.ksymLookup (t.prevIndex addrs) addr.toNat).1 ↔
      if t.addr (t.prevIndex addrs) < addr.toNat then
        t.Searchable addr.toNat (t.prevIndex addrs) (t.count - t.prevIndex addrs)
      else t.Searchable addr.toNat 0 t.count := by
  have hprev := t.prevIndex_lt addrs
  unfold Ksyms.ksymLookup
  split
  · rename_i hlt
    exact Ksyms.bsearch_last addr.isLt _ _ _ (by omega) (by omega) (by omega) (.inr hlt.le)
  · exact Ksyms.bsearch_last addr.isLt _ _ _ (Nat.le_refl _) t.positive (Nat.zero_add _) (.inl rfl)

/-- Symbols at 16, 32, 48 and 64. -/
def fourSymbols : Ksyms where
  count := 4
  addr i := 16 * (i + 1)
  positive := by decide
  increasing _ _ _ _ := by omega
  below _ _ := by omega

/-- The same address twice: the second search begins with the symbol found by the first one, and
finds the last symbol. -/
theorem ksym_lookup_again :
    fourSymbols.IsLookup 50 (fourSymbols.ksymLookup (fourSymbols.prevIndex []) 50).1 ∧
    (fourSymbols.ksymLookup (fourSymbols.prevIndex [50#32]) 50).1 = some 3 ∧
    ¬ fourSymbols.IsLookup 50 (fourSymbols.ksymLookup (fourSymbols.prevIndex [50#32]) 50).1 := by
  have hagain : (fourSymbols.ksymLookup (fourSymbols.prevIndex [50#32]) 50).1 = some 3 := by decide
  refine ⟨?_, hagain, ?_⟩
  · exact Ksyms.isLookup_some (by decide) (by decide) fun _ => by decide
  · rintro ⟨_, hle, _⟩
    exact absurd hle (by decide)

end F9
