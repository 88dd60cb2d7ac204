import Mathlib.Data.List.Basic
import Mathlib.Order.Nat

/-!
# Sweeping a request over a list of intervals

A request `[b, e)` is carried along a list of intervals. While the cursor is before `e`, an
interval that begins behind the cursor leaves a gap, which is filled by a chain of new intervals;
the cursor goes on at the end of the interval. An interval that the cursor lies in is held, and
the cursor goes on at its end; any other interval is passed. `Swept` is the state of such a sweep:
the gaps it met, the list with the gaps filled, and the first and the last interval it took for
the request.

The end `stop x` at which the cursor goes on need not be the end `hi x` of the interval (a machine
word may have gone round). Where it is (`Straight`), the cursor only moves up
(`Swept.le_cursor`), the request is filled up to it (`Swept.covered`), and a list in some relation
stays in it (`Swept.pairwise`) if the chains fit.
-/

namespace Sweep

variable {α : Type}

/-- Where a sweep stands. -/
structure State (α : Type) where
  passed : List α
  cursor : ℕ
  gaps : List (ℕ × ℕ)
  out : List α
  first : Option α
  last : Option α

/-- The states a sweep of `[b, e)` goes through. `P b' e' c` says that the chain `c` is one for
the gap `[b', e')`. -/
inductive Swept (lo stop : α → ℕ) (P : ℕ → ℕ → List α → Prop) (b e : ℕ) : State α → Prop
  | start : Swept lo stop P b e ⟨[], b, [], [], none, none⟩
  | gap {w : State α} {x : α} {c : List α} : Swept lo stop P b e w → w.cursor < e →
      w.cursor < lo x → P w.cursor (min e (lo x)) c → c ≠ [] →
      Swept lo stop P b e ⟨w.passed ++ [x], stop x, w.gaps ++ [(w.cursor, min e (lo x))],
        w.out ++ c ++ [x], w.first.or c.head?, c.getLast?⟩
  | held {w : State α} {x : α} : Swept lo stop P b e w → w.cursor < e → lo x ≤ w.cursor →
      w.cursor < stop x →
      Swept lo stop P b e ⟨w.passed ++ [x], stop x, w.gaps, w.out ++ [x],
        w.first.or (some x), some x⟩
  | past {w : State α} {x : α} : Swept lo stop P b e w → w.cursor < e → lo x ≤ w.cursor →
      stop x ≤ w.cursor →
      Swept lo stop P b e ⟨w.passed ++ [x], w.cursor, w.gaps, w.out ++ [x], w.first, w.last⟩

section

variable (lo stop : α → ℕ) (e : ℕ)

/-- The gaps a sweep meets, from the intervals alone. -/
def gaps : ℕ → List α → List (ℕ × ℕ)
  | b, [] => if b < e then [(b, e)] else []
  | b, x :: l =>
    if b < e then
      if b < lo x then (b, min e (lo x)) :: gaps (stop x) l
      else if b < stop x then gaps (stop x) l
      else gaps b l
    else []

theorem gaps_of_le {b : ℕ} (h : e ≤ b) (l : List α) : gaps lo stop e b l = [] := by
  cases l <;> exact if_neg (by omega)

end

namespace Swept

variable {lo stop lo' stop' : α → ℕ} {P P' : ℕ → ℕ → List α → Prop} {b e : ℕ} {w : State α} {y : α}

section

variable (h : Swept lo stop P b e w)
include h

/-- A sweep reads the intervals it has passed and the chains it has put in. -/
theorem mono (hpage : ∀ x ∈ w.passed, lo' x = lo x ∧ stop' x = stop x)
    (hchain : ∀ b' e' c, (∀ x ∈ c, x ∈ w.out) → P b' e' c → P' b' e' c) :
    Swept lo' stop' P' b e w := by
  induction h with
  | start => exact .start
  | @gap w x c _ h1 h2 h3 h4 ih =>
    obtain ⟨hlo, hstop⟩ := hpage x (by simp)
    rw [← hlo] at h2 h3 ⊢
    rw [← hstop]
    refine .gap (ih (fun y hy => hpage y (by simp [hy])) fun b' e' d hd => ?_) h1 h2
      (hchain _ _ c (fun y hy => by simp [hy]) h3) h4
    exact hchain b' e' d fun y hy => by simp [hd y hy]
  | @held w x _ h1 h2 h3 ih =>
    obtain ⟨hlo, hstop⟩ := hpage x (by simp)
    rw [← hlo] at h2
    rw [← hstop] at h3 ⊢
    refine .held (ih (fun y hy => hpage y (by simp [hy])) fun b' e' d hd => ?_) h1 h2 h3
    exact hchain b' e' d fun y hy => by simp [hd y hy]
  | @past w x _ h1 h2 h3 ih =>
    obtain ⟨hlo, hstop⟩ := hpage x (by simp)
    rw [← hlo] at h2
    rw [← hstop] at h3
    refine .past (ih (fun y hy => hpage y (by simp [hy])) fun b' e' d hd => ?_) h1 h2 h3
    exact hchain b' e' d fun y hy => by simp [hd y hy]

theorem idle (hle : e ≤ b) : w = ⟨[], b, [], [], none, none⟩ := by
  induction h with
  | start => rfl
  | gap _ h1 _ _ _ ih | held _ h1 _ _ ih | past _ h1 _ _ ih =>
    rw [ih] at h1
    exact absurd h1 (Nat.not_lt.mpr hle)

/-! ## Intervals and chains -/

theorem passed_mem : ∀ x ∈ w.passed, x ∈ w.out := by
  induction h with
  | start => simp
  | gap _ _ _ _ _ ih =>
    intro x hx
    rcases List.mem_append.mp hx with hx | hx
    · simp [ih x hx]
    · simp [List.mem_singleton.mp hx]
  | held _ _ _ _ ih | past _ _ _ _ ih =>
    intro x hx
    rcases List.mem_append.mp hx with hx | hx
    · simp [ih x hx]
    · simp [List.mem_singleton.mp hx]

/-- What is on the list was there before or belongs to the chain of a gap. -/
theorem mem_out : ∀ x ∈ w.out, x ∈ w.passed ∨ ∃ q ∈ w.gaps, ∃ c, P q.1 q.2 c ∧ x ∈ c := by
  induction h with
  | start => simp
  | @gap w y c _ _ _ h3 _ ih =>
    intro x hx
    rw [List.mem_append, List.mem_append, List.mem_singleton] at hx
    rcases hx with (hx | hx) | rfl
    · rcases ih x hx with hx | ⟨q, hq, hc⟩
      · exact .inl (by simp [hx])
      · exact .inr ⟨q, by simp [hq], hc⟩
    · exact .inr ⟨(w.cursor, min e (lo y)), by simp, c, h3, hx⟩
    · exact .inl (by simp)
  | held _ _ _ _ ih | past _ _ _ _ ih =>
    intro x hx
    rcases List.mem_append.mp hx with hx | hx
    · rcases ih x hx with hx | h
      · exact .inl (by simp [hx])
      · exact .inr h
    · exact .inl (by simp [List.mem_singleton.mp hx])

theorem chain_of_gap : ∀ q ∈ w.gaps, ∃ c, P q.1 q.2 c ∧ c ≠ [] ∧ ∀ x ∈ c, x ∈ w.out := by
  induction h with
  | start => simp
  | @gap w y c _ _ _ h3 h4 ih =>
    intro q hq
    rcases List.mem_append.mp hq with hq | hq
    · obtain ⟨d, hd, hne, hmem⟩ := ih q hq
      exact ⟨d, hd, hne, fun x hx => by simp [hmem x hx]⟩
    · obtain rfl := List.mem_singleton.mp hq
      exact ⟨c, h3, h4, fun x hx => by simp [hx]⟩
  | held _ _ _ _ ih | past _ _ _ _ ih =>
    intro q hq
    obtain ⟨d, hd, hne, hmem⟩ := ih q hq
    exact ⟨d, hd, hne, fun x hx => by simp [hmem x hx]⟩

theorem gap_lt : ∀ q ∈ w.gaps, q.1 < q.2 ∧ q.2 ≤ e := by
  induction h with
  | start => simp
  | gap _ h1 h2 _ _ ih =>
    intro q hq
    rcases List.mem_append.mp hq with hq | hq
    · exact ih q hq
    · obtain rfl := List.mem_singleton.mp hq
      exact ⟨lt_min h1 h2, Nat.min_le_left _ _⟩
  | held _ _ _ _ ih | past _ _ _ _ ih => exact ih

/-- The gaps are those of the intervals alone. -/
theorem gaps_eq (r : List α) :
    gaps lo stop e b (w.passed ++ r) = w.gaps ++ gaps lo stop e w.cursor r := by
  induction h generalizing r with
  | start => rfl
  | gap _ h1 h2 _ _ ih =>
    rw [List.append_assoc, ih, List.append_assoc]
    simp only [List.cons_append, List.nil_append, gaps, if_pos h1, if_pos h2]
  | held _ h1 h2 h3 ih =>
    rw [List.append_assoc, ih]
    simp only [List.cons_append, List.nil_append, gaps, if_pos h1, if_neg (Nat.not_lt.mpr h2),
      if_pos h3]
  | past _ h1 h2 h3 ih =>
    rw [List.append_assoc, ih]
    simp only [List.cons_append, List.nil_append, gaps, if_pos h1, if_neg (Nat.not_lt.mpr h2),
      if_neg (Nat.not_lt.mpr h3)]

/-- The cursor is where the request begins or where an interval stops. -/
theorem cursor_stop : w.cursor = b ∨ ∃ x ∈ w.passed, w.cursor = stop x := by
  induction h with
  | start => exact .inl rfl
  | gap | held => exact .inr ⟨_, by simp, rfl⟩
  | past _ _ _ _ ih =>
    rcases ih with h | ⟨x, hx, h⟩
    · exact .inl h
    · exact .inr ⟨x, by simp [hx], h⟩

theorem eq_start (hp : w.passed = []) : w = ⟨[], b, [], [], none, none⟩ := by
  cases h with
  | start => rfl
  | gap | held | past => simp at hp

end

theorem last_step {p : List α} {x : α} (h : Swept lo stop P b e w) (hp : w.passed = p ++ [x]) :
    ∃ v, Swept lo stop P b e v ∧ v.passed = p ∧ v.cursor < e ∧
      ((v.cursor < lo x ∧ ∃ c, P v.cursor (min e (lo x)) c ∧ c ≠ [] ∧
          w = ⟨p ++ [x], stop x, v.gaps ++ [(v.cursor, min e (lo x))], v.out ++ c ++ [x],
            v.first.or c.head?, c.getLast?⟩) ∨
        (lo x ≤ v.cursor ∧ v.cursor < stop x ∧
          w = ⟨p ++ [x], stop x, v.gaps, v.out ++ [x], v.first.or (some x), some x⟩) ∨
        (lo x ≤ v.cursor ∧ stop x ≤ v.cursor ∧
          w = ⟨p ++ [x], v.cursor, v.gaps, v.out ++ [x], v.first, v.last⟩)) := by
  cases h with
  | start => simp at hp
  | @gap v y c hv h1 h2 h3 h4 =>
    obtain ⟨rfl, hy⟩ := List.append_inj' hp rfl
    obtain rfl := List.singleton_inj.mp hy
    exact ⟨v, hv, rfl, h1, .inl ⟨h2, c, h3, h4, rfl⟩⟩
  | @held v y hv h1 h2 h3 =>
    obtain ⟨rfl, hy⟩ := List.append_inj' hp rfl
    obtain rfl := List.singleton_inj.mp hy
    exact ⟨v, hv, rfl, h1, .inr (.inl ⟨h2, h3, rfl⟩)⟩
  | @past v y hv h1 h2 h3 =>
    obtain ⟨rfl, hy⟩ := List.append_inj' hp rfl
    obtain rfl := List.singleton_inj.mp hy
    exact ⟨v, hv, rfl, h1, .inr (.inr ⟨h2, h3, rfl⟩)⟩

/-! ## The first interval -/

/-- As long as there is no first interval, the sweep has only passed intervals. -/
theorem first_none (h : Swept lo stop P b e w) :
    w.first = none → w.cursor = b ∧ w.gaps = [] ∧ ∀ x ∈ w.passed, lo x ≤ b ∧ stop x ≤ b := by
  induction h with
  | start => simp
  | gap _ _ _ _ h4 _ => simp [h4]
  | held => simp
  | past _ _ h2 h3 ih =>
    intro hf
    obtain ⟨hcur, hgaps, hall⟩ := ih hf
    rw [hcur] at h2 h3
    refine ⟨hcur, hgaps, fun x hx => ?_⟩
    rcases List.mem_append.mp hx with hx | hx
    · exact hall x hx
    · rw [List.mem_singleton.mp hx]
      exact ⟨h2, h3⟩

/-- The first interval holds `b`, or heads the chain for the gap at `b`. -/
theorem first_some (h : Swept lo stop P b e w) :
    w.first = some y → (y ∈ w.passed ∧ lo y ≤ b ∧ b < stop y) ∨
      (y ∈ w.out ∧ ∃ q ∈ w.gaps, q.1 = b ∧ ∃ c, P q.1 q.2 c ∧ c.head? = some y) := by
  induction h with
  | start => simp
  | @gap w x c hw _ h2 h3 _ ih =>
    intro hy
    cases hf : w.first with
    | none =>
      rw [hf] at hy
      obtain ⟨hcur, _⟩ := hw.first_none hf
      have hyc : y ∈ c := List.mem_of_mem_head? hy
      exact .inr ⟨by simp [hyc], (w.cursor, min e (lo x)), by simp, hcur, c, h3, hy⟩
    | some z =>
      rw [hf] at hy
      rcases ih (hf.trans hy) with ⟨h1, h2⟩ | ⟨hout, q, hq, h⟩
      · exact .inl ⟨by simp [h1], h2⟩
      · exact .inr ⟨by simp [hout], q, by simp [hq], h⟩
  | @held w x hw _ h2 h3 ih =>
    intro hy
    cases hf : w.first with
    | none =>
      rw [hf] at hy
      injection hy with hy
      subst hy
      obtain ⟨hcur, _⟩ := hw.first_none hf
      rw [hcur] at h2 h3
      exact .inl ⟨by simp, h2, h3⟩
    | some z =>
      rw [hf] at hy
      rcases ih (hf.trans hy) with ⟨h1, h2⟩ | ⟨hout, h⟩
      · exact .inl ⟨by simp [h1], h2⟩
      · exact .inr ⟨by simp [hout], h⟩
  | past _ _ _ _ ih =>
    intro hy
    rcases ih hy with ⟨h1, h2⟩ | ⟨hout, h⟩
    · exact .inl ⟨by simp [h1], h2⟩
    · exact .inr ⟨by simp [hout], h⟩

/-- The last interval is the one the cursor stands behind, or belongs to the chain of a gap. -/
theorem last_some (h : Swept lo stop P b e w) :
    w.last = some y → (y ∈ w.passed ∧ w.cursor = stop y) ∨
      (y ∈ w.out ∧ ∃ q ∈ w.gaps, ∃ c, P q.1 q.2 c ∧ y ∈ c) := by
  induction h with
  | start => simp
  | @gap w x c _ _ _ h3 _ _ =>
    intro hy
    have hyc : y ∈ c := List.mem_of_mem_getLast? hy
    exact .inr ⟨by simp [hyc], (w.cursor, min e (lo x)), by simp, c, h3, hyc⟩
  | held =>
    intro hy
    injection hy with hy
    subst hy
    exact .inl ⟨by simp, rfl⟩
  | past _ _ _ _ ih =>
    intro hy
    rcases ih hy with ⟨h1, h2⟩ | ⟨hout, h⟩
    · exact .inl ⟨by simp [h1], h2⟩
    · exact .inr ⟨by simp [hout], h⟩

end Swept

/-! ## Intervals that end where the cursor goes on -/

/-- The intervals are not empty, and the cursor goes on at their ends. -/
def Straight (lo stop hi : α → ℕ) (l : List α) : Prop :=
  ∀ x ∈ l, stop x = hi x ∧ lo x < hi x

theorem Straight.init {lo stop hi : α → ℕ} {l : List α} {x : α}
    (h : Straight lo stop hi (l ++ [x])) :
    Straight lo stop hi l ∧ stop x = hi x ∧ lo x < hi x :=
  ⟨fun y hy => h y (by simp [hy]), h x (by simp)⟩

namespace Swept

variable {lo stop hi : α → ℕ} {P : ℕ → ℕ → List α → Prop} {b e n : ℕ} {w : State α}

section

variable (h : Swept lo stop P b e w)
include h

theorem le_cursor : Straight lo stop hi w.passed → b ≤ w.cursor := by
  induction h with
  | start => exact fun _ => Nat.le_refl _
  | gap _ _ h2 _ _ ih =>
    intro hs
    obtain ⟨hs, hx, hlt⟩ := hs.init
    have := ih hs
    dsimp only
    omega
  | held _ _ _ h3 ih =>
    intro hs
    have := ih hs.init.1
    dsimp only
    omega
  | past _ _ _ _ ih => exact fun hs => ih hs.init.1

theorem passed_le :
    Straight lo stop hi w.passed → w.cursor < e → ∀ x ∈ w.passed, hi x ≤ w.cursor := by
  induction h with
  | start => simp
  | gap _ h1 h2 _ _ ih =>
    intro hs _ x hx
    obtain ⟨hs, hstop, hlt⟩ := hs.init
    rcases List.mem_append.mp hx with hx | hx
    · have := ih hs h1 x hx
      dsimp only
      omega
    · rw [List.mem_singleton.mp hx]
      exact hstop.ge
  | held _ h1 _ h3 ih =>
    intro hs _ x hx
    obtain ⟨hs, hstop, _⟩ := hs.init
    rcases List.mem_append.mp hx with hx | hx
    · have := ih hs h1 x hx
      dsimp only
      omega
    · rw [List.mem_singleton.mp hx]
      exact hstop.ge
  | past _ h1 _ h3 ih =>
    intro hs _ x hx
    obtain ⟨hs, hstop, _⟩ := hs.init
    rcases List.mem_append.mp hx with hx | hx
    · exact ih hs h1 x hx
    · rw [List.mem_singleton.mp hx, ← hstop]
      exact h3

theorem cursor_eq :
    Straight lo stop hi w.passed → w.cursor = b ∨ ∃ x ∈ w.passed, w.cursor = hi x := by
  intro hs
  rcases h.cursor_stop with h | ⟨x, hx, h⟩
  · exact .inl h
  · exact .inr ⟨x, hx, h.trans (hs x hx).1⟩

/-- Gaps begin at `b` or at the end of an interval, and lie before an interval. -/
theorem gap_bounds :
    Straight lo stop hi w.passed → ∀ q ∈ w.gaps, b ≤ q.1 ∧
      (q.1 = b ∨ ∃ x ∈ w.passed, q.1 = hi x) ∧ ∃ x ∈ w.passed, q.2 ≤ lo x := by
  induction h with
  | start => simp
  | @gap w x c hw h1 h2 _ _ ih =>
    intro hs q hq
    obtain ⟨hs, _⟩ := hs.init
    rcases List.mem_append.mp hq with hq | hq
    · obtain ⟨hb, hstart, y, hy, hle⟩ := ih hs q hq
      refine ⟨hb, ?_, y, by simp [hy], hle⟩
      rcases hstart with h | ⟨z, hz, h⟩
      · exact .inl h
      · exact .inr ⟨z, by simp [hz], h⟩
    · obtain rfl := List.mem_singleton.mp hq
      refine ⟨hw.le_cursor hs, ?_, x, by simp, Nat.min_le_right _ _⟩
      rcases hw.cursor_eq hs with h | ⟨z, hz, h⟩
      · exact .inl h
      · exact .inr ⟨z, by simp [hz], h⟩
  | held _ _ _ _ ih | past _ _ _ _ ih =>
    intro hs q hq
    obtain ⟨hb, hstart, y, hy, hle⟩ := ih hs.init.1 q hq
    refine ⟨hb, ?_, y, by simp [hy], hle⟩
    rcases hstart with h | ⟨z, hz, h⟩
    · exact .inl h
    · exact .inr ⟨z, by simp [hz], h⟩

/-- The request is filled up to the cursor. -/
theorem covered (hb : b ≤ n) (he : n < e) :
    Straight lo stop hi w.passed → n < w.cursor →
      (∃ x ∈ w.passed, lo x ≤ n ∧ n < hi x) ∨ ∃ q ∈ w.gaps, q.1 ≤ n ∧ n < q.2 := by
  induction h with
  | start => exact fun _ hn => absurd hb (Nat.not_le.mpr hn)
  | @gap w x c _ _ h2 _ _ ih =>
    intro hs hn
    obtain ⟨hs, hstop, _⟩ := hs.init
    by_cases hold : n < w.cursor
    · rcases ih hs hold with ⟨y, hy, h⟩ | ⟨q, hq, h⟩
      · exact .inl ⟨y, by simp [hy], h⟩
      · exact .inr ⟨q, by simp [hq], h⟩
    · by_cases hlo : n < lo x
      · exact .inr ⟨(w.cursor, min e (lo x)), by simp, by dsimp only; omega, by dsimp only; omega⟩
      · exact .inl ⟨x, by simp, by omega, hstop ▸ hn⟩
  | @held w x _ _ h2 _ ih =>
    intro hs hn
    obtain ⟨hs, hstop, _⟩ := hs.init
    by_cases hold : n < w.cursor
    · rcases ih hs hold with ⟨y, hy, h⟩ | h
      · exact .inl ⟨y, by simp [hy], h⟩
      · exact .inr h
    · exact .inl ⟨x, by simp, by omega, hstop ▸ hn⟩
  | past _ _ _ _ ih =>
    intro hs hn
    rcases ih hs.init.1 hn with ⟨y, hy, h⟩ | h
    · exact .inl ⟨y, by simp [hy], h⟩
    · exact .inr h

end

/-! ## Intervals in order -/

/-- Each interval ends before the next ones begin. -/
def InOrder (lo hi : α → ℕ) (l : List α) : Prop := l.Pairwise fun x y => hi x ≤ lo y

/-- The gaps lie before the intervals ahead. -/
theorem gap_ahead {rest : List α} (h : Swept lo stop P b e w) (hs : Straight lo stop hi w.passed)
    (hord : InOrder lo hi (w.passed ++ rest)) : ∀ q ∈ w.gaps, ∀ x ∈ rest, q.2 ≤ lo x := by
  intro q hq x hx
  obtain ⟨_, _, y, hy, hle⟩ := h.gap_bounds hs q hq
  have hyx := (List.pairwise_append.mp hord).2.2 y hy x hx
  have := (hs y hy).2
  omega

theorem gap_clear (h : Swept lo stop P b e w) :
    Straight lo stop hi w.passed → InOrder lo hi w.passed →
      ∀ q ∈ w.gaps, ∀ y ∈ w.passed, hi y ≤ q.1 ∨ q.2 ≤ lo y := by
  induction h with
  | start => simp
  | @gap w x c hw h1 h2 _ _ ih =>
    intro hs hord q hq y hy
    have hs' := hs.init.1
    have hord' := (List.pairwise_append.mp hord).1
    rcases List.mem_append.mp hq with hq | hq
    · rcases List.mem_append.mp hy with hy | hy
      · exact ih hs' hord' q hq y hy
      · exact .inr (hw.gap_ahead hs' hord q hq y hy)
    · obtain rfl := List.mem_singleton.mp hq
      rcases List.mem_append.mp hy with hy | hy
      · exact .inl (hw.passed_le hs' h1 y hy)
      · rw [List.mem_singleton.mp hy]
        exact .inr (Nat.min_le_right _ _)
  | @held w x hw _ _ _ ih | @past w x hw _ _ _ ih =>
    intro hs hord q hq y hy
    have hs' := hs.init.1
    rcases List.mem_append.mp hy with hy | hy
    · exact ih hs' (List.pairwise_append.mp hord).1 q hq y hy
    · exact .inr (hw.gap_ahead hs' hord q hq y hy)

/-- The chains fit a relation `R` on the list, with the intervals `rest` ahead: a chain follows
what ends before its gap and comes before what begins behind it, and an interval behind the gap
ends behind the chain. -/
structure Fit (lo hi : α → ℕ) (P : ℕ → ℕ → List α → Prop) (R : α → α → Prop) (w : State α)
    (rest : List α) : Prop where
  chain : ∀ q ∈ w.gaps, ∀ c, P q.1 q.2 c → c.Pairwise R
  after : ∀ q ∈ w.gaps, ∀ c, P q.1 q.2 c → ∀ x ∈ c, ∀ y, hi y ≤ q.1 → R y x
  before : ∀ q ∈ w.gaps, ∀ c, P q.1 q.2 c → ∀ x ∈ c, ∀ y ∈ w.passed ++ rest, q.2 ≤ lo y → R x y
  fits : ∀ q ∈ w.gaps, ∀ c, P q.1 q.2 c → ∀ x ∈ c, ∀ y ∈ w.passed, q.2 ≤ lo y → hi x ≤ hi y

variable {R : α → α → Prop} {rest : List α}

/-- What is on the list ends before an interval that was passed does. -/
theorem out_before (h : Swept lo stop P b e w) (hs : Straight lo stop hi w.passed)
    (hfit : Fit lo hi P R w rest) : ∀ x ∈ w.out, ∃ y ∈ w.passed, hi x ≤ hi y := by
  intro x hx
  rcases h.mem_out x hx with hx | ⟨q, hq, c, hc, hx⟩
  · exact ⟨x, hx, Nat.le_refl _⟩
  · obtain ⟨_, _, y, hy, hle⟩ := h.gap_bounds hs q hq
    exact ⟨y, hy, hfit.fits q hq c hc x hx y hy hle⟩

/-- An unfinished sweep is behind all it has put out. -/
theorem out_le (h : Swept lo stop P b e w) (hs : Straight lo stop hi w.passed)
    (hfit : Fit lo hi P R w rest) (hlt : w.cursor < e) : ∀ x ∈ w.out, hi x ≤ w.cursor := by
  intro x hx
  obtain ⟨y, hy, hle⟩ := h.out_before hs hfit x hx
  exact hle.trans (h.passed_le hs hlt y hy)

theorem pairwise (h : Swept lo stop P b e w) : ∀ {rest : List α},
    Straight lo stop hi w.passed → InOrder lo hi (w.passed ++ rest) → Fit lo hi P R w rest →
      (w.passed ++ rest).Pairwise R → (w.out ++ rest).Pairwise R := by
  induction h with
  | start => exact fun _ _ _ hR => hR
  | @gap w x c hw h1 h2 h3 _ ih =>
    intro rest hs hord hfit hR
    have hs' := hs.init.1
    rw [List.append_assoc] at hord hR
    have hfit' : Fit lo hi P R w ([x] ++ rest) :=
      ⟨fun q hq => hfit.chain q (by simp [hq]), fun q hq => hfit.after q (by simp [hq]),
        fun q hq d hd y hy z hz => hfit.before q (by simp [hq]) d hd y hy z (by simpa using hz),
        fun q hq d hd y hy z hz => hfit.fits q (by simp [hq]) d hd y hy z (by simp [hz])⟩
    obtain ⟨hout, hrest, hdis⟩ := List.pairwise_append.mp (ih hs' hord hfit' hR)
    have hq : (w.cursor, min e (lo x)) ∈ w.gaps ++ [(w.cursor, min e (lo x))] := by simp
    rw [List.append_assoc, List.append_assoc]
    refine List.pairwise_append.mpr ⟨hout, List.pairwise_append.mpr
      ⟨hfit.chain _ hq c h3, hrest, fun y hy z hz => ?_⟩, fun y hy z hz => ?_⟩
    · -- the gap lies before `x`, and so before what follows it
      have hmem : z ∈ w.passed ++ [x] ++ rest := by
        rw [List.append_assoc]
        exact List.mem_append_right _ hz
      refine hfit.before _ hq c h3 y hy z hmem ?_
      refine (Nat.min_le_right e (lo x)).trans ?_
      rcases List.mem_cons.mp hz with rfl | hz
      · exact Nat.le_refl _
      · have hxz := (List.pairwise_cons.mp (List.pairwise_append.mp hord).2.1).1 z hz
        exact hs.init.2.2.le.trans hxz
    · rcases List.mem_append.mp hz with hz | hz
      · exact hfit.after _ hq c h3 z hz y (hw.out_le hs' hfit' h1 y hy)
      · exact hdis y hy z hz
  | @held w x _ _ _ _ ih | @past w x _ _ _ _ ih =>
    intro rest hs hord hfit hR
    rw [List.append_assoc] at hord hR ⊢
    refine ih hs.init.1 hord ⟨hfit.chain, hfit.after, fun q hq d hd y hy z hz => ?_,
      fun q hq d hd y hy z hz => hfit.fits q hq d hd y hy z (by simp [hz])⟩ hR
    exact hfit.before q hq d hd y hy z (by simpa using hz)

end Swept

end Sweep
