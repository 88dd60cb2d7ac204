import F9.Kernel.State

/-!
# Kernel symbols (`ksym.c`, `lib/bsearch.c`)

`ksym_lookup` finds the symbol that an address belongs to: a binary search, with a comparison that
takes all addresses of a symbol for equal, from the symbol found last or from the first one.
-/

namespace F9

/-- The addresses of the symbols, in increasing order. -/
structure Ksyms where
  count : Nat
  addr : Nat → Nat
  positive : 1 ≤ count
  increasing : ∀ i j, i < j → j < count → addr i < addr j
  below : ∀ i, i < count → addr i < 2 ^ 31

/-- `bsearch` in the `lim` entries from `base` on; `none` is NULL. -/
def bsearch (compar : Nat → Int) : Nat → Nat → Nat → Option Nat
  | 0, _, _ => none
  | n + 1, base, lim =>
    if lim = 0 then none
    else
      let p := base + lim / 2
      if compar p = 0 then some p
      -- move right, or else left
      else if 0 < compar p then bsearch compar n (p + 1) ((lim - 1) / 2)
      else bsearch compar n base (lim / 2)

namespace Ksyms

variable (t : Ksyms)

/-- `cmp_key`; the last symbol is equal to every address. The difference is an `int`. -/
def cmpKey (addr sym : Nat) : Int :=
  if sym = t.count - 1 then 0
  else if t.addr sym ≤ addr ∧ addr < t.addr (sym + 1) then 0
  else (addr - t.addr sym : Int).bmod (2 ^ 32)

/-- `ksym_lookup` and the new `prev_index`; `none` is -1. -/
def ksymLookup (prevIndex addr : Nat) : Option Nat × Nat :=
  let found :=
    if t.addr prevIndex < addr then
      bsearch (t.cmpKey addr) t.count prevIndex (t.count - prevIndex)
    else bsearch (t.cmpKey addr) t.count 0 t.count
  (found, found.getD prevIndex)

/-- `prev_index` after a sequence of calls. -/
def prevIndex (addrs : List Word) : Nat :=
  addrs.foldl (fun prev addr => (t.ksymLookup prev addr.toNat).2) 0

end Ksyms

end F9
