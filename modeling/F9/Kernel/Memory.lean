import F9.Kernel.Mpu

/-!
# Address spaces and mapping (`memory.c`)

`as_create`, `as_destroy`, `as_map_user` and the "most complicated part of
the mapping subsystem", `map_area`. The body of `map_area` is cut into named
stages: finding the first and last fpage of the range, the two splits with
the search for an invalidated `last` between them, and the mapping loop.
-/

namespace F9

/-! ## Address spaces -/

/-- `as_create`. The table being full is not checked. -/
def asCreate (s : Kernel) (asSpaceid : Word) : Except Fault (AsRef × Kernel) :=
  match s.allocAs with
  | none => .error .nullDeref
  | some (as, s) =>
    .ok (as, s.setAs as fun a =>
      { a with asSpaceid := asSpaceid, first := none, shared := 0 })

/-- The loop of `as_destroy`. The link is read after the page is freed. -/
def asDestroyLoop (as : AsRef) : Nat → Kernel → Option FpRef → Except Fault Kernel
  | 0, _, _ => .error .hang
  | _ + 1, s, none => .ok s
  | n + 1, s, some fp => do
    let s ← if (s.fp fp).hasFlag FPAGE_CLONE then do
        let (_, s) ← unmapFpage s as fp
        pure s
      else pure (s.freeFp fp)
    asDestroyLoop as n s (s.fp fp).asNext

def asDestroy (s : Kernel) (as : AsRef) : Except Fault Kernel := do
  if 0 < (s.as as).shared then
    return s.setAs as fun a => { a with shared := a.shared - 1 }
  else
    let s ← asDestroyLoop as s.walkBound s (s.as as).first
    return s.freeAs as

/-- One pass of the loop of `as_map_user`. -/
def mapUserPool (mm : Memmap) (as : AsRef) (s : Kernel) (mp : Mempool) :
    Except Fault Kernel := do
  match mp.tag with
  -- Map user text, data and hardware device memory
  | .userData | .userText | .devices =>
    let (_, s) ← assignFpages mm s (some as) mp.start (mp.stop - mp.start)
    return s
  | _ => return s

/-- `as_map_user`: assign user text, user data and the devices. -/
def asMapUser (mm : Memmap) (s : Kernel) (as : AsRef) : Except Fault Kernel :=
  mm.foldlM (mapUserPool mm as) s

/-! ## `map_area` -/

/-- The search for the first and the last fpage. `none` is the early return
when the pages are not sequential. -/
def mapAreaSearch (s : Kernel) (base stop : Word) :
    Nat → Option FpRef → Option FpRef → Word →
    Except Fault (Option (Option FpRef × Option FpRef))
  | 0, _, _, _ => .error .hang
  | _ + 1, none, first, _ => .ok (some (first, none))
  | n + 1, some fp, first, probe =>
    let first := if first.isNone && addrInFpage base (s.fp fp) false then some fp else first
    if addrInFpage stop (s.fp fp) true then .ok (some (first, some fp))
    else if first.isSome then
      -- Check whether the addresses in the fpage list are sequential
      if addrInFpage probe (s.fp fp) true then
        mapAreaSearch s base stop n (s.fp fp).asNext first (probe + (s.fp fp).size)
      else .ok none
    else mapAreaSearch s base stop n (s.fp fp).asNext first probe

/-- The outcome of the first stage: `map_area` returns at once, or goes on
with the two pointers `first` and `last`. -/
inductive MapSpan
  | ret (r : Int)
  | span (first last : Option FpRef)
  deriving DecidableEq, Repr

/-- First stage of `map_area`. For the privileged thread the fpages are
created, otherwise they are looked up. -/
def mapAreaSpan (mm : Memmap) (s : Kernel) (src dst : AsRef) (base size : Word)
    (isPriviliged : Bool) : Except Fault (MapSpan × Kernel) := do
  if isPriviliged then
    let (_, first, last, s) ← assignFpagesExt mm s none (some src) base size none none
    -- Maps to itself, ignore other actions
    if src = dst then return (.ret 0, s) else return (.span first last, s)
  else if src = dst then return (.ret 0, s)
  else
    match ← mapAreaSearch s base (base + size) s.walkBound (s.as src).first none base with
    | none => return (.ret (-1), s)
    | some (first, last) => return (.span first last, s)

/-- The search for `last` from `first` on, after the split of `first`. -/
def lastSearch (s : Kernel) (stop : Word) : Nat → Option FpRef → Except Fault (Option FpRef)
  | 0, _ => .error .hang
  | _ + 1, none => .ok none
  | n + 1, some fp =>
    if addrInFpage stop (s.fp fp) true then .ok (some fp)
    else lastSearch s stop n (s.fp fp).asNext

/-- If first and last were the same page, the first split has invalidated
`last`, and it is searched again. A failing search leaves `last` as it was. -/
def mapAreaLast (s : Kernel) (stop : Word) (lastInvalid : Bool) (first : Option FpRef)
    (last : FpRef) : Except Fault FpRef := do
  if lastInvalid then
    match ← lastSearch s stop s.walkBound first with
    | some fp => return fp
    | none => return last
  else return last

/-- The mapping loop. -/
def mapChain (dst : AsRef) (action : MapAction) (last : FpRef) :
    Nat → Kernel → Option FpRef → Except Fault Kernel
  | 0, _, _ => .error .hang
  | n + 1, s, fp =>
    if fp = some last then mapFpage s dst fp action
    else do
      let s ← mapFpage s dst fp action
      let r ← deref fp
      mapChain dst action last n s (s.fp r).asNext

def mapArea (mm : Memmap) (s : Kernel) (src dst : AsRef) (base size : Word)
    (action : MapAction) (isPriviliged : Bool) : Except Fault (Int × Kernel) := do
  let (span, s) ← mapAreaSpan mm s src dst base size isPriviliged
  match span with
  | .ret r => return (r, s)
  | .span (some first0) (some last0) =>
    let stop := base + size
    let (first, s) ← splitFpage mm s (some src) first0 base true
    let last1 ← mapAreaLast s stop (first0 == last0) first last0
    let (last, s) ← splitFpage mm s (some src) last1 stop false
    match first, last with
    | some first, some last =>
      let s ← mapChain dst action last s.walkBound s (some first)
      return (0, s)
    -- Splitting not supported for mapped pages
    | _, _ => return (-1, s)
  -- Not in address space or error
  | .span _ _ => return (-1, s)

/-! The calls `map_area` makes, for statements about their arguments. -/

/-- The `map_fpage` calls of the mapping loop: the state and the fpage
argument of each. -/
def mapChainCalls (dst : AsRef) (action : MapAction) (last : FpRef) :
    Nat → Kernel → Option FpRef → List (Kernel × Option FpRef)
  | 0, _, _ => []
  | n + 1, s, fp =>
    (s, fp) ::
      if fp = some last then []
      else match mapFpage s dst fp action, fp with
      | .ok s, some r => mapChainCalls dst action last n s (s.fp r).asNext
      | _, _ => []

/-- The calls of `split_fpage` and `map_fpage` that `mapArea` makes, in
order: the state at the call and the fpage that is passed. -/
def mapAreaCalls (mm : Memmap) (s : Kernel) (src dst : AsRef) (base size : Word)
    (action : MapAction) (isPriviliged : Bool) : List (Kernel × Option FpRef) :=
  match mapAreaSpan mm s src dst base size isPriviliged with
  | .ok (.span (some first0) (some last0), s) =>
    let stop := base + size
    (s, some first0) ::
      match splitFpage mm s (some src) first0 base true with
      | .error _ => []
      | .ok (first, s) =>
        match mapAreaLast s stop (first0 == last0) first last0 with
        | .error _ => []
        | .ok last1 =>
          (s, some last1) ::
            match splitFpage mm s (some src) last1 stop false with
            | .ok (some last, s) =>
              match first with
              | some first => mapChainCalls dst action last s.walkBound s (some first)
              | none => []
            | _ => []
  | _ => []

end F9
