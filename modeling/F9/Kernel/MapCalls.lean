import F9.Kernel.Ipc
import F9.Lib.Traced

/-!
# The map and grant requests of a message

`do_ipc` once more, with a log of the calls of `map_area` that it makes. What it does is the same.
-/

namespace F9

open Traced

/-- The range and the action of a call of `map_area`. -/
structure MapCall where
  base : Word
  size : Word
  action : MapAction
  deriving DecidableEq, Repr

namespace MapCalls

/-- The loop over the typed words. -/
def copyTyped (mm : Memmap) (fromThr toThr : TcbRef) :
    Nat → Nat → Option Word → Core → Traced MapCall Fault Core
  | 0, _, _, s => pure s
  | n + 1, typedIdx, item, s => do
    let mrData ← lift (ipcReadMr s fromThr typedIdx)
    let s ← lift (ipcWriteMr s toThr typedIdx mrData)
    match item with
    | none => copyTyped mm fromThr toThr n (typedIdx + 1) (some mrData) s
    | some raw =>
      if raw &&& IPC_TI_MAP_GRANT ≠ 0#32 then
        let src ← lift (nonNull (s.tcb fromThr).as)
        let dst ← lift (nonNull (s.tcb toThr).as)
        let base := raw &&& 0xFFFFFFC0#32
        let size := mrData &&& 0xFFFFFFC0#32
        let action := if raw &&& IPC_TI_GRANT ≠ 0#32 then .grant else .map
        tell [⟨base, size, action⟩]
        let (_, mem) ← lift (mapArea mm s.mem src dst base size action
          (threadIspriviliged s fromThr))
        copyTyped mm fromThr toThr n (typedIdx + 1) none { s with mem := mem }
      else copyTyped mm fromThr toThr n (typedIdx + 1) (some raw) s

def doIpc (mm : Memmap) (s : Core) (fromThr toThr : TcbRef) : Traced MapCall Fault Core := do
  let tag ← lift (ipcReadMr s fromThr 0)
  let untypedLast := nUntyped tag + 1
  let typedLast := untypedLast + nTyped tag
  if IPC_MR_COUNT < typedLast then
    let s ← lift (setUserError s fromThr (UE_IPC_MSG_OVERFLOW ||| UE_IPC_PHASE_SEND))
    lift (setUserError s toThr (UE_IPC_MSG_OVERFLOW ||| UE_IPC_PHASE_RECV))
  else
    let s ← lift (ipcWriteMr s toThr 0 tag)
    let s ← lift (copyUntyped fromThr toThr (nUntyped tag) 1 s)
    let s ← copyTyped mm fromThr toThr (nTyped tag) untypedLast none s
    if (s.tcb toThr).ctx.sp = 0#32 ∨ (s.tcb fromThr).ctx.sp = 0#32 then
      let caller ← lift (nonNull s.caller)
      return s.setTcb caller fun tcb => { tcb with state := .runnable }
    else lift (completeIpc s fromThr toThr)

/-! ## Without the log -/

theorem copyTyped_result (mm : Memmap) (f t : TcbRef) (n i : Nat) (item : Option Word) (s : Core) :
    (copyTyped mm f t n i item s).result = F9.copyTyped mm f t n i item s := by
  induction n generalizing i item s with
  | zero => rfl
  | succ n ih =>
    refine result_bind rfl fun data => ?_
    refine result_bind rfl fun s1 => ?_
    cases item with
    | none => exact ih _ _ _
    | some raw =>
      dsimp only
      split
      · refine result_bind rfl fun src => ?_
        refine result_bind rfl fun dst => ?_
        exact result_bind rfl fun mem => ih _ _ _
      · exact ih _ _ _

/-- The logged `do_ipc` is `do_ipc`. -/
theorem doIpc_result (mm : Memmap) (s : Core) (f t : TcbRef) :
    (doIpc mm s f t).result = F9.doIpc mm s f t := by
  refine result_bind rfl fun tag => ?_
  dsimp only
  split
  · exact result_bind rfl fun _ => rfl
  · refine result_bind rfl fun s1 => ?_
    refine result_bind rfl fun s2 => ?_
    refine result_bind (copyTyped_result mm f t _ _ _ _) fun s3 => ?_
    split
    · exact result_bind rfl fun _ => rfl
    · rfl

end MapCalls

end F9
