import F9.Kernel.Ktimer

/-!
# Tickless idle (`ktimer.c`, `systick.c`)

The idle thread stops the ticks until the countdown is nearly over: it programs SysTick once for all
of them, sleeps, and counts afterwards how many have passed. All of the arithmetic is that of
`uint32_t`. SysTick is what `systick_now` reads, and what `init_systick` is called with.
-/

namespace F9

/-- `SYSTICK_MAXRELOAD`. -/
def systickMaxreload : Word := 0x00ffffff#32

/-- `CONFIG_KTIMER_HEARTBEAT` and the two compensations. -/
structure TicklessConfig where
  heartbeat : Word
  compensation : Word
  intCompensation : Word
  positive : 1#32 ≤ heartbeat
  below : heartbeat ≤ systickMaxreload
  compensates : compensation < heartbeat
  intCompensates : intCompensation < heartbeat

namespace Ktimer

variable {α : Type} (cfg : TicklessConfig) (k : Ktimer α)

/-- `KTIMER_MAXTICKS`. -/
def maxticks : Word := systickMaxreload / cfg.heartbeat

/-- The ticks that `ktimer_enter_tickless` means to skip, and the reload value for them. -/
def ticklessPlan (systickNow : Word) : Word × Word :=
  let ticklessDelta :=
    if k.enabled && decide (k.delta ≤ maxticks cfg) then k.delta else maxticks cfg
  -- Minus 1 for current value
  let ticklessDelta := ticklessDelta - 1#32
  (ticklessDelta, cfg.heartbeat * ticklessDelta + (systickNow - cfg.compensation))

/-- `ktimer_enter_tickless`, with the reload values that it passes to `init_systick`. SysTick shows
`systickNow` at first; `wake` is what it shows when another interrupt ends the sleep, `none` if
SysTick itself does. -/
def enterTickless (systickNow : Word) (wake : Option Word) : Ktimer α × List Word :=
  let (ticklessDelta, reload) := ticklessPlan cfg k systickNow
  let reloads := if 2#32 < reload then [reload] else []
  let (ticklessDelta, reloads) :=
    match wake with
    | none => (ticklessDelta, reloads)
    | some systickNow =>
      let ticklessRest := systickNow / cfg.heartbeat
      if 0#32 < ticklessRest then
        -- `reload < 0` is false for every `uint32_t`, so nothing is corrected
        (ticklessDelta - ticklessRest,
          reloads ++ [systickNow % cfg.heartbeat - cfg.intCompensation])
      else (ticklessDelta, reloads)
  ({ k with
    time := k.time + ticklessDelta.toNat
    delta := k.delta - ticklessDelta
    now := k.now + ticklessDelta.toNat }, reloads)

end Ktimer

end F9
