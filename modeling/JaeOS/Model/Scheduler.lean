import JaeOS.Model.Asl

/-!
# `aux.c` and `scheduler.c`

The time accounting on the way into and out of the kernel, and the choice of
the next process.
-/

namespace JaeOS

variable {n : ℕ}

/-- The end of `onHandlerEnter` and `onHandlerExit`: `g_leftTo100` and
`g_lastUpdate` move on, and the timer is set to what comes first, the
pseudo-clock or the end of the slice. -/
def Kernel.updateTimer (k : Kernel n) (currentTime elapsed : Word) : Kernel n :=
  let left := k.gLeftTo100 - elapsed
  let left := if left > schedPseudoClock then 0 else left
  let slice := match k.gCurrentProcess with
    | some p => if left < (k.pcb p).pTimeSlice then left else (k.pcb p).pTimeSlice
    | none => left
  { k with gLeftTo100 := left, gLastUpdate := currentTime, timer := slice }

def onHandlerEnter (currentTime : Word) : K n Unit :=
  modify fun k =>
    let elapsed := currentTime - k.gLastUpdate
    let k := match k.gCurrentProcess with
      | some p => k.setPcb p fun c => { c with
          pGlobalTime := c.pGlobalTime + elapsed
          pUserTime := c.pUserTime + elapsed
          pTimeSlice := c.pTimeSlice - elapsed }
      | none => k
    k.updateTimer currentTime elapsed

/-- `flag` is `true` for 1: the time since the last update is charged to the
current process. -/
def onHandlerExit (currentTime : Word) (flag : Bool) : K n Unit :=
  modify fun k =>
    let elapsed := currentTime - k.gLastUpdate
    let k := match flag, k.gCurrentProcess with
      | true, some p => k.setPcb p fun c => { c with pGlobalTime := c.pGlobalTime + elapsed }
      | _, _ => k
    k.updateTimer currentTime elapsed

/-- `debugBKtwo`: the pid of the process that is about to run, at a fixed word
of memory. -/
def debugBKtwo (M : Machine) (b : Word) : K n Unit := writeWord M 0x00011114 b

def scheduler (M : Machine) : K n Unit := do
  match ← (headProcQ .gReadyQueue : Q n (Option (Fin n))) with
  | some _ => do
    let p ← (removeProcQ .gReadyQueue : Q n (Option (Fin n)))
    modify fun k => { k with gCurrentProcess := p }
    let p ← current
    modify fun k => k.setPcb p fun c => { c with pTimeSlice := schedTimeSlice }
    let tod ← getTODLO M
    onHandlerExit tod false
    debugBKtwo M ((← get).pcb p).pPid
    throw (.ldst ((← get).pcb p).pS)
  | none => do
    let k ← get
    if k.gProcessCount.toNat ≤ 0 ∨ maxProc < k.gProcessCount.toNat then throw .halt
    else if 0 < k.gSoftBlockCount.toNat then do
      -- `setSTATUS` opens the interrupts; the kernel reads nothing back from it
      let tod ← getTODLO M
      onHandlerExit tod false
      throw .wait
    else throw (.panic .deadlock)

end JaeOS
