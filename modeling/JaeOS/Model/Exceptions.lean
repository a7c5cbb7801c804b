import JaeOS.Model.Scheduler

/-!
# `exceptions.c`

The system calls and the handlers of system calls, breakpoints, program traps
and TLB exceptions.
-/

namespace JaeOS

open Function (update)

variable {n : ℕ}

/-! ### Processes -/

def pidSelector : K n Word := do
  modify fun k => { k with absProcessCount := k.absProcessCount + 1 }
  let k ← get
  pure (k.absProcessCount <<< 5 ||| k.gProcessCount)

/-- The `while` loop of `terminateProgeny`; `kill` is the recursive call. -/
def killChildren (kill : Fin n → K n Unit) : ℕ → Fin n → K n Unit
  | 0, _ => throw (.fault .wild)
  | fuel + 1, progeny => do
    if (← get).emptyChild progeny then pure ()
    else
      match ← (removeChild progeny : T n (Option (Fin n))) with
      | none => throw (.fault .wild)
      | some child => do
        kill child
        killChildren kill fuel progeny

/-- The part of `terminateProgeny` after the loop: `progeny` leaves the queue
`p_cursem` says it is on, and its block is free again. -/
def releasePcb (M : Machine) (progeny : Fin n) : K n Unit := do
  (match (← get).pCursem progeny with
   | some d => do
     (if M.isDev (M.semdTable d) then
        modify fun k => { k with gSoftBlockCount := k.gSoftBlockCount - 1 }
      else pure ())
     let _ ← (outBlocked progeny : Q n (Option (Fin n)))
     pure ()
   | none => do
     let _ ← (outProcQ .gReadyQueue progeny : Q n (Option (Fin n)))
     pure ())
  (freePcb progeny : Q n Unit)
  modify fun k => { k with gProcessCount := k.gProcessCount - 1 }

def terminateProgeny (M : Machine) : ℕ → Fin n → K n Unit
  | 0, _ => throw (.fault .wild)
  | fuel + 1, progeny => do
    let _ ← (outChild progeny : T n (Option (Fin n)))
    killChildren (terminateProgeny M fuel) (n + 1) progeny
    releasePcb M progeny

/-- SYS1. `npstate` is the `state_t` at the address in the argument. -/
def createProcess (npstate : ProcState) : K n Unit := do
  let k ← get
  if k.gProcessCount.toNat < maxProc then
    match ← allocPcb with
    | none => throw (.fault .wild)
    | some newPcb => do
      modify fun k => { k with gProcessCount := k.gProcessCount + 1 }
      let pid ← pidSelector
      modify fun k => k.setPcb newPcb fun c => { c with pPid := pid, pS := copyState npstate c.pS }
      let p ← current
      (insertChild p newPcb : T n Unit)
      (insertProcQ .gReadyQueue newPcb : Q n Unit)
      modify fun k => { k with sysbold := { k.sysbold with a1 := (k.pcb newPcb).pPid } }
  else modify fun k => { k with sysbold := { k.sysbold with a1 := -1 } }

def terminateProcess (M : Machine) (pid : Word) : K n Unit := do
  let p ← current
  if pid ≠ 0 then do
    let k ← get
    if k.emptyChild p then pure ()
    else
      match k.childByPid (n + 1) p pid with
      | none => throw (.fault .wild)
      | some none => pure ()
      | some (some child) => terminateProgeny M (n + 1) child
  else do
    terminateProgeny M (n + 1) p
    modify fun k => { k with gCurrentProcess := none }

/-! ### Semaphores -/

/-- The loop of the `V` branch of `semop`.  The result is the final value of
`freeResources`.  (`headBlocked` is called once more at the end of a round; its
result is overwritten by the loop test.) -/
def semopWake (M : Machine) (semaddr : Word) : ℕ → Word → K n Word
  | 0, _ => throw (.fault .wild)
  | fuel + 1, freeResources => do
    match ← (headBlocked semaddr : Q n (Option (Fin n))) with
    | none => pure freeResources
    | some head => do
      let k ← get
      -- the comparison is between an `int` and a `size_t`: both are unsigned
      if k.resRequested head ≤ freeResources then do
        let freeResources := freeResources - k.resRequested head
        modify fun k => { k with resRequested := update k.resRequested head 0 }
        let _ ← (removeBlocked semaddr : Q n (Option (Fin n)))
        (insertProcQ .gReadyQueue head : Q n Unit)
        let k ← get
        match k.pCursem head with
        | none => throw (.fault .wild)
        | some d => do
          (if M.isDev (k.sSemAdd d) then
             modify fun k => { k with gSoftBlockCount := k.gSoftBlockCount - 1 }
           else pure ())
          semopWake M semaddr fuel freeResources
      else pure freeResources

/-- SYS3 with a positive weight. -/
def semopV (M : Machine) (semaddr weight : Word) : K n Unit := do
  let value ← readInt M semaddr
  let freeResources ← semopWake M semaddr (n + 1) (weight + value)
  writeInt M semaddr freeResources

/-- The blocking half of SYS3 with a negative weight. -/
def semopBlock (M : Machine) (semaddr weight : Word) : K n Unit := do
  let p ← current
  let full ← (insertBlocked semaddr p : Q n ℕ)
  if full = 0 then do
    modify fun k => { k with resRequested := update k.resRequested p (-weight) }
    onHandlerExit (← getTODLO M) true
    modify fun k => { k with gCurrentProcess := none }
    if M.isDev semaddr then
      modify fun k => { k with gSoftBlockCount := k.gSoftBlockCount + 1 }
    else pure ()
  else throw (.panic .noSemaphore)

/-- SYS3 with a negative weight. -/
def semopP (M : Machine) (semaddr weight : Word) : K n Unit := do
  let head ← (headBlocked semaddr : Q n (Option (Fin n)))
  let value ← readInt M semaddr
  if head.isSome ∨ (value + weight).toInt < 0 then semopBlock M semaddr weight
  else writeInt M semaddr (value - (-weight))

def semop (M : Machine) (semaddr weight : Word) : K n Unit :=
  if 0 < weight.toInt then semopV M semaddr weight
  else if weight.toInt < 0 then semopP M semaddr weight
  else throw (.panic .zeroWeight)

/-! ### Exception handlers of a process -/

/-- SYS4, SYS5 and SYS6, by exception type. -/
def commonSys (M : Machine) (check : Hdl) (pc sp flags : Word) : K n Unit := do
  let p ← current
  let k ← get
  let area := (k.pcb p).area check
  if area.newArea.pc = 0 then
    let new := { area.newArea with pc := pc, sp := sp }
    let new := { new with
      cp15Control := if flags >>> 31 ≠ 0 then M.cp15EnableVM new.cp15Control
        else M.cp15DisableVM new.cp15Control }
    let new := { new with cpsr := new.cpsr ||| (flags &&& 0xff) }
    let new := { new with
      cp15EntryHi := M.entryHiAsidSet new.cp15EntryHi
        (M.entryHiAsidGet (k.pcb p).pS.cp15EntryHi) }
    modify fun k => k.setPcb p fun c => c.setArea check { area with newArea := new }
  else terminateProcess M 0

def specSysHdl (M : Machine) (pc sp flags : Word) : K n Unit := commonSys M .sbk pc sp flags

def specTLBHdl (M : Machine) (pc sp flags : Word) : K n Unit := commonSys M .tlb pc sp flags

def specPgmTHdl (M : Machine) (pc sp flags : Word) : K n Unit := commonSys M .pgm pc sp flags

/-- SYS7: the old area of a type, by its code. -/
def trapType (excptype : Word) : Option Hdl :=
  if excptype = 0 then some .sbk
  else if excptype = 1 then some .tlb
  else if excptype = 2 then some .pgm
  else none

def exitTrap (excptype retval : Word) : K n Unit :=
  match trapType excptype with
  | none => throw (.panic .badTrap)
  | some h => do
    let p ← current
    modify fun k => k.setPcb p fun c =>
      let area := c.area h
      c.setArea h { area with oldArea := { area.oldArea with a1 := retval } }
    modify fun k => { k with mStateLoaded := some (.oldArea h p) }

/-! ### Time, clock, devices, pid -/

def getCpuTime (M : Machine) (global user : Word) : K n Unit := do
  let p ← current
  writeInt M global ((← get).pcb p).pGlobalTime
  writeInt M user ((← get).pcb p).pUserTime

def waitClock (M : Machine) : K n Unit := do
  semop M M.gPcTimerS (-1)
  modify fun k => { k with gPseudoClockBlk := k.gPseudoClockBlk + 1 }

/-- The semaphore SYS10 blocks its caller on. -/
def ioSem (M : Machine) (int1No dnum : Word) : Word :=
  if int1No = intTerminal then
    let dnumT := (dnum <<< 1) >>> 1
    let semIndex : Word := if dnum >>> 7 ≠ 0 then 5 else 4
    M.devSem semIndex dnumT
  else M.devSem (int1No - devIlStart) dnum

/-- The register SYS10 stores the command in. -/
def ioReg (M : Machine) (int1No dnum : Word) : Word :=
  if int1No = intTerminal then
    let dnumT := (dnum <<< 1) >>> 1
    if dnum >>> 7 ≠ 0 then M.recvCommand int1No dnumT else M.transmCommand int1No dnumT
  else M.command int1No dnum

/-- SYS10: first the semaphore, then the command. -/
def ioDevop (M : Machine) (command int1No dnum : Word) : K n Unit := do
  semop M (ioSem M int1No dnum) (-1)
  writeReg M (ioReg M int1No dnum) command

def getPid : K n Unit := do
  let p ← current
  modify fun k => { k with sysbold := { k.sysbold with a1 := (k.pcb p).pPid } }

/-! ### Handlers -/

def defSys (M : Machine) : K n Unit := do
  let old := (← get).sysbold
  if old.a1 = createProcessNr then createProcess (M.readState (← get).mem old.a2)
  else if old.a1 = terminateProcessNr then terminateProcess M old.a2
  else if old.a1 = semopNr then semop M old.a2 old.a3
  else if old.a1 = specSysHdlNr then specSysHdl M old.a2 old.a3 old.a4
  else if old.a1 = specTLBHdlNr then specTLBHdl M old.a2 old.a3 old.a4
  else if old.a1 = specPgmTHdlNr then specPgmTHdl M old.a2 old.a3 old.a4
  else if old.a1 = exitTrapNr then exitTrap old.a2 old.a3
  else if old.a1 = getCpuTimeNr then getCpuTime M old.a2 old.a3
  else if old.a1 = waitClockNr then waitClock M
  else if old.a1 = ioDevopNr then ioDevop M old.a2 old.a3 old.a4
  else if old.a1 = getPidNr then getPid
  else pure ()

/-- `scheduler()` or `LDST(m_state_loaded)`, the end of three handlers. -/
def leaveHandler (M : Machine) : K n Unit := do
  match (← get).gCurrentProcess with
  | none => scheduler M
  | some _ => ldstStateLoaded

/-- The old area a sub-handler reads: `m_tlbold` or `m_pgmold`. -/
def Kernel.romArea (k : Kernel n) : Hdl → ProcState
  | .sbk => k.sysbold
  | .tlb => k.tlbold
  | .pgm => k.pgmold

/-- The part of `commonSubHandler` between the two time hooks. -/
def passUp (M : Machine) (check : Hdl) : K n Unit := do
  let p ← current
  modify fun k => k.setPcb p fun c => { c with pS := copyState (k.romArea check) c.pS }
  let k ← get
  let area := (k.pcb p).area check
  if area.newArea.pc = 0 then terminateProcess M 0
  else do
    modify fun k => k.setPcb p fun c => c.setArea check
      ⟨copyState (k.romArea check) area.oldArea,
        { area.newArea with a1 := (k.romArea check).cp15Cause }⟩
    modify fun k => { k with mStateLoaded := some (.newArea check p) }

def commonSubHandler (M : Machine) (check : Hdl) : K n Unit := do
  (match (← get).bySysHdl with
   | true => modify fun k => { k with bySysHdl := false }
   | false => do onHandlerEnter (← getTODLO M))
  passUp M check
  onHandlerExit (← getTODLO M) false

def pgmTrapHandler (M : Machine) : K n Unit := do
  commonSubHandler M .pgm
  leaveHandler M

def tlbHandler (M : Machine) : K n Unit := do
  commonSubHandler M .tlb
  leaveHandler M

/-- System calls above 11 and breakpoints. -/
def sysAboveBP (M : Machine) : K n Unit := do
  let p ← current
  let k ← get
  let area := (k.pcb p).sysbp
  if area.newArea.pc = 0 then terminateProcess M 0
  else do
    let old := k.sysbold
    let new := { area.newArea with a1 := old.a1, a2 := old.a2, a3 := old.a3, a4 := old.a4 }
    let tmp := old.cpsr <<< 28
    let new := { new with a1 := (new.a1 &&& 0xFFFFFFF) ||| tmp }
    modify fun k => k.setPcb p fun c => { c with sysbp := ⟨copyState old area.oldArea, new⟩ }
    modify fun k => { k with mStateLoaded := some (.newArea .sbk p) }

/-- A system call between 1 and 11 from user mode: it becomes a program trap. -/
def userModeSys (M : Machine) : K n Unit := do
  modify fun k => { k with pgmold := copyState k.sysbold k.pgmold }
  modify fun k => { k with pgmold := { k.pgmold with
    cp15Cause := M.causeExcCodeSet k.pgmold.cp15Cause M.excReservedInstr } }
  modify fun k => { k with bySysHdl := true }
  onHandlerExit (← getTODLO M) true
  pgmTrapHandler M

/-- The `EXC_SYSCALL` branch of `sysBP_Handler`. -/
def sysCall (M : Machine) : K n Unit := do
  onHandlerEnter (← getTODLO M)
  let old := (← get).sysbold
  (if createProcessNr ≤ old.a1 ∧ old.a1 ≤ getPidNr then
     if M.kernelMode old.cpsr then defSys M else userModeSys M
   else sysAboveBP M)
  onHandlerExit (← getTODLO M) true

/-- The `EXC_BREAKPOINT` branch. -/
def breakpoint (M : Machine) : K n Unit := do
  onHandlerEnter (← getTODLO M)
  sysAboveBP M
  onHandlerExit (← getTODLO M) false

def sysBPHandler (M : Machine) : K n Unit := do
  modify fun k => { k with mStateLoaded := some .sysbold }
  let exceptionRaised := M.causeExcCodeGet (← get).sysbold.cp15Cause
  let p ← current
  modify fun k => k.setPcb p fun c => { c with pS := copyState k.sysbold c.pS }
  (if exceptionRaised = M.excSyscall then sysCall M
   else if exceptionRaised = M.excBreakpoint then breakpoint M
   else throw (.panic .badException))
  leaveHandler M

end JaeOS
