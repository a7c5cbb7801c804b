import JaeOS.Model.Exceptions

/-!
# `interrupt.c`

The interval timer and the device interrupts.
-/

namespace JaeOS

open Function (update)

variable {n : ℕ}

/-- The `while` loop of the tick in `handleTimer`. -/
def tickLoop (M : Machine) : ℕ → K n Unit
  | 0 => throw (.fault .wild)
  | fuel + 1 => do
    let blk := (← get).gPseudoClockBlk
    if 0 < blk.toInt then do
      semop M M.gPcTimerS blk
      modify fun k => { k with gPseudoClockBlk := k.gPseudoClockBlk - 1 }
      tickLoop M fuel
    else pure ()

/-- The first half of `handleTimer`: the pseudo-clock. -/
def pseudoClock (M : Machine) : K n Unit := do
  let currentTime ← getTODLO M
  let k ← get
  let elapsed := currentTime - k.gLastUpdate
  if k.gLeftTo100 = elapsed ∨ k.gLeftTo100 - elapsed > schedPseudoClock then do
    modify fun k => { k with gLeftTo100 := schedPseudoClock }
    tickLoop M (k.gPseudoClockBlk.toNat + 1)
  else pure ()

/-- `g_current_process->p_time_slice`, also when there is no current process. -/
def currentSlice : K n Word := do
  let k ← get
  match k.gCurrentProcess with
  | some p => pure (k.pcb p).pTimeSlice
  | none => do
    modify fun k => { k with nullRead := true }
    pure k.nullSlice

/-- The second half of `handleTimer`: the end of the time slice. -/
def timeSlice (M : Machine) : K n Unit := do
  let slice ← currentSlice
  if slice > schedTimeSlice then do
    onHandlerExit (← getTODLO M) true
    match (← get).gCurrentProcess with
    | none => throw (.fault .nullQueued)
    | some p => do
      (insertProcQ .gReadyQueue p : Q n Unit)
      modify fun k => { k with gCurrentProcess := none }
  else pure ()

def handleTimer (M : Machine) : K n Unit := do
  pseudoClock M
  timeSlice M

/-- The loop that looks for the device number in the bitmap of the line, `left`
rounds before its end.  It shifts the bitmap in place. -/
def findDevice (M : Machine) (bitMap : Word) : ℕ → K n (Option Word)
  | 0 => pure none
  | left + 1 => do
    let bits := (← get).reg bitMap
    if bits &&& 1 = 1 then pure (some (nDevPerIl - BitVec.ofNat 32 (left + 1)))
    else do
      modify fun k => { k with reg := update k.reg bitMap (bits.sshiftRight 1) }
      findDevice M bitMap left

/-- The completion codes of a terminal, by the low byte of a status word. -/
def Machine.recvDone (M : Machine) (status : Word) : Bool :=
  status &&& 0xFF == M.devTrcvSCharRecv || status &&& 0xFF == M.devTrcvSRecvErr

def Machine.transmDone (M : Machine) (status : Word) : Bool :=
  status &&& 0xFF == M.devTtrsSCharTrsm || status &&& 0xFF == M.devTtrsSTrsmErr

/-- Acknowledge the interrupt of a device.  The result is the value of `line`
afterwards, the row of `g_dev_s`, and `devStatus`, which a terminal with no
completion code leaves unset. -/
def ackDevice (M : Machine) (line dev : Word) : K n (Word × Option Word) := do
  if line = ilTerminal then do
    let recvStatus := (← get).reg (M.recvStatus line dev)
    let transmStatus := (← get).reg (M.transmStatus line dev)
    if M.recvDone recvStatus then do
      writeReg M (M.recvCommand line dev) M.devCAck
      pure (nDevTypes, some recvStatus)
    else if M.transmDone transmStatus then do
      writeReg M (M.transmCommand line dev) M.devCAck
      pure (line - devIlStart, some transmStatus)
    else pure (line, none)
  else do
    writeReg M (M.command line dev) M.devCAck
    let devStatus := (← get).reg (M.status line dev)
    pure (line - devIlStart, some devStatus)

/-- `handleDevices` after the acknowledgement: the `V`, and the status word for
the process it wakes up. -/
def signalDevice (M : Machine) (sem : Word) (devStatus : Option Word) : K n Unit := do
  let before ← (headBlocked sem : Q n (Option (Fin n)))
  let value ← readInt M sem
  (if value.toInt < 1 then semop M sem 1 else pure ())
  let after ← (headBlocked sem : Q n (Option (Fin n)))
  if before ≠ after then
    match before, devStatus with
    | some p, some st => modify fun k => k.setPcb p fun c => { c with pS := { c.pS with a1 := st } }
    | _, _ => throw (.fault .wild)
  else pure ()

def handleDevices (M : Machine) (line : Word) : K n Unit := do
  match ← findDevice M (M.cdevBitmapAddr line) nDevPerIl.toNat with
  | none => throw (.fault .wild)
  | some dev => do
    let (row, devStatus) ← ackDevice M line dev
    signalDevice M (M.devSem row dev) devStatus

/-- The chain of tests on the cause register. -/
def dispatchInterrupt (M : Machine) (cause : Word) : K n Unit :=
  if M.causeIpGet cause ilIPI then pure ()
  else if M.causeIpGet cause ilCpuTimer then pure ()
  else if M.causeIpGet cause ilTimer then handleTimer M
  else if M.causeIpGet cause ilDisk then handleDevices M ilDisk
  else if M.causeIpGet cause ilTape then handleDevices M ilTape
  else if M.causeIpGet cause ilEthernet then handleDevices M ilEthernet
  else if M.causeIpGet cause ilPrinter then handleDevices M ilPrinter
  else if M.causeIpGet cause ilTerminal then handleDevices M ilTerminal
  else pure ()

/-- `cause` is the value of the cause register when the handler reads it. -/
def interruptExceptionHandler (M : Machine) (cause : Word) : K n Unit := do
  modify fun k => { k with intold := { k.intold with pc := k.intold.pc - 4 } }
  onHandlerEnter (← getTODLO M)
  modify fun k =>
    match k.gCurrentProcess with
    | some p => k.setPcb p fun c => { c with pS := copyState k.intold c.pS }
    | none => k
  dispatchInterrupt M cause
  onHandlerExit (← getTODLO M) false
  match (← get).gCurrentProcess with
  | some _ => throw (.ldst (← get).intold)
  | none => scheduler M

end JaeOS
