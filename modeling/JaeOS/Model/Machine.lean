import Mathlib.Data.BitVec

/-!
# The machine under the kernel

The constants of `const.h`, the processor state `state_t`, and what the kernel
takes from outside its own sources.  The uARM headers (`uARMconst.h`,
`uARMtypes.h`, `arch.h`, `libuarm.h`) are not part of the repository: their
integer constants are fixed here at their documented values, and their macros,
the reaction of the devices, the clock and the placement of the nucleus
semaphores in memory are the fields of a `Machine`.
-/

namespace JaeOS

/-- A machine word: `unsigned int`, `int` and every pointer of the source. -/
abbrev Word := BitVec 32

/-! ### Constants -/

def maxProc : ℕ := 20
def schedTimeSlice : Word := 5000
def schedPseudoClock : Word := 100000

def createProcessNr : Word := 1
def terminateProcessNr : Word := 2
def semopNr : Word := 3
def specSysHdlNr : Word := 4
def specTLBHdlNr : Word := 5
def specPgmTHdlNr : Word := 6
def exitTrapNr : Word := 7
def getCpuTimeNr : Word := 8
def waitClockNr : Word := 9
def ioDevopNr : Word := 10
def getPidNr : Word := 11

/-- Interrupt lines with devices on them. -/
def nExtIl : Word := 5
def nDevPerIl : Word := 8
def devIlStart : Word := 3
def ilIPI : Word := 0
def ilCpuTimer : Word := 1
def ilTimer : Word := 2
def ilDisk : Word := 3
def ilTape : Word := 4
def ilEthernet : Word := 5
def ilPrinter : Word := 6
def ilTerminal : Word := 7
def intTerminal : Word := 7
/-- One row of semaphores a line, and one more for the second half of a terminal. -/
def nDevTypes : Word := nExtIl + 1

/-! ### The processor state -/

@[ext] structure ProcState where
  a1 : Word
  a2 : Word
  a3 : Word
  a4 : Word
  v1 : Word
  v2 : Word
  v3 : Word
  v4 : Word
  v5 : Word
  v6 : Word
  sl : Word
  fp : Word
  ip : Word
  sp : Word
  lr : Word
  pc : Word
  cpsr : Word
  cp15Control : Word
  cp15EntryHi : Word
  cp15Cause : Word
  todHi : Word
  todLow : Word
deriving DecidableEq

/-- What `a_memset(_, 0, _)` leaves in a `state_t`. -/
def ProcState.zero : ProcState :=
  ⟨0, 0, 0, 0, 0, 0, 0, 0, 0, 0, 0, 0, 0, 0, 0, 0, 0, 0, 0, 0, 0, 0⟩

/-- `copyState`: the new contents of `dst`. -/
def copyState (src dst : ProcState) : ProcState :=
  { dst with
    a1 := src.a1, a2 := src.a2, a3 := src.a3, a4 := src.a4
    v1 := src.v1, v2 := src.v2, v3 := src.v3, v4 := src.v4, v5 := src.v5, v6 := src.v6
    sl := src.sl, fp := src.fp, ip := src.ip, sp := src.sp, lr := src.lr, pc := src.pc
    cpsr := src.cpsr
    cp15Control := src.cp15Control, cp15EntryHi := src.cp15EntryHi, cp15Cause := src.cp15Cause
    todHi := src.todHi, todLow := src.todLow }

@[simp] theorem copyState_eq (src dst : ProcState) : copyState src dst = src := rfl

/-! ### What is not in the sources -/

/-- The uARM headers, the linker's placement of the nucleus semaphores, the
devices and the clock.

`tod i` is the `i`-th reading of the clock, unwrapped.  `devWrite reg a v` is
the state of the device registers after the word `v` is stored at the register
`a`: a device may react at once.  `kernelData a` says that the word at `a`
belongs to the kernel's variables other than `g_dev_s` and `g_pc_timer_s`. -/
structure Machine where
  causeExcCodeGet : Word → Word
  causeExcCodeSet : Word → Word → Word
  causeIpGet : Word → Word → Bool
  excSyscall : Word
  excBreakpoint : Word
  excReservedInstr : Word
  statusSysMode : Word
  statusAllIntEnable : Word → Word
  cp15EnableVM : Word → Word
  cp15DisableVM : Word → Word
  entryHiAsidGet : Word → Word
  entryHiAsidSet : Word → Word → Word
  devRegAddr : Word → Word → Word
  cdevBitmapAddr : Word → Word
  devTrcvSCharRecv : Word
  devTrcvSRecvErr : Word
  devTtrsSCharTrsm : Word
  devTtrsSTrsmErr : Word
  devCAck : Word
  ramTop : Word
  frameSize : Word
  test : Word
  readState : (Word → Word) → Word → ProcState
  gDevS : Word
  gPcTimerS : Word
  semdTable : Fin maxProc → Word
  kernelData : Word → Bool
  devWrite : (Word → Word) → Word → Word → Word → Word
  tod : ℕ → ℕ

namespace Machine

variable (M : Machine)

/-- `&g_dev_s[row][col]`, whatever the two indices are. -/
def devSem (row col : Word) : Word := M.gDevS + 4 * (nDevPerIl * row + col)

/-- `isDev` of `aux.c`. -/
def isDev (semaddr : Word) : Bool :=
  semaddr == M.gPcTimerS ||
    (decide (M.gDevS ≤ semaddr) && decide (semaddr ≤ M.devSem nDevTypes nDevPerIl))

/-- The word at `a` is an element of `g_dev_s`. -/
def devCell (a : Word) : Bool :=
  decide ((a - M.gDevS).toNat < 4 * (nDevTypes * nDevPerIl).toNat) && (a - M.gDevS).toNat % 4 == 0

/-- The word at `a` is `g_pc_timer_s` or an element of `g_dev_s`. -/
def nucleus (a : Word) : Bool := a == M.gPcTimerS || M.devCell a

/-- `KERNEL_MODE` of `aux.h`. -/
def kernelMode (field : Word) : Bool := field &&& M.statusSysMode == M.statusSysMode

/-- The `dtpreg_t` and `termreg_t` fields of a device, as register addresses. -/
def status (line dev : Word) : Word := M.devRegAddr line dev
def command (line dev : Word) : Word := M.devRegAddr line dev + 4
def recvStatus (line dev : Word) : Word := M.devRegAddr line dev
def recvCommand (line dev : Word) : Word := M.devRegAddr line dev + 4
def transmStatus (line dev : Word) : Word := M.devRegAddr line dev + 8
def transmCommand (line dev : Word) : Word := M.devRegAddr line dev + 12

/-- The word at `a` is a register of a device, or the bitmap of a line. -/
def isReg (a : Word) : Bool :=
  (List.range nExtIl.toNat).any fun i =>
    a == M.cdevBitmapAddr (devIlStart + BitVec.ofNat 32 i) ||
      (List.range nDevPerIl.toNat).any fun j =>
        [0, 4, 8, 12].contains (a - M.devRegAddr (devIlStart + BitVec.ofNat 32 i) (BitVec.ofNat 32 j))

end Machine

end JaeOS
