import JaeOS.Model.Interrupt

/-!
# `init.c`, and the runs of the kernel

`main` builds the first state and calls the scheduler.  From then on the kernel
is entered by exceptions and interrupts only: `step` runs one such entry, up to
the `LDST`, `WAIT`, `HALT` or `PANIC` that ends it.
-/

namespace JaeOS

open Function (update)

variable {n : ℕ}

/-! ### The first state -/

/-- The variables before `main`: cleared, apart from `abs_process_count`. -/
def Kernel.static (n : ℕ) : Kernel n where
  pList _ := none
  pCursem _ := none
  pcbFree := none
  gReadyQueue := none
  sSemAdd _ := 0
  sLink _ := none
  sProcq _ := none
  aslh := none
  semdFree := none
  pParent _ := none
  pChildren _ := none
  pSiblings _ := none
  resRequested _ := 0
  pcb _ := .zero
  gProcessCount := 0
  gSoftBlockCount := 0
  gCurrentProcess := none
  gPseudoClockBlk := 0
  gLastUpdate := 0
  gLeftTo100 := 0
  absProcessCount := 1
  bySysHdl := false
  mStateLoaded := none
  sysbold := .zero
  pgmold := .zero
  tlbold := .zero
  intold := .zero
  mem _ := 0
  reg _ := 0
  timer := 0
  tods := 0
  nullSlice := 0
  nullRead := false

/-- The loop of `main` over `g_dev_s`: both indices start at 1. -/
def clearDevS (M : Machine) (mem : Word → Word) : Word → Word :=
  ((List.range' 1 (nDevTypes.toNat - 1)).product (List.range' 1 (nDevPerIl.toNat - 1))).foldl
    (fun mem ij => update mem (M.devSem (BitVec.ofNat 32 ij.1) (BitVec.ofNat 32 ij.2)) 0) mem

/-- `main`.  (The new areas of the ROM frame, which it also fills in, are read
by the processor only.) -/
def main (M : Machine) : K n Unit := do
  (initPcbs : Q n Unit)
  (initASL : Q n Unit)
  modify fun k => { k with
    gProcessCount := 1
    gSoftBlockCount := 0
    gReadyQueue := none
    gCurrentProcess := none
    gLastUpdate := 0
    gPseudoClockBlk := 0
    gLeftTo100 := schedPseudoClock
    mem := update (clearDevS M k.mem) M.gPcTimerS 0 }
  match ← allocPcb with
  | none => throw (.fault .wild)
  | some p => do
    modify fun k => { k.setPcb p fun c => { c with
        pPid := 1
        pS := { c.pS with
          cpsr := M.statusAllIntEnable M.statusSysMode
          sp := M.ramTop - M.frameSize
          pc := M.test } } with
      pParent := update k.pParent p none
      pCursem := update k.pCursem p none }
    (insertProcQ .gReadyQueue p : Q n Unit)
    modify fun k => { k with
      pChildren := update k.pChildren p none
      pSiblings := update k.pSiblings p none }
    scheduler M

/-! ### Kernel entries -/

/-- What takes the processor into the kernel, with the state the processor
saves in the old area; for an interrupt also the cause register. -/
inductive Entry
  | sysBP (old : ProcState)
  | pgmTrap (old : ProcState)
  | tlb (old : ProcState)
  | interrupt (old : ProcState) (cause : Word)

def Entry.isInterrupt : Entry → Bool
  | .interrupt _ _ => true
  | _ => false

/-- A kernel entry, with what the processes and the devices have left in memory
and in the device registers since the last one.  `nullSlice` is what is found
at the address of `p_time_slice` in a block at `NULL`. -/
structure Event where
  entry : Entry
  mem : Word → Word
  reg : Word → Word
  nullSlice : Word

/-- The memory and the registers at the entry.  The nucleus semaphores belong
to the kernel: no process writes them. -/
def Kernel.atEntry (M : Machine) (k : Kernel n) (e : Event) : Kernel n :=
  { k with
    mem := fun a => if M.nucleus a then k.mem a else e.mem a
    reg := e.reg
    nullSlice := e.nullSlice }

def handler (M : Machine) : Entry → K n Unit
  | .sysBP old => do
    modify fun k => { k with sysbold := old }
    sysBPHandler M
  | .pgmTrap old => do
    modify fun k => { k with pgmold := old }
    pgmTrapHandler M
  | .tlb old => do
    modify fun k => { k with tlbold := old }
    tlbHandler M
  | .interrupt old cause => do
    modify fun k => { k with intold := old }
    interruptExceptionHandler M cause

/-- The kernel between two entries, and how the last one ended. -/
structure Config (n : ℕ) where
  k : Kernel n
  stop : Stop

/-- Run kernel code to its end.  No handler returns. -/
def runToStop (x : K n Unit) (k : Kernel n) : Config n :=
  match x k with
  | .ok _ k => ⟨k, .fault .wild⟩
  | .error stop k => ⟨k, stop⟩

def boot (M : Machine) : Config n := runToStop (main M) (.static n)

def step (M : Machine) (c : Config n) (e : Event) : Config n :=
  runToStop (handler M e.entry) (c.k.atEntry M e)

/-- System calls and traps are taken while a process runs, interrupts also
while the processor waits. -/
def CanTake (c : Config n) (e : Event) : Prop :=
  (∃ s, c.stop = .ldst s) ∨ c.stop = .wait ∧ e.entry.isInterrupt = true

end JaeOS
