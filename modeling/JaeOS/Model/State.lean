import JaeOS.Model.Machine
import JaeOS.Model.Clist

/-!
# The state of the kernel

`struct pcb_t` and `struct semd_t` are kept field by field: a field is a map
from the entries of `proc_blk` or `semdTable` to its values, and a pointer to
an entry is its index, `none` for `NULL`.  The number `n` of entries of
`proc_blk` is a parameter; `main` runs with `maxProc`.

The state has three levels, and each function of the source runs on the lowest
one that holds what it touches.

* `Queues`: what `p_list` and `asl.c` link together.
* `Tree`: the parent, child and sibling links.
* `Kernel`: everything, with the variables of `init.h` and `exceptions.c`, the
  old areas of the ROM frame, the device registers and the words of memory.
-/

namespace JaeOS

/-- A pointer to an entry of `semdTable`. -/
abbrev Semd := Fin maxProc

/-- The list heads for `p_list`, the fields of `semd_t` and `p_cursem`. -/
structure Queues (n : ℕ) where
  pList : Fin n → Option (Fin n)
  pCursem : Fin n → Option Semd
  pcbFree : Option (Fin n)
  gReadyQueue : Option (Fin n)
  sSemAdd : Semd → Word
  sLink : Semd → Option Semd
  sProcq : Semd → Option (Fin n)
  aslh : Option Semd
  semdFree : Option Semd

/-- The links of the process tree. -/
structure Tree (n : ℕ) where
  pParent : Fin n → Option (Fin n)
  pChildren : Fin n → Option (Fin n)
  pSiblings : Fin n → Option (Fin n)

structure PcbArea where
  oldArea : ProcState
  newArea : ProcState

/-- What `struct pcb_t` holds apart from its links and `res_requested`. -/
structure Pcb where
  pPid : Word
  pS : ProcState
  pGlobalTime : Word
  pUserTime : Word
  pTimeSlice : Word
  sysbp : PcbArea
  pgmtr : PcbArea
  tlb : PcbArea

def PcbArea.zero : PcbArea := ⟨.zero, .zero⟩

/-- A block cleared by `a_memset`. -/
def Pcb.zero : Pcb := ⟨0, .zero, 0, 0, 0, .zero, .zero, .zero⟩

/-- The three exception types a process can handle itself: `SBK_HDL`, `TLB_HDL`
and `PGM_HDL`. -/
inductive Hdl
  | sbk
  | tlb
  | pgm
deriving DecidableEq

def Pcb.area (c : Pcb) : Hdl → PcbArea
  | .sbk => c.sysbp
  | .tlb => c.tlb
  | .pgm => c.pgmtr

def Pcb.setArea (c : Pcb) (h : Hdl) (a : PcbArea) : Pcb :=
  match h with
  | .sbk => { c with sysbp := a }
  | .tlb => { c with tlb := a }
  | .pgm => { c with pgmtr := a }

/-- What `m_state_loaded` can point to. -/
inductive StatePtr (n : ℕ)
  | sysbold
  | newArea (h : Hdl) (p : Fin n)
  | oldArea (h : Hdl) (p : Fin n)

/-- The variables of the kernel, the old areas of the ROM frame, and the part
of the machine the kernel reads and writes.

`mem` holds the words outside the kernel's own variables, and the semaphores
`g_dev_s` and `g_pc_timer_s`, by address.  `reg` holds the device registers; at
the address of a register, `mem` is what a load of an `int` finds there.
`timer` is the last value given to `setTIMER`, `tods` the number of readings of
the clock so far.  `nullSlice` is the word of memory where the field
`p_time_slice` of a block at address `NULL` would be, and `nullRead` records
that it was read. -/
structure Kernel (n : ℕ) extends Queues n, Tree n where
  resRequested : Fin n → Word
  pcb : Fin n → Pcb
  gProcessCount : Word
  gSoftBlockCount : Word
  gCurrentProcess : Option (Fin n)
  gPseudoClockBlk : Word
  gLastUpdate : Word
  gLeftTo100 : Word
  absProcessCount : Word
  bySysHdl : Bool
  mStateLoaded : Option (StatePtr n)
  sysbold : ProcState
  pgmold : ProcState
  tlbold : ProcState
  intold : ProcState
  mem : Word → Word
  reg : Word → Word
  timer : Word
  tods : ℕ
  nullSlice : Word
  nullRead : Bool

/-- Why the code of the kernel cannot go on. -/
inductive Fault
  /-- A `NULL` or uninitialised pointer is followed, or a loop does not end. -/
  | wild
  /-- `g_current_process` is followed while it is `NULL`. -/
  | noCurrent
  /-- A `NULL` block is inserted in a queue. -/
  | nullQueued
  /-- An address computed from arguments points into the kernel's variables. -/
  | stray
deriving DecidableEq

inductive PanicSite
  | noSemaphore
  | zeroWeight
  | badTrap
  | badException
  | deadlock
deriving DecidableEq

inductive Stop
  | ldst (s : ProcState)
  | wait
  | halt
  | panic (site : PanicSite)
  | fault (f : Fault)
deriving DecidableEq

/-- The functions of `asl.c` and the queue functions of `pcb.c`. -/
abbrev Q (n : ℕ) := StateT (Queues n) Option

/-- The tree functions of `pcb.c`. -/
abbrev T (n : ℕ) := StateT (Tree n) Option

/-- The functions of the other files. -/
abbrev K (n : ℕ) := EStateM Stop (Kernel n)

variable {n : ℕ}

instance : MonadLift (Q n) (K n) where
  monadLift x := fun k =>
    match x k.toQueues with
    | some (a, q) => .ok a { k with toQueues := q }
    | none => .error (.fault .wild) k

instance : MonadLift (T n) (K n) where
  monadLift x := fun k =>
    match x k.toTree with
    | some (a, t) => .ok a { k with toTree := t }
    | none => .error (.fault .wild) k

/-- `g_current_process`, when it is about to be followed. -/
def current : K n (Fin n) := do
  match (← get).gCurrentProcess with
  | some p => pure p
  | none => throw (.fault .noCurrent)

/-- Change the block of `p`. -/
def Kernel.setPcb (k : Kernel n) (p : Fin n) (f : Pcb → Pcb) : Kernel n :=
  { k with pcb := Function.update k.pcb p (f (k.pcb p)) }

/-- The `state_t` a pointer points to. -/
def Kernel.deref (k : Kernel n) : StatePtr n → ProcState
  | .sysbold => k.sysbold
  | .newArea h p => ((k.pcb p).area h).newArea
  | .oldArea h p => ((k.pcb p).area h).oldArea

/-- The device registers after a word is stored in an `int` at `a`.  The semaphores of the
nucleus are variables, and no registers. -/
def Machine.regStore (M : Machine) (reg : Word → Word) (a v : Word) : Word → Word :=
  if M.isReg a && !M.nucleus a then M.devWrite reg a v else reg

/-- The `int` at an address that came from an argument; at a register it is what the entry has
found there. -/
def readInt (M : Machine) (a : Word) : K n Word := do
  if M.kernelData a then throw (.fault .stray) else pure ((← get).mem a)

def writeInt (M : Machine) (a v : Word) : K n Unit := do
  if M.kernelData a then throw (.fault .stray)
  else modify fun k => { k with
    mem := Function.update k.mem a v
    reg := M.regStore k.reg a v }

/-- Store a word in the memory, where no device is. -/
def writeWord (M : Machine) (a v : Word) : K n Unit := do
  if M.kernelData a then throw (.fault .stray)
  else modify fun k => { k with mem := Function.update k.mem a v }

/-- Store a word through a pointer to a device register.  The number of the device may
have come from an argument, so the word may be anywhere. -/
def writeReg (M : Machine) (a v : Word) : K n Unit := do
  if M.isReg a then
    if M.kernelData a then throw (.fault .stray)
    else modify fun k => { k with reg := M.devWrite k.reg a v }
  else writeWord M a v

def getTODLO (M : Machine) : K n Word := do
  let k ← get
  set { k with tods := k.tods + 1 }
  pure (BitVec.ofNat 32 (M.tod k.tods))

def ldstStateLoaded : K n Unit := do
  let k ← get
  match k.mStateLoaded with
  | some s => throw (.ldst (k.deref s))
  | none => throw (.fault .wild)

end JaeOS
