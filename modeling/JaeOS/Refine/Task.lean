import JaeOS.Refine.Create

/-!
# What a kernel entry asks for

Most of what a handler does concerns the saved states, the clock and the device
registers.  `Kernel.task` reads off the state at the entry what is left for the
processes and the semaphores, `Does` says what becomes of a snapshot then, and
`Ends` how the entry ends: by a return to the current process, with a dispatch,
or with nothing to run.
-/

namespace JaeOS

open Function (update)
open Forest (Progeny)

variable {n : ℕ}

/-- What an entry asks of the processes and the semaphores.  `command a r` is a SYS10 that
computes its register from a device number that no device has: the command is a word of
memory. -/
inductive Task (n : ℕ)
  | nothing
  | create
  | kill (root : Fin n)
  | semop (a w : Word)
  | command (a r : Word)
  | store (a b : Word)
  | tick
  | device (a status : Word)
  | fail (site : PanicSite)
  | stuck
deriving DecidableEq

/-- The task is an operation with weight `w` on the semaphore at `a`. -/
def Task.Operates (a w : Word) : Task n → Prop
  | .semop b v => b = a ∧ v = w
  | .command b _ => b = a ∧ -1 = w
  | _ => False

/-- The task stores the command of a SYS10 in the word of memory at `a`. -/
def Task.Commands (a : Word) : Task n → Prop
  | .command _ r => r = a
  | _ => False

/-! ### System calls and traps -/

namespace Kernel

variable (k : Kernel n)

/-- The process has a handler for exceptions of this type. -/
def Handles (p : Fin n) (h : Hdl) : Prop := ((k.pcb p).area h).newArea.pc ≠ 0

instance (p : Fin n) (h : Hdl) : Decidable (k.Handles p h) := inferInstanceAs (Decidable (_ ≠ _))

/-- An exception goes to the handler of the process, or is the end of it. -/
def raise (p : Fin n) (h : Hdl) : Task n := if k.Handles p h then .nothing else .kill p

/-- A handler may be specified once. -/
def specify (p : Fin n) (h : Hdl) : Task n := if k.Handles p h then .kill p else .nothing

/-- SYS2 ends the process it finds, with its descendants. -/
def killTask (p : Fin n) (pid : Word) : Task n :=
  match k.target p pid with
  | some root => .kill root
  | none => .nothing

/-- The system calls of `defSys`. -/
def sysTask (M : Machine) (p : Fin n) (old : ProcState) : Task n :=
  if old.a1 = createProcessNr then .create
  else if old.a1 = terminateProcessNr then k.killTask p old.a2
  else if old.a1 = semopNr then .semop old.a2 old.a3
  else if old.a1 = specSysHdlNr then k.specify p .sbk
  else if old.a1 = specTLBHdlNr then k.specify p .tlb
  else if old.a1 = specPgmTHdlNr then k.specify p .pgm
  else if old.a1 = exitTrapNr then
    if (trapType old.a2).isSome then .nothing else .fail .badTrap
  else if old.a1 = getCpuTimeNr then .store old.a2 old.a3
  else if old.a1 = waitClockNr then .semop M.gPcTimerS (-1)
  else if old.a1 = ioDevopNr then
    if M.isReg (ioReg M old.a3 old.a4) then .semop (ioSem M old.a3 old.a4) (-1)
    else .command (ioSem M old.a3 old.a4) (ioReg M old.a3 old.a4)
  else .nothing

/-- The exceptions of `sysBP_Handler`. -/
def sysBPTask (M : Machine) (p : Fin n) (old : ProcState) : Task n :=
  if M.causeExcCodeGet old.cp15Cause = M.excSyscall then
    if createProcessNr ≤ old.a1 ∧ old.a1 ≤ getPidNr then
      if M.kernelMode old.cpsr then k.sysTask M p old else k.raise p .pgm
    else k.raise p .sbk
  else if M.causeExcCodeGet old.cp15Cause = M.excBreakpoint then k.raise p .sbk
  else .fail .badException

end Kernel

/-! ### Interrupts -/

/-- The number of the device whose bit comes first in the bitmap of a line. -/
def pendingDevice (bits : Word) : Option ℕ :=
  (List.range nDevPerIl.toNat).find? fun i => bits.getLsbD i

/-- What `handleDevices` finds: the register for the acknowledgement, the
semaphore and the status word. -/
structure Completion where
  ack : Word
  sem : Word
  status : Word

namespace Machine

variable (M : Machine)

/-- The registers after the search in the bitmap has stopped at the bit `i`. -/
def afterFind (reg : Word → Word) (line : Word) (i : ℕ) : Word → Word :=
  update reg (M.cdevBitmapAddr line) ((reg (M.cdevBitmapAddr line)).sshiftRight i)

/-- The completion a device reports.  A terminal may report none. -/
def report (reg : Word → Word) (line dev : Word) : Option Completion :=
  if line = ilTerminal then
    if M.recvDone (reg (M.recvStatus line dev)) then
      some ⟨M.recvCommand line dev, M.devSem nDevTypes dev, reg (M.recvStatus line dev)⟩
    else if M.transmDone (reg (M.transmStatus line dev)) then
      some ⟨M.transmCommand line dev, M.devSem (line - devIlStart) dev,
        reg (M.transmStatus line dev)⟩
    else none
  else
    some ⟨M.command line dev, M.devSem (line - devIlStart) dev,
      M.devWrite reg (M.command line dev) M.devCAck (M.status line dev)⟩

/-- The completion on a line. -/
def completion (reg : Word → Word) (line : Word) : Option Completion :=
  (pendingDevice (reg (M.cdevBitmapAddr line))).bind fun i =>
    M.report (M.afterFind reg line i) line (BitVec.ofNat 32 i)

/-- The line whose handler runs. -/
def pendingLine (cause : Word) : Option Word :=
  if M.causeIpGet cause ilIPI then none
  else if M.causeIpGet cause ilCpuTimer then none
  else if M.causeIpGet cause ilTimer then some ilTimer
  else if M.causeIpGet cause ilDisk then some ilDisk
  else if M.causeIpGet cause ilTape then some ilTape
  else if M.causeIpGet cause ilEthernet then some ilEthernet
  else if M.causeIpGet cause ilPrinter then some ilPrinter
  else if M.causeIpGet cause ilTerminal then some ilTerminal
  else none

/-- What an interrupt asks for. -/
def interruptTask (reg : Word → Word) (cause : Word) : Task n :=
  match M.pendingLine cause with
  | none => .nothing
  | some line =>
    if line = ilTimer then .tick
    else match M.completion reg line with
      | some c => .device c.sem c.status
      | none => .stuck

end Machine

/-! ### Entries -/

namespace Kernel

variable (k : Kernel n)

/-- What an entry asks for.  Only interrupts are taken without a process, and an
interrupt of a device comes with a completion. -/
def task (M : Machine) : Entry → Task n
  | .sysBP old => k.gCurrentProcess.elim .stuck fun p => k.sysBPTask M p old
  | .pgmTrap _ => k.gCurrentProcess.elim .stuck fun p => k.raise p .pgm
  | .tlb _ => k.gCurrentProcess.elim .stuck fun p => k.raise p .tlb
  | .interrupt _ cause => M.interruptTask k.reg cause

/-- The addresses `defSys` computes from the arguments of a system call. -/
def sysAddresses (M : Machine) (old : ProcState) : List Word :=
  if old.a1 = semopNr then [old.a2]
  else if old.a1 = getCpuTimeNr then [old.a2, old.a3]
  else if old.a1 = ioDevopNr then [ioSem M old.a3 old.a4, ioReg M old.a3 old.a4]
  else []

/-- The addresses a handler computes: for a system call of the kernel mode, or for a
device. -/
def addresses (M : Machine) : Entry → List Word
  | .sysBP old =>
    if M.causeExcCodeGet old.cp15Cause = M.excSyscall ∧ M.kernelMode old.cpsr = true then
      sysAddresses M old
    else []
  | .interrupt _ cause =>
    ((M.pendingLine cause).bind (M.completion k.reg)).elim [] fun c => [c.ack, c.sem]
  | _ => []

/-- A block on the ready queue with a `p_cursem` from an earlier wait. -/
def Stale (q : Fin n) : Prop :=
  (∃ xs, k.Queue .gReadyQueue xs ∧ q ∈ xs) ∧ k.pCursem q ≠ none

/-- An entry as the hardware and the processes may make it: the addresses are
outside the kernel's variables, and a device interrupt comes with a completion. -/
structure Legal (M : Machine) (e : Entry) : Prop where
  outside : ∀ a ∈ k.addresses M e, M.kernelData a = false
  genuine : e.isInterrupt = true → k.task M e ≠ .stuck

/-- An entry the kernel is ready for: besides, a tick without a current process
does not find the time slice at `NULL` used up, and no process is terminated on
the ready queue with a `p_cursem`. -/
structure Admits (M : Machine) (e : Entry) : Prop extends k.Legal M e where
  idle : k.task M e = .tick → k.gCurrentProcess = none → k.nullSlice ≤ schedTimeSlice
  fresh : ∀ root, k.task M e = .kill root → ∀ q, Progeny k.pParent root q → ¬ k.Stale q

end Kernel

/-- Where the linker has put things: the words the kernel writes at fixed
addresses are outside its own variables. -/
structure Layout (M : Machine) : Prop where
  pid : M.kernelData 0x00011114 = false
  clock : M.kernelData M.gPcTimerS = false

/-! ### What is done -/

inductive Signals (M : Machine) (a : Word) : Snap n → Snap n → Prop
  | refl (σ : Snap n) : Signals M a σ σ
  | head {w : Word} {σ σ' σ'' : Snap n} (hw : 0 < w.toInt) (h : Signal M a w σ σ')
      (hs : Signals M a σ' σ'') : Signals M a σ σ''

structure Store (a b : Word) (σ σ' : Snap n) : Prop where
  view : σ'.view = σ.view
  asl : σ'.asl = σ.asl
  free : σ'.free = σ.free
  core : ∃ x y, σ'.core = { σ.core with mem := update (update σ.core.mem a x) b y }

/-- What becomes of a snapshot. -/
inductive Does (M : Machine) : Task n → Snap n → Snap n → Prop
  | nothing {σ : Snap n} : Does M .nothing σ σ
  | full {σ : Snap n} (h : ¬ σ.core.gProcessCount.toNat < maxProc) : Does M .create σ σ
  | create {p c : Fin n} {σ σ' : Snap n} (h : Create p c σ σ') : Does M .create σ σ'
  | kill {root : Fin n} {σ σ' : Snap n} (h : Terminate M root σ σ') : Does M (.kill root) σ σ'
  | signal {a w : Word} {σ σ' : Snap n} (hw : 0 < w.toInt) (h : Signal M a w σ σ') :
      Does M (.semop a w) σ σ'
  | grant {a w : Word} {σ σ' : Snap n} (hw : w.toInt < 0) (h : Grant a w σ σ') :
      Does M (.semop a w) σ σ'
  | block {p : Fin n} {a w : Word} {σ σ' : Snap n} (hw : w.toInt < 0) (h : Block M a w p σ σ') :
      Does M (.semop a w) σ σ'
  | command {a r : Word} {σ σ₁ σ' : Snap n} (h : Does M (.semop a (-1)) σ σ₁)
      (hs : Store r r σ₁ σ') : Does M (.command a r) σ σ'
  | store {a b : Word} {σ σ' : Snap n} (h : Store a b σ σ') : Does M (.store a b) σ σ'
  | tick {σ σ' : Snap n} (h : Signals M M.gPcTimerS σ σ') : Does M .tick σ σ'
  | preempt {p : Fin n} {σ σ₁ σ' : Snap n} (hs : Signals M M.gPcTimerS σ σ₁)
      (h : Preempt p σ₁ σ') : Does M .tick σ σ'
  | busy {a st : Word} {σ : Snap n} (h : ¬ (σ.core.mem a).toInt < 1) : Does M (.device a st) σ σ
  | device {a st : Word} {σ σ' : Snap n} (hv : (σ.core.mem a).toInt < 1)
      (h : Signal M a 1 σ σ') : Does M (.device a st) σ σ'

/-- Why an entry ends in a panic. -/
inductive Fails (σ : Snap n) : Task n → PanicSite → Prop
  | badTrap : Fails σ (.fail .badTrap) .badTrap
  | badException : Fails σ (.fail .badException) .badException
  | zero {a w : Word} (h : w.toInt = 0) : Fails σ (.semop a w) .zeroWeight
  | full {p : Fin n} {a w : Word} (hw : w.toInt < 0) (hp : σ.core.gCurrentProcess = some p)
      (ha : σ.waiting a = []) (hf : σ.free = []) : Fails σ (.semop a w) .noSemaphore
  | command {a r : Word} {site : PanicSite} (h : Fails σ (.semop a (-1)) site) :
      Fails σ (.command a r) site

/-- The verdict of the scheduler when no process is ready. -/
def Snap.verdict (σ : Snap n) : Stop :=
  if σ.core.gProcessCount.toNat ≤ 0 ∨ maxProc < σ.core.gProcessCount.toNat then .halt
  else if 0 < σ.core.gSoftBlockCount.toNat then .wait
  else .panic .deadlock

inductive Ends (M : Machine) (t : Task n) (σ : Snap n) : Stop → Snap n → Prop
  | fail {site : PanicSite} (h : Fails σ t site) : Ends M t σ (.panic site) σ
  | back {p : Fin n} {s : ProcState} {σ' : Snap n} (hd : Does M t σ σ')
      (hp : σ'.core.gCurrentProcess = some p) : Ends M t σ (.ldst s) σ'
  | dispatch {p : Fin n} {s : ProcState} {σ₁ σ' : Snap n} (hd : Does M t σ σ₁)
      (hidle : σ₁.core.gCurrentProcess = none) (h : Dispatch p σ₁ σ') : Ends M t σ (.ldst s) σ'
  | idle {σ' : Snap n} (hd : Does M t σ σ') (hidle : σ'.core.gCurrentProcess = none)
      (hready : σ'.view.list .ready = []) : Ends M t σ σ'.verdict σ'

/-- The process that a device wakes up finds the status word in its saved `a1`. -/
def Delivered (t : Task n) (σ σ' : Snap n) (k' : Kernel n) : Prop :=
  ∀ a st p, t = .device a st → (σ.waiting a).head? = some p → σ'.view.place p ≠ .sem a →
    (k'.pcb p).pS.a1 = st

/-- The task is done, up to the choice of the next process. -/
def Done (M : Machine) (t : Task n) (σ : Snap n) (k' : Kernel n) : Prop :=
  ∃ σ', σ'.core = k'.core ∧ Consistent σ' ∧ Does M t σ σ' ∧ Delivered t σ σ' k'

/-- The entry has ended. -/
def Ended (M : Machine) (t : Task n) (σ : Snap n) (stop : Stop) (k' : Kernel n) : Prop :=
  ∃ σ', σ'.core = k'.core ∧ Consistent σ' ∧ Ends M t σ stop σ' ∧ Delivered t σ σ' k'

section Leave

variable {M : Machine} {k k' : Kernel n} {σ σ' : Snap n} {p : Fin n} {t : Task n}
  {Q : Unit → Kernel n → Prop}

theorem Delivered.congr (h : Delivered t σ σ' k) (hs : ∀ q, (k.pcb q).SameSaved (k'.pcb q)) :
    Delivered t σ σ' k' := fun a st p ht hp hpl => by
  rw [(hs p).pS]
  exact h a st p ht hp hpl

theorem Done.congr (h : Done M t σ k) (hc : k'.core = k.core)
    (hs : ∀ q, (k.pcb q).SameSaved (k'.pcb q)) : Done M t σ k' := by
  obtain ⟨σ', hσ', hcons, hd, hdel⟩ := h
  exact ⟨σ', hσ'.trans hc.symm, hcons, hd, hdel.congr hs⟩

theorem Done.beside (h : Done M t σ k) (hc : k'.core = k.core) (hb : Beside k k') :
    Done M t σ k' := h.congr hc hb.saved

theorem Fails.site_ne_deadlock {site : PanicSite} (h : Fails σ t site) : site ≠ .deadlock := by
  induction h with
  | command _ ih => exact ih
  | _ => simp

theorem Fails.ended {site : PanicSite} (h : Fails σ t site) (hσ : σ.core = k.core)
    (hc : Consistent σ) : Ended M t σ (.panic site) k := by
  refine ⟨σ, hσ, hc, .fail h, fun a st p ht => ?_⟩
  subst ht
  exact nomatch h

/-- **The scheduler ends an entry**, when no process is current. -/
theorem Done.scheduler (hL : Layout M) (h : Done M t σ k) (hidle : k.gCurrentProcess = none) :
    wp (scheduler M) Q (Ended M t σ) k := by
  obtain ⟨σ₁, hσ₁, hcons, hd, hdel⟩ := h
  have hidle₁ : σ₁.core.gCurrentProcess = none := by
    rw [hσ₁]
    exact hidle
  have hverdict : σ₁.verdict =
      if k.gProcessCount.toNat ≤ 0 ∨ maxProc < k.gProcessCount.toNat then .halt
      else if 0 < k.gSoftBlockCount.toNat then .wait else .panic .deadlock := by
    rw [Snap.verdict, hσ₁]
    rfl
  refine wp_scheduler hσ₁ hL.pid ?_ ?_ ?_ ?_
  · intro p k' σ' hσ' hs h
    refine ⟨σ', hσ', h.consistent hcons hidle₁, .dispatch hd hidle₁ h, fun a st q ht hq hpl => ?_⟩
    refine hdel.congr hs a st q ht hq (fun hsem => hpl ?_)
    -- the dispatched process was ready, so it is another one
    have hqp : q ≠ p := by
      rintro rfl
      rw [Snap.place_of_head h.first] at hsem
      exact nomatch hsem
    rw [h.view, Placement.move_place_of_ne hqp]
    exact hsem
  · intro hready hc
    rw [if_pos hc] at hverdict
    exact ⟨σ₁, hσ₁, hcons, hverdict ▸ .idle hd hidle₁ hready, hdel⟩
  · intro hready hc hs k' hk' hb
    rw [if_neg hc, if_pos hs] at hverdict
    exact ⟨σ₁, hσ₁.trans hk'.symm, hcons, hverdict ▸ .idle hd hidle₁ hready, hdel.congr hb.saved⟩
  · intro hready hc hs
    rw [if_neg hc, if_neg hs] at hverdict
    exact ⟨σ₁, hσ₁, hcons, hverdict ▸ .idle hd hidle₁ hready, hdel⟩

theorem Done.back {s : ProcState} (h : Done M t σ k) (hp : k.gCurrentProcess = some p) :
    Ended M t σ (.ldst s) k := by
  obtain ⟨σ', hσ', hcons, hd, hdel⟩ := h
  refine ⟨σ', hσ', hcons, .back (p := p) hd ?_, hdel⟩
  rw [hσ']
  exact hp

/-- A state to return to is there if a process is. -/
def Kernel.Loaded (k : Kernel n) : Prop := k.gCurrentProcess ≠ none → k.mStateLoaded ≠ none

/-- **The end of the handlers of `exceptions.c`.** -/
theorem Done.leaveHandler (hL : Layout M) (h : Done M t σ k) (hload : k.Loaded) :
    wp (leaveHandler M) Q (Ended M t σ) k := by
  rw [JaeOS.leaveHandler, wp_bind, wp_get]
  cases hp : k.gCurrentProcess with
  | none => exact h.scheduler hL hp
  | some p =>
    obtain ⟨s, hs⟩ := Option.ne_none_iff_exists'.mp (hload (by simp [hp]))
    simp only [ldstStateLoaded, wp_bind, wp_get, hs, wp_throw]
    exact h.back hp

end Leave

end JaeOS
