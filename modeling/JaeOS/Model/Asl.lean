import JaeOS.Model.Pcb

/-!
# `asl.c`

The active semaphore list `aslh`, in ascending order of `s_semAdd`, and the
list `semdFree` of unused descriptors.
-/

namespace JaeOS

open Function (update)

variable {n : ℕ}

def Queues.asl (s : Queues n) : Clist Semd := ⟨s.aslh, s.sLink⟩

def Queues.setAsl (s : Queues n) (c : Clist Semd) : Queues n :=
  { s with aslh := c.tail, sLink := c.next }

def Queues.free (s : Queues n) : Clist Semd := ⟨s.semdFree, s.sLink⟩

def Queues.setFree (s : Queues n) (c : Clist Semd) : Queues n :=
  { s with semdFree := c.tail, sLink := c.next }

/-- The search loop that opens `insertBlocked`, `removeBlocked` and
`headBlocked`: it stops at the descriptor of `semAdd` (with `flag = 1`) or at
the first one with a higher address. -/
def searchAsl (semAdd : Word) : Q n (Bool × Cursor Semd) := do
  let s ← get
  let cur ← s.asl.foreach (maxProc + 1)
    (fun scan => s.sSemAdd scan == semAdd || decide (semAdd < s.sSemAdd scan))
  let flag := !Clist.foreachAll cur s.asl && cur.scan.any (fun scan => s.sSemAdd scan == semAdd)
  pure (flag, cur)

/-- The second loop of `insertBlocked`: put `head` before the first descriptor
with a higher address, or at the end. -/
def insertSemd (semAdd : Word) (head : Semd) : Q n Unit := do
  let s ← get
  let cur ← s.asl.foreach (maxProc + 1) (fun scan => decide (semAdd < s.sSemAdd scan))
  if Clist.foreachAll cur s.asl then set (s.setAsl (s.asl.enqueue head))
  else do
    let scan ← cur.scan
    let c ← s.asl.foreachAdd head cur.tmp scan
    set (s.setAsl c)

def insertBlocked (semAdd : Word) (p : Fin n) : Q n ℕ := do
  let (flag, cur) ← searchAsl semAdd
  let s ← get
  if flag = false ∨ Clist.foreachAll cur s.asl = true then do
    if s.free.empty then pure 1
    else
      match ← s.free.head with
      | none => pure 0
      | some head => do
        let c ← s.free.dequeue
        set (s.setFree c)
        insertSemd semAdd head
        modify fun s => { s with
          sSemAdd := update s.sSemAdd head semAdd
          sProcq := update s.sProcq head none
          pCursem := update s.pCursem p (some head) }
        insertProcQ (.sProcq head) p
        pure 0
  else do
    let scan ← cur.scan
    insertProcQ (.sProcq scan) p
    modify fun s => { s with pCursem := update s.pCursem p (some scan) }
    pure 0

/-- The end of `removeBlocked` and `outBlocked`: a descriptor whose queue is
empty leaves the list and goes to the end of `semdFree`. -/
def releaseSemd (d : Semd) : Q n Unit := do
  let s ← get
  if (s.procQ (.sProcq d)).empty then do
    let (_, c) ← s.asl.delete (maxProc + 1) d
    let s := s.setAsl c
    set (s.setFree (s.free.enqueue d))
  else pure ()

def removeBlocked (semAdd : Word) : Q n (Option (Fin n)) := do
  let (flag, cur) ← searchAsl semAdd
  let s ← get
  if flag = false ∨ Clist.foreachAll cur s.asl = true then pure none
  else do
    let scan ← cur.scan
    let result ← (s.procQ (.sProcq scan)).head
    let c ← (s.procQ (.sProcq scan)).dequeue
    set (s.setProcQ (.sProcq scan) c)
    releaseSemd scan
    pure result

def outBlocked (p : Fin n) : Q n (Option (Fin n)) := do
  let s ← get
  let d ← s.pCursem p
  let flag ← outProcQ (.sProcq d) p
  releaseSemd d
  pure (if flag.isSome then some p else none)

def headBlocked (semAdd : Word) : Q n (Option (Fin n)) := do
  let (flag, cur) ← searchAsl semAdd
  let s ← get
  if flag = false ∨ Clist.foreachAll cur s.asl = true then pure none
  else do
    let scan ← cur.scan
    if (s.sLink scan).isNone then pure none
    else (s.procQ (.sProcq scan)).head

def initASL : Q n Unit :=
  (List.finRange maxProc).forM fun d => modify fun s => s.setFree (s.free.enqueue d)

end JaeOS
