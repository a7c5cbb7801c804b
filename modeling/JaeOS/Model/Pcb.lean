import JaeOS.Model.State
import Mathlib.Data.List.FinRange

/-!
# `pcb.c`

The free list of process control blocks, the process queues and the process
tree.  A process queue is named by its list head: `pcbFree`, `g_ready_queue` or
the `s_procq` of a descriptor.
-/

namespace JaeOS

open Function (update)

variable {n : ℕ}

/-- A list head of blocks linked by `p_list`. -/
inductive ProcQ
  | pcbFree
  | gReadyQueue
  | sProcq (d : Semd)
deriving DecidableEq

/-- The list under a list head. -/
def Queues.procQ (s : Queues n) : ProcQ → Clist (Fin n)
  | .pcbFree => ⟨s.pcbFree, s.pList⟩
  | .gReadyQueue => ⟨s.gReadyQueue, s.pList⟩
  | .sProcq d => ⟨s.sProcq d, s.pList⟩

/-- Write back the list head and the links. -/
def Queues.setProcQ (s : Queues n) (q : ProcQ) (c : Clist (Fin n)) : Queues n :=
  match q with
  | .pcbFree => { s with pcbFree := c.tail, pList := c.next }
  | .gReadyQueue => { s with gReadyQueue := c.tail, pList := c.next }
  | .sProcq d => { s with sProcq := update s.sProcq d c.tail, pList := c.next }

/-! ### Process queues -/

def insertProcQ (q : ProcQ) (p : Fin n) : Q n Unit :=
  modify fun s => s.setProcQ q ((s.procQ q).enqueue p)

def removeProcQ (q : ProcQ) : Q n (Option (Fin n)) := do
  let s ← get
  if (s.procQ q).empty then pure none
  else do
    let tmp ← (s.procQ q).head
    let c ← (s.procQ q).dequeue
    set (s.setProcQ q c)
    pure tmp

def outProcQ (q : ProcQ) (p : Fin n) : Q n (Option (Fin n)) := do
  let s ← get
  let cur ← (s.procQ q).foreach (n + 1) (fun scan => scan == p)
  if Clist.foreachAll cur (s.procQ q) then pure none
  else do
    let scan ← cur.scan
    let c ← (s.procQ q).foreachDelete cur.tmp scan
    set (s.setProcQ q c)
    pure (some p)

def headProcQ (q : ProcQ) : Q n (Option (Fin n)) := do
  let s ← get
  (s.procQ q).head

/-! ### The free list -/

def initPcbs : Q n Unit :=
  (List.finRange n).forM fun elem => insertProcQ .pcbFree elem

def freePcb (p : Fin n) : Q n Unit := insertProcQ .pcbFree p

/-- The `a_memset` of `allocPcb` clears every field of the block. -/
def Kernel.memset (k : Kernel n) (p : Fin n) : Kernel n :=
  { k with
    pParent := update k.pParent p none
    pCursem := update k.pCursem p none
    resRequested := update k.resRequested p 0
    pList := update k.pList p none
    pChildren := update k.pChildren p none
    pSiblings := update k.pSiblings p none
    pcb := update k.pcb p .zero }

def allocPcb : K n (Option (Fin n)) := do
  match ← (removeProcQ .pcbFree : Q n (Option (Fin n))) with
  | none => pure none
  | some tmp => do
    modify fun k => k.memset tmp
    pure (some tmp)

/-! ### The process tree -/

def Tree.children (t : Tree n) (p : Fin n) : Clist (Fin n) := ⟨t.pChildren p, t.pSiblings⟩

def Tree.setChildren (t : Tree n) (p : Fin n) (c : Clist (Fin n)) : Tree n :=
  { t with pChildren := update t.pChildren p c.tail, pSiblings := c.next }

/-- `p->p_parent = NULL; p->p_siblings.next = NULL`. -/
def Tree.orphan (t : Tree n) (p : Fin n) : Tree n :=
  { t with pParent := update t.pParent p none, pSiblings := update t.pSiblings p none }

def Tree.emptyChild (t : Tree n) (p : Fin n) : Bool := (t.children p).empty

def insertChild (parent p : Fin n) : T n Unit :=
  modify fun t =>
    let t := { t with pParent := update t.pParent p (some parent) }
    t.setChildren parent ((t.children parent).enqueue p)

def removeChild (p : Fin n) : T n (Option (Fin n)) := do
  let t ← get
  if t.emptyChild p then pure none
  else do
    let child ← (t.children p).head
    let child ← child
    let c ← (t.children p).dequeue
    set ((t.setChildren p c).orphan child)
    pure (some child)

def outChild (p : Fin n) : T n (Option (Fin n)) := do
  let t ← get
  match t.pParent p with
  | none => pure none
  | some parent => do
    let (notFound, c) ← (t.children parent).delete (n + 1) p
    if notFound then do
      set (t.setChildren parent c)
      pure none
    else do
      set ((t.setChildren parent c).orphan p)
      pure (some p)

/-- `childByPid`: the loop over the children of `p` stops at the first one that
has the pid or has children of its own, and the search goes on below it. -/
def Kernel.childByPid (k : Kernel n) : ℕ → Fin n → Word → Option (Option (Fin n))
  | 0, _, _ => none
  | fuel + 1, p, pid =>
    if k.emptyChild p then some none
    else do
      let cur ← (k.children p).foreach (n + 1)
        (fun child => (k.pcb child).pPid == pid || !k.emptyChild child)
      if Clist.foreachAll cur (k.children p) then some none
      else do
        let child ← cur.scan
        if (k.pcb child).pPid = pid then some (some child)
        else k.childByPid fuel child pid

end JaeOS
