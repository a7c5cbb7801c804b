import JaeOS.Lib.Exec
import JaeOS.Lib.FifoSem
import JaeOS.Refine.Owned
import JaeOS.Model.Scheduler

/-!
# Snapshots of the kernel

`Core` is the part of the kernel the lists, the counters and the semaphores live
in.  A `Snap` is a core together with a placement its pointers agree with.  What
the kernel does is said by relations between snapshots; the rest of its state is
`Beside` them.
-/

namespace JaeOS

open Function (update)

/-- Queues, tree, requests, counters, current process and memory. -/
structure Core (n : ℕ) extends Queues n, Tree n where
  resRequested : Fin n → Word
  gProcessCount : Word
  gSoftBlockCount : Word
  gCurrentProcess : Option (Fin n)
  mem : Word → Word

variable {n : ℕ} {M : Machine} {k k' k'' : Kernel n}

def Kernel.core (k : Kernel n) : Core n where
  toQueues := k.toQueues
  toTree := k.toTree
  resRequested := k.resRequested
  gProcessCount := k.gProcessCount
  gSoftBlockCount := k.gSoftBlockCount
  gCurrentProcess := k.gCurrentProcess
  mem := k.mem

/-- A core, and the placement its pointers agree with. -/
structure Snap (n : ℕ) where
  core : Core n
  view : View n
  asl : List Semd
  free : List Semd
  owned : Owned core.toQueues view asl free

def Snap.waiting (σ : Snap n) (a : Word) : List (Fin n) := σ.view.list (.sem a)

/-- No descriptor is lost, and none appears. -/
def Snap.Conserves (σ σ' : Snap n) : Prop :=
  ∀ d, d ∈ σ'.asl ∨ d ∈ σ'.free ↔ d ∈ σ.asl ∨ d ∈ σ.free

/-- Two blocks that differ in their times only. -/
structure Pcb.SameSaved (c c' : Pcb) : Prop where
  pPid : c'.pPid = c.pPid
  pS : c'.pS = c.pS
  sysbp : c'.sysbp = c.sysbp
  pgmtr : c'.pgmtr = c.pgmtr
  tlb : c'.tlb = c.tlb

theorem Pcb.SameSaved.refl (c : Pcb) : c.SameSaved c := ⟨rfl, rfl, rfl, rfl, rfl⟩

theorem Pcb.SameSaved.trans {c c' c'' : Pcb} (h : c.SameSaved c') (h' : c'.SameSaved c'') :
    c.SameSaved c'' :=
  ⟨h'.pPid.trans h.pPid, h'.pS.trans h.pS, h'.sysbp.trans h.sysbp, h'.pgmtr.trans h.pgmtr,
    h'.tlb.trans h.tlb⟩

/-- What neither the queue functions nor the time accounting nor a store in memory touch. -/
structure Outlying (k k' : Kernel n) : Prop where
  saved : ∀ p, (k.pcb p).SameSaved (k'.pcb p)
  sysbold : k'.sysbold = k.sysbold
  pgmold : k'.pgmold = k.pgmold
  tlbold : k'.tlbold = k.tlbold
  intold : k'.intold = k.intold
  mStateLoaded : k'.mStateLoaded = k.mStateLoaded
  bySysHdl : k'.bySysHdl = k.bySysHdl
  gPseudoClockBlk : k'.gPseudoClockBlk = k.gPseudoClockBlk
  nullSlice : k'.nullSlice = k.nullSlice
  nullRead : k'.nullRead = k.nullRead

/-- Besides, the device registers are untouched. -/
structure Beside (k k' : Kernel n) : Prop extends Outlying k k' where
  reg : k'.reg = k.reg

/-- A word has been stored at `a`, which may be a device register. -/
structure BesideAt (M : Machine) (a : Word) (k k' : Kernel n) : Prop extends Outlying k k' where
  reg : k'.reg = M.regStore k.reg a (k'.mem a)

theorem Machine.regStore_of_nucleus {a v : Word} (h : M.nucleus a = true) (reg : Word → Word) :
    M.regStore reg a v = reg := by
  rw [Machine.regStore, h, Bool.not_true, Bool.and_false]
  rfl

/-- The semaphores of the nucleus are no registers. -/
theorem BesideAt.beside {a : Word} (h : BesideAt M a k k') (ha : M.nucleus a = true) : Beside k k' :=
  ⟨h.toOutlying, h.reg.trans (M.regStore_of_nucleus ha k.reg)⟩

theorem Beside.refl (k : Kernel n) : Beside k k :=
  ⟨⟨fun _ => .refl _, rfl, rfl, rfl, rfl, rfl, rfl, rfl, rfl, rfl⟩, rfl⟩

theorem Outlying.trans (h : Outlying k k') (h' : Outlying k' k'') : Outlying k k'' :=
  ⟨fun p => (h.saved p).trans (h'.saved p), h'.sysbold.trans h.sysbold, h'.pgmold.trans h.pgmold,
    h'.tlbold.trans h.tlbold, h'.intold.trans h.intold, h'.mStateLoaded.trans h.mStateLoaded,
    h'.bySysHdl.trans h.bySysHdl, h'.gPseudoClockBlk.trans h.gPseudoClockBlk,
    h'.nullSlice.trans h.nullSlice, h'.nullRead.trans h.nullRead⟩

theorem Beside.trans (h : Beside k k') (h' : Beside k' k'') : Beside k k'' :=
  ⟨h.toOutlying.trans h'.toOutlying, h'.reg.trans h.reg⟩

theorem beside_core (k : Kernel n) (s : Queues n) (t : Tree n) (r : Fin n → Word) (count soft : Word)
    (c : Option (Fin n)) (m : Word → Word) :
    Beside k { k with
      toQueues := s, toTree := t, resRequested := r, gProcessCount := count
      gSoftBlockCount := soft, gCurrentProcess := c, mem := m } :=
  ⟨⟨fun _ => .refl _, rfl, rfl, rfl, rfl, rfl, rfl, rfl, rfl, rfl⟩, rfl⟩

/-! ### The time accounting -/

theorem setPcb_pcb_self (k : Kernel n) (p : Fin n) (f : Pcb → Pcb) :
    (k.setPcb p f).pcb p = f (k.pcb p) := by
  simp [Kernel.setPcb]

theorem setPcb_pcb_of_ne (k : Kernel n) {p x : Fin n} (f : Pcb → Pcb) (h : x ≠ p) :
    (k.setPcb p f).pcb x = k.pcb x := by
  simp [Kernel.setPcb, h]

@[simp] theorem core_setPcb (k : Kernel n) (p : Fin n) (f : Pcb → Pcb) :
    (k.setPcb p f).core = k.core := rfl

@[simp] theorem core_updateTimer (k : Kernel n) (t e : Word) : (k.updateTimer t e).core = k.core :=
  rfl

theorem beside_updateTimer (k : Kernel n) (t e : Word) : Beside k (k.updateTimer t e) :=
  ⟨⟨fun _ => .refl _, rfl, rfl, rfl, rfl, rfl, rfl, rfl, rfl, rfl⟩, rfl⟩

theorem beside_setPcb {f : Pcb → Pcb} (hf : ∀ c : Pcb, c.SameSaved (f c)) (k : Kernel n)
    (p : Fin n) : Beside k (k.setPcb p f) := by
  refine ⟨⟨fun x => ?_, rfl, rfl, rfl, rfl, rfl, rfl, rfl, rfl, rfl⟩, rfl⟩
  by_cases hx : x = p
  · subst hx
    rw [setPcb_pcb_self]
    exact hf _
  · rw [setPcb_pcb_of_ne k f hx]
    exact .refl _

section Time

variable {Q : Unit → Kernel n → Prop} {E : Stop → Kernel n → Prop}

theorem wp_getTODLO {Q : Word → Kernel n → Prop}
    (hQ : ∀ t k', k'.core = k.core → Beside k k' → Q t k') : wp (getTODLO M) Q E k := by
  simp only [getTODLO, wp_bind, wp_get, wp_set, wp_pure]
  exact hQ _ _ rfl ⟨⟨fun _ => .refl _, rfl, rfl, rfl, rfl, rfl, rfl, rfl, rfl, rfl⟩, rfl⟩

theorem wp_onHandlerEnter {t : Word} (hQ : ∀ k', k'.core = k.core → Beside k k' → Q () k') :
    wp (onHandlerEnter t) Q E k := by
  simp only [onHandlerEnter, wp_modify]
  cases k.gCurrentProcess with
  | none => exact hQ _ rfl (beside_updateTimer ..)
  | some p =>
    refine hQ _ rfl (Beside.trans ?_ (beside_updateTimer ..))
    apply beside_setPcb
    exact fun c => ⟨rfl, rfl, rfl, rfl, rfl⟩

theorem wp_onHandlerExit {t : Word} {flag : Bool}
    (hQ : ∀ k', k'.core = k.core → Beside k k' → Q () k') : wp (onHandlerExit t flag) Q E k := by
  simp only [onHandlerExit, wp_modify]
  cases flag with
  | false => exact hQ _ rfl (beside_updateTimer ..)
  | true =>
    cases k.gCurrentProcess with
    | none => exact hQ _ rfl (beside_updateTimer ..)
    | some p =>
      refine hQ _ rfl (Beside.trans ?_ (beside_updateTimer ..))
      apply beside_setPcb
      exact fun c => ⟨rfl, rfl, rfl, rfl, rfl⟩

theorem wp_enter (hQ : ∀ k', k'.core = k.core → Beside k k' → Q () k') :
    wp (getTODLO M >>= onHandlerEnter) Q E k := by
  rw [wp_bind]
  refine wp_getTODLO (fun t k₁ hc₁ hb₁ => wp_onHandlerEnter (fun k₂ hc₂ hb₂ => ?_))
  exact hQ k₂ (hc₂.trans hc₁) (hb₁.trans hb₂)

theorem wp_exit {flag : Bool} (hQ : ∀ k', k'.core = k.core → Beside k k' → Q () k') :
    wp (getTODLO M >>= fun t => onHandlerExit t flag) Q E k := by
  rw [wp_bind]
  refine wp_getTODLO (fun t k₁ hc₁ hb₁ => wp_onHandlerExit (fun k₂ hc₂ hb₂ => ?_))
  exact hQ k₂ (hc₂.trans hc₁) (hb₁.trans hb₂)

end Time

end JaeOS
