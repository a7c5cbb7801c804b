import JaeOS.Lib.Lockstep
import JaeOS.Refine.Handler
import JaeOS.Properties.Uarm

/-!
# A privileged system call from user mode

`sysBP_Handler` turns it into a program trap: it copies the state to the old area of program
traps and calls `pgmTrap_Handler`, with `bySysHdl` set so that the time is not charged twice.
From there on the two handlers run the same code, from states that agree on everything but
the time accounting.
-/

namespace JaeOS

open Function (update)

variable {n : ℕ} {M : Machine} {k k' : Kernel n} {p q : Fin n} {P : Prop} {a b old : ProcState}

/-! ### Agreement -/

/-- What is left of a state without the time accounting: `g_lastUpdate`, `g_leftTo100`, the
timer and the clock, and the global time of `p`.  The old area of the system calls, which the
machine fills on one way in only, and `m_state_loaded` are compared apart. -/
def Kernel.timeless (k : Kernel n) (p : Fin n) : Kernel n :=
  { k with
    gLastUpdate := 0, gLeftTo100 := 0, timer := 0, tods := 0
    pcb := update k.pcb p { k.pcb p with pGlobalTime := 0 }
    sysbold := .zero, mStateLoaded := none }

/-- The states agree but for the time accounting, and on `m_state_loaded` if `P` holds;
`bySysHdl` is 0 in both, and `a` and `b` are in the old areas of the system calls. -/
structure Agree (p : Fin n) (P : Prop) (a b : ProcState) (k k' : Kernel n) : Prop where
  timeless : k.timeless p = k'.timeless p
  flag : k.bySysHdl = false
  old : k.sysbold = a
  old' : k'.sysbold = b
  loaded : P → k.mStateLoaded = k'.mStateLoaded

namespace Agree

theorem congr_field {α : Type} (h : Agree p P a b k k') (f : Kernel n → α)
    (hf : ∀ k : Kernel n, f (k.timeless p) = f k) : f k = f k' := by
  rw [← hf k, ← hf k', h.timeless]

theorem toQueues (h : Agree p P a b k k') : k.toQueues = k'.toQueues :=
  h.congr_field Kernel.toQueues fun _ => rfl

theorem toTree (h : Agree p P a b k k') : k.toTree = k'.toTree :=
  h.congr_field Kernel.toTree fun _ => rfl

theorem current (h : Agree p P a b k k') : k.gCurrentProcess = k'.gCurrentProcess :=
  h.congr_field Kernel.gCurrentProcess fun _ => rfl

theorem pcb_field {α : Type} (h : Agree p P a b k k') (f : Pcb → α)
    (hf : ∀ c : Pcb, f { c with pGlobalTime := 0 } = f c) (q : Fin n) :
    f (k.pcb q) = f (k'.pcb q) := by
  refine h.congr_field (fun k => f (k.pcb q)) fun k => ?_
  change f (update k.pcb p { k.pcb p with pGlobalTime := 0 } q) = f (k.pcb q)
  by_cases hq : q = p
  · rw [hq, Function.update_self, hf]
  · rw [Function.update_of_ne hq]

theorem map (h : Agree p P a b k k') {g : Kernel n → Kernel n}
    (hg : ∀ k : Kernel n, (g k).timeless p = g (k.timeless p))
    (hrest : ∀ k, (g k).bySysHdl = k.bySysHdl ∧ (g k).sysbold = k.sysbold ∧
      (g k).mStateLoaded = k.mStateLoaded) :
    Agree p P a b (g k) (g k') := by
  obtain ⟨hflag, hold, hloaded⟩ := hrest k
  obtain ⟨-, hold', hloaded'⟩ := hrest k'
  refine ⟨?_, hflag.trans h.flag, hold.trans h.old, hold'.trans h.old', fun hP => ?_⟩
  · rw [hg, hg, h.timeless]
  · rw [hloaded, hloaded']
    exact h.loaded hP

theorem setPcb (h : Agree p P a b k k') (q : Fin n) {f : Pcb → Pcb}
    (hf : ∀ c, f { c with pGlobalTime := 0 } = { f c with pGlobalTime := 0 }) :
    Agree p P a b (k.setPcb q f) (k'.setPcb q f) := by
  refine h.map (g := fun k => k.setPcb q f) (fun k => ?_) (fun _ => ⟨rfl, rfl, rfl⟩)
  have hpcb : update (update k.pcb q (f (k.pcb q))) p
        { update k.pcb q (f (k.pcb q)) p with pGlobalTime := 0 } =
      update (update k.pcb p { k.pcb p with pGlobalTime := 0 }) q
        (f (update k.pcb p { k.pcb p with pGlobalTime := 0 } q)) := by
    by_cases hq : q = p
    · subst hq
      rw [Function.update_self, Function.update_self, Function.update_idem, Function.update_idem, hf]
    · rw [Function.update_of_ne (Ne.symm hq), Function.update_of_ne hq, Function.update_comm hq]
  exact congrArg (fun b => { k.timeless p with pcb := b }) hpcb

theorem onExit (h : Agree p P a b k k') : Agree p P a b (k.onExit M false) (k'.onExit M false) :=
  ⟨h.timeless, h.flag, h.old, h.old', h.loaded⟩

end Agree

/-! ### The common code -/

/-- The runs of `x` from states that agree go the same way. -/
abbrev Blind {α : Type} (p : Fin n) (P : Prop) (a b : ProcState) (x : K n α) : Prop :=
  Lockstep (Agree p P a b) (Agree p P a b) (fun _ => Agree p P a b) x

namespace Blind

theorem liftQ {α : Type} (x : Q n α) : Blind p P a b (liftM x : K n α) := by
  intro k k' h
  rw [Twin, wp_liftQ]
  cases hx : x.run k.toQueues with
  | none =>
    rw [wp_liftQ, ← h.toQueues, hx]
    exact ⟨rfl, h⟩
  | some r =>
    dsimp only
    rw [wp_liftQ, ← h.toQueues, hx]
    exact ⟨rfl, h.map (g := fun k => { k with toQueues := r.2 }) (fun _ => rfl)
      (fun _ => ⟨rfl, rfl, rfl⟩)⟩

theorem liftT {α : Type} (x : T n α) : Blind p P a b (liftM x : K n α) := by
  intro k k' h
  rw [Twin, wp_liftT]
  cases hx : x.run k.toTree with
  | none =>
    rw [wp_liftT, ← h.toTree, hx]
    exact ⟨rfl, h⟩
  | some r =>
    dsimp only
    rw [wp_liftT, ← h.toTree, hx]
    exact ⟨rfl, h.map (g := fun k => { k with toTree := r.2 }) (fun _ => rfl)
      (fun _ => ⟨rfl, rfl, rfl⟩)⟩

theorem modify {g : Kernel n → Kernel n} (hg : ∀ k : Kernel n, (g k).timeless p = g (k.timeless p))
    (hrest : ∀ k, (g k).bySysHdl = k.bySysHdl ∧ (g k).sysbold = k.sysbold ∧
      (g k).mStateLoaded = k.mStateLoaded) :
    Blind p P a b (modify g : K n PUnit) :=
  Lockstep.modify fun _ _ h => h.map hg hrest

theorem throw {α : Type} {s : Stop} : Blind p P a b (throw s : K n α) := Lockstep.throw fun _ _ h => h

theorem stop {α : Type} {s : Stop} :
    Lockstep (Agree p P a b) (Agree p P a b) (fun _ _ _ => False) (MonadExcept.throw s : K n α) :=
  Lockstep.throw fun _ _ h => h

theorem pure {α : Type} {v : α} : Blind p P a b (pure v : K n α) := Lockstep.pure fun _ _ h => h

theorem current : Blind p P a b (current : K n (Fin n)) := by
  refine Lockstep.get_bind (fun k k' h => ?_) (fun k => ?_)
  · rw [h.current]
  · cases k.gCurrentProcess with
    | none => exact throw
    | some q => exact pure

theorem writeWord {x v : Word} : Blind p P a b (writeWord M x v : K n Unit) :=
  Lockstep.ite (fun _ => throw) (fun _ => modify (fun _ => rfl) (fun _ => ⟨rfl, rfl, rfl⟩))

theorem releasePcb (q : Fin n) : Blind p P a b (releasePcb M q) := by
  refine Lockstep.get_bind (fun k k' h => ?_) (fun k => ?_)
  · rw [h.toQueues]
  · refine Lockstep.bind (S := fun _ => Agree p P a b) ?_ (fun _ => Lockstep.bind (liftQ _) (fun _ =>
      modify (fun _ => rfl) (fun _ => ⟨rfl, rfl, rfl⟩)))
    cases k.pCursem q with
    | none => exact Lockstep.bind (liftQ _) (fun _ => pure)
    | some d =>
      refine Lockstep.bind (S := fun _ => Agree p P a b) ?_
        (fun _ => Lockstep.bind (liftQ _) (fun _ => pure))
      exact Lockstep.ite (fun _ => modify (fun _ => rfl) (fun _ => ⟨rfl, rfl, rfl⟩))
        (fun _ => pure)

theorem killChildren {kill : Fin n → K n Unit} (hkill : ∀ q, Blind p P a b (kill q)) (fuel : ℕ)
    (q : Fin n) : Blind p P a b (killChildren kill fuel q) := by
  induction fuel with
  | zero => exact throw
  | succ fuel ih =>
    refine Lockstep.get_bind (fun k k' h => ?_) (fun k => ?_)
    · rw [h.toTree]
    · refine Lockstep.ite (fun _ => pure) (fun _ => Lockstep.bind (liftT _) (fun r => ?_))
      cases r with
      | none => exact throw
      | some c => exact Lockstep.bind (hkill c) (fun _ => ih)

theorem terminateProgeny (fuel : ℕ) (q : Fin n) : Blind p P a b (terminateProgeny M fuel q) := by
  induction fuel generalizing q with
  | zero => exact throw
  | succ fuel ih =>
    exact Lockstep.bind (liftT _) (fun _ => Lockstep.bind (killChildren ih (n + 1) q)
      (fun _ => releasePcb q))

/-- `scheduler` does not look at the time, and does not return. -/
theorem scheduler :
    Lockstep (Agree p P a b) (Agree p P a b) (fun _ _ _ => False) (scheduler M : K n Unit) := by
  have hexit : Blind p P a b (getTODLO M >>= fun t => onHandlerExit t false : K n Unit) := by
    intro k k' h
    rw [Twin, wp_onExit, wp_onExit]
    exact ⟨rfl, h.onExit⟩
  refine Lockstep.bind (liftQ _) (fun r => ?_)
  cases r with
  | some _ =>
    refine Lockstep.bind (liftQ _) (fun r => Lockstep.bind (modify (fun _ => rfl)
      (fun _ => ⟨rfl, rfl, rfl⟩)) (fun _ => Lockstep.bind current (fun q => ?_)))
    refine Lockstep.bind (S := fun _ => Agree p P a b)
      (Lockstep.modify fun k k' h => h.setPcb q fun _ => rfl)
      (fun _ => ?_)
    rw [← bind_assoc]
    refine Lockstep.bind hexit (fun _ => Lockstep.get_bind (fun k k' h => ?_) (fun k =>
      Lockstep.bind writeWord (fun _ => Lockstep.get_bind (fun k k' h => ?_) (fun k => stop))))
    · rw [h.pcb_field Pcb.pPid fun _ => rfl]
    · rw [h.pcb_field Pcb.pS fun _ => rfl]
  | none =>
    refine Lockstep.get_bind (fun k k' h => ?_) (fun k => ?_)
    · rw [h.congr_field Kernel.gProcessCount fun _ => rfl,
        h.congr_field Kernel.gSoftBlockCount fun _ => rfl]
    · refine Lockstep.ite (fun _ => stop) (fun _ => Lockstep.ite (fun _ => ?_) (fun _ => stop))
      rw [← bind_assoc]
      exact Lockstep.bind hexit (fun _ => stop)

end Blind

/-! ### `commonSubHandler` -/

/-- The state of `p` is saved, from the old area of program traps. -/
def Kernel.saveTrap (k : Kernel n) (p : Fin n) : Kernel n :=
  k.setPcb p fun c => { c with pS := copyState k.pgmold c.pS }

/-- The states agree, and `p` runs, with the handler of program traps at `pc`. -/
structure Raised (p : Fin n) (pc : Word) (a b : ProcState) (k k' : Kernel n) : Prop where
  current : k.gCurrentProcess = some p
  handler : (k.pcb p).pgmtr.newArea.pc = pc
  agree : Agree p False a b k k'

/-- The states agree, and the handler is loaded if `p` is still there. -/
structure Handled (p : Fin n) (P : Prop) (a b : ProcState) (k k' : Kernel n) : Prop where
  agree : Agree p P a b k k'
  handled : k.gCurrentProcess ≠ none → P ∧ k.mStateLoaded = some (.newArea .pgm p)

theorem Agree.of_not (h : Agree p False a b k k') (hP : ¬ P) : Agree p P a b k k' :=
  ⟨h.timeless, h.flag, h.old, h.old', fun hP' => absurd hP' hP⟩

/-- **Between the time hooks** the two runs do the same once the state is saved. -/
theorem lockstep_passUp {pc : Word} :
    Lockstep (Agree p (pc ≠ 0) a b) (fun k k' => Raised p pc a b (k.saveTrap p) (k'.saveTrap p))
      (fun _ => Handled p (pc ≠ 0) a b) (passUp M .pgm) := by
  refine Lockstep.bind
    (S := fun q k k' => q = p ∧ Raised p pc a b (k.saveTrap p) (k'.saveTrap p)) ?_ (fun q => ?_)
  · intro k k' h
    have hp : k.gCurrentProcess = some p := h.current
    have hp' : k'.gCurrentProcess = some p := h.agree.current.symm.trans h.current
    rw [Twin, wp_current hp, wp_current hp']
    exact ⟨rfl, rfl, h⟩
  rintro k k' ⟨rfl, h⟩
  refine Lockstep.bind (S := fun _ => Raised q pc a b) (Lockstep.modify fun _ _ h => h) (fun _ => ?_)
    k k' h
  refine Lockstep.get_twin (fun k k' h => ?_) (fun k k' h => ?_)
  · rw [h.agree.pcb_field (fun c => c.area .pgm) fun _ => rfl]
  have hpc : ((k.pcb q).area .pgm).newArea.pc = pc := h.handler
  dsimp only
  rw [hpc]
  refine Lockstep.ite (R := Raised q pc a b) (fun hzero => ?_) (fun hne => ?_) k k' h
  · have hP : ¬ pc ≠ 0 := not_not.mpr hzero
    intro k k' h
    refine Lockstep.bind Blind.current (fun r => ?_) k k' (h.agree.of_not hP)
    rw [if_neg (by simp)]
    refine Lockstep.bind (Blind.terminateProgeny (n + 1) r) (fun _ => Lockstep.modify fun k k' h => ?_)
    exact ⟨h.map (g := fun k => { k with gCurrentProcess := none }) (fun _ => rfl)
      (fun _ => ⟨rfl, rfl, rfl⟩), fun hcur => absurd rfl hcur⟩
  · refine Lockstep.bind (S := fun _ => Agree q False a b) (Lockstep.modify fun k k' h => ?_)
      (fun _ => ?_)
    · have hrom : k.romArea .pgm = k'.romArea .pgm :=
        h.agree.congr_field (fun k => k.romArea .pgm) fun _ => rfl
      rw [hrom]
      exact h.agree.setPcb q fun _ => rfl
    · exact Lockstep.modify fun k k' h =>
        ⟨⟨h.timeless, h.flag, h.old, h.old', fun _ => rfl⟩, fun _ => ⟨hne, rfl⟩⟩

theorem lockstep_leaveHandler :
    Lockstep (Agree p P a b) (Handled p P a b) (fun _ _ _ => False) (leaveHandler M) := by
  refine Lockstep.get_twin (fun k k' h => ?_) (fun k k' h => ?_)
  · rw [h.agree.current]
  cases hcur : k.gCurrentProcess with
  | none => exact Blind.scheduler k k' h.agree
  | some q =>
    obtain ⟨hP, hload⟩ := h.handled (by simp [hcur])
    have hload' : k'.mStateLoaded = some (.newArea .pgm p) := (h.agree.loaded hP).symm.trans hload
    have harea := h.agree.pcb_field (fun c => c.pgmtr.newArea) (fun _ => rfl) p
    have hend : ∀ s : ProcState, Twin (Agree p P a b) (fun _ _ _ => False)
        (throw (.ldst s) : K n Unit) (throw (.ldst s)) k k' := fun s =>
      Lockstep.throw (R := Agree p P a b) (fun _ _ h => h) k k' h.agree
    refine (hend (k.pcb p).pgmtr.newArea).of_run (fun Q F hthrow => ?_) (fun Q F hthrow => ?_)
    · rw [ldstStateLoaded, wp_bind, wp_get, hload]
      exact hthrow
    · rw [harea] at hthrow
      rw [ldstStateLoaded, wp_bind, wp_get, hload']
      exact hthrow

/-! ### The handlers -/

/-- What both handlers run behind their first time hooks. -/
def trapTail (M : Machine) : K n Unit := do
  passUp M .pgm
  (do onHandlerExit (← getTODLO M) false)
  leaveHandler M

theorem lockstep_trapTail {pc : Word} :
    Lockstep (Agree p (pc ≠ 0) a b) (fun k k' => Raised p pc a b (k.saveTrap p) (k'.saveTrap p))
      (fun _ _ _ => False) (trapTail M) := by
  refine Lockstep.bind lockstep_passUp (fun _ =>
    Lockstep.bind (S := fun _ => Handled p (pc ≠ 0) a b) ?_ (fun _ => lockstep_leaveHandler))
  intro k k' h
  rw [Twin, wp_onExit, wp_onExit]
  exact ⟨rfl, h.agree.onExit, h.handled⟩

/-- The old area of program traps, for a system call. -/
def ProcState.asTrap (M : Machine) (old : ProcState) : ProcState :=
  { old with cp15Cause := M.causeExcCodeSet old.cp15Cause M.excReservedInstr }

/-- `old` is in the old area of program traps, and `bySysHdl` is 0 again. -/
def Kernel.trapped (k : Kernel n) (old : ProcState) : Kernel n :=
  { k with pgmold := old, bySysHdl := false }

theorem wp_handler_user {E : Stop → Kernel n → Prop} (hp : k.gCurrentProcess = some p)
    (hsys : M.causeExcCodeGet old.cp15Cause = M.excSyscall)
    (hrange : createProcessNr ≤ old.a1 ∧ old.a1 ≤ getPidNr) (hmode : M.kernelMode old.cpsr = false)
    (h : wp (trapTail M) (fun _ _ => False) E
      (((k.start M p (.sysBP old)).trapped (old.asTrap M)).onExit M true)) :
    wp (handler M (.sysBP old)) (fun _ _ => False) E k := by
  let k₁ : Kernel n := k.start M p (.sysBP old)
  let k₂ : Kernel n := { k₁ with pgmold := k₁.sysbold.asTrap M }
  have hold : k₁.sysbold = old := onEnter_romArea .sbk
  have hk₂ : { k₂ with bySysHdl := false } = k₁.trapped (old.asTrap M) := by rw [← hold]; rfl
  have hflag : (Kernel.onExit M { k₂ with bySysHdl := true } true).bySysHdl = true := by
    rw [onExit_bySysHdl]
  rw [wp_handler_call hp hsys, if_pos hrange, if_neg (by simp [hmode])]
  refine wp_mono (Q := fun _ _ => False) ?_ (fun _ _ h => h.elim) (fun _ _ h => h)
  rw [userModeSys, wp_bind, wp_modify, wp_bind, wp_modify, wp_bind, wp_modify, ← bind_assoc,
    wp_bind, wp_onExit, pgmTrapHandler, wp_bind]
  refine (wp_commonSubHandler_true hflag).mpr ?_
  have hstart : { Kernel.onExit M { k₂ with bySysHdl := true } true with bySysHdl := false } =
      (k₁.trapped (old.asTrap M)).onExit M true := by
    rw [← hk₂, onExit_bySysHdl, onExit_bySysHdl]
  rw [wp_bind]
  rw [trapTail, wp_bind, ← hstart] at h
  refine wp_mono h (fun _ k₃ h₃ => ?_) (fun _ _ h => h)
  rw [wp_bind] at h₃
  exact h₃

theorem wp_handler_trap {E : Stop → Kernel n → Prop} (hby : k.bySysHdl = false)
    (h : wp (trapTail M) (fun _ _ => False) E (Kernel.onEnter M { k with pgmold := old })) :
    wp (handler M (.pgmTrap old)) (fun _ _ => False) E k := by
  rw [handler, wp_bind, wp_modify, pgmTrapHandler, wp_bind]
  refine (wp_commonSubHandler_false (k := { k with pgmold := old }) hby).mpr ?_
  rw [wp_bind]
  rw [trapTail, wp_bind] at h
  refine wp_mono h (fun _ k₁ h₁ => ?_) (fun _ _ h => h)
  rw [wp_bind] at h₁
  exact h₁

theorem raised_trapped (hp : k.gCurrentProcess = some p) (hby : k.bySysHdl = false) (x : ProcState) :
    Raised p (k.pcb p).pgmtr.newArea.pc old k.sysbold
      ((((k.start M p (.sysBP old)).trapped x).onExit M true).saveTrap p)
      ((Kernel.onEnter M { k with pgmold := x }).saveTrap p) := by
  have hp₁ : ((k.start M p (.sysBP old)).trapped x).gCurrentProcess = some p :=
    onEnter_current.trans hp
  have henter : Kernel.onEnter M { k with pgmold := x } = _ :=
    onEnter_some (k := { k with pgmold := x }) hp
  have hstart : k.start M p (.sysBP old) = _ :=
    onEnter_some (k := Kernel.setPcb { k with sysbold := old, mStateLoaded := some .sysbold } p
      fun c => { c with pS := old }) hp
  have hold : (((k.start M p (.sysBP old)).trapped x).onExit M true).sysbold = old :=
    (onExit_romArea true .sbk).trans (onEnter_romArea .sbk)
  have hold' : (Kernel.onEnter M { k with pgmold := x }).sysbold = k.sysbold := onEnter_romArea .sbk
  refine ⟨?_, ?_, ?_, ?_, hold, hold', False.elim⟩
  · exact (onExit_current true).trans hp₁
  all_goals rw [onExit_some hp₁, hstart]
  · simp only [Kernel.saveTrap, Kernel.trapped, Kernel.updateTimer, Kernel.setPcb, Function.update_self]
  · rw [henter]
    simp only [Kernel.timeless, Kernel.saveTrap, Kernel.trapped, Kernel.updateTimer, Kernel.setPcb,
      Function.update_self, Function.update_idem, copyState_eq, hby]
    rfl
  · rfl

/-- **A privileged system call from user mode is a program trap**: whatever the service and the
other registers, `sysBP_Handler` stops as `pgmTrap_Handler` does for the same state with the
code `EXC_RESERVEDINSTR`, in a state that agrees with it.  `m_state_loaded` is the same too if
a handler is loaded, and no handler has written the old area of the system calls. -/
theorem userSys_eq_pgmTrap (hp : k.gCurrentProcess = some p) (hby : k.bySysHdl = false)
    (hsys : M.causeExcCodeGet old.cp15Cause = M.excSyscall) (hlo : createProcessNr ≤ old.a1)
    (hhi : old.a1 ≤ getPidNr) (hmode : M.kernelMode old.cpsr = false) :
    ∃ s k₁ k₂, handler M (.sysBP old) k = .error s k₁ ∧
      handler M (.pgmTrap (old.asTrap M)) k = .error s k₂ ∧
      Agree p ((k.pcb p).pgmtr.newArea.pc ≠ 0) old k.sysbold k₁ k₂ := by
  have hraised : Raised p (k.pcb p).pgmtr.newArea.pc old k.sysbold
      ((((k.start M p (.sysBP old)).trapped (old.asTrap M)).onExit M true).saveTrap p)
      ((Kernel.onEnter M { k with pgmold := old.asTrap M }).saveTrap p) :=
    raised_trapped hp hby (old.asTrap M)
  obtain ⟨s, k₁, k₂, hrun₁, hrun₂, h⟩ := (lockstep_trapTail (M := M) _ _ hraised).stops
  refine ⟨s, k₁, k₂, (wp_iff_eq.mp ?_).symm, (wp_iff_eq.mp ?_).symm, h⟩
  · refine wp_mono (wp_handler_user (E := fun e k' => s = e ∧ k₁ = k') hp hsys ⟨hlo, hhi⟩ hmode ?_)
      (fun _ _ h => h.elim) ?_
    · exact (wp_of_error hrun₁).mpr ⟨rfl, rfl⟩
    · rintro _ _ ⟨rfl, rfl⟩
      rfl
  · refine wp_mono (wp_handler_trap (E := fun e k' => s = e ∧ k₂ = k') hby ?_)
      (fun _ _ h => h.elim) ?_
    · exact (wp_of_error hrun₂).mpr ⟨rfl, rfl⟩
    · rintro _ _ ⟨rfl, rfl⟩
      rfl

/-- The first process asks for its pid, in user mode. -/
theorem userSys_eq_pgmTrap_getPid : ∃ (k : Kernel maxProc) (old : ProcState), old.a1 = getPidNr ∧
    ∃ s k₁ k₂, handler uarm (.sysBP old) k = .error s k₁ ∧
      handler uarm (.pgmTrap (old.asTrap uarm)) k = .error s k₂ ∧
      Agree proc0 ((k.pcb proc0).pgmtr.newArea.pc ≠ 0) old k.sysbold k₁ k₂ :=
  ⟨(boot uarm).k, { ProcState.zero with a1 := getPidNr, cp15Cause := 8 }, rfl,
    userSys_eq_pgmTrap (by decide +kernel) (by decide +kernel) (by decide) (by decide) (by decide)
      (by decide)⟩

end JaeOS
