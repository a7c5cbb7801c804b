import JaeOS.Refine.Handler

/-!
# What the kernel leaves to others

The words of memory outside the kernel's variables, the device registers, the old areas of
the system calls and of the interrupts and `m_state_loaded` are what processes, devices and
the processor see of the kernel.  The functions of the kernel are walked through once more,
in any state, for this part: it changes only at the addresses a function is given.
-/

namespace JaeOS

open Function (update)

variable {n : ℕ} {M : Machine} {k k' : Kernel n} {p q : Fin n} {S W : Set Word}
  {R : Kernel n → Prop} {E : Stop → Kernel n → Prop} {a w : Word} {e : Entry}

/-- The part of the state that others see. -/
structure Outer (n : ℕ) where
  mem : Word → Word
  reg : Word → Word
  sysbold : ProcState
  intold : ProcState
  mStateLoaded : Option (StatePtr n)

def Kernel.outer (k : Kernel n) : Outer n := ⟨k.mem, k.reg, k.sysbold, k.intold, k.mStateLoaded⟩

/-- A property of this part that survives stores of an `int` at the addresses in `S`, and of a
word of memory at those in `W`. -/
structure Sealed (M : Machine) (S W : Set Word) (R : Kernel n → Prop)
    (E : Stop → Kernel n → Prop) : Prop where
  outer : ∀ {k k'}, R k → k'.outer = k.outer → R k'
  write : ∀ {k a} v, a ∈ S → R k →
    R { k with mem := update k.mem a v, reg := M.regStore k.reg a v }
  word : ∀ {k a} v, a ∈ W → R k → R { k with mem := update k.mem a v }
  fault : ∀ {k} f, R k → E (.fault f) k

/-- A word is stored in the register at `a`, or in the memory if there is none. -/
def Kernel.command (k : Kernel n) (M : Machine) (a v : Word) : Kernel n :=
  if M.isReg a then { k with reg := M.devWrite k.reg a v } else { k with mem := update k.mem a v }

/-- The integers a system call stores. -/
def sysCells (M : Machine) (old : ProcState) : List Word :=
  if old.a1 = semopNr then [old.a2]
  else if old.a1 = getCpuTimeNr then [old.a2, old.a3]
  else if old.a1 = waitClockNr then [M.gPcTimerS]
  else if old.a1 = ioDevopNr then [ioSem M old.a3 old.a4]
  else []

/-- What the system calls need of a property, besides: SYS10 leads from `R` to `R'`. -/
structure Calls (M : Machine) (old : ProcState) (S : Set Word) (R R' : Kernel n → Prop) : Prop where
  cells : ∀ a ∈ sysCells M old, a ∈ S
  ret : old.a1 = createProcessNr ∨ old.a1 = getPidNr →
    ∀ k x, R k → R { k with sysbold := { k.sysbold with a1 := x } }
  load : old.a1 = exitTrapNr → ∀ k x, R k → R { k with mStateLoaded := x }
  command : old.a1 = ioDevopNr → ∀ k, R k → R' (k.command M (ioReg M old.a3 old.a4) old.a2)
  others : old.a1 ≠ ioDevopNr → ∀ k, R k → R' k

/-- The panics on the way of a system call. -/
def Panics (R : Kernel n → Prop) (E : Stop → Kernel n → Prop) : Prop :=
  ∀ {k} site, site ≠ .deadlock → R k → E (.panic site) k

/-- The ways out of a handler. -/
def Exits (R : Kernel n → Prop) (E : Stop → Kernel n → Prop) : Prop :=
  ∀ {k} s, (∀ site, s = .panic site → site = .deadlock) → R k → E s k

theorem Exits.throw {α : Type} {s : Stop} (hexit : Exits R E)
    (hs : ∀ site, s = .panic site → site = .deadlock) : Keeps R E (throw s : K n α) :=
  Keeps.throw (fun _ h => hexit s hs h)

theorem onEnter_outer : (k.onEnter M).outer = k.outer := by
  rcases Option.eq_none_or_eq_some k.gCurrentProcess with h | ⟨p, h⟩
  · rw [onEnter_none h]
    rfl
  · rw [onEnter_some h]
    rfl

theorem onExit_outer (flag : Bool) : (k.onExit M flag).outer = k.outer := by
  rcases onExit_cases k flag with h | ⟨rfl, p, h⟩
  · rw [onExit_free h]
    rfl
  · rw [onExit_some h]
    rfl

namespace Sealed

variable (hR : Sealed M S W R E)

include hR

theorem keeps_fault {α : Type} (f : Fault) : Keeps R E (throw (.fault f) : K n α) :=
  Keeps.throw (fun _ h => hR.fault f h)

theorem liftQ {α : Type} (x : Q n α) : Keeps R E (liftM x : K n α) := by
  intro k h
  rw [wp_liftQ]
  split
  · exact hR.outer h rfl
  · exact hR.fault _ h

theorem liftT {α : Type} (x : T n α) : Keeps R E (liftM x : K n α) := by
  intro k h
  rw [wp_liftT]
  split
  · exact hR.outer h rfl
  · exact hR.fault _ h

theorem alter {f : Kernel n → Kernel n} (hf : ∀ k, (f k).outer = k.outer) :
    Keeps R E (modify f : K n PUnit) :=
  Keeps.modify (fun k h => hR.outer h (hf k))

theorem current : Keeps R E (current : K n (Fin n)) := by
  apply Keeps.get_bind
  intro k
  cases k.gCurrentProcess with
  | none => exact hR.keeps_fault _
  | some p => exact Keeps.pure

theorem readInt : Keeps R E (readInt M a) := by
  rw [JaeOS.readInt]
  exact Keeps.ite (hR.keeps_fault _) (Keeps.get_bind (fun _ => Keeps.pure))

theorem writeInt (ha : a ∈ S) : Keeps R E (writeInt M a w) := by
  rw [JaeOS.writeInt]
  exact Keeps.ite (hR.keeps_fault _) (Keeps.modify (fun _ h => hR.write w ha h))

theorem writeWord (ha : a ∈ W) : Keeps R E (writeWord M a w) := by
  rw [JaeOS.writeWord]
  exact Keeps.ite (hR.keeps_fault _) (Keeps.modify (fun _ h => hR.word w ha h))

theorem getTODLO : Keeps R E (getTODLO M : K n Word) := fun _ h => hR.outer h rfl

theorem exit {flag : Bool} : Keeps R E (JaeOS.getTODLO M >>= fun t => onHandlerExit t flag) :=
  fun _ h => wp_onExit.mpr (hR.outer h (onExit_outer flag))

/-! ### Semaphores -/

theorem semopWake {fuel : ℕ} {r : Word} : Keeps R E (semopWake M a fuel r : K n Word) := by
  induction fuel generalizing r with
  | zero => exact hR.keeps_fault _
  | succ fuel ih =>
    rw [JaeOS.semopWake]
    apply Keeps.bind (hR.liftQ _)
    intro head
    cases head with
    | none => exact Keeps.pure
    | some head =>
      apply Keeps.get_bind
      intro k
      refine Keeps.ite ?_ Keeps.pure
      dsimp only
      refine Keeps.bind (hR.alter ?_) (fun _ => ?_)
      · exact fun _ => rfl
      apply Keeps.bind (hR.liftQ _)
      intro _
      apply Keeps.bind (hR.liftQ _)
      intro _
      apply Keeps.get_bind
      intro k'
      split
      · exact hR.keeps_fault _
      · exact Keeps.bind (Keeps.ite (hR.alter (fun _ => rfl)) Keeps.pure) (fun _ => ih)

theorem semopV (ha : a ∈ S) : Keeps R E (semopV M a w : K n Unit) := by
  rw [JaeOS.semopV]
  apply Keeps.bind hR.readInt
  intro value
  exact Keeps.bind hR.semopWake (fun _ => hR.writeInt ha)

/-- **`semop`** stores at the address of the semaphore. -/
theorem semop (ha : a ∈ S) (hpanic : Panics R E) : Keeps R E (semop M a w : K n Unit) := by
  have hblock : Keeps R E (semopBlock M a w : K n Unit) := by
    rw [semopBlock]
    apply Keeps.bind hR.current
    intro p
    apply Keeps.bind (hR.liftQ _)
    intro full
    refine Keeps.ite ?_ (Keeps.throw (fun _ h => hpanic _ (by simp) h))
    refine Keeps.bind (hR.alter ?_) (fun _ => ?_)
    · exact fun _ => rfl
    rw [← bind_assoc]
    apply Keeps.bind hR.exit
    intro _
    refine Keeps.bind (hR.alter ?_) (fun _ => Keeps.ite (hR.alter ?_) Keeps.pure)
    · exact fun _ => rfl
    · exact fun _ => rfl
  rw [JaeOS.semop]
  refine Keeps.ite (hR.semopV ha) (Keeps.ite ?_ (Keeps.throw (fun _ h => hpanic _ (by simp) h)))
  rw [semopP]
  apply Keeps.bind (hR.liftQ _)
  intro head
  apply Keeps.bind hR.readInt
  intro value
  exact Keeps.ite hblock (hR.writeInt ha)

/-! ### Processes -/

theorem releasePcb : Keeps R E (releasePcb M q : K n Unit) := by
  rw [JaeOS.releasePcb]
  apply Keeps.get_bind
  intro k
  refine Keeps.bind ?_ (fun _ => Keeps.bind (hR.liftQ _) (fun _ => hR.alter (fun _ => rfl)))
  split
  · refine Keeps.bind (Keeps.ite (hR.alter (fun _ => rfl)) Keeps.pure) (fun _ => ?_)
    exact Keeps.bind (hR.liftQ _) (fun _ => Keeps.pure)
  · exact Keeps.bind (hR.liftQ _) (fun _ => Keeps.pure)

theorem killChildren {kill : Fin n → K n Unit} (hkill : ∀ q, Keeps R E (kill q)) {fuel : ℕ} :
    Keeps R E (killChildren kill fuel q) := by
  induction fuel with
  | zero => exact hR.keeps_fault _
  | succ fuel ih =>
    rw [JaeOS.killChildren]
    apply Keeps.get_bind
    intro k
    apply Keeps.ite Keeps.pure
    apply Keeps.bind (hR.liftT _)
    intro child
    cases child with
    | none => exact hR.keeps_fault _
    | some child => exact Keeps.bind (hkill child) (fun _ => ih)

theorem terminateProgeny {fuel : ℕ} : Keeps R E (terminateProgeny M fuel q : K n Unit) := by
  induction fuel generalizing q with
  | zero => exact hR.keeps_fault _
  | succ fuel ih =>
    rw [JaeOS.terminateProgeny]
    apply Keeps.bind (hR.liftT _)
    intro _
    apply Keeps.bind (hR.killChildren (fun _ => ih))
    intro _
    exact hR.releasePcb

/-- **`terminateProcess`** stores nothing. -/
theorem terminateProcess : Keeps R E (terminateProcess M w : K n Unit) := by
  rw [JaeOS.terminateProcess]
  apply Keeps.bind hR.current
  intro p
  refine Keeps.ite ?_ ?_
  · apply Keeps.get_bind
    intro k
    refine Keeps.ite Keeps.pure ?_
    split
    · exact hR.keeps_fault _
    · exact Keeps.pure
    · exact hR.terminateProgeny
  · exact Keeps.bind hR.terminateProgeny (fun _ => hR.alter (fun _ => rfl))

/-- **`createProcess`** stores its result in the old area. -/
theorem createProcess {np : ProcState} (hret : ∀ k x, R k →
    R { k with sysbold := { k.sysbold with a1 := x } }) :
    Keeps R E (createProcess np : K n Unit) := by
  have halloc : Keeps R E (allocPcb : K n (Option (Fin n))) := by
    rw [allocPcb]
    apply Keeps.bind (hR.liftQ _)
    intro r
    cases r with
    | none => exact Keeps.pure
    | some b => exact Keeps.bind (hR.alter (fun _ => rfl)) (fun _ => Keeps.pure)
  rw [JaeOS.createProcess]
  apply Keeps.get_bind
  intro k
  refine Keeps.ite ?_ (Keeps.modify (fun k h => hret k _ h))
  apply Keeps.bind halloc
  intro r
  cases r with
  | none => exact hR.keeps_fault _
  | some b =>
    refine Keeps.bind (hR.alter ?_) (fun _ => ?_)
    · exact fun _ => rfl
    rw [pidSelector]
    refine Keeps.bind (Keeps.bind (hR.alter ?_) (fun _ => Keeps.get_bind (fun _ => Keeps.pure)))
      (fun _ => ?_)
    · exact fun _ => rfl
    refine Keeps.bind (hR.alter ?_) (fun _ => ?_)
    · exact fun _ => rfl
    apply Keeps.bind hR.current
    intro _
    apply Keeps.bind (hR.liftT _)
    intro _
    apply Keeps.bind (hR.liftQ _)
    intro _
    exact Keeps.modify (fun k h => hret k _ h)

/-! ### The other system calls -/

theorem commonSys {check : Hdl} {pc sp flags : Word} :
    Keeps R E (commonSys M check pc sp flags : K n Unit) := by
  rw [JaeOS.commonSys]
  apply Keeps.bind hR.current
  intro p
  apply Keeps.get_bind
  intro k
  exact Keeps.ite (hR.alter (fun _ => rfl)) hR.terminateProcess

theorem exitTrap {t r : Word} (hload : ∀ k x, R k → R { k with mStateLoaded := x })
    (hpanic : Panics R E) : Keeps R E (exitTrap t r : K n Unit) := by
  rw [JaeOS.exitTrap]
  cases trapType t with
  | none => exact Keeps.throw (fun _ h => hpanic _ (by simp) h)
  | some h =>
    apply Keeps.bind hR.current
    intro p
    refine Keeps.bind (hR.alter ?_) (fun _ => Keeps.modify (fun k hk => hload k _ hk))
    exact fun _ => rfl

theorem getCpuTime {u : Word} (ha : a ∈ S) (hu : u ∈ S) :
    Keeps R E (getCpuTime M a u : K n Unit) := by
  rw [JaeOS.getCpuTime]
  apply Keeps.bind hR.current
  intro p
  apply Keeps.get_bind
  intro k
  apply Keeps.bind (hR.writeInt ha)
  intro _
  exact Keeps.get_bind (fun _ => hR.writeInt hu)

theorem waitClock (ha : M.gPcTimerS ∈ S) (hpanic : Panics R E) :
    Keeps R E (waitClock M : K n Unit) := by
  rw [JaeOS.waitClock]
  exact Keeps.bind (hR.semop ha hpanic) (fun _ => hR.alter (fun _ => rfl))

theorem getPid (hret : ∀ k x, R k → R { k with sysbold := { k.sysbold with a1 := x } }) :
    Keeps R E (getPid : K n Unit) := by
  rw [JaeOS.getPid]
  exact Keeps.bind hR.current (fun p => Keeps.modify (fun k h => hret k _ h))

/-- **The eleven system calls.** -/
theorem defSys {R' : Kernel n → Prop} (hpanic : Panics R E) (h : R k)
    (hc : Calls M k.sysbold S R R') : wp (defSys M) (fun _ => R') E k := by
  have hcells := hc.cells
  have hout : k.sysbold.a1 ≠ ioDevopNr → ∀ (_ : Unit) k', R k' → R' k' :=
    fun hne _ => hc.others hne
  have hne : ∀ {x : Word}, x ≠ ioDevopNr → k.sysbold.a1 = x → k.sysbold.a1 ≠ ioDevopNr :=
    fun hx hax => hax ▸ hx
  rw [JaeOS.defSys, wp_bind, wp_get]
  refine wp_if (fun h1 => ?_) (fun h1 => wp_if (fun h2 => ?_) (fun h2 => wp_if (fun h3 => ?_)
    (fun h3 => wp_if (fun h4 => ?_) (fun h4 => wp_if (fun h5 => ?_) (fun h5 => wp_if (fun h6 => ?_)
      (fun h6 => wp_if (fun h7 => ?_) (fun h7 => wp_if (fun h8 => ?_) (fun h8 => wp_if (fun h9 => ?_)
        (fun h9 => wp_if (fun h10 => ?_) (fun h10 => wp_if (fun h11 => ?_) (fun _ => ?_)))))))))))
  · rw [wp_bind, wp_get]
    exact wp_mono (hR.createProcess (hc.ret (.inl h1)) k h) (hout (hne (by decide) h1))
      (fun _ _ h => h)
  · exact wp_mono (hR.terminateProcess k h) (hout (hne (by decide) h2)) (fun _ _ h => h)
  · rw [sysCells, if_pos h3] at hcells
    exact wp_mono (hR.semop (hcells _ (by simp)) hpanic k h) (hout (hne (by decide) h3))
      (fun _ _ h => h)
  · exact wp_mono (hR.commonSys k h) (hout (hne (by decide) h4)) (fun _ _ h => h)
  · exact wp_mono (hR.commonSys k h) (hout (hne (by decide) h5)) (fun _ _ h => h)
  · exact wp_mono (hR.commonSys k h) (hout (hne (by decide) h6)) (fun _ _ h => h)
  · exact wp_mono (hR.exitTrap (hc.load h7) hpanic k h) (hout (hne (by decide) h7))
      (fun _ _ h => h)
  · rw [sysCells, if_neg h3, if_pos h8] at hcells
    exact wp_mono (hR.getCpuTime (hcells _ (by simp)) (hcells _ (by simp)) k h)
      (hout (hne (by decide) h8)) (fun _ _ h => h)
  · rw [sysCells, if_neg h3, if_neg h8, if_pos h9] at hcells
    exact wp_mono (hR.waitClock (hcells _ (by simp)) hpanic k h) (hout (hne (by decide) h9))
      (fun _ _ h => h)
  · rw [sysCells, if_neg h3, if_neg h8, if_neg h9, if_pos h10] at hcells
    rw [ioDevop]
    apply (hR.semop (hcells _ (by simp)) hpanic).seq h
    intro _ k₁ h₁
    have hcommand := hc.command h10 k₁ h₁
    rw [Kernel.command] at hcommand
    rw [JaeOS.writeReg]
    refine wp_if (fun hreg => wp_if (fun _ => hR.fault _ h₁) (fun _ => ?_)) (fun hreg => ?_)
    · rw [if_pos hreg] at hcommand
      exact hcommand
    · rw [if_neg hreg] at hcommand
      rw [JaeOS.writeWord]
      exact wp_if (fun _ => hR.fault _ h₁) (fun _ => hcommand)
  · exact wp_mono (hR.getPid (hc.ret (.inr h11)) k h) (hout (hne (by decide) h11)) (fun _ _ h => h)
  · exact hout h10 () k h

/-! ### The ways out -/

section Out

variable (hexit : Exits R E)

include hexit

/-- The scheduler stores the pid for the debugger. -/
theorem scheduler (hpid : (0x00011114 : Word) ∈ W) : Keeps R E (scheduler M) := by
  rw [JaeOS.scheduler]
  apply Keeps.bind (hR.liftQ _)
  intro head
  cases head with
  | none =>
    apply Keeps.get_bind
    intro k
    refine Keeps.ite (hexit.throw (by simp)) (Keeps.ite ?_ (hexit.throw (by simp)))
    rw [← bind_assoc]
    exact Keeps.bind hR.exit (fun _ => hexit.throw (by simp))
  | some p =>
    apply Keeps.bind (hR.liftQ _)
    intro r
    refine Keeps.bind (hR.alter ?_) (fun _ => ?_)
    · exact fun _ => rfl
    apply Keeps.bind hR.current
    intro _
    refine Keeps.bind (hR.alter ?_) (fun _ => ?_)
    · exact fun _ => rfl
    rw [← bind_assoc]
    apply Keeps.bind hR.exit
    intro _
    apply Keeps.get_bind
    intro _
    apply Keeps.bind (hR.writeWord hpid)
    intro _
    exact Keeps.get_bind (fun _ => hexit.throw (by simp))

/-- **The end of a handler.** -/
theorem leaveHandler (hpid : (0x00011114 : Word) ∈ W) : Keeps R E (leaveHandler M) := by
  rw [JaeOS.leaveHandler]
  apply Keeps.get_bind
  intro k
  cases k.gCurrentProcess with
  | none => exact hR.scheduler hexit hpid
  | some p =>
    rw [ldstStateLoaded]
    apply Keeps.get_bind
    intro k'
    cases k'.mStateLoaded with
    | none => exact hR.keeps_fault _
    | some s => exact hexit.throw (by simp)

end Out

/-! ### Traps -/

section Traps

variable (hload : ∀ k x, R k → R { k with mStateLoaded := x })

include hload

theorem sysAboveBP : Keeps R E (sysAboveBP M : K n Unit) := by
  rw [JaeOS.sysAboveBP]
  apply Keeps.bind hR.current
  intro p
  apply Keeps.get_bind
  intro k
  refine Keeps.ite hR.terminateProcess ?_
  refine Keeps.bind (hR.alter ?_) (fun _ => Keeps.modify (fun k hk => hload k _ hk))
  exact fun _ => rfl

theorem passUp {check : Hdl} : Keeps R E (passUp M check : K n Unit) := by
  rw [JaeOS.passUp]
  apply Keeps.bind hR.current
  intro p
  refine Keeps.bind (hR.alter ?_) (fun _ => ?_)
  · exact fun _ => rfl
  apply Keeps.get_bind
  intro k
  refine Keeps.ite hR.terminateProcess ?_
  refine Keeps.bind (hR.alter ?_) (fun _ => Keeps.modify (fun k hk => hload k _ hk))
  exact fun _ => rfl

theorem commonSubHandler {check : Hdl} : Keeps R E (commonSubHandler M check : K n Unit) := by
  rw [JaeOS.commonSubHandler]
  apply Keeps.get_bind
  intro k
  refine Keeps.bind ?_ (fun _ => Keeps.bind (hR.passUp hload) (fun _ => hR.exit))
  cases k.bySysHdl with
  | true => exact hR.alter (fun _ => rfl)
  | false => exact fun k' h => wp_onEnter.mpr (hR.outer h onEnter_outer)

theorem userModeSys (hexit : Exits R E) (hpid : (0x00011114 : Word) ∈ W) :
    Keeps R E (userModeSys M : K n Unit) := by
  rw [JaeOS.userModeSys, pgmTrapHandler]
  refine Keeps.bind (hR.alter ?_) (fun _ => Keeps.bind (hR.alter ?_) (fun _ =>
    Keeps.bind (hR.alter ?_) (fun _ => ?_)))
  · exact fun _ => rfl
  · exact fun _ => rfl
  · exact fun _ => rfl
  rw [← bind_assoc]
  exact Keeps.bind hR.exit (fun _ =>
    Keeps.bind (hR.commonSubHandler hload) (fun _ => hR.leaveHandler hexit hpid))

end Traps

/-! ### The timer -/

theorem tickLoop (ha : M.gPcTimerS ∈ S) {fuel : ℕ} : Keeps R E (tickLoop M fuel : K n Unit) := by
  induction fuel with
  | zero => exact hR.keeps_fault _
  | succ fuel ih =>
    rw [JaeOS.tickLoop]
    apply Keeps.get_bind
    intro k
    by_cases hpos : 0 < k.gPseudoClockBlk.toInt
    · rw [if_pos hpos, JaeOS.semop, if_pos hpos]
      exact Keeps.bind (hR.semopV ha) (fun _ => Keeps.bind (hR.alter (fun _ => rfl)) (fun _ => ih))
    · rw [if_neg hpos]
      exact Keeps.pure

theorem handleTimer (ha : M.gPcTimerS ∈ S) : Keeps R E (handleTimer M : K n Unit) := by
  have hclock : Keeps R E (pseudoClock M : K n Unit) := by
    rw [pseudoClock]
    apply Keeps.bind hR.getTODLO
    intro t
    apply Keeps.get_bind
    intro k
    refine Keeps.ite (Keeps.bind (hR.alter ?_) (fun _ => hR.tickLoop ha)) Keeps.pure
    exact fun _ => rfl
  have hread : Keeps R E (currentSlice : K n Word) := by
    rw [currentSlice]
    apply Keeps.get_bind
    intro k
    cases k.gCurrentProcess with
    | none => exact Keeps.bind (hR.alter (fun _ => rfl)) (fun _ => Keeps.pure)
    | some p => exact Keeps.pure
  rw [JaeOS.handleTimer]
  apply Keeps.bind hclock
  intro _
  rw [timeSlice]
  apply Keeps.bind hread
  intro slice
  refine Keeps.ite ?_ Keeps.pure
  rw [← bind_assoc]
  apply Keeps.bind hR.exit
  intro _
  apply Keeps.get_bind
  intro k
  cases k.gCurrentProcess with
  | none => exact hR.keeps_fault _
  | some p => exact Keeps.bind (hR.liftQ _) (fun _ => hR.alter (fun _ => rfl))

/-! ### The devices -/

theorem signalDevice (ha : a ∈ S) {st : Option Word} :
    Keeps R E (signalDevice M a st : K n Unit) := by
  rw [JaeOS.signalDevice]
  apply Keeps.bind (hR.liftQ _)
  intro before
  apply Keeps.bind hR.readInt
  intro value
  refine Keeps.bind (Keeps.ite ?_ Keeps.pure) (fun _ => Keeps.bind (hR.liftQ _) (fun after => ?_))
  · have hpos : (JaeOS.semop M a 1 : K n Unit) = JaeOS.semopV M a 1 := if_pos (by decide)
    rw [hpos]
    exact hR.semopV ha
  · refine Keeps.ite ?_ Keeps.pure
    cases before with
    | none => exact hR.keeps_fault _
    | some p =>
      cases st with
      | none => exact hR.keeps_fault _
      | some st => exact hR.alter (fun _ => rfl)

section Registers

variable (hreg : ∀ k r, R k → R { k with reg := r }) (hW : ∀ a, a ∈ W)

include hreg hW

theorem writeReg : Keeps R E (writeReg M a w : K n Unit) := by
  rw [JaeOS.writeReg]
  refine Keeps.ite ?_ (hR.writeWord (hW _))
  exact Keeps.ite (hR.keeps_fault _) (Keeps.modify (fun k h => hreg k _ h))

omit hR hW in
theorem findDevice {left : ℕ} : Keeps R E (findDevice M a left : K n (Option Word)) := by
  induction left with
  | zero => exact Keeps.pure
  | succ left ih =>
    rw [JaeOS.findDevice]
    apply Keeps.get_bind
    intro k
    exact Keeps.ite Keeps.pure (Keeps.bind (Keeps.modify (fun k h => hreg k _ h)) (fun _ => ih))

theorem ackDevice {line dev : Word} : Keeps R E (ackDevice M line dev : K n (Word × Option Word)) := by
  have hack : ∀ {b : Word} {r : Word × Option Word},
      Keeps R E (JaeOS.writeReg M b M.devCAck >>= fun _ => pure r : K n (Word × Option Word)) :=
    Keeps.bind (hR.writeReg hreg hW) (fun _ => Keeps.pure)
  rw [JaeOS.ackDevice]
  refine Keeps.ite (Keeps.get_bind (fun k => Keeps.get_bind (fun k' => ?_))) ?_
  · exact Keeps.ite hack (Keeps.ite hack Keeps.pure)
  · exact Keeps.bind (hR.writeReg hreg hW) (fun _ => Keeps.get_bind (fun _ => Keeps.pure))

/-- **An interrupt of a device** writes registers and its semaphore. -/
theorem handleDevices {line : Word} (hS : ∀ a, a ∈ S) : Keeps R E (handleDevices M line : K n Unit) := by
  rw [JaeOS.handleDevices]
  apply Keeps.bind (findDevice hreg)
  intro dev
  cases dev with
  | none => exact hR.keeps_fault _
  | some dev => exact Keeps.bind (hR.ackDevice hreg hW) (fun r => hR.signalDevice (hS _))

/-- **The work for an interrupt.** -/
theorem dispatchInterrupt {cause : Word} (hS : ∀ a, a ∈ S) :
    Keeps R E (dispatchInterrupt M cause : K n Unit) := by
  rw [dispatchInterrupt_eq]
  cases M.pendingLine cause with
  | none => exact Keeps.pure
  | some line => exact Keeps.ite (hR.handleTimer (hS _)) (hR.handleDevices hreg hW hS)

end Registers

end Sealed

end JaeOS
