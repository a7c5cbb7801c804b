import JaeOS.Refine.Effect
import JaeOS.Properties.Uarm

/-!
# Exceptions of a process

An exception is passed up to the handler the process has specified for its type: the state
is saved in the old area of the type, and the handler starts from the new area.  EXITTRAP
goes back to the old area.  Between the two the area is written by nothing else.
-/

namespace JaeOS

open Function (update)

variable {n : ℕ} {M : Machine} {k k' : Kernel n} {e : Entry} {t : Hdl} {x y new : ProcState}

/-! ### What is passed up -/

/-- The type under which an entry raises an exception in the process, and the state that is
saved for it.  A system call of the user mode becomes a program trap. -/
def Entry.raised (M : Machine) : Entry → Option (Hdl × ProcState)
  | .sysBP old =>
    if M.causeExcCodeGet old.cp15Cause = M.excSyscall then
      if createProcessNr ≤ old.a1 ∧ old.a1 ≤ getPidNr then
        if M.kernelMode old.cpsr then none
        else some (.pgm, { old with
          cp15Cause := M.causeExcCodeSet old.cp15Cause M.excReservedInstr })
      else some (.sbk, old)
    else if M.causeExcCodeGet old.cp15Cause = M.excBreakpoint then some (.sbk, old)
    else none
  | .pgmTrap old => some (.pgm, old)
  | .tlb old => some (.tlb, old)
  | .interrupt _ _ => none

/-- A handler is entered: the fields that SYS4, SYS5 and SYS6 have specified. -/
structure ProcState.Enters (y new : ProcState) : Prop where
  pc : y.pc = new.pc
  sp : y.sp = new.sp
  cpsr : y.cpsr = new.cpsr
  cp15Control : y.cp15Control = new.cp15Control
  cp15EntryHi : y.cp15EntryHi = new.cp15EntryHi
  cp15Cause : y.cp15Cause = new.cp15Cause

/-- The new area as a handler gets it, for an exception in the state `x`: with the cause in
`a1`, or with the arguments of the system call and the mode it was made in. -/
def ProcState.handed (new : ProcState) (t : Hdl) (x : ProcState) : ProcState :=
  if t = .sbk then
    { new with
      a1 := (x.a1 &&& 0xFFFFFFF) ||| x.cpsr <<< 28, a2 := x.a2, a3 := x.a3, a4 := x.a4 }
  else { new with a1 := x.cp15Cause }

theorem ProcState.handed_enters : (new.handed t x).Enters new := by
  rw [handed]
  split_ifs <;> exact ⟨rfl, rfl, rfl, rfl, rfl, rfl⟩

/-- The exception is on its way up: the state is saved, and the handler is what is loaded. -/
structure Kernel.PassesUp (k : Kernel n) (p : Fin n) (t : Hdl) (x new : ProcState) : Prop where
  current : k.gCurrentProcess = some p
  loaded : k.mStateLoaded = some (.newArea t p)
  saved : ((k.pcb p).area t).oldArea = x
  handed : ((k.pcb p).area t).newArea = new.handed t x

/-- How an exception ends that is passed up. -/
structure PassedUp (p : Fin n) (t : Hdl) (x new : ProcState) (s : Stop) (k : Kernel n) : Prop where
  loaded : s = .ldst (new.handed t x)
  saved : ((k.pcb p).area t).oldArea = x

theorem Kernel.PassesUp.leave {p : Fin n} (h : k.PassesUp p t x new) (flag : Bool) :
    wp (leaveHandler M) (fun _ _ => False) (PassedUp p t x new) (k.onExit M flag) := by
  rw [wp_leaveHandler_some (p := p) (x := .newArea t p)]
  · refine ⟨?_, ?_⟩
    · rw [Kernel.deref, onExit_area, h.handed]
    · rw [onExit_area]
      exact h.saved
  · rw [onExit_current]
    exact h.current
  · rw [onExit_mStateLoaded]
    exact h.loaded

/-- **`commonSubHandler`** between the time hooks. -/
theorem wp_passUp_handled {p : Fin n} (hp : k.gCurrentProcess = some p) (hh : k.Handles p t)
    (ht : t ≠ .sbk) :
    wp (passUp M t) (fun _ k' => k'.PassesUp p t (k.romArea t) ((k.pcb p).area t).newArea)
      (fun _ _ => False) k := by
  let k₁ : Kernel n := k.setPcb p fun c => { c with pS := k.romArea t }
  have harea : (k₁.pcb p).area t = (k.pcb p).area t := by
    rw [setPcb_pcb_self]
    cases t <;> rfl
  have hrom : k₁.romArea t = k.romArea t := by cases t <;> rfl
  let area : PcbArea := ⟨copyState (k₁.romArea t) ((k₁.pcb p).area t).oldArea,
    { ((k₁.pcb p).area t).newArea with a1 := (k₁.romArea t).cp15Cause }⟩
  have hset : ((k₁.setPcb p fun c => c.setArea t area).pcb p).area t = area := by
    rw [setPcb_pcb_self, Pcb.area_setArea_self]
  have hpc : ¬ ((k₁.pcb p).area t).newArea.pc = 0 := by
    rw [harea]
    exact hh
  rw [passUp, wp_bind, wp_current hp, wp_bind, wp_modify, wp_bind, wp_get]
  refine wp_if (fun hpc' => absurd hpc' hpc) (fun _ => ?_)
  rw [wp_bind, wp_modify, wp_modify]
  refine ⟨hp, rfl, (congrArg PcbArea.oldArea hset).trans hrom, ?_⟩
  change ((k₁.setPcb p fun c => c.setArea t area).pcb p |>.area t).newArea = _
  rw [hset, ProcState.handed, if_neg ht, ← harea, ← hrom]

/-- **`sysAboveBP`** between the time hooks. -/
theorem wp_sysAboveBP_handled {p : Fin n} (hp : k.gCurrentProcess = some p) (hh : k.Handles p .sbk) :
    wp (sysAboveBP M) (fun _ k' => k'.PassesUp p .sbk k.sysbold ((k.pcb p).area .sbk).newArea)
      (fun _ _ => False) k := by
  have hpc : ¬ (k.pcb p).sysbp.newArea.pc = 0 := hh
  rw [sysAboveBP, wp_bind, wp_current hp, wp_bind, wp_get]
  dsimp only
  rw [if_neg hpc, wp_bind, wp_modify, wp_modify]
  let old : ProcState := k.sysbold
  let area : PcbArea := ⟨copyState old (k.pcb p).sysbp.oldArea,
    { (k.pcb p).sysbp.newArea with
      a1 := (old.a1 &&& 0xFFFFFFF) ||| old.cpsr <<< 28, a2 := old.a2, a3 := old.a3, a4 := old.a4 }⟩
  have hset : ((k.setPcb p fun c => { c with sysbp := area }).pcb p).area .sbk = area := by
    rw [setPcb_pcb_self]
    rfl
  refine ⟨hp, rfl, congrArg PcbArea.oldArea hset, (congrArg PcbArea.newArea hset).trans ?_⟩
  rw [ProcState.handed, if_pos rfl]
  rfl

theorem wp_userModeSys_handled {p : Fin n} {old : ProcState} (hp : k.gCurrentProcess = some p)
    (hold : k.sysbold = old) (hh : k.Handles p .pgm) :
    wp (userModeSys M) (fun _ _ => False)
      (PassedUp p .pgm { old with cp15Cause := M.causeExcCodeSet old.cp15Cause M.excReservedInstr }
        ((k.pcb p).area .pgm).newArea) k := by
  subst hold
  let k₁ : Kernel n := { k with
    pgmold := { copyState k.sysbold k.pgmold with
      cp15Cause := M.causeExcCodeSet k.sysbold.cp15Cause M.excReservedInstr } }
  let k₂ : Kernel n := Kernel.onExit M { k₁ with bySysHdl := true } true
  have hflag : k₂.bySysHdl = true := by
    change (Kernel.onExit M { k₁ with bySysHdl := true } true).bySysHdl = true
    rw [onExit_bySysHdl true true]
  have hp₂ : k₂.gCurrentProcess = some p := (onExit_current true).trans hp
  have hh₂ : k₂.Handles p .pgm := (onExit_handles true p .pgm).mpr hh
  have harea : (k₂.pcb p).area .pgm = (k.pcb p).area .pgm := onExit_area true
  have hrom : k₂.pgmold = { k.sysbold with
      cp15Cause := M.causeExcCodeSet k.sysbold.cp15Cause M.excReservedInstr } :=
    onExit_romArea true .pgm
  rw [userModeSys, wp_bind, wp_modify, wp_bind, wp_modify, wp_bind, wp_modify, ← bind_assoc,
    wp_bind, wp_onExit, pgmTrapHandler, wp_bind]
  refine (wp_commonSubHandler_true (k := k₂) hflag).mpr ?_
  rw [wp_bind]
  refine wp_mono (wp_passUp_handled (k := { k₂ with bySysHdl := false }) hp₂ hh₂ (by decide)) ?_
    (fun _ _ h => h.elim)
  intro _ k₃ h₃
  rw [wp_onExit]
  refine wp_mono (h₃.leave (M := M) false) (fun _ _ h => h) ?_
  intro s k₄ h₄
  rw [← harea, ← hrom]
  exact h₄

theorem wp_trap_handled {p : Fin n} (hp : k.gCurrentProcess = some p) (hby : k.bySysHdl = false)
    (hh : k.Handles p t) (ht : t ≠ .sbk) :
    wp (do commonSubHandler M t; leaveHandler M) (fun _ _ => False)
      (PassedUp p t (k.romArea t) ((k.pcb p).area t).newArea) k := by
  have hp₁ : (k.onEnter M).gCurrentProcess = some p := onEnter_current.trans hp
  have hh₁ : (k.onEnter M).Handles p t := (onEnter_handles p t).mpr hh
  rw [wp_bind, wp_commonSubHandler_false hby, wp_bind]
  refine wp_mono (wp_passUp_handled hp₁ hh₁ ht) ?_ (fun _ _ h => h.elim)
  intro _ k₂ h₂
  rw [wp_onExit]
  refine wp_mono (h₂.leave (M := M) false) (fun _ _ h => h) ?_
  intro s k₃ h₃
  rw [onEnter_romArea, onEnter_area] at h₃
  exact h₃

/-- **An exception is passed up** to the handler of the process. -/
theorem wp_handler_raised {p : Fin n} (hp : k.gCurrentProcess = some p) (hby : k.bySysHdl = false)
    (he : e.raised M = some (t, x)) (hh : k.Handles p t) :
    wp (handler M e) (fun _ _ => False) (PassedUp p t x ((k.pcb p).area t).newArea) k := by
  cases e with
  | sysBP old =>
    let k₁ : Kernel n := k.start M p (.sysBP old)
    have hp₁ : k₁.gCurrentProcess = some p := Kernel.start_current hp
    have hold : k₁.sysbold = old := Kernel.start_sysbold
    have harea : ∀ t, (k₁.pcb p).area t = (k.pcb p).area t := by
      intro t
      change ((Kernel.onEnter M _).pcb p).area t = _
      rw [onEnter_area, setPcb_pcb_self]
      cases t <;> rfl
    have habove : ∀ flag, x = old → t = .sbk → wp (sysAboveBP M)
        (fun _ k' => wp (leaveHandler M) (fun _ _ => False)
          (PassedUp p t x ((k.pcb p).area t).newArea) (k'.onExit M flag))
        (PassedUp p t x ((k.pcb p).area t).newArea) k₁ := by
      rintro flag rfl rfl
      have hh₁ : k₁.Handles p .sbk := Kernel.start_handles.mpr hh
      refine wp_mono (wp_sysAboveBP_handled hp₁ hh₁) ?_ (fun _ _ h => h.elim)
      intro _ k₂ h₂
      rw [hold, harea] at h₂
      exact h₂.leave flag
    rw [Entry.raised] at he
    by_cases hsys : M.causeExcCodeGet old.cp15Cause = M.excSyscall
    · rw [if_pos hsys] at he
      rw [wp_handler_call hp hsys]
      by_cases hrange : createProcessNr ≤ old.a1 ∧ old.a1 ≤ getPidNr
      · rw [if_pos hrange] at he ⊢
        by_cases hmode : M.kernelMode old.cpsr = true
        · rw [if_pos hmode] at he
          exact absurd he (by simp)
        · rw [if_neg hmode] at he ⊢
          obtain ⟨rfl, rfl⟩ := Prod.mk.inj (Option.some.inj he)
          have hh₁ : k₁.Handles p .pgm := Kernel.start_handles.mpr hh
          refine wp_mono (wp_userModeSys_handled hp₁ hold hh₁) (fun _ _ h => h.elim) ?_
          intro s k₂ h₂
          rw [harea] at h₂
          exact h₂
      · rw [if_neg hrange] at he ⊢
        obtain ⟨ht, hx⟩ := Prod.mk.inj (Option.some.inj he)
        exact habove true hx.symm ht.symm
    · rw [if_neg hsys] at he
      by_cases hbrk : M.causeExcCodeGet old.cp15Cause = M.excBreakpoint
      · rw [if_pos hbrk] at he
        rw [wp_handler_break hp hsys hbrk]
        obtain ⟨ht, hx⟩ := Prod.mk.inj (Option.some.inj he)
        exact habove false hx.symm ht.symm
      · rw [if_neg hbrk] at he
        exact absurd he (by simp)
  | pgmTrap old =>
    obtain ⟨rfl, rfl⟩ := Prod.mk.inj (Option.some.inj he)
    rw [handler, wp_bind, wp_modify]
    exact wp_trap_handled (k := { k with pgmold := old }) hp hby hh (by decide)
  | tlb old =>
    obtain ⟨rfl, rfl⟩ := Prod.mk.inj (Option.some.inj he)
    rw [handler, wp_bind, wp_modify]
    exact wp_trap_handled (k := { k with tlbold := old }) hp hby hh (by decide)
  | interrupt old cause => exact absurd he (by simp [Entry.raised])

/-! ### The way back -/

/-- An EXITTRAP of the type `t` with the return value `r`. -/
def Entry.ExitsTrap (M : Machine) (t : Hdl) (r : Word) : Entry → Prop
  | .sysBP old => (Entry.sysBP old).Sys M exitTrapNr ∧ trapType old.a2 = some t ∧ old.a3 = r
  | _ => False

/-- **SYS7 loads the old area.** -/
theorem wp_exitTrap_loaded {p : Fin n} {r : Word} (hp : k.gCurrentProcess = some p)
    (he : e.ExitsTrap M t r) :
    wp (handler M e) (fun _ _ => False)
      (fun s _ => s = .ldst { ((k.pcb p).area t).oldArea with a1 := r }) k := by
  cases e with
  | sysBP old =>
    obtain ⟨⟨hsys, hmode, hnr⟩, ht, rfl⟩ := he
    let k₁ : Kernel n := k.start M p (.sysBP old)
    have hp₁ : k₁.gCurrentProcess = some p := Kernel.start_current hp
    have hold : k₁.sysbold = old := Kernel.start_sysbold
    have harea : (k₁.pcb p).area t = (k.pcb p).area t := by
      change ((Kernel.onEnter M _).pcb p).area t = _
      rw [onEnter_area, setPcb_pcb_self]
      cases t <;> rfl
    rw [wp_handler_call hp hsys, if_pos (by rw [hnr]; decide), if_pos hmode, defSys, wp_bind, wp_get]
    change wp (if k₁.sysbold.a1 = createProcessNr then _ else _) _ _ k₁
    rw [hold, hnr]
    change wp (exitTrap old.a2 old.a3) _ _ k₁
    rw [exitTrap, ht]
    dsimp only
    let area : PcbArea := { (k₁.pcb p).area t with
      oldArea := { ((k₁.pcb p).area t).oldArea with a1 := old.a3 } }
    have hset : ((k₁.setPcb p fun c => c.setArea t
        { c.area t with oldArea := { (c.area t).oldArea with a1 := old.a3 } }).pcb p).area t =
          area := by
      rw [setPcb_pcb_self, Pcb.area_setArea_self]
    rw [wp_bind, wp_current hp₁, wp_bind, wp_modify, wp_modify, wp_leaveHandler_some (p := p)
      (x := .oldArea t p)]
    · rw [Kernel.deref, onExit_area, ← harea]
      exact congrArg (fun a : PcbArea => Stop.ldst a.oldArea) hset
    · rw [onExit_current]
      exact hp₁
    · rw [onExit_mStateLoaded]
  | pgmTrap _ => exact he.elim
  | tlb _ => exact he.elim
  | interrupt _ _ => exact he.elim

/-! ### Between the two -/

/-- An entry that does not hand out the block of `p`, and is no exception and no EXITTRAP of
the type `t` of the process `p`. -/
structure Kernel.Spares (k : Kernel n) (M : Machine) (p : Fin n) (t : Hdl) (e : Entry) : Prop where
  kept : k.born M e ≠ some p
  calm : k.gCurrentProcess = some p → ∀ x, e.raised M ≠ some (t, x)
  stays : k.gCurrentProcess = some p → ∀ r, ¬ e.ExitsTrap M t r

/-- An old area is written by an exception or by EXITTRAP; the third case ends the run. -/
theorem saves_cases (h : e.saves M = some t) : (∃ x, e.raised M = some (t, x)) ∨
    (∃ r, e.ExitsTrap M t r) ∨ ∃ old, e = .sysBP old ∧
      M.causeExcCodeGet old.cp15Cause ≠ M.excSyscall ∧
      M.causeExcCodeGet old.cp15Cause ≠ M.excBreakpoint := by
  cases e with
  | sysBP old =>
    rw [Entry.saves] at h
    rw [Entry.raised]
    by_cases hsys : M.causeExcCodeGet old.cp15Cause = M.excSyscall
    · rw [if_pos hsys]
      by_cases hrange : createProcessNr ≤ old.a1 ∧ old.a1 ≤ getPidNr
      · rw [if_pos ⟨hsys, hrange⟩] at h
        rw [if_pos hrange]
        by_cases hmode : M.kernelMode old.cpsr = true
        · rw [if_pos hmode] at h
          by_cases hnr : old.a1 = exitTrapNr
          · rw [if_pos hnr] at h
            exact .inr (.inl ⟨old.a3, ⟨hsys, hmode, hnr⟩, h, rfl⟩)
          · rw [if_neg hnr] at h
            exact absurd h (by simp)
        · rw [if_neg hmode] at h ⊢
          obtain rfl := Option.some.inj h
          exact .inl ⟨_, rfl⟩
      · rw [if_neg (fun hc => hrange hc.2)] at h
        rw [if_neg hrange]
        obtain rfl := Option.some.inj h
        exact .inl ⟨_, rfl⟩
    · rw [if_neg (fun hc => hsys hc.1)] at h
      rw [if_neg hsys]
      by_cases hbrk : M.causeExcCodeGet old.cp15Cause = M.excBreakpoint
      · rw [if_pos hbrk]
        obtain rfl := Option.some.inj h
        exact .inl ⟨_, rfl⟩
      · exact .inr (.inr ⟨old, rfl, hsys, hbrk⟩)
  | pgmTrap old => exact .inl ⟨old, congrArg (Option.map fun t => (t, old)) h⟩
  | tlb old => exact .inl ⟨old, congrArg (Option.map fun t => (t, old)) h⟩
  | interrupt old cause => exact absurd h (by simp [Entry.saves])

/-- **One entry** leaves the old area alone. -/
theorem step_oldArea {c : Config n} {ev : Event} {p : Fin n} (hr : Ready M c) (htake : CanTake c ev)
    (hok : (c.k.atEntry M ev).Spares M p t ev.entry) (hlive : (step M c ev).stop.Live) :
    (((step M c ev).k.pcb p).area t).oldArea = ((c.k.pcb p).area t).oldArea := by
  refine (hr.step htake hlive).oldArea p hok.kept t (fun hp hsaves => ?_)
  rcases saves_cases hsaves with ⟨x, hx⟩ | ⟨r, hr⟩ | ⟨old, hold, hsys, hbrk⟩
  · exact hok.calm hp x hx
  · exact hok.stays hp r hr
  · have hbad : wp (handler M ev.entry) (fun _ _ => False) (fun s _ => s = .panic .badException)
        (c.k.atEntry M ev) := by
      rw [hold]
      exact (wp_handler_bad hp hsys hbrk).mpr rfl
    have hstop : (step M c ev).stop = .panic .badException := runToStop_of_wp hbad
    rw [hstop] at hlive
    exact (Stop.Plain.not_live (s := .panic .badException) trivial hlive).elim

/-! ### Runs -/

variable {ok : Kernel maxProc → Entry → Prop} {c c' : Config maxProc} {cs : List (Config maxProc)}
  {L : Set (Fin maxProc)} {p : Fin maxProc}

theorem Path.oldArea (hc : Ready M c) (h : Path M (fun k e => k.Spares M p t e) c cs c')
    (hlive : c'.stop.Live) : ((c'.k.pcb p).area t).oldArea = ((c.k.pcb p).area t).oldArea := by
  induction h with
  | refl => rfl
  | snoc h htake hok ih => exact (step_oldArea (h.ready hc) htake hok hlive).trans (ih htake.live)

/-- **Pass-up and SYS7 form a round trip.** -/
theorem passUp_exitTrap {ev : Event} (hreach : Reaches M ok c L) (htake : CanTake c ev)
    (hp : c.k.gCurrentProcess = some p) (hraise : ev.entry.raised M = some (t, x))
    (hh : c.k.Handles p t) :
    (∃ y, (step M c ev).stop = .ldst y ∧ y.Enters ((c.k.pcb p).area t).newArea) ∧
      ∀ cs c' ev' r, Path M (fun k e => k.Spares M p t e) (step M c ev) cs c' → CanTake c' ev' →
        c'.k.gCurrentProcess = some p → ev'.entry.ExitsTrap M t r →
        (step M c' ev').stop = .ldst { x with a1 := r } := by
  have hr := reaches_ready hreach
  have hpass : PassedUp p t x ((c.k.pcb p).area t).newArea (step M c ev).stop (step M c ev).k :=
    runToStop_of_wp (wp_handler_raised (k := c.k.atEntry M ev) hp (hr.flag htake.live) hraise hh)
  refine ⟨⟨_, hpass.loaded, ProcState.handed_enters⟩, ?_⟩
  intro cs c' ev' r hpath htake' hp' hexit
  have hloaded : (step M c' ev').stop = .ldst { ((c'.k.pcb p).area t).oldArea with a1 := r } :=
    runToStop_of_wp (wp_exitTrap_loaded (k := c'.k.atEntry M ev') hp' hexit)
  rw [hloaded, hpath.oldArea (hr.next htake) htake'.live, hpass.saved]

/-- The first process specifies a handler for system calls, makes one above 11, and leaves
its handler again after a GETPID. -/
theorem passUp_exitTrap_sys : ∃ c' : Config maxProc, ∃ x : ProcState, x.a1 = 20 ∧ x.a2 = 5 ∧
    (step uarm c' (sys exitTrapNr 0 42 0)).stop = .ldst { x with a1 := 42 } := by
  let c₁ : Config maxProc := step uarm (boot uarm) (sys specSysHdlNr 0x9000 0xA000 0)
  let c₂ : Config maxProc := step uarm c₁ (sys 20 5 0 0)
  let c₃ : Config maxProc := step uarm c₂ (sys getPidNr 0 0 0)
  have hreach : Reaches uarm (fun _ _ => True) c₁ _ :=
    .step .boot (Config.canTake_iff.mp (by decide +kernel)) trivial
  have htake : CanTake c₁ (sys 20 5 0 0) := Config.canTake_iff.mp (by decide +kernel)
  have hp : c₁.k.gCurrentProcess = some proc0 := by decide +kernel
  have hh : c₁.k.Handles proc0 .sbk := by decide +kernel
  obtain ⟨-, hback⟩ := passUp_exitTrap hreach htake hp rfl hh
  have htake₂ : CanTake c₂ (sys getPidNr 0 0 0) := Config.canTake_iff.mp (by decide +kernel)
  have hok : (c₂.k.atEntry uarm (sys getPidNr 0 0 0)).Spares uarm proc0 .sbk
      (sys getPidNr 0 0 0).entry := by
    have hcalm : (sys getPidNr 0 0 0).entry.raised uarm = none := by decide
    refine ⟨by decide +kernel, fun _ x hx => ?_, fun _ r hr => ?_⟩
    · exact absurd (hcalm.symm.trans hx) (by simp)
    · exact absurd hr.1.2.2 (by decide)
  have hpath : Path uarm (fun k e => k.Spares uarm proc0 .sbk e) c₂ [c₃] c₃ :=
    (Path.refl c₂).snoc htake₂ hok
  refine ⟨c₃, _, ?_, ?_, hback _ c₃ (sys exitTrapNr 0 42 0) 42 hpath
    (Config.canTake_iff.mp (by decide +kernel)) (by decide +kernel) ?_⟩
  · rfl
  · rfl
  · exact ⟨⟨by decide, by decide, rfl⟩, rfl, rfl⟩

end JaeOS
