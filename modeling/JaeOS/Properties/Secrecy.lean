import JaeOS.Properties.Newborn
import JaeOS.Refine.TwoRuns

/-!
# What a process keeps to itself

The kernel saves the registers of a process and loads them again, and hands them to its
handlers, but it looks at the arguments of the system calls only.  So two runs in which a
process computes with other registers, and makes the same calls, cannot be told apart by
the other processes, nor by the schedule.
-/

namespace JaeOS

open Function (update)

variable {n : ℕ} {M : Machine} {k k' : Kernel n} {p q : Fin n} {O : Set (Fin n)} {W : Set Word}
  {e e' : Entry} {ev ev' : Event} {old old' : ProcState}

/-! ### What the kernel looks at -/

/-- What the kernel looks at when it is entered. -/
inductive Look
  | call (args : List Word)
  | userCall
  | above
  | breakpoint
  | bad
  | pgmTrap
  | tlb
  | interrupt (cause : Word)

def Entry.look (M : Machine) : Entry → Look
  | .sysBP old =>
    if M.causeExcCodeGet old.cp15Cause = M.excSyscall then
      if createProcessNr ≤ old.a1 ∧ old.a1 ≤ getPidNr then
        if M.kernelMode old.cpsr then .call old.args else .userCall
      else .above
    else if M.causeExcCodeGet old.cp15Cause = M.excBreakpoint then .breakpoint
    else .bad
  | .pgmTrap _ => .pgmTrap
  | .tlb _ => .tlb
  | .interrupt _ cause => .interrupt cause

/-- The semaphore an entry works on, for a system call. -/
def Entry.semaphore (M : Machine) : Entry → Option Word
  | .sysBP old =>
    if M.causeExcCodeGet old.cp15Cause = M.excSyscall ∧ M.kernelMode old.cpsr then callSem M old
    else none
  | _ => none

/-- The ways in which `sysBP_Handler` goes on. -/
inductive Looks (M : Machine) (old : ProcState) : Look → Prop
  | call {args} (hargs : old.args = args) (hsys : M.causeExcCodeGet old.cp15Cause = M.excSyscall)
      (hrange : createProcessNr ≤ old.a1 ∧ old.a1 ≤ getPidNr) (hmode : M.kernelMode old.cpsr = true) :
      Looks M old (.call args)
  | userCall (hsys : M.causeExcCodeGet old.cp15Cause = M.excSyscall)
      (hrange : createProcessNr ≤ old.a1 ∧ old.a1 ≤ getPidNr) (hmode : ¬ M.kernelMode old.cpsr = true) :
      Looks M old .userCall
  | above (hsys : M.causeExcCodeGet old.cp15Cause = M.excSyscall)
      (hrange : ¬ (createProcessNr ≤ old.a1 ∧ old.a1 ≤ getPidNr)) : Looks M old .above
  | breakpoint (hsys : M.causeExcCodeGet old.cp15Cause ≠ M.excSyscall)
      (hbrk : M.causeExcCodeGet old.cp15Cause = M.excBreakpoint) : Looks M old .breakpoint
  | bad (hsys : M.causeExcCodeGet old.cp15Cause ≠ M.excSyscall)
      (hbrk : M.causeExcCodeGet old.cp15Cause ≠ M.excBreakpoint) : Looks M old .bad

theorem looks (M : Machine) (old : ProcState) : Looks M old ((Entry.sysBP old).look M) := by
  rw [Entry.look]
  split_ifs with hsys hrange hmode hbrk
  · exact .call rfl hsys hrange hmode
  · exact .userCall hsys hrange hmode
  · exact .above hsys hrange
  · exact .breakpoint hsys hbrk
  · exact .bad hsys hbrk

theorem looks_sysBP (M : Machine) (old : ProcState) : (Entry.sysBP old).look M ≠ .pgmTrap ∧
    (Entry.sysBP old).look M ≠ .tlb ∧ ∀ cause, (Entry.sysBP old).look M ≠ .interrupt cause := by
  have hlook := looks M old
  generalize (Entry.sysBP old).look M = l at hlook
  cases hlook <;> simp

/-- Two entries that the kernel cannot tell apart, and no process in `O` can. -/
structure SameEntry (M : Machine) (O : Set (Fin n)) (W : Set Word) (k k' : Kernel n) (e e' : Entry) :
    Prop where
  look : e.look M = e'.look M
  sem : ∀ a, e.semaphore M = some a → a ∈ W
  own : ∀ p ∈ O, k.gCurrentProcess = some p → e = e'
  birth : ∀ b ∈ O, k.born M e = some b → k.passed M e = k'.passed M e'

/-! ### One entry -/

theorem Akin.saved (h : Akin O W k k') (hold : p ∈ O → old = old') : Akin O W
    (Kernel.setPcb { k with sysbold := old, mStateLoaded := some .sysbold } p
      fun c => { c with pS := old })
    (Kernel.setPcb { k' with sysbold := old', mStateLoaded := some .sysbold } p
      fun c => { c with pS := old' }) := by
  have hsysbold : Akin O W { k with sysbold := old, mStateLoaded := some .sysbold }
      { k' with sysbold := old', mStateLoaded := some .sysbold } :=
    ⟨congrArg (fun k : Kernel n => { k with mStateLoaded := some .sysbold }) h.outline, h.mem, h.own⟩
  refine hsysbold.setPcb p (fun _ _ hc => hc) (fun hO c => ?_)
  rw [hold hO]

theorem Akin.start (h : Akin O W k k') (hp : k.gCurrentProcess = some p) (hold : p ∈ O → old = old') :
    Along O W (Called O) (k.start M p (.sysBP old)) (k'.start M p (.sysBP old')) := by
  have hsaved : Along O W (Called O)
      (Kernel.setPcb { k with sysbold := old, mStateLoaded := some .sysbold } p
        fun c => { c with pS := old })
      (Kernel.setPcb { k' with sysbold := old', mStateLoaded := some .sysbold } p
        fun c => { c with pS := old' }) := by
    refine ⟨h.saved hold, fun q hq => ⟨rfl, ?_⟩⟩
    obtain rfl : p = q := Option.some.inj (hp.symm.trans hq)
    exact hold
  exact (Unseen.enter (M := M) _ _ hsaved).2

theorem both_leave (x x' : K n Unit) (flag : Bool)
    (hx : ∀ Q F, wp x (fun _ k₁ => wp (leaveHandler M) Q F (k₁.onExit M flag)) F
      (k.start M p (.sysBP old)) → wp (handler M (.sysBP old)) Q F k)
    (hx' : ∀ Q F, wp x' (fun _ k₁ => wp (leaveHandler M) Q F (k₁.onExit M flag)) F
      (k'.start M p (.sysBP old')) → wp (handler M (.sysBP old')) Q F k')
    (h : Both (fun a b k k' => a = b ∧ Along O W (Goes O) k k') (EndAkin O W) x x'
      (k.start M p (.sysBP old)) (k'.start M p (.sysBP old'))) :
    Both (fun _ _ _ _ => False) (EndAkin O W) (handler M (.sysBP old) : K n Unit)
      (handler M (.sysBP old')) k k' := by
  have hleave : Relates (Along O W (Goes O)) (fun _ _ _ _ => False) (EndAkin O W)
      ((getTODLO M >>= fun t => onHandlerExit t flag) >>= fun _ => leaveHandler M : K n Unit)
      ((getTODLO M >>= fun t => onHandlerExit t flag) >>= fun _ => leaveHandler M) :=
    Relates.seq Unseen.exit (fun _ => Unseen.leaveHandler)
  refine (h.bind (fun _ _ k₁ k₁' h₁ => hleave k₁ k₁' h₁.2)).of_run (fun Q F hQ => hx Q F ?_)
    (fun Q F hQ => hx' Q F ?_)
  · rw [wp_bind] at hQ
    refine wp_mono hQ (fun _ k₁ h₁ => ?_) (fun _ _ h => h)
    rw [wp_bind, wp_onExit] at h₁
    exact h₁
  · rw [wp_bind] at hQ
    refine wp_mono hQ (fun _ k₁ h₁ => ?_) (fun _ _ h => h)
    rw [wp_bind, wp_onExit] at h₁
    exact h₁

/-- **System calls and breakpoints.** -/
theorem sysBP_endAkin (h : Akin O W k k') (hp : k.gCurrentProcess = some p)
    (hsame : SameEntry M O W k k' (.sysBP old) (.sysBP old')) :
    Both (fun _ _ _ _ => False) (EndAkin O W) (handler M (.sysBP old) : K n Unit)
      (handler M (.sysBP old')) k k' := by
  have hp' : k'.gCurrentProcess = some p := h.current.symm.trans hp
  have hold : p ∈ O → old = old' := fun hO => Entry.sysBP.inj (hsame.own p hO hp)
  have hstart : Along O W (Called O) (k.start M p (.sysBP old)) (k'.start M p (.sysBP old')) :=
    h.start hp hold
  have hlook := looks M old
  have hlook' := looks M old'
  rw [← hsame.look] at hlook'
  generalize (Entry.sysBP old).look M = l at hlook hlook'
  cases hlook with
  | call hargs hsys hrange hmode =>
    cases hlook' with
    | call hargs' hsys' hrange' hmode' =>
      refine both_leave (defSys M) (defSys M) true (fun Q F hQ => ?_) (fun Q F hQ => ?_)
        (Unseen.defSys hstart ?_ ?_ ?_)
      · rw [wp_handler_call hp hsys, if_pos hrange, if_pos hmode]
        exact hQ
      · rw [wp_handler_call hp' hsys', if_pos hrange', if_pos hmode']
        exact hQ
      · rw [Kernel.start_sysbold, Kernel.start_sysbold, hargs, hargs']
      · intro a ha
        rw [Kernel.start_sysbold] at ha
        refine hsame.sem a ?_
        rw [Entry.semaphore, if_pos ⟨hsys, hmode⟩]
        exact ha
      · intro hnr b hb hspare
        have hcore : (k.start M p (.sysBP old)).core = k.core := Kernel.start_core
        have hcore' : (k'.start M p (.sysBP old')).core = k'.core := Kernel.start_core
        have hmem : (k.start M p (.sysBP old)).mem = k.mem := congrArg Core.mem hcore
        have hmem' : (k'.start M p (.sysBP old')).mem = k'.mem := congrArg Core.mem hcore'
        rw [Kernel.start_sysbold] at hnr
        rw [Kernel.start_sysbold, Kernel.start_sysbold, hmem, hmem']
        refine hsame.birth b hb ?_
        have he : (Entry.sysBP old).Sys M createProcessNr := ⟨hsys, hmode, hnr⟩
        rw [born_of_sys hp he, ← hcore]
        exact hspare
  | userCall hsys hrange hmode =>
    cases hlook' with
    | userCall hsys' hrange' hmode' =>
      refine both_leave (userModeSys M) (userModeSys M) true (fun Q F hQ => ?_)
        (fun Q F hQ => ?_)
        ((Unseen.userModeSys hstart).mono (fun _ _ _ _ h => h.elim) (fun _ _ _ _ h => h))
      · rw [wp_handler_call hp hsys, if_pos hrange, if_neg hmode]
        exact hQ
      · rw [wp_handler_call hp' hsys', if_pos hrange', if_neg hmode']
        exact hQ
  | above hsys hrange =>
    cases hlook' with
    | above hsys' hrange' =>
      refine both_leave (sysAboveBP M) (sysAboveBP M) true (fun Q F hQ => ?_)
        (fun Q F hQ => ?_) (Unseen.sysAboveBP hstart)
      · rw [wp_handler_call hp hsys, if_neg hrange]
        exact hQ
      · rw [wp_handler_call hp' hsys', if_neg hrange']
        exact hQ
  | breakpoint hsys hbrk =>
    cases hlook' with
    | breakpoint hsys' hbrk' =>
      refine both_leave (sysAboveBP M) (sysAboveBP M) false (fun Q F hQ => ?_)
        (fun Q F hQ => ?_) (Unseen.sysAboveBP hstart)
      · rw [wp_handler_break hp hsys hbrk]
        exact hQ
      · rw [wp_handler_break hp' hsys' hbrk']
        exact hQ
  | bad hsys hbrk =>
    cases hlook' with
    | bad hsys' hbrk' =>
      have hend : Both (fun _ _ _ _ => False) (EndAkin O W)
          (throw (.panic .badException) : K n Unit) (throw (.panic .badException) : K n Unit) _ _ :=
        ⟨h.saved hold, rfl, fun _ _ _ => rfl⟩
      refine hend.of_run (fun Q F hF => ?_) (fun Q F hF => ?_)
      · rw [wp_handler_bad hp hsys hbrk]
        exact hF
      · rw [wp_handler_bad hp' hsys' hbrk']
        exact hF

/-- **Entries that cannot be told apart** end alike. -/
theorem handler_endAkin (hW : HasNucleus M W) (h : Akin O W k k') (hsame : SameEntry M O W k k' e e') :
    Both (fun _ _ _ _ => False) (EndAkin O W) (handler M e : K n Unit) (handler M e') k k' := by
  have hlook := hsame.look
  cases e with
  | sysBP old =>
    cases e' with
    | sysBP old' =>
      cases hcur : k.gCurrentProcess with
      | some p => exact sysBP_endAkin h hcur hsame
      | none =>
        have hnone : Along O W (fun _ _ _ => True)
            { k with sysbold := old, mStateLoaded := some .sysbold }
            { k' with sysbold := old', mStateLoaded := some .sysbold } :=
          ⟨⟨congrArg (fun k : Kernel n => { k with mStateLoaded := some .sysbold }) h.outline, h.mem,
            h.own⟩, fun _ _ => trivial⟩
        refine Both.modify_bind (Both.modify_bind (Both.get_bind (Unseen.current_bind hnone ?_)))
        exact fun p hp => absurd (hcur.symm.trans hp) (by simp)
    | pgmTrap _ => exact absurd hlook (looks_sysBP M old).1
    | tlb _ => exact absurd hlook (looks_sysBP M old).2.1
    | interrupt _ cause => exact absurd hlook ((looks_sysBP M old).2.2 cause)
  | pgmTrap old =>
    cases e' with
    | pgmTrap old' =>
      refine Both.modify_bind (Unseen.trapHandler (t := .pgm) _ _ ⟨⟨h.outline, h.mem, h.own⟩, ?_⟩)
      exact fun q hq hO => Entry.pgmTrap.inj (hsame.own q hO hq)
    | sysBP old' => exact absurd hlook.symm (looks_sysBP M old').1
    | tlb _ | interrupt _ _ => exact absurd hlook (by simp [Entry.look])
  | tlb old =>
    cases e' with
    | tlb old' =>
      refine Both.modify_bind (Unseen.trapHandler (t := .tlb) _ _ ⟨⟨h.outline, h.mem, h.own⟩, ?_⟩)
      exact fun q hq hO => Entry.tlb.inj (hsame.own q hO hq)
    | sysBP old' => exact absurd hlook.symm (looks_sysBP M old').2.1
    | pgmTrap _ | interrupt _ _ => exact absurd hlook (by simp [Entry.look])
  | interrupt old cause =>
    cases e' with
    | interrupt old' cause' =>
      obtain rfl : cause = cause' := Look.interrupt.inj hlook
      refine Both.modify_bind (Unseen.interruptExceptionHandler hW ⟨⟨h.outline, h.mem, h.own⟩, ?_⟩)
      exact fun q hq hO => (Entry.interrupt.inj (hsame.own q hO hq)).1
    | sysBP old' => exact absurd hlook.symm ((looks_sysBP M old').2.2 cause)
    | pgmTrap _ | tlb _ => exact absurd hlook (by simp [Entry.look])

/-! ### Runs -/

/-- Two events that the kernel cannot tell apart, and no process in `O` can. -/
structure SameEvent (M : Machine) (O : Set (Fin n)) (W : Set Word) (k k' : Kernel n) (ev ev' : Event) :
    Prop where
  mem : ∀ a ∈ W, ev.mem a = ev'.mem a
  reg : ev.reg = ev'.reg
  nullSlice : ev.nullSlice = ev'.nullSlice
  entry : SameEntry M O W (k.atEntry M ev) (k'.atEntry M ev') ev.entry ev'.entry

/-- Two runs, with such an event in each of them at every step. -/
inductive Abreast (M : Machine) (O : Set (Fin n)) (W : Set Word) : Config n → Config n → Prop
  | boot : Abreast M O W (boot M) (boot M)
  | step {c c' ev ev'} (h : Abreast M O W c c') (hsame : SameEvent M O W c.k c'.k ev ev') :
      Abreast M O W (step M c ev) (step M c' ev')

theorem Akin.atEntry (h : Akin O W k k') (hsame : SameEvent M O W k k' ev ev') :
    Akin O W (k.atEntry M ev) (k'.atEntry M ev') := by
  refine ⟨?_, fun a ha => ?_, h.own⟩
  · have hout := congrArg
      (fun k : Kernel n => { k with reg := ev.reg, nullSlice := ev.nullSlice }) h.outline
    rw [Kernel.atEntry, Kernel.atEntry, ← hsame.reg, ← hsame.nullSlice]
    exact hout
  · change (if M.nucleus a then k.mem a else ev.mem a) = if M.nucleus a then k'.mem a else ev'.mem a
    rw [h.mem a ha, hsame.mem a ha]

/-- **Private registers stay private**: two runs that keep abreast have the same outline, and the
processes in `O` have the same blocks and are loaded with the same states. -/
theorem registers_private {c c' : Config n} (hW : HasNucleus M W) (h : Abreast M O W c c') :
    c.k.outline = c'.k.outline ∧ c.stop.outline = c'.stop.outline ∧ (∀ a ∈ W, c.k.mem a = c'.k.mem a) ∧
      ∀ q ∈ O, c.k.pcb q = c'.k.pcb q ∧ (c.k.gCurrentProcess = some q → c.stop = c'.stop) := by
  have hend : EndAkin O W c.stop c'.stop c.k c'.k := by
    induction h with
    | boot => exact ⟨⟨rfl, fun _ _ => rfl, fun _ _ => rfl⟩, rfl, fun _ _ _ => rfl⟩
    | @step c c' ev ev' _ hsame ih =>
      obtain ⟨s, s', k₁, k₁', hrun, hrun', hend⟩ :=
        (handler_endAkin hW (ih.akin.atEntry hsame) hsame.entry).stops
      rw [JaeOS.step, JaeOS.step, runToStop, runToStop, hrun, hrun']
      exact hend
  exact ⟨hend.akin.outline, hend.stop, hend.akin.mem, fun q hq => ⟨hend.akin.own q hq, hend.own q hq⟩⟩

/-- The second process is interrupted with different registers: the first one goes on in the same
way. -/
theorem registers_private_second : ∃ c c' : Config maxProc,
    (c.k.pcb ⟨1, by decide⟩).pS.v1 = 1 ∧ (c'.k.pcb ⟨1, by decide⟩).pS.v1 = 2 ∧
      c.k.gCurrentProcess = some proc0 ∧ c.stop = c'.stop := by
  let work (v : Word) : Event :=
    (Entry.interrupt { ProcState.zero with v1 := v } ((1 : Word) <<< (ilTimer + 24))).event
  let c₁ : Config maxProc := step uarm (boot uarm) (sys createProcessNr 0 0 0)
  let c₂ : Config maxProc := step uarm c₁ timerInterrupt
  have hsame : ∀ (k : Kernel maxProc) (ev : Event), SameEvent uarm {proc0} Set.univ k k ev ev :=
    fun k ev => ⟨fun _ _ => rfl, rfl, rfl, rfl, fun _ _ => trivial, fun _ _ _ => rfl, fun _ _ _ => rfl⟩
  have hother : ∀ c : Config maxProc, Abreast uarm {proc0} Set.univ c c →
      c.k.gCurrentProcess = some ⟨1, by decide⟩ →
      Abreast uarm {proc0} Set.univ (step uarm c (work 1)) (step uarm c (work 2)) := by
    intro c hc hrun
    refine hc.step ⟨fun _ _ => rfl, rfl, rfl, rfl, fun _ _ => trivial, ?_, fun _ _ _ => rfl⟩
    rintro p rfl hp
    exact absurd (hrun.symm.trans hp) (by decide)
  have hnucleus : HasNucleus uarm Set.univ := ⟨Set.mem_univ _, fun _ _ _ _ => Set.mem_univ _⟩
  obtain ⟨-, -, -, hown⟩ := registers_private hnucleus
    (hother c₂ ((Abreast.boot.step (hsame _ _)).step (hsame _ _)) (by decide +kernel))
  exact ⟨step uarm c₂ (work 1), step uarm c₂ (work 2), by decide +kernel, by decide +kernel,
    by decide +kernel, (hown proc0 rfl).2 (by decide +kernel)⟩

end JaeOS
