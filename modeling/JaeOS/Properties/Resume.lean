import JaeOS.Properties.PassUp
import JaeOS.Properties.PidFreshness
import JaeOS.Refine.Outer
import JaeOS.Refine.Passage

/-!
# What the processor goes on with

Every processor state that an entry ends with is accounted for.  A process that keeps the
processor after an interrupt or a system call of the kernel has its registers back, but for
the result of the call in `a1`; after an exception it goes on in its handler; and all other
states are saved ones, which the scheduler loads.
-/

namespace JaeOS

open Function (update)

variable {n : ℕ} {M : Machine} {k k' : Kernel n} {p : Fin n} {e : Entry} {old x y : ProcState}
  {t : Hdl} {flag : Bool} {E : Stop → Kernel n → Prop}

/-- What an interrupt, or a system call of the kernel, gives back to the process. -/
def Kernel.resumed (k : Kernel n) (p : Fin n) : Entry → ProcState
  | .sysBP old =>
    if old.a1 = createProcessNr then
      { old with a1 := if k.gProcessCount.toNat < maxProc then k.nextPid else -1 }
    else if old.a1 = exitTrapNr then
      (trapType old.a2).elim old fun t => { ((k.pcb p).area t).oldArea with a1 := old.a3 }
    else if old.a1 = getPidNr then { old with a1 := (k.pcb p).pPid }
    else old
  | .pgmTrap old => old
  | .tlb old => old
  | .interrupt old _ => { old with pc := old.pc - 4 }

/-- The processor state `x` with which an entry ends, and where it comes from. -/
inductive Loads (M : Machine) (k : Kernel n) (e : Entry) (x : ProcState) (k' : Kernel n) : Prop
  | back {p : Fin n} (hp : k.gCurrentProcess = some p) (hp' : k'.gCurrentProcess = some p)
      (hcalm : e.raised M = none) (hx : x = k.resumed p e)
  | handler {p : Fin n} {t : Hdl} {y : ProcState} (hp : k.gCurrentProcess = some p)
      (hp' : k'.gCurrentProcess = some p) (hraise : e.raised M = some (t, y))
      (hh : k.Handles p t) (hx : x = ((k.pcb p).area t).newArea.handed t y)
      (hsaved : ((k'.pcb p).area t).oldArea = y)
  | dispatch {q : Fin n} (hleft : ∀ p, k.gCurrentProcess = some p → k.Leaves M p e)
      (hq : k'.gCurrentProcess = some q) (hx : x = (k'.pcb q).pS)
      (hslice : (k'.pcb q).pTimeSlice = schedTimeSlice)

/-! ### The process keeps the processor -/

/-- What others see of the old areas and of `m_state_loaded` is their own business. -/
theorem sealed_areas (P : ProcState → ProcState → Option (StatePtr n) → Prop)
    (hE : ∀ f k', E (.fault f) k') :
    Sealed M Set.univ Set.univ (fun k' : Kernel n => P k'.sysbold k'.intold k'.mStateLoaded) E where
  outer := by
    intro k k' h ho
    have hsys : k'.sysbold = k.sysbold := congrArg Outer.sysbold ho
    have hint : k'.intold = k.intold := congrArg Outer.intold ho
    have hload : k'.mStateLoaded = k.mStateLoaded := congrArg Outer.mStateLoaded ho
    rw [hsys, hint, hload]
    exact h
  write _ _ h := h
  word _ _ h := h
  fault f _ := hE f _

theorem walk_true (hE : ∀ s k', s.Plain → E s k') :
    Walk M Set.univ Set.univ (fun _ : Kernel n => True) E where
  rest _ _ := trivial
  stop _ hs := hE _ _ hs
  read _ := trivial
  exit _ _ := trivial
  own _ _ _ := trivial
  idle _ := trivial

theorem wp_leave_sysbold {Q : Unit → Kernel n → Prop} (hp : k.gCurrentProcess = some p)
    (hload : k.mStateLoaded = some .sysbold) (hE : E (.ldst k.sysbold) (k.onExit M flag)) :
    wp (leaveHandler M) Q E (k.onExit M flag) := by
  rw [wp_leaveHandler_some (p := p) (x := .sysbold)]
  · have hrom : (k.onExit M flag).sysbold = k.sysbold := onExit_romArea flag .sbk
    rw [Kernel.deref, hrom]
    exact hE
  · rw [onExit_current]
    exact hp
  · rw [onExit_mStateLoaded]
    exact hload

section Calls

variable (hp : k.gCurrentProcess = some p) (hsys : M.causeExcCodeGet old.cp15Cause = M.excSyscall)
  (hmode : M.kernelMode old.cpsr = true)

include hp hsys hmode

theorem wp_create_resumed (hnr : old.a1 = createProcessNr) :
    wp (handler M (.sysBP old)) (fun _ _ => False)
      (fun s _ => ∀ x, s = .ldst x → x = k.resumed p (.sysBP old)) k := by
  let k₁ : Kernel n := k.start M p (.sysBP old)
  have hp₁ : k₁.gCurrentProcess = some p := Kernel.start_current hp
  have hold : k₁.sysbold = old := Kernel.start_sysbold
  have hload : k₁.mStateLoaded = some .sysbold := onEnter_mStateLoaded
  obtain ⟨-, hcount, hnext⟩ := Kernel.start_counts (k := k) (M := M) (p := p) (e := .sysBP old)
  rw [Kernel.resumed, if_pos hnr, wp_handler_call hp hsys, if_pos (by rw [hnr]; decide), if_pos hmode,
    defSys, wp_bind, wp_get]
  change wp (if k₁.sysbold.a1 = createProcessNr then _ else _) _ _ k₁
  rw [hold, if_pos hnr, wp_bind, wp_get]
  by_cases hroom : k.gProcessCount.toNat < maxProc
  · have hkept : wp (createProcess (M.readState k₁.mem old.a2))
        (fun _ k₂ => ∃ w, k₂.sysbold = { old with a1 := w })
        (fun s _ => ∀ x, s = .ldst x → x = { old with a1 := k.nextPid }) k₁ := by
      refine (sealed_areas (M := M) (fun s _ _ => ∃ w, s = { old with a1 := w }) ?_).createProcess ?_ k₁ ?_
      · exact fun _ _ x hx => absurd hx (by simp)
      · rintro k' w ⟨v, hv⟩
        exact ⟨w, by rw [hv]⟩
      · exact ⟨old.a1, hold⟩
    rw [if_pos hroom]
    refine wp_mono (wp_and (wp_createProcess_numbered (fun _ x hx => absurd hx (by simp)) hp₁
      (hcount.symm ▸ hroom)) hkept) ?_ (fun _ _ h => h)
    rintro _ k₂ ⟨⟨b, -, h₂, ha1⟩, w, hw⟩
    refine wp_leave_sysbold h₂.current (h₂.loaded.trans hload) ?_
    rintro _ ⟨rfl⟩
    rw [hw] at ha1 ⊢
    rw [show w = k.nextPid from ha1.trans hnext]
  · have hfull : ¬ k₁.gProcessCount.toNat < maxProc := by
      change ¬ (k.start M p (.sysBP old)).gProcessCount.toNat < maxProc
      rw [hcount]
      exact hroom
    rw [if_neg hroom, createProcess, wp_bind, wp_get, if_neg hfull, wp_modify]
    refine wp_leave_sysbold (k := { k₁ with sysbold := { k₁.sysbold with a1 := -1 } }) hp₁ hload ?_
    rintro _ ⟨rfl⟩
    rw [hold]

theorem wp_exitTrap_resumed (hnr : old.a1 = exitTrapNr) :
    wp (handler M (.sysBP old)) (fun _ _ => False)
      (fun s _ => ∀ x, s = .ldst x → x = k.resumed p (.sysBP old)) k := by
  have hne : old.a1 ≠ createProcessNr := by
    rw [hnr]
    decide
  rw [Kernel.resumed, if_neg hne, if_pos hnr]
  cases ht : trapType old.a2 with
  | some t =>
    refine wp_mono (wp_exitTrap_loaded hp (e := .sysBP old) ⟨⟨hsys, hmode, hnr⟩, ht, rfl⟩)
      (fun _ _ h => h) ?_
    rintro _ _ rfl _ ⟨rfl⟩
    rfl
  | none =>
    let k₁ : Kernel n := k.start M p (.sysBP old)
    have hold : k₁.sysbold = old := Kernel.start_sysbold
    rw [wp_handler_call hp hsys, if_pos (by rw [hnr]; decide), if_pos hmode, defSys, wp_bind, wp_get]
    change wp (if k₁.sysbold.a1 = createProcessNr then _ else _) _ _ k₁
    rw [hold, hnr]
    change wp (exitTrap old.a2 old.a3) _ _ k₁
    rw [exitTrap, ht, wp_throw]
    exact fun x hx => absurd hx (by simp)

theorem wp_getPid_loaded (hnr : old.a1 = getPidNr) :
    wp (handler M (.sysBP old)) (fun _ _ => False)
      (fun s _ => s = .ldst { old with a1 := (k.pcb p).pPid }) k := by
  let k₁ : Kernel n := k.start M p (.sysBP old)
  have hp₁ : k₁.gCurrentProcess = some p := Kernel.start_current hp
  have hold : k₁.sysbold = old := Kernel.start_sysbold
  have hload : k₁.mStateLoaded = some .sysbold := onEnter_mStateLoaded
  have hpid : (k₁.pcb p).pPid = (k.pcb p).pPid := by
    change ((Kernel.onEnter M _).pcb p).pPid = _
    rw [onEnter_pcb, setPcb_pcb_self]
    split_ifs <;> rfl
  rw [wp_handler_call hp hsys, if_pos (by rw [hnr]; decide), if_pos hmode, defSys, wp_bind, wp_get]
  change wp (if k₁.sysbold.a1 = createProcessNr then _ else _) _ _ k₁
  rw [hold, hnr]
  change wp (getPid : K n Unit) _ _ k₁
  rw [getPid, wp_bind, wp_current hp₁, wp_modify]
  refine wp_leave_sysbold (k := { k₁ with sysbold := { k₁.sysbold with a1 := (k₁.pcb p).pPid } })
    hp₁ hload ?_
  rw [hold, hpid]

theorem wp_getPid_resumed (hnr : old.a1 = getPidNr) :
    wp (handler M (.sysBP old)) (fun _ _ => False)
      (fun s _ => ∀ x, s = .ldst x → x = k.resumed p (.sysBP old)) k := by
  have hne : ∀ {nr : Word}, getPidNr ≠ nr → old.a1 ≠ nr := fun h heq => h (hnr.symm.trans heq)
  rw [Kernel.resumed, if_neg (hne (by decide)), if_neg (hne (by decide)), if_pos hnr]
  refine wp_mono (wp_getPid_loaded hp hsys hmode hnr) (fun _ _ h => h) ?_
  rintro _ _ rfl _ ⟨rfl⟩
  rfl

/-- **The other system calls** give back the registers as they were. -/
theorem wp_call_resumed (hrange : createProcessNr ≤ old.a1 ∧ old.a1 ≤ getPidNr)
    (h1 : old.a1 ≠ createProcessNr) (h7 : old.a1 ≠ exitTrapNr) (h11 : old.a1 ≠ getPidNr)
    (hstay : ¬ k.SysLeaves M p old) :
    wp (handler M (.sysBP old)) (fun _ _ => False)
      (fun s _ => ∀ x, s = .ldst x → x = k.resumed p (.sysBP old)) k := by
  have hp₁ : (k.start M p (.sysBP old)).gCurrentProcess = some p := Kernel.start_current hp
  have hold : (k.start M p (.sysBP old)).sysbold = old := Kernel.start_sysbold
  have hload : (k.start M p (.sysBP old)).mStateLoaded = some .sysbold := onEnter_mStateLoaded
  have hstay₁ : ¬ (k.start M p (.sysBP old)).SysLeaves M p old := by
    rw [Kernel.sysLeaves_congr Kernel.start_core (fun _ => Kernel.start_handles)]
    exact hstay
  rw [Kernel.resumed, if_neg h1, if_neg h7, if_neg h11, wp_handler_call hp hsys, if_pos hrange,
    if_pos hmode]
  generalize k.start M p (.sysBP old) = k₁ at hp₁ hold hload hstay₁ ⊢
  have hfault : ∀ (s : Stop) (_ : Kernel n), (∀ x, s ≠ .ldst x) → ∀ x, s = .ldst x → x = old :=
    fun _ _ hs x hx => absurd hx (hs x)
  have hcur : wp (defSys M) (fun _ => After (fun _ => True) p (k₁.SysLeaves M p k₁.sysbold))
      (fun s _ => ∀ x, s = .ldst x → x = old) k₁ := by
    refine (walk_true ?_).defSys ⟨trivial, hp₁⟩ ?_
    · intro s k' hs
      refine hfault s k' ?_
      rintro x rfl
      exact hs
    · exact ⟨fun _ _ _ _ _ _ => trivial, fun _ _ _ => trivial, fun _ _ _ => trivial,
        fun _ _ => trivial, fun _ _ _ => trivial⟩
  have hkept : wp (defSys M)
      (fun _ k₂ => k₂.sysbold = old ∧ k₂.mStateLoaded = some .sysbold)
      (fun s _ => ∀ x, s = .ldst x → x = old) k₁ := by
    refine (sealed_areas (fun s _ l => s = old ∧ l = some .sysbold) ?_).defSys ?_ ⟨hold, hload⟩ ?_
    · exact fun f k' => hfault _ k' (by simp)
    · exact fun {k'} site _ _ => hfault _ k' (by simp)
    · rw [hold]
      exact ⟨fun _ _ => trivial, fun h => absurd h (not_or.mpr ⟨h1, h11⟩), fun h => absurd h h7,
        fun _ k' h => by rw [Kernel.command]; split_ifs <;> exact h, fun _ _ h => h⟩
  refine wp_mono (wp_and hcur hkept) ?_ (fun _ _ h => h)
  rintro _ k₂ ⟨h₂, hold₂, hload₂⟩
  refine wp_leave_sysbold (h₂.stays ?_) hload₂ ?_
  · rw [hold]
    exact hstay₁
  · rintro _ ⟨rfl⟩
    exact hold₂

end Calls

/-- **An interrupt** gives back the registers as they were. -/
theorem wp_interrupt_resumed {cause : Word} (hp : k.gCurrentProcess = some p)
    (hby : k.bySysHdl = false) (hstay : ¬ k.Leaves M p (.interrupt old cause)) :
    wp (handler M (.interrupt old cause)) (fun _ _ => False)
      (fun s _ => ∀ x, s = .ldst x → x = k.resumed p (.interrupt old cause)) k := by
  have hfault : ∀ (s : Stop) (_ : Kernel n), (∀ x, s ≠ .ldst x) →
      ∀ x, s = .ldst x → x = k.resumed p (.interrupt old cause) :=
    fun _ _ hs x hx => absurd hx (hs x)
  have hwork : Work M k (.interrupt old cause) (k.start M p (.interrupt old cause)) :=
    Work.start hby rfl (fun _ => rfl)
  have hp₁ : (k.start M p (.interrupt old cause)).gCurrentProcess = some p := Kernel.start_current hp
  have hint : (k.start M p (.interrupt old cause)).intold = k.resumed p (.interrupt old cause) :=
    beside_onEnter.intold
  rw [handler, wp_bind, wp_modify, interruptExceptionHandler, wp_bind, wp_modify, ← bind_assoc,
    wp_bind, wp_onEnter]
  change wp _ _ _ (k.start M p (.interrupt old cause))
  generalize k.start M p (.interrupt old cause) = k₁ at hwork hp₁ hint ⊢
  rw [wp_bind, wp_modify, hp₁, wp_bind]
  have hcur := (Work.walk (M := M) (k := k) (e := .interrupt old cause)
    (E := fun s _ => ∀ x, s = .ldst x → x = k.resumed p (.interrupt old cause)) ?_).dispatch
      (Work.opens hp) ⟨hwork.save (p := p) (fun _ => copyState k₁.intold (k₁.pcb p).pS), hp₁⟩
  · have hkept : wp (dispatchInterrupt M cause)
        (fun _ k₂ => k₂.intold = k.resumed p (.interrupt old cause))
        (fun s _ => ∀ x, s = .ldst x → x = k.resumed p (.interrupt old cause))
        (k₁.setPcb p fun c => { c with pS := copyState k₁.intold c.pS }) :=
      (sealed_areas (fun _ i _ => i = k.resumed p (.interrupt old cause))
        (fun f k' => hfault _ k' (by simp))).dispatchInterrupt (fun _ _ h => h) (fun _ => trivial)
          (fun _ => trivial) _ hint
    refine wp_mono (wp_and hcur hkept) ?_ (fun _ _ h => h)
    rintro _ k₂ ⟨h₂, hint₂⟩
    rw [← bind_assoc, wp_bind, wp_onExit, wp_bind, wp_get, onExit_current, h₂.stays hstay]
    rintro _ ⟨rfl⟩
    exact (beside_onExit false).intold.trans hint₂
  · intro s k' hs
    refine hfault s k' ?_
    rintro x rfl
    exact hs

/-- **A process that keeps the processor** finds its registers again. -/
theorem wp_handler_resumed (hp : k.gCurrentProcess = some p) (hby : k.bySysHdl = false)
    (hcalm : e.raised M = none) (hstay : ¬ k.Leaves M p e) :
    wp (handler M e) (fun _ _ => False) (fun s _ => ∀ x, s = .ldst x → x = k.resumed p e) k := by
  cases e with
  | sysBP old =>
    rw [Entry.raised] at hcalm
    by_cases hsys : M.causeExcCodeGet old.cp15Cause = M.excSyscall
    · rw [if_pos hsys] at hcalm
      split_ifs at hcalm with hrange hmode
      rw [Kernel.Leaves, if_pos ⟨hsys, hrange⟩, if_pos hmode] at hstay
      by_cases h1 : old.a1 = createProcessNr
      · exact wp_create_resumed hp hsys hmode h1
      by_cases h7 : old.a1 = exitTrapNr
      · exact wp_exitTrap_resumed hp hsys hmode h7
      by_cases h11 : old.a1 = getPidNr
      · exact wp_getPid_resumed hp hsys hmode h11
      exact wp_call_resumed hp hsys hmode hrange h1 h7 h11 hstay
    · rw [if_neg hsys] at hcalm
      split_ifs at hcalm with hbrk
      rw [wp_handler_bad hp hsys hbrk]
      exact fun x hx => absurd hx (by simp)
  | pgmTrap old => exact absurd hcalm (by simp [Entry.raised])
  | tlb old => exact absurd hcalm (by simp [Entry.raised])
  | interrupt old cause => exact wp_interrupt_resumed hp hby hstay

/-! ### The process leaves the processor -/

/-- What becomes of the work of an entry, when the handler goes on to the scheduler. -/
theorem wp_handler_left (hby : k.bySysHdl = false)
    (hrun : e.isInterrupt = false → ∃ p, k.gCurrentProcess = some p)
    (hleft : ∀ p, k.gCurrentProcess = some p → k.Leaves M p e) :
    wp (handler M e) (fun _ _ => False)
      (fun s k' => ∀ x, s = .ldst x → ∃ q, k'.gCurrentProcess = some q ∧ x = (k'.pcb q).pS) k := by
  let E : Stop → Kernel n → Prop :=
    fun s k' => ∀ x, s = .ldst x → ∃ q, k'.gCurrentProcess = some q ∧ x = (k'.pcb q).pS
  have hplain : ∀ s k', s.Plain → E s k' := by
    rintro s k' hs x rfl
    exact hs.elim
  have hW : Walk M {hdl | e.saves M = some hdl} Set.univ (Work M k e) E := Work.walk hplain
  have hyield : Yields M (Work M k e) E := by
    intro k₀ _ _
    refine wp_mono wp_scheduler_scheduled (fun _ _ h => h) ?_
    intro s k' hs
    exact hs.loaded
  rcases Option.eq_none_or_eq_some k.gCurrentProcess with hnone | ⟨p, hp⟩
  · cases e with
    | interrupt old cause =>
      refine hW.interrupt_none hnone hyield (Work.start hby rfl (fun _ => rfl)) ?_
        (fun _ _ x h => h.save (fun c => { c with a1 := x }))
      refine fun he => ⟨Work.tickOpen he, fun k' h => ⟨?_, h.current, h.slice⟩,
        fun _ _ x hx => absurd hx (by simp)⟩
      exact ⟨h.flag, h.tods, h.abs, h.blk, h.pid, h.user, h.oldArea, h.charged⟩
    | sysBP _ => exact absurd (hrun rfl) (by simp [hnone])
    | pgmTrap _ => exact absurd (hrun rfl) (by simp [hnone])
    | tlb _ => exact absurd (hrun rfl) (by simp [hnone])
  · refine hW.handler hp hby (fun k' _ => hplain _ k' trivial) (Work.opens hp) ?_
      (fun hstay => absurd (hleft p hp) hstay) (fun _ => hyield)
    cases e with
    | sysBP old =>
      refine Work.start hby rfl (fun q => ?_)
      by_cases hq : q = p
      · rw [hq, setPcb_pcb_self]
      · rw [setPcb_pcb_of_ne _ _ hq]
    | pgmTrap _ => exact Work.start hby rfl (fun _ => rfl)
    | tlb _ => exact Work.start hby rfl (fun _ => rfl)
    | interrupt _ _ => exact Work.start hby rfl (fun _ => rfl)

/-! ### All entries -/

/-- An exception takes the processor away from a process without a handler for it. -/
theorem Kernel.leaves_of_raised (h : e.raised M = some (t, y)) :
    k.Leaves M p e ↔ ¬ k.Handles p t := by
  cases e with
  | sysBP old =>
    rw [Entry.raised] at h
    rw [Kernel.Leaves]
    by_cases hsys : M.causeExcCodeGet old.cp15Cause = M.excSyscall
    · rw [if_pos hsys] at h
      by_cases hrange : createProcessNr ≤ old.a1 ∧ old.a1 ≤ getPidNr
      · rw [if_pos hrange] at h
        rw [if_pos ⟨hsys, hrange⟩]
        split_ifs at h with hmode
        obtain ⟨rfl, -⟩ := Prod.mk.inj (Option.some.inj h)
        rw [if_neg hmode]
      · rw [if_neg hrange] at h
        rw [if_neg (fun hc => hrange hc.2)]
        obtain ⟨rfl, -⟩ := Prod.mk.inj (Option.some.inj h)
        exact Iff.rfl
    · rw [if_neg hsys] at h
      rw [if_neg (fun hc => hsys hc.1)]
      split_ifs at h
      obtain ⟨rfl, -⟩ := Prod.mk.inj (Option.some.inj h)
      exact Iff.rfl
  | pgmTrap old =>
    obtain ⟨rfl, -⟩ := Prod.mk.inj (Option.some.inj h)
    exact Iff.rfl
  | tlb old =>
    obtain ⟨rfl, -⟩ := Prod.mk.inj (Option.some.inj h)
    exact Iff.rfl
  | interrupt old cause => exact absurd h (by simp [Entry.raised])

variable {c : Config maxProc} {L : Set (Fin maxProc)} {ok : Kernel maxProc → Entry → Prop}
  {ev : Event}

theorem CanTake.exists_ldst {c : Config n} {ev : Event} (h : CanTake c ev)
    (he : ev.entry.isInterrupt = false) : ∃ x, c.stop = .ldst x :=
  h.resolve_right (fun hw => absurd (he.symm.trans hw.2) (by simp))

end JaeOS
