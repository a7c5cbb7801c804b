import JaeOS.Refine.Footprint

/-!
# Entries in any state

What survives the work of a handler and the saving of the current process survives an
entry; the scheduler in any state.
-/

namespace JaeOS

open Function (update)

variable {n : ℕ} {M : Machine} {k k' k₁ k₂ : Kernel n} {p q b : Fin n} {e : Entry}
  {cur : Option (Fin n)} {R R₀ : Kernel n → Prop} {E : Stop → Kernel n → Prop} {a w : Word}

/-! ### Entries -/

/-- The entry is an interrupt of a device, and the `V` of `handleDevices` takes the
process from the queue it was the first of. -/
def Kernel.Awakened (k : Kernel n) (M : Machine) (e : Entry) (st : Word) (q : Fin n) : Prop :=
  ∃ a k₁ k₂, k.task M e = .device a st ∧ k₁.core = k.core ∧
    JaeOS.semop M a 1 k₁ = .ok () k₂ ∧ k₁.First a q ∧ ¬ k₂.First a q

/-- What an entry leaves in the `p_s` of the current process. -/
def Entry.saved : Entry → ProcState
  | .sysBP old => old
  | .pgmTrap old => old
  | .tlb old => old
  | .interrupt old _ => { old with pc := old.pc - 4 }

/-- A system call up to 11 from user mode. -/
def Entry.UserSys (M : Machine) : Entry → Prop
  | .sysBP old => M.causeExcCodeGet old.cp15Cause = M.excSyscall ∧
      (createProcessNr ≤ old.a1 ∧ old.a1 ≤ getPidNr) ∧ M.kernelMode old.cpsr = false
  | _ => False

/-- A property that survives an entry: `R₀` until the state of the current process
is saved, and `R` from then on. -/
structure Passage (M : Machine) (k : Kernel n) (e : Entry) (R₀ R : Kernel n → Prop)
    (E : Stop → Kernel n → Prop) : Prop where
  before : Stable R₀
  after : Footprint M R E
  start : R₀ k
  idle : ∀ k', R₀ k' → k'.gCurrentProcess = none → R k'
  save : ∀ k' q, R₀ k' → k'.gCurrentProcess = some q →
    R (k'.setPcb q fun c => { c with pS := e.saved })
  user : e.UserSys M → ∀ k' q x, R k' → k'.gCurrentProcess = some q →
    R (k'.setPcb q fun c => { c with pS := x })
  lost : e.isInterrupt = false → ∀ k', R₀ k' → k'.gCurrentProcess = none →
    E (.fault .noCurrent) k'
  tick : k.task M e = .tick → k.gCurrentProcess = none →
    (∀ k', R k' → R { k' with nullRead := true }) ∧ ∀ k', R k' → E (.fault .nullQueued) k'
  born : ∀ b, k.born M e = some b → ∀ k' f, R k' → R (k'.setPcb b f)
  wake : ∀ st q, k.Awakened M e st q → ∀ k', R k' →
    R (k'.setPcb q fun c => { c with pS := { c.pS with a1 := st } })

namespace Passage

theorem trap {check : Hdl} (h : Passage M k e R₀ R E) (he : e.isInterrupt = false) (hk : R₀ k₁)
    (hrom : k₁.romArea check = e.saved) :
    wp (do commonSubHandler M check; leaveHandler M) (fun _ _ => False) E k₁ := by
  rw [wp_bind]
  refine wp_mono (h.after.commonSubHandler h.before hk ?_ (h.lost he)) ?_ (fun _ _ h => h)
  · intro k' q h' hq hk'
    rw [hk', hrom]
    exact h.save k' q h' hq
  · intro _ k₂ h₂
    exact h.after.leaveHandler h₂

theorem sysBP {old : ProcState} (h : Passage M k (.sysBP old) R₀ R E)
    (hk : R₀ { k with sysbold := old }) :
    wp (sysBPHandler M) (fun _ _ => False) E { k with sysbold := old } := by
  rw [sysBPHandler, wp_bind, wp_modify, wp_bind, wp_get, wp_bind]
  rcases Option.eq_none_or_eq_some k.gCurrentProcess with hp | ⟨p, hp⟩
  · refine (wp_current_none ?_).mpr ?_
    · exact hp
    · exact h.lost rfl _ (h.before.face hk ⟨rfl, rfl, rfl⟩) hp
  · have h₁ := h.save { k with sysbold := old, mStateLoaded := some .sysbold } p
      (h.before.face hk ⟨rfl, rfl, rfl⟩) hp
    refine (wp_current (p := p) ?_).mpr ?_
    · exact hp
    rw [wp_bind, wp_modify, wp_bind]
    refine wp_mono (Q := fun _ => R) ?_ (fun _ k₂ h₂ => h.after.leaveHandler h₂) (fun _ _ h => h)
    refine wp_if (fun hsys => ?_) (fun _ => wp_if (fun _ => ?_) (fun _ => ?_))
    · refine h.after.sysCall ⟨h₁, hp⟩ (fun hrange hmode => ?_) (fun hmode hone b hb => ?_)
      · exact h.user ⟨hsys, hrange, hmode⟩
      · refine h.born b ?_
        have hone' : old.a1 = createProcessNr := hone
        have hmode' : M.kernelMode old.cpsr = true := hmode
        have htask : k.task M (.sysBP old) = .create := by
          rw [Kernel.task, hp, Option.elim_some, Kernel.sysBPTask, if_pos hsys, hone',
            if_pos (by decide), if_pos hmode', Kernel.sysTask, if_pos hone']
        rw [Kernel.born, htask]
        exact hb
    · exact h.after.breakpoint ⟨h₁, hp⟩
    · exact h.after.stop h₁ trivial

theorem dispatch {old : ProcState} {cause : Word} (h : Passage M k (.interrupt old cause) R₀ R E)
    (hk : R k₁) (hcore : k₁.core = k.core) (hreg : k₁.reg = k.reg) :
    wp (dispatchInterrupt M cause) (fun _ => R) E k₁ := by
  have hcur : k₁.gCurrentProcess = k.gCurrentProcess := congrArg Core.gCurrentProcess hcore
  rw [dispatchInterrupt_eq]
  cases hline : M.pendingLine cause with
  | none => exact hk
  | some line =>
    dsimp only
    refine wp_if (fun htimer => ?_) (fun htimer => ?_)
    · have htask : k.task M (.interrupt old cause) = .tick := by
        rw [Kernel.task, Machine.interruptTask, hline]
        exact if_pos htimer
      exact h.after.handleTimer ⟨hk, hcur⟩ (h.tick htask)
    · refine wp_mono (h.after.walk.handleDevices (pendingLine_device hline htimer) ⟨hk, rfl⟩ ?_)
        (fun _ _ h => h.1) (fun _ _ h => h)
      intro c q k₂ k₃ hc hcore₂ hok hfirst hnot
      have htask : k.task M (.interrupt old cause) = .device c.sem c.status := by
        rw [hreg] at hc
        rw [Kernel.task, Machine.interruptTask, hline]
        dsimp only
        rw [if_neg htimer, hc]
      exact h.wake c.status q ⟨c.sem, k₂, k₃, htask, hcore₂.trans hcore, hok, hfirst, hnot⟩

theorem interrupt {old : ProcState} {cause : Word} (h : Passage M k (.interrupt old cause) R₀ R E)
    (hk : R₀ { k with intold := old }) :
    wp (interruptExceptionHandler M cause) (fun _ _ => False) E { k with intold := old } := by
  rw [interruptExceptionHandler, wp_bind, wp_modify, ← bind_assoc, wp_bind]
  refine wp_mono (h.before.enter ⟨h.before.face hk ⟨rfl, rfl, rfl⟩, rfl⟩) ?_ (fun _ _ h => h)
  rintro _ k₁ ⟨h₁, hcore, hb⟩
  have hold : k₁.intold = (Entry.interrupt old cause).saved := hb.intold
  rw [wp_bind, wp_modify, wp_bind]
  refine wp_mono (Q := fun _ => R) (E := E) ?_ ?_ (fun _ _ h => h)
  · cases hp : k₁.gCurrentProcess with
    | none => exact h.dispatch (h.idle k₁ h₁.1 hp) hcore hb.reg
    | some p =>
      simp only [copyState_eq, hold]
      exact h.dispatch (h.save k₁ p h₁.1 hp) hcore hb.reg
  intro _ k₃ h₃
  rw [← bind_assoc, wp_bind]
  refine wp_mono (h.after.exit h₃) ?_ (fun _ _ h => h)
  intro _ k₄ h₄
  rw [wp_bind, wp_get]
  cases hp : k₄.gCurrentProcess with
  | none => exact h.after.leave h₄ hp
  | some p => exact h.after.back h₄ hp

/-- **A property that survives an entry.** -/
theorem handler (h : Passage M k e R₀ R E) : wp (handler M e) (fun _ _ => False) E k := by
  cases e with
  | sysBP old =>
    rw [JaeOS.handler, wp_bind, wp_modify]
    exact h.sysBP (h.before.face h.start ⟨rfl, rfl, rfl⟩)
  | pgmTrap old =>
    rw [JaeOS.handler, wp_bind, wp_modify]
    exact h.trap rfl (h.before.face h.start ⟨rfl, rfl, rfl⟩) rfl
  | tlb old =>
    rw [JaeOS.handler, wp_bind, wp_modify]
    exact h.trap rfl (h.before.face h.start ⟨rfl, rfl, rfl⟩) rfl
  | interrupt old cause =>
    rw [JaeOS.handler, wp_bind, wp_modify]
    exact h.interrupt (h.before.face h.start ⟨rfl, rfl, rfl⟩)

end Passage

/-! ### The scheduler -/

def Pcb.context (c : Pcb) : Pcb := { c with pTimeSlice := 0 }

/-- What the scheduler does in any state: it gives out a time slice, and loads the
saved state of the process it picks. -/
structure Scheduled (k : Kernel n) (s : Stop) (k' : Kernel n) : Prop where
  context : ∀ q, (k'.pcb q).context = (k.pcb q).context
  nullRead : k'.nullRead = k.nullRead
  loaded : ∀ x, s = .ldst x → ∃ q, k'.gCurrentProcess = some q ∧ x = (k'.pcb q).pS
  found : s ≠ .fault .noCurrent ∧ s ≠ .fault .nullQueued

/-- **The scheduler loads the saved state of the process at the head of the ready
queue.** -/
theorem wp_scheduler_scheduled : wp (scheduler M) (fun _ _ => False) (Scheduled k) k := by
  refine wp_mono wp_scheduler_schedules (fun _ _ h => h) ?_
  intro s k' h
  have hslice : ∀ (p q : Fin n), ((k.loads M p).pcb q).context = (k.pcb q).context := by
    intro p q
    rw [Kernel.loads, onExit_pcb, if_neg (by simp)]
    by_cases hq : q = p
    · rw [hq, setPcb_pcb_self]
      rfl
    · rw [setPcb_pcb_of_ne _ _ hq]
  have hpcb : ∀ {k₁ : Kernel n} {p : Fin n}, k'.rest = (k₁.loads M p).rest →
      k'.pcb = (k₁.loads M p).pcb := fun hr => congrArg Rest.pcb hr
  cases h with
  | stop hs h =>
    refine ⟨?_, ?_, ?_, ?_⟩
    · rcases h with h | ⟨p, h⟩
      · exact fun q => congrArg (fun r => (r.pcb q).context) h
      · exact fun q => (congrArg (fun b => (b q).context) (hpcb h)).trans (hslice p q)
    · rcases h with h | ⟨p, h⟩
      · exact congrArg Rest.nullRead h
      · exact congrArg Rest.nullRead h
    · rintro x rfl
      exact hs.elim
    · constructor <;> rintro rfl <;> exact hs
  | halt => exact ⟨fun _ => rfl, rfl, fun x hx => absurd hx (by simp), by simp⟩
  | wait h =>
    exact ⟨fun q => congrArg (fun r => (r.pcb q).context) h, congrArg Rest.nullRead h,
      fun x hx => absurd hx (by simp), by simp⟩
  | load p h =>
    refine ⟨fun q => (congrArg (fun b => (b q).context) (hpcb h)).trans (hslice p q),
      congrArg Rest.nullRead h, ?_, by simp⟩
    rintro x ⟨rfl⟩
    exact ⟨p, congrArg Rest.gCurrentProcess h, rfl⟩

end JaeOS
