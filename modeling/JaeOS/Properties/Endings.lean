import JaeOS.Properties.CurrentProcess
import JaeOS.Properties.Family

/-!
# How an entry ends

Whatever a process asks for, the kernel finds its way: no `NULL` pointer is followed but by a
tick without a current process, and every loop ends.  It panics for three requests, without
touching what is queued, and goes to sleep only if there is nothing to run.
-/

namespace JaeOS

variable {n : ℕ} {M : Machine} {k : Kernel n} {e : Entry} {p : Fin n} {old : ProcState}
  {site : PanicSite} {σ : Snap n} {t : Task n}
  {c : Config maxProc} {L : Set (Fin maxProc)} {ev : Event}

/-- What the kernel panics for: a `P` or `V` of weight 0, the return from an exception of an
unknown type, and an exception that is neither a system call nor a breakpoint. -/
def Entry.refused (M : Machine) : Entry → Option PanicSite
  | .sysBP old =>
    if M.causeExcCodeGet old.cp15Cause = M.excSyscall then
      if M.kernelMode old.cpsr ∧ old.a1 = semopNr ∧ old.a3 = 0 then some .zeroWeight
      else if M.kernelMode old.cpsr ∧ old.a1 = exitTrapNr ∧ trapType old.a2 = none then some .badTrap
      else none
    else if M.causeExcCodeGet old.cp15Cause = M.excBreakpoint then none
    else some .badException
  | _ => none

/-! ### The tasks of refused requests -/

/-- A task that ends in a panic. -/
def Task.Refused : Task n → PanicSite → Prop
  | .fail site, site' => site = site'
  | .semop _ w, .zeroWeight => w.toInt = 0
  | _, _ => False

theorem Fails.refused (h : Fails σ t site) (hsite : site ≠ .noSemaphore) : t.Refused site := by
  cases h with
  | badTrap => exact rfl
  | badException => exact rfl
  | zero hw => exact hw
  | full => exact absurd rfl hsite
  | command h =>
    cases h with
    | zero hw => exact absurd hw (by decide)
    | full => exact absurd rfl hsite

theorem Task.Refused.not_does {σ' : Snap n} (h : t.Refused site) : ¬ Does M t σ σ' := by
  intro hd
  cases hd with
  | signal hw => 
    cases site with
    | zeroWeight => exact absurd h (ne_of_gt hw)
    | _ => exact h
  | grant hw =>
    cases site with
    | zeroWeight => exact absurd h (ne_of_lt hw)
    | _ => exact h
  | block hw =>
    cases site with
    | zeroWeight => exact absurd h (ne_of_lt hw)
    | _ => exact h
  | _ => exact h

theorem raise_not_refused (p : Fin n) (hdl : Hdl) : ¬ (k.raise p hdl).Refused site := by
  rw [Kernel.raise]
  split_ifs <;> exact id

theorem specify_not_refused (p : Fin n) (hdl : Hdl) : ¬ (k.specify p hdl).Refused site := by
  rw [Kernel.specify]
  split_ifs <;> exact id

theorem interrupt_not_refused {reg : Word → Word} {cause : Word} :
    ¬ (M.interruptTask reg cause : Task n).Refused site := by
  rw [Machine.interruptTask]
  split
  · exact id
  · split_ifs
    · exact id
    · split <;> exact id

theorem sysTask_refused_iff : (k.sysTask M p old).Refused site ↔
    old.a1 = semopNr ∧ old.a3 = 0 ∧ site = .zeroWeight ∨
      old.a1 = exitTrapNr ∧ trapType old.a2 = none ∧ site = .badTrap := by
  by_cases h3 : old.a1 = semopNr
  · have htask : k.sysTask M p old = .semop old.a2 old.a3 := by
      rw [Kernel.sysTask, h3]
      rfl
    have hne : old.a1 ≠ exitTrapNr := by
      rw [h3]
      decide
    have hzero : old.a3.toInt = 0 ↔ old.a3 = 0 :=
      ⟨fun h => BitVec.toInt_inj.mp h, fun h => by rw [h]; rfl⟩
    rw [htask]
    cases site with
    | zeroWeight => simpa [Task.Refused, h3] using hzero
    | _ => simp [Task.Refused, hne]
  by_cases h7 : old.a1 = exitTrapNr
  · have htask : k.sysTask M p old =
        if (trapType old.a2).isSome then .nothing else .fail .badTrap := by
      rw [Kernel.sysTask, h7]
      rfl
    rw [htask]
    cases ht : trapType old.a2 with
    | some t => simp [Task.Refused, h3]
    | none =>
      refine ⟨fun h => .inr ⟨h7, rfl, Eq.symm h⟩, ?_⟩
      rintro (⟨h, -⟩ | ⟨-, -, rfl⟩)
      · exact absurd h h3
      · exact rfl
  · have hnot : ¬ (k.sysTask M p old).Refused site := by
      have hwait : ∀ a : Word, ¬ (Task.semop a (-1) : Task n).Refused site := by
        intro a h
        cases site with
        | zeroWeight => exact absurd (show (-1 : Word).toInt = 0 from h) (by decide)
        | _ => exact h
      rw [Kernel.sysTask, if_neg h3, if_neg h7]
      split_ifs
      · exact id
      · rw [Kernel.killTask]
        split <;> exact id
      · exact specify_not_refused p .sbk
      · exact specify_not_refused p .tlb
      · exact specify_not_refused p .pgm
      · exact id
      · exact hwait _
      · exact hwait _
      · exact id
      · exact id
    simp [hnot, h3, h7]

/-- **The requests that are refused.** -/
theorem task_refused_iff (hp : e.isInterrupt = false → ∃ p, k.gCurrentProcess = some p) :
    (k.task M e).Refused site ↔ e.refused M = some site := by
  cases e with
  | interrupt old cause => exact iff_of_false interrupt_not_refused (by simp [Entry.refused])
  | pgmTrap old =>
    obtain ⟨p, hp⟩ := hp rfl
    rw [Kernel.task, hp]
    exact iff_of_false (raise_not_refused p .pgm) (by simp [Entry.refused])
  | tlb old =>
    obtain ⟨p, hp⟩ := hp rfl
    rw [Kernel.task, hp]
    exact iff_of_false (raise_not_refused p .tlb) (by simp [Entry.refused])
  | sysBP old =>
    obtain ⟨p, hp⟩ := hp rfl
    rw [Kernel.task, hp, Option.elim_some, Kernel.sysBPTask, Entry.refused]
    by_cases hsys : M.causeExcCodeGet old.cp15Cause = M.excSyscall
    · rw [if_pos hsys, if_pos hsys]
      have hrange : old.a1 = semopNr ∨ old.a1 = exitTrapNr →
          createProcessNr ≤ old.a1 ∧ old.a1 ≤ getPidNr := by
        rintro (h | h) <;> rw [h] <;> decide
      by_cases hin : createProcessNr ≤ old.a1 ∧ old.a1 ≤ getPidNr
      · rw [if_pos hin]
        cases hmode : M.kernelMode old.cpsr with
        | true =>
          rw [if_pos rfl, sysTask_refused_iff]
          by_cases h3 : old.a1 = semopNr ∧ old.a3 = 0
          · rw [if_pos ⟨rfl, h3⟩, Option.some_inj]
            refine ⟨?_, fun h => .inl ⟨h3.1, h3.2, h.symm⟩⟩
            rintro (⟨-, -, h⟩ | ⟨h, -⟩)
            · exact h.symm
            · exact absurd (h3.1.symm.trans h) (by decide)
          rw [if_neg (fun h => h3 h.2)]
          by_cases h7 : old.a1 = exitTrapNr ∧ trapType old.a2 = none
          · rw [if_pos ⟨rfl, h7⟩, Option.some_inj]
            refine ⟨?_, fun h => .inr ⟨h7.1, h7.2, h.symm⟩⟩
            rintro (⟨h, -⟩ | ⟨-, -, h⟩)
            · exact absurd (h7.1.symm.trans h) (by decide)
            · exact h.symm
          · rw [if_neg (fun h => h7 h.2)]
            simp only [reduceCtorEq, iff_false]
            rintro (⟨h, h', -⟩ | ⟨h, h', -⟩)
            · exact h3 ⟨h, h'⟩
            · exact h7 ⟨h, h'⟩
        | false =>
          rw [if_neg (by simp)]
          exact iff_of_false (raise_not_refused p .pgm) (by simp)
      · rw [if_neg hin]
        refine iff_of_false (raise_not_refused p .sbk) ?_
        rw [if_neg (fun h => hin (hrange (.inl h.2.1))), if_neg (fun h => hin (hrange (.inr h.2.1)))]
        simp
    · rw [if_neg hsys, if_neg hsys]
      by_cases hbrk : M.causeExcCodeGet old.cp15Cause = M.excBreakpoint
      · rw [if_pos hbrk, if_pos hbrk]
        exact iff_of_false (raise_not_refused p .sbk) (by simp)
      · rw [if_neg hbrk, if_neg hbrk, Option.some_inj]
        exact Iff.rfl

/-! ### The ways out -/

theorem Ends.fails {σ' : Snap n} (h : Ends M t σ (.panic site) σ') (hsite : site ≠ .deadlock) :
    Fails σ t site ∧ σ' = σ := by
  generalize hstop : Stop.panic site = stop at h
  cases h with
  | fail hf =>
    cases hstop
    exact ⟨hf, rfl⟩
  | back => cases hstop
  | dispatch => cases hstop
  | idle =>
    rcases σ'.verdict_cases with hv | hv | hv
    · exact absurd (hstop.trans hv) (by simp)
    · exact absurd (hstop.trans hv) (by simp)
    · exact absurd (Stop.panic.inj (hstop.trans hv)) hsite

theorem Ends.refused {σ' : Snap n} {stop : Stop} (h : Ends M t σ stop σ') (ht : t.Refused site) :
    stop = .panic site := by
  cases h with
  | fail hf =>
    cases hf with
    | badTrap => exact congrArg Stop.panic ht
    | badException => exact congrArg Stop.panic ht
    | zero =>
      cases site with
      | zeroWeight => rfl
      | _ => exact ht.elim
    | full hw =>
      cases site with
      | zeroWeight => exact absurd ht (ne_of_lt hw)
      | _ => exact ht.elim
    | command => exact ht.elim
  | back hd => exact absurd hd ht.not_does
  | dispatch hd => exact absurd hd ht.not_does
  | idle hd => exact absurd hd ht.not_does

theorem Ends.rests {σ' : Snap n} {stop : Stop} (h : Ends M t σ stop σ')
    (hstop : stop = .halt ∨ stop = .wait ∨ stop = .panic .deadlock) :
    σ'.core.gCurrentProcess = none ∧ σ'.view.list .ready = [] := by
  cases h with
  | idle hd hidle hready => exact ⟨hidle, hready⟩
  | fail hf =>
    rcases hstop with h | h | h
    · cases h
    · cases h
    · obtain rfl := Stop.panic.inj h
      exact absurd rfl hf.site_ne_deadlock
  | back => rcases hstop with h | h | h <;> cases h
  | dispatch => rcases hstop with h | h | h <;> cases h

/-! ### Runs -/

/-- How an entry ends that finds the state `k` and leaves `c'`, with the live processes `L'`. -/
structure EndsWell (M : Machine) (k : Kernel maxProc) (e : Entry) (c' : Config maxProc)
    (L' : Set (Fin maxProc)) : Prop where
  sound : ∀ f, c'.stop ≠ .fault f
  read : k.Ticks M e → c'.k.nullRead = k.nullRead
  refused : ∀ site, site ≠ .deadlock → site ≠ .noSemaphore →
    (c'.stop = .panic site ↔ e.refused M = some site)
  untouched : ∀ site, site ≠ .deadlock → c'.stop = .panic site → c'.k.core = k.core
  running : ∀ x, c'.stop = .ldst x → ∃ p ∈ L', c'.k.gCurrentProcess = some p
  halted : c'.stop = .halt ↔ L' = ∅
  idle : c'.stop = .halt ∨ c'.stop = .wait ∨ c'.stop = .panic .deadlock →
    c'.k.gCurrentProcess = none ∧ c'.k.Queue .gReadyQueue []

/-- **Every entry ends well**: in every run of entries the kernel is ready for, no handler
follows a bad pointer or loops forever, but for the time slice that a tick without a current process looks for; it panics for the three
requests that are refused, which leave queues, tree, counters and semaphores as they were, or
when there is no descriptor left; it loads a live process, or there is none to load. -/
theorem entries_end (hL : Layout M) (h : Reaches M (fun k e => k.Admits M e) c L)
    (htake : CanTake c ev) (hok : (c.k.atEntry M ev).Admits M ev.entry) :
    EndsWell M (c.k.atEntry M ev) ev.entry (step M c ev)
      {q | (q ∈ L ∨ (c.k.atEntry M ev).born M ev.entry = some q) ∧
        ¬ (c.k.atEntry M ev).Dies M ev.entry q} := by
  obtain ⟨σ, hb⟩ := h.exists_between hL
  obtain ⟨σ', hb', hends, -⟩ := hb.step hL htake hok
  have hcore : (σ.atEntry M ev.mem).core = (c.k.atEntry M ev).core := Snap.atEntry_core hb.core
  have hrun : ev.entry.isInterrupt = false → ∃ p, (c.k.atEntry M ev).gCurrentProcess = some p := by
    intro hint
    rcases htake with ⟨s, hs⟩ | ⟨-, hint'⟩
    · exact hb.running s hs
    · exact absurd (hint.symm.trans hint') (by simp)
  have hread : (c.k.atEntry M ev).Ticks M ev.entry →
      (step M c ev).k.nullRead = (c.k.atEntry M ev).nullRead := by
    intro hticks
    have hne : ev.entry.isInterrupt = false → (c.k.atEntry M ev).gCurrentProcess ≠ none := by
      intro hint
      obtain ⟨p, hp⟩ := hrun hint
      simp [hp]
    have hsettled : Settled (c.k.atEntry M ev).nullRead (step M c ev).stop (step M c ev).k :=
      runToStop_of_wp (passage_settled rfl hne hticks).handler
    exact hsettled.read
  refine ⟨hb'.sound, hread, fun site hdead hfull => ⟨fun hstop => ?_, fun href => ?_⟩,
    fun site hdead hstop => ?_, fun x hx => ?_, (h.step htake hok).halt_iff hL, fun hrest => ?_⟩
  · rw [hstop] at hends
    exact (task_refused_iff hrun).mp ((hends.fails hdead).1.refused hfull)
  · exact hends.refused ((task_refused_iff hrun).mpr href)
  · rw [hstop] at hends
    obtain ⟨-, rfl⟩ := hends.fails hdead
    exact hb'.core.symm.trans hcore
  · obtain ⟨p, hp⟩ := hb'.running x hx
    refine ⟨p, (hb'.live p).mp ?_, hp⟩
    rw [(hb'.consistent.current p).mpr (by rw [hb'.core]; exact hp)]
    simp
  · obtain ⟨hidle, hready⟩ := hends.rests hrest
    rw [hb'.core] at hidle
    have hqueue := (Snap.owned_of_core hb'.core).listed .ready _ rfl
    rw [hready] at hqueue
    exact ⟨hidle, hqueue⟩

/-- The first process asks for a `V` of weight 0. -/
theorem entries_end_zero : (step uarm (boot uarm : Config maxProc) (sys semopNr 0x2000 0 0)).stop =
    .panic .zeroWeight ∧
    (step uarm (boot uarm : Config maxProc) (sys semopNr 0x2000 0 0)).k.core =
      ((boot uarm : Config maxProc).k.atEntry uarm (sys semopNr 0x2000 0 0)).core := by
  have htake : CanTake (boot uarm : Config maxProc) (sys semopNr 0x2000 0 0) :=
    Config.canTake_iff.mp (by decide +kernel)
  have hends := entries_end layout_uarm .boot htake (.of_tame (by decide +kernel))
  have hstop := (hends.refused .zeroWeight (by decide) (by decide)).mpr (by decide)
  exact ⟨hstop, hends.untouched .zeroWeight (by decide) hstop⟩

end JaeOS
