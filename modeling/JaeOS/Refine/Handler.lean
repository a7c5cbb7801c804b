import JaeOS.Refine.Walk

/-!
# Whole handlers, in any state

The ways out of a handler, the interrupts and the devices, and with them the entries:
a property that survives the walks leads through every handler.
-/

namespace JaeOS

open Function (update)

variable {n : ℕ} {M : Machine} {k k' : Kernel n} {p q : Fin n} {e : Entry}
  {cur : Option (Fin n)} {W V : Set Hdl} {R : Kernel n → Prop} {E : Stop → Kernel n → Prop}
  {a w : Word} {C : Prop}

theorem wp_commonSubHandler_true {check : Hdl} {Q : Unit → Kernel n → Prop}
    (h : k.bySysHdl = true) :
    wp (commonSubHandler M check) Q E k ↔
      wp (passUp M check >>= fun _ => getTODLO M >>= fun t => onHandlerExit t false) Q E
        { k with bySysHdl := false } := by
  rw [commonSubHandler, wp_bind, wp_get, h]
  rfl

theorem wp_commonSubHandler_false {check : Hdl} {Q : Unit → Kernel n → Prop}
    (h : k.bySysHdl = false) :
    wp (commonSubHandler M check) Q E k ↔
      wp (passUp M check >>= fun _ => getTODLO M >>= fun t => onHandlerExit t false) Q E
        (k.onEnter M) := by
  rw [commonSubHandler, wp_bind, wp_get, h]
  rfl

/-! ### The way out -/

/-- The last time hook has just run. -/
def Hooked (M : Machine) (P : Kernel n → Prop) (k : Kernel n) : Prop :=
  ∃ k₀ flag, P k₀ ∧ k = k₀.onExit M flag

/-- A handler returns to the process it was entered from. -/
def Backs (M : Machine) (R : Kernel n → Prop) (E : Stop → Kernel n → Prop) (p : Fin n) : Prop :=
  ∀ k s flag, R k → k.gCurrentProcess = some p → E (.ldst s) (k.onExit M flag)

/-- A handler goes on to the scheduler. -/
def Yields (M : Machine) (R : Kernel n → Prop) (E : Stop → Kernel n → Prop) : Prop :=
  ∀ k, R k → k.gCurrentProcess = none → wp (scheduler M) (fun _ _ => False) E k

/-- What a tick needs of a property, besides. -/
structure TickOpen (R : Kernel n → Prop) : Prop where
  blk : ∀ k', R k' → R { k' with gPseudoClockBlk := k'.gPseudoClockBlk - 1 }
  clock : ∀ k', R k' → R { k' with gLeftTo100 := schedPseudoClock }

theorem wp_hooked {P : Kernel n → Prop} {flag : Bool} (h : P k) :
    wp (getTODLO M >>= fun t => onHandlerExit t flag) (fun _ => Hooked M P) E k :=
  wp_onExit.mpr ⟨k, flag, h, rfl⟩

theorem wp_leaveHandler_some {Q : Unit → Kernel n → Prop} {x : StatePtr n}
    (hp : k.gCurrentProcess = some p) (hx : k.mStateLoaded = some x) :
    wp (leaveHandler M) Q E k ↔ E (.ldst (k.deref x)) k := by
  rw [leaveHandler, wp_bind, wp_get, hp]
  simp only [ldstStateLoaded, wp_bind, wp_get, hx]
  exact Iff.rfl

theorem Aside.tickLoop (hA : Aside R E)
    (hblk : ∀ k', R k' → R { k' with gPseudoClockBlk := k'.gPseudoClockBlk - 1 }) {fuel : ℕ} :
    Keeps (With R cur) E (tickLoop M fuel) := by
  induction fuel with
  | zero => exact Keeps.throw (hA.stop_with trivial)
  | succ fuel ih =>
    rw [JaeOS.tickLoop]
    apply Keeps.get_bind
    intro k
    by_cases hpos : 0 < k.gPseudoClockBlk.toInt
    · rw [if_pos hpos]
      refine Keeps.bind ?_ (fun _ => Keeps.bind (Keeps.modify ?_) (fun _ => ih))
      · rw [JaeOS.semop, if_pos hpos]
        exact hA.semopV
      · exact fun k' h' => ⟨hblk k' h'.1, h'.2⟩
    · rw [if_neg hpos]
      exact Keeps.pure

namespace Walk

/-- **The end of a handler**: the current process goes on, or the scheduler does. -/
theorem leaveHandler (hW : Walk M W V R E) (h : Hooked M (After R p C) k)
    (hback : ¬ C → Backs M R E p) (hyield : C → Yields M R E) :
    wp (leaveHandler M) (fun _ _ => False) E k := by
  obtain ⟨k₀, flag, h₀, rfl⟩ := h
  have hR := hW.exit flag h₀.keeps
  rw [JaeOS.leaveHandler, wp_bind, wp_get]
  by_cases hC : C
  · have hnone := (onExit_current (M := M) flag).trans (h₀.gone hC)
    rw [hnone]
    exact hyield hC _ hR hnone
  · have hp := (onExit_current (M := M) flag).trans (h₀.stays hC)
    rw [hp]
    simp only [ldstStateLoaded, wp_bind, wp_get]
    split
    · exact hback hC k₀ _ flag h₀.keeps (h₀.stays hC)
    · exact hW.stop hR trivial

/-- **A system call from user mode** is passed up, without the first time hook. -/
theorem userModeSys (hW : Walk M W V R E) (h : With R (some p) k) (hW' : Hdl.pgm ∈ W)
    (hreset : ∀ k', R k' → R { k' with bySysHdl := false })
    (hsave : ∀ k' x, With R (some p) k' → R (k'.setPcb p fun c => { c with pS := x }))
    (hback : k.Handles p .pgm → Backs M R E p) (hyield : ¬ k.Handles p .pgm → Yields M R E) :
    wp (userModeSys M) (fun _ _ => False) E k := by
  let k₁ : Kernel n := { k with
    pgmold := { copyState k.sysbold k.pgmold with
      cp15Cause := M.causeExcCodeSet k.sysbold.cp15Cause M.excReservedInstr } }
  let k₂ : Kernel n := Kernel.onExit M { k₁ with bySysHdl := false } true
  have h₁ : With R (some p) { k₁ with bySysHdl := false } := hW.rest_with
    ⟨hreset k h.1, h.2⟩ rfl
  have h₂ : With R (some p) k₂ := ⟨hW.exit true h₁.1, (onExit_current true).trans h₁.2⟩
  have hstart : k₂ = { Kernel.onExit M { k₁ with bySysHdl := true } true with bySysHdl := false } := by
    rw [onExit_bySysHdl true true]
    exact onExit_bySysHdl false true
  rw [JaeOS.userModeSys, wp_bind, wp_modify, wp_bind, wp_modify, wp_bind, wp_modify, ← bind_assoc,
    wp_bind, wp_onExit, pgmTrapHandler, wp_bind, wp_commonSubHandler_true]
  · change wp _ _ E { Kernel.onExit M { k₁ with bySysHdl := true } true with bySysHdl := false }
    rw [← hstart, wp_bind]
    have hpass := hW.passUp h₂.2 (hsave k₂ _ h₂) hW'
    refine wp_mono hpass (fun _ k₃ h₃ => wp_mono (wp_hooked h₃) ?_ (fun _ _ h => h)) (fun _ _ h => h)
    intro _ k₄ h₄
    have hhandles : k₂.Handles p .pgm ↔ k.Handles p .pgm := onExit_handles true p .pgm
    refine hW.leaveHandler h₄ (fun hC => hback ?_) (fun hC => hyield ?_)
    · exact hhandles.mp (not_not.mp hC)
    · exact fun hyes => hC (hhandles.mpr hyes)
  · change (Kernel.onExit M { k₁ with bySysHdl := true } true).bySysHdl = true
    rw [onExit_bySysHdl true true]

/-! ### Interrupts -/

theorem pseudoClock (hW : Walk M W V R E) (ho : TickOpen R) :
    Keeps (With R cur) E (pseudoClock M) := by
  rw [JaeOS.pseudoClock]
  apply Keeps.bind hW.getTODLO
  intro tod
  apply Keeps.get_bind
  intro k
  refine Keeps.ite (Keeps.bind (Keeps.modify ?_) (fun _ => hW.tickLoop ho.blk)) Keeps.pure
  exact fun k' h' => ⟨ho.clock k' h'.1, h'.2⟩

/-- **The end of the time slice.** -/
theorem timeSlice (hW : Walk M W V R E) (h : With R (some p) k) :
    wp (timeSlice M) (fun _ => After R p (schedTimeSlice < (k.pcb p).pTimeSlice)) E k := by
  have hslice : wp (currentSlice : K n Word)
      (fun v k' => k' = k ∧ v = (k.pcb p).pTimeSlice) E k := by
    rw [currentSlice, wp_bind, wp_get, h.2]
    exact ⟨rfl, rfl⟩
  rw [JaeOS.timeSlice, wp_bind]
  refine wp_mono hslice ?_ (fun _ _ h => h)
  rintro _ _ ⟨rfl, rfl⟩
  refine wp_if (fun hlate => ?_) (fun hlate => h.after hlate)
  rw [← bind_assoc]
  apply hW.exit_with.seq h
  intro _ k₁ h₁
  rw [wp_bind, wp_get, h₁.2]
  apply (hW.liftQ _).seq h₁
  intro _ k₂ h₂
  exact .of_none (hW.idle h₂.1) rfl hlate

theorem timeSlice_none (hW : Walk M W V R E) (h : With R none k)
    (hnull : ∀ k', R k' → R { k' with nullRead := true })
    (hqueued : ∀ k', R k' → E (.fault .nullQueued) k') :
    wp (JaeOS.timeSlice M) (fun _ => With R none) E k := by
  have hslice : wp (currentSlice : K n Word) (fun _ => With R none) E k := by
    rw [currentSlice, wp_bind, wp_get, h.2]
    exact ⟨hnull k h.1, h.2⟩
  rw [JaeOS.timeSlice, wp_bind]
  refine wp_mono hslice ?_ (fun _ _ h => h)
  intro v k₁ h₁
  refine wp_if (fun _ => ?_) (fun _ => h₁)
  rw [← bind_assoc]
  apply hW.exit_with.seq h₁
  intro _ k₂ h₂
  rw [wp_bind, wp_get, h₂.2]
  exact hqueued k₂ h₂.1

theorem handleTimer (hW : Walk M W V R E) (ho : TickOpen R) (h : With R (some p) k) {v : Word}
    (hslice : ∀ k', R k' → (k'.pcb p).pTimeSlice = v) :
    wp (handleTimer M) (fun _ => After R p (schedTimeSlice < v)) E k := by
  rw [JaeOS.handleTimer]
  apply (hW.pseudoClock ho).seq h
  intro _ k₁ h₁
  rw [← hslice k₁ h₁.1]
  exact hW.timeSlice h₁

/-! ### The devices -/

/-- **The `V` of a device.** -/
theorem signalDevice (hW : Walk M W V R E) {st : Option Word} (h : With R cur k)
    (hwake : ∀ x q k₂, st = some x → JaeOS.semop M a 1 k = .ok () k₂ → k.First a q →
      ¬ k₂.First a q → ∀ k', R k' → R (k'.setPcb q fun c => { c with pS := { c.pS with a1 := x } })) :
    wp (signalDevice M a st) (fun _ => With R cur) E k := by
  rw [JaeOS.signalDevice, wp_bind, wp_liftQ]
  cases hbefore : (headBlocked a).run k.toQueues with
  | none => exact hW.stop h.1 trivial
  | some r =>
    obtain ⟨before, s⟩ := r
    obtain rfl := run_headBlocked_eq hbefore
    have hread : wp (JaeOS.readInt M a) (fun _ k' => k' = k) E k := by
      rw [JaeOS.readInt]
      exact wp_if (fun _ => hW.stop h.1 trivial) (fun _ => rfl)
    dsimp only
    rw [wp_bind]
    refine wp_mono hread ?_ (fun _ _ h => h)
    rintro value _ rfl
    rename_i k
    have hV : wp (if value.toInt < 1 then JaeOS.semop M a 1 else pure ())
        (fun _ k₂ => With R cur k₂ ∧ (k₂ = k ∨ JaeOS.semop M a 1 k = .ok () k₂)) E k := by
      have hpos : (JaeOS.semop M a 1 : K n Unit) = JaeOS.semopV M a 1 := if_pos (by decide)
      rw [hpos]
      refine wp_if (fun _ => ?_) (fun _ => ⟨h, .inl rfl⟩)
      exact wp_mono (wp_run (hW.semopV k h)) (fun _ _ h => ⟨h.1, .inr h.2⟩) (fun _ _ h => h.1)
    rw [wp_bind]
    refine wp_mono hV ?_ (fun _ _ h => h)
    rintro _ k₂ ⟨h₂, hrun⟩
    rw [wp_bind, wp_liftQ]
    cases hafter : (headBlocked a).run k₂.toQueues with
    | none => exact hW.stop h₂.1 trivial
    | some r =>
      obtain ⟨after, s⟩ := r
      obtain rfl := run_headBlocked_eq hafter
      by_cases heq : before = after
      · simp only [heq, ne_eq, not_true_eq_false, if_false]
        exact h₂
      · simp only [ne_eq, heq, not_false_eq_true, if_true]
        cases before with
        | none => exact hW.stop h₂.1 trivial
        | some q =>
          cases st with
          | none => exact hW.stop h₂.1 trivial
          | some x =>
            have hfirst : ¬ k₂.First a q := by
              rintro ⟨s, hs⟩
              rw [hafter] at hs
              exact heq (congrArg Prod.fst (Option.some.inj hs)).symm
            have hok : JaeOS.semop M a 1 k = .ok () k₂ := by
              refine hrun.resolve_left (fun hk => ?_)
              rw [hk] at hfirst
              exact hfirst ⟨_, hbefore⟩
            exact ⟨hwake x q k₂ rfl hok ⟨_, hbefore⟩ hfirst k₂ h₂.1, h₂.2⟩

theorem ackDevice (hW : Walk M W V R E) {line dev : Word}
    (hline : devIlStart ≤ line ∧ line ≤ ilTerminal) {i : ℕ} (hi : i < 8)
    (hdev : dev = BitVec.ofNat 32 i) (h : With R cur k) :
    wp (ackDevice M line dev)
      (fun r k₁ => With R cur k₁ ∧ k₁.core = k.core ∧ ∀ st, r.2 = some st →
        ∃ c, M.report k.reg line dev = some c ∧ M.devSem r.1 dev = c.sem ∧ st = c.status) E k := by
  have hwrite : ∀ {k x : Kernel n} {off w : Word}, R k → x = k → [0, 4, 8, 12].contains off = true →
      wp (JaeOS.writeReg M (M.devRegAddr line dev + off) w)
        (fun _ k₁ => k₁ = { k with reg := M.devWrite k.reg (M.devRegAddr line dev + off) w }) E x := by
    rintro k _ off w hk rfl hoff
    rw [JaeOS.writeReg, hdev, if_pos (Machine.isReg_devRegAddr hline hi hoff)]
    exact wp_if (fun _ => hW.stop (s := .fault .stray) hk trivial) (fun _ => rfl)
  rw [JaeOS.ackDevice, Machine.report, wp_ite]
  split_ifs with hterm hrecv htransm
  · rw [wp_bind, wp_get, wp_bind, wp_get, wp_ite, if_pos hrecv, wp_bind]
    refine wp_mono (hwrite h.1 rfl (by decide)) ?_ (fun _ _ h => h)
    rintro _ _ rfl
    refine ⟨hW.rest_with h rfl, rfl, ?_⟩
    rintro _ ⟨rfl⟩
    exact ⟨_, rfl, rfl, rfl⟩
  · rw [wp_bind, wp_get, wp_bind, wp_get, wp_ite, if_neg hrecv, wp_ite, if_pos htransm, wp_bind]
    refine wp_mono (hwrite h.1 rfl (by decide)) ?_ (fun _ _ h => h)
    rintro _ _ rfl
    refine ⟨hW.rest_with h rfl, rfl, ?_⟩
    rintro _ ⟨rfl⟩
    exact ⟨_, rfl, rfl, rfl⟩
  · rw [wp_bind, wp_get, wp_bind, wp_get, wp_ite, if_neg hrecv, wp_ite, if_neg htransm]
    exact ⟨h, rfl, fun _ hst => absurd hst (by simp)⟩
  · rw [wp_bind]
    refine wp_mono (hwrite h.1 rfl (by decide)) ?_ (fun _ _ h => h)
    rintro _ _ rfl
    refine ⟨hW.rest_with h rfl, rfl, ?_⟩
    rintro _ ⟨rfl⟩
    exact ⟨_, rfl, rfl, rfl⟩

/-- **`handleDevices`** writes in no block but the one of the process it wakes up. -/
theorem handleDevices (hW : Walk M W V R E) {line : Word}
    (hline : devIlStart ≤ line ∧ line ≤ ilTerminal) (h : With R cur k)
    (hwake : ∀ c q k₁ k₂, M.completion k.reg line = some c → k₁.core = k.core →
      JaeOS.semop M c.sem 1 k₁ = .ok () k₂ → k₁.First c.sem q → ¬ k₂.First c.sem q →
      ∀ k', R k' → R (k'.setPcb q fun b => { b with pS := { b.pS with a1 := c.status } })) :
    wp (handleDevices M line) (fun _ => With R cur) E k := by
  rw [JaeOS.handleDevices, wp_bind]
  refine wp_findDevice le_rfl (fun i hi => ?_) (fun _ r => ?_)
  · have hpending : pendingDevice (k.reg (M.cdevBitmapAddr line)) = some i := hi
    have hcompl : ∀ c, M.report (M.afterFind k.reg line i) line (BitVec.ofNat 32 i) = some c →
        M.completion k.reg line = some c := by
      intro c hc
      rw [Machine.completion, hpending, Option.bind_some]
      exact hc
    have hreg : With R cur { k with reg := M.afterFind k.reg line i } := hW.rest_with h rfl
    have hack : wp (JaeOS.ackDevice M line (BitVec.ofNat 32 i)) _ E
        { k with reg := M.afterFind k.reg line i } := 
          hW.ackDevice hline (lt_of_pendingDevice hi) rfl hreg
    simp only [wp_bind, Nat.zero_add, show 8 - nDevPerIl.toNat = 0 from rfl]
    refine wp_mono hack ?_ (fun _ _ h => h)
    rintro ⟨row, st⟩ k₁ ⟨h₁, hcore, hst⟩
    refine hW.signalDevice h₁ (fun x q k₂ hx hok hfirst hnot => ?_)
    obtain ⟨c, hc, hsem, rfl⟩ := hst x hx
    rw [hsem] at hok hfirst hnot
    exact hwake c q k₁ k₂ (hcompl c hc) hcore hok hfirst hnot
  · exact hW.stop (s := .fault .wild) (hW.rest h.1 rfl) trivial

end Walk

/-! ### Entries -/

/-- A system call of the kernel, by its number. -/
def Entry.Sys (M : Machine) (nr : Word) : Entry → Prop
  | .sysBP old => M.causeExcCodeGet old.cp15Cause = M.excSyscall ∧
      M.kernelMode old.cpsr = true ∧ old.a1 = nr
  | _ => False

instance (nr : Word) : Decidable (e.Sys M nr) :=
  match e with
  | .sysBP _ => inferInstanceAs (Decidable (_ ∧ _ ∧ _))
  | .pgmTrap _ | .tlb _ | .interrupt _ _ => inferInstanceAs (Decidable False)

theorem Entry.Sys.exists_old {nr : Word} (h : e.Sys M nr) : ∃ old, e = .sysBP old ∧
    M.causeExcCodeGet old.cp15Cause = M.excSyscall ∧ M.kernelMode old.cpsr = true ∧ old.a1 = nr := by
  cases e with
  | sysBP old => exact ⟨old, rfl, h⟩
  | pgmTrap _ => exact h.elim
  | tlb _ => exact h.elim
  | interrupt _ _ => exact h.elim

/-- An interrupt of the interval timer. -/
def Entry.Tick (M : Machine) : Entry → Prop
  | .interrupt _ cause => M.pendingLine cause = some ilTimer
  | _ => False

instance : Decidable (e.Tick M) :=
  match e with
  | .interrupt _ _ => inferInstanceAs (Decidable (_ = _))
  | .sysBP _ | .pgmTrap _ | .tlb _ => inferInstanceAs (Decidable False)

theorem Entry.Tick.exists_old (h : e.Tick M) :
    ∃ old cause, e = .interrupt old cause ∧ M.pendingLine cause = some ilTimer := by
  cases e with
  | interrupt old cause => exact ⟨old, cause, rfl, h⟩
  | sysBP _ => exact h.elim
  | pgmTrap _ => exact h.elim
  | tlb _ => exact h.elim

/-- The old area an entry may write. -/
def Entry.saves (M : Machine) : Entry → Option Hdl
  | .sysBP old =>
    if M.causeExcCodeGet old.cp15Cause = M.excSyscall ∧
        createProcessNr ≤ old.a1 ∧ old.a1 ≤ getPidNr then
      if M.kernelMode old.cpsr then
        if old.a1 = exitTrapNr then trapType old.a2 else none
      else some .pgm
    else some .sbk
  | .pgmTrap _ => some .pgm
  | .tlb _ => some .tlb
  | .interrupt _ _ => none

/-- The entry takes the processor away from the current process `p`: it ends it, puts it
to sleep, or finds its time slice used up. -/
def Kernel.Leaves (k : Kernel n) (M : Machine) (p : Fin n) : Entry → Prop
  | .sysBP old =>
    if M.causeExcCodeGet old.cp15Cause = M.excSyscall ∧
        createProcessNr ≤ old.a1 ∧ old.a1 ≤ getPidNr then
      if M.kernelMode old.cpsr then k.SysLeaves M p old else ¬ k.Handles p .pgm
    else ¬ k.Handles p .sbk
  | .pgmTrap _ => ¬ k.Handles p .pgm
  | .tlb _ => ¬ k.Handles p .tlb
  | .interrupt _ cause => M.pendingLine cause = some ilTimer ∧
      schedTimeSlice < (k.pcb p).pTimeSlice - k.elapsed M

/-- The state in which the work of a handler begins, behind the first time hook. -/
def Kernel.start (k : Kernel n) (M : Machine) (p : Fin n) : Entry → Kernel n
  | .sysBP old =>
    (Kernel.setPcb { k with sysbold := old, mStateLoaded := some .sysbold } p
      fun c => { c with pS := old }).onEnter M
  | .pgmTrap old => Kernel.onEnter M { k with pgmold := old }
  | .tlb old => Kernel.onEnter M { k with tlbold := old }
  | .interrupt old _ => Kernel.onEnter M { k with intold := { old with pc := old.pc - 4 } }

/-- What an entry needs of a property, besides. -/
structure Open (M : Machine) (k : Kernel n) (e : Entry) (p : Fin n) (W V : Set Hdl)
    (R : Kernel n → Prop) : Prop where
  save : ∀ k' x, R k' → k'.gCurrentProcess = some p → R (k'.setPcb p fun c => { c with pS := x })
  reset : ∀ k', R k' → R { k' with bySysHdl := false }
  area : ∀ h, e.saves M = some h → h ∈ W
  install : ∀ h : Hdl, e.Sys M h.nr → h ∈ V
  spare : e.Sys M createProcessNr →
    ∀ b, k.core.spare = some b → ∀ k' f, R k' → R (k'.setPcb b f)
  count : e.Sys M createProcessNr →
    ∀ k', R k' → R { k' with absProcessCount := k'.absProcessCount + 1 }
  clock : e.Sys M waitClockNr →
    ∀ k', R k' → R { k' with gPseudoClockBlk := k'.gPseudoClockBlk + 1 }
  tick : e.Tick M → TickOpen R
  slice : e.Tick M → ∀ k', R k' → (k'.pcb p).pTimeSlice = (k.pcb p).pTimeSlice - k.elapsed M
  wake : ∀ k' q x, R k' → R (k'.setPcb q fun c => { c with pS := { c.pS with a1 := x } })

theorem wp_handler_call {old : ProcState} {Q : Unit → Kernel n → Prop}
    (hp : k.gCurrentProcess = some p) (hsys : M.causeExcCodeGet old.cp15Cause = M.excSyscall) :
    wp (handler M (.sysBP old)) Q E k ↔
      wp (if createProcessNr ≤ old.a1 ∧ old.a1 ≤ getPidNr then
          if M.kernelMode old.cpsr then defSys M else userModeSys M else sysAboveBP M)
        (fun _ k' => wp (leaveHandler M) Q E (k'.onExit M true)) E (k.start M p (.sysBP old)) := by
  let k₁ : Kernel n := k.start M p (.sysBP old)
  have hold : k₁.sysbold = old := onEnter_romArea .sbk
  rw [JaeOS.handler, wp_bind, wp_modify, sysBPHandler, wp_bind, wp_modify, wp_bind, wp_get, wp_bind]
  refine (wp_current (p := p) ?_).trans ?_
  · exact hp
  rw [wp_bind, wp_modify]
  dsimp only
  rw [if_pos hsys, sysCall, ← bind_assoc, wp_bind, wp_bind, wp_onEnter, wp_bind, wp_get]
  change wp ((if createProcessNr ≤ k₁.sysbold.a1 ∧ k₁.sysbold.a1 ≤ getPidNr then
    if M.kernelMode k₁.sysbold.cpsr then defSys M else userModeSys M
    else sysAboveBP M) >>= fun _ => getTODLO M >>= fun t => onHandlerExit t true) _ E k₁ ↔ _
  rw [hold, wp_bind]
  exact Iff.rfl

theorem wp_handler_break {old : ProcState} {Q : Unit → Kernel n → Prop}
    (hp : k.gCurrentProcess = some p) (hsys : M.causeExcCodeGet old.cp15Cause ≠ M.excSyscall)
    (hbrk : M.causeExcCodeGet old.cp15Cause = M.excBreakpoint) :
    wp (handler M (.sysBP old)) Q E k ↔
      wp (sysAboveBP M) (fun _ k' => wp (leaveHandler M) Q E (k'.onExit M false)) E
        (k.start M p (.sysBP old)) := by
  rw [JaeOS.handler, wp_bind, wp_modify, sysBPHandler, wp_bind, wp_modify, wp_bind, wp_get, wp_bind]
  refine (wp_current (p := p) ?_).trans ?_
  · exact hp
  rw [wp_bind, wp_modify]
  dsimp only
  rw [if_neg hsys, if_pos hbrk, breakpoint, ← bind_assoc, wp_bind, wp_bind, wp_onEnter, wp_bind]
  exact Iff.rfl

theorem wp_handler_bad {old : ProcState} {Q : Unit → Kernel n → Prop}
    (hp : k.gCurrentProcess = some p) (hsys : M.causeExcCodeGet old.cp15Cause ≠ M.excSyscall)
    (hbrk : M.causeExcCodeGet old.cp15Cause ≠ M.excBreakpoint) :
    wp (handler M (.sysBP old)) Q E k ↔ E (.panic .badException)
      (Kernel.setPcb { k with sysbold := old, mStateLoaded := some .sysbold } p
        fun c => { c with pS := old }) := by
  rw [JaeOS.handler, wp_bind, wp_modify, sysBPHandler, wp_bind, wp_modify, wp_bind, wp_get, wp_bind]
  refine (wp_current (p := p) ?_).trans ?_
  · exact hp
  rw [wp_bind, wp_modify]
  dsimp only
  rw [if_neg hsys, if_neg hbrk, wp_bind, wp_throw]
  exact Iff.rfl

theorem Kernel.start_sysbold {old : ProcState} : (k.start M p (.sysBP old)).sysbold = old :=
  onEnter_romArea .sbk

theorem Kernel.start_current (hp : k.gCurrentProcess = some p) :
    (k.start M p e).gCurrentProcess = some p := by
  cases e <;> exact onEnter_current.trans hp

theorem Kernel.start_core : (k.start M p e).core = k.core := by
  cases e <;> exact onEnter_core

theorem Kernel.start_handles {check : Hdl} :
    (k.start M p e).Handles p check ↔ k.Handles p check := by
  cases e with
  | sysBP old =>
    rw [Kernel.start, onEnter_handles, Kernel.Handles, setPcb_pcb_self]
    cases check <;> exact Iff.rfl
  | pgmTrap old => exact onEnter_handles p check
  | tlb old => exact onEnter_handles p check
  | interrupt old cause => exact onEnter_handles p check

theorem After.congr {D : Prop} (h : After R p C k) (hC : C ↔ D) : After R p D k :=
  ⟨h.keeps, fun hD => h.gone (hC.mpr hD), fun hD => h.stays (fun hc => hD (hC.mp hc))⟩

theorem Kernel.sleeps_congr (h : k'.core = k.core) : k'.Sleeps a w ↔ k.Sleeps a w := by
  have hq : k'.toQueues = k.toQueues := congrArg Core.toQueues h
  have hm : k'.mem = k.mem := congrArg Core.mem h
  rw [Kernel.Sleeps, Kernel.Sleeps, hm]
  simp only [Kernel.First, hq]

theorem Kernel.sysLeaves_congr {old : ProcState} (h : k'.core = k.core)
    (hh : ∀ check, k'.Handles p check ↔ k.Handles p check) :
    k'.SysLeaves M p old ↔ k.SysLeaves M p old := by
  simp only [Kernel.SysLeaves, Kernel.sleeps_congr h, hh]

namespace Walk

theorem sysBP (hW : Walk M W V R E) {old : ProcState} (hp : k.gCurrentProcess = some p)
    (hbad : ∀ k', (∀ q, ∃ x, k'.pcb q = { k.pcb q with pS := x }) → E (.panic .badException) k')
    (ho : Open M k (.sysBP old) p W V R)
    (hstart : R (k.start M p (.sysBP old)))
    (hback : ¬ k.Leaves M p (.sysBP old) → Backs M R E p)
    (hyield : k.Leaves M p (.sysBP old) → Yields M R E) :
    wp (handler M (.sysBP old)) (fun _ _ => False) E k := by
  have h₁ : With R (some p) (k.start M p (.sysBP old)) := ⟨hstart, Kernel.start_current hp⟩
  have hleave : ∀ {flag : Bool} (_ : Unit) k', After R p (k.Leaves M p (.sysBP old)) k' →
      wp (JaeOS.leaveHandler M) (fun _ _ => False) E (k'.onExit M flag) :=
    fun _ k' h' => hW.leaveHandler ⟨k', _, h', rfl⟩ hback hyield
  have habove : (Entry.sysBP old).saves M = some .sbk →
      (k.Leaves M p (.sysBP old) ↔ ¬ k.Handles p .sbk) →
      wp (JaeOS.sysAboveBP M) (fun _ => After R p (k.Leaves M p (.sysBP old))) E
        (k.start M p (.sysBP old)) := by
    intro hsaves hleaves
    refine wp_mono (hW.sysAboveBP h₁ (ho.area _ hsaves)) (fun _ k₂ h₂ => h₂.congr ?_)
      (fun _ _ h => h)
    rw [Kernel.start_handles, hleaves]
  by_cases hsys : M.causeExcCodeGet old.cp15Cause = M.excSyscall
  · rw [wp_handler_call hp hsys]
    refine wp_mono ?_ hleave (fun _ _ h => h)
    refine wp_if (fun hrange => wp_if (fun hmode => ?_) (fun hmode => ?_)) (fun hrange => ?_)
    · have hleaves : (k.start M p (.sysBP old)).SysLeaves M p old ↔ k.Leaves M p (.sysBP old) := by
        rw [Kernel.sysLeaves_congr Kernel.start_core (fun _ => Kernel.start_handles), Kernel.Leaves,
          if_pos ⟨hsys, hrange⟩, if_pos hmode]
      have hspare : (k.start M p (.sysBP old)).core.spare = k.core.spare :=
        congrArg Core.spare Kernel.start_core
      have hcalled : ∀ nr, old.a1 = nr → (Entry.sysBP old).Sys M nr := fun nr hnr => ⟨hsys, hmode, hnr⟩
      have hdef := hW.defSys (k := k.start M p (.sysBP old)) h₁
      rw [Kernel.start_sysbold] at hdef
      refine wp_mono (hdef ?_) (fun _ _ h => h.congr hleaves) (fun _ _ h => h)
      refine ⟨fun hnr => ?_, fun hnr => ho.count (hcalled _ hnr), fun hnr h hh => ?_, ?_,
        fun hnr => ho.clock (hcalled _ hnr)⟩
      · rw [hspare]
        exact ho.spare (hcalled _ hnr)
      · refine ho.area h ?_
        rw [Entry.saves, if_pos ⟨hsys, hrange⟩, if_pos hmode, if_pos hnr, hh]
      · exact fun h hnr => ho.install h (hcalled _ hnr)
    · have hleaves : k.Leaves M p (.sysBP old) ↔ ¬ k.Handles p .pgm := by
        rw [Kernel.Leaves, if_pos ⟨hsys, hrange⟩, if_neg hmode]
      refine wp_mono (hW.userModeSys h₁ (ho.area _ ?_) ho.reset (fun k' x h => ho.save k' x h.1 h.2) ?_ ?_)
        (fun _ _ h => h.elim) (fun _ _ h => h)
      · rw [Entry.saves, if_pos ⟨hsys, hrange⟩, if_neg hmode]
      · intro hyes
        rw [Kernel.start_handles] at hyes
        exact hback (fun hl => hleaves.mp hl hyes)
      · intro hnot
        rw [Kernel.start_handles] at hnot
        exact hyield (hleaves.mpr hnot)
    · refine habove ?_ ?_
      · rw [Entry.saves, if_neg (fun h => hrange h.2)]
      · rw [Kernel.Leaves, if_neg (fun h => hrange h.2)]
  · have hnot : ¬ (M.causeExcCodeGet old.cp15Cause = M.excSyscall ∧
        createProcessNr ≤ old.a1 ∧ old.a1 ≤ getPidNr) := fun h => hsys h.1
    by_cases hbrk : M.causeExcCodeGet old.cp15Cause = M.excBreakpoint
    · rw [wp_handler_break hp hsys hbrk]
      refine wp_mono (habove ?_ ?_) hleave (fun _ _ h => h)
      · rw [Entry.saves, if_neg hnot]
      · rw [Kernel.Leaves, if_neg hnot]
    · rw [wp_handler_bad hp hsys hbrk]
      refine hbad _ (fun q => ?_)
      by_cases hq : q = p
      · subst hq
        exact ⟨old, setPcb_pcb_self _ _ _⟩
      · exact ⟨(k.pcb q).pS, setPcb_pcb_of_ne _ _ hq⟩

theorem trap (hW : Walk M W V R E) {check : Hdl} (hp : k.gCurrentProcess = some p)
    (hby : k.bySysHdl = false) (hstart : R (k.onEnter M))
    (hsave : ∀ k' x, R k' → k'.gCurrentProcess = some p →
      R (k'.setPcb p fun c => { c with pS := x }))
    (hW' : check ∈ W) (hback : k.Handles p check → Backs M R E p)
    (hyield : ¬ k.Handles p check → Yields M R E) :
    wp (do commonSubHandler M check; JaeOS.leaveHandler M) (fun _ _ => False) E k := by
  have hp₁ : (k.onEnter M).gCurrentProcess = some p := onEnter_current.trans hp
  rw [wp_bind, wp_commonSubHandler_false hby, wp_bind]
  refine wp_mono (hW.passUp hp₁ (hsave _ _ hstart hp₁) hW') ?_ (fun _ _ h => h)
  intro _ k₂ h₂
  refine wp_mono (wp_hooked h₂) ?_ (fun _ _ h => h)
  intro _ k₃ h₃
  refine hW.leaveHandler h₃ (fun hyes => hback ?_) (fun hnot => hyield ?_)
  · exact (onEnter_handles p check).mp (not_not.mp hyes)
  · exact fun hyes => hnot ((onEnter_handles p check).mpr hyes)

theorem dispatch (hW : Walk M W V R E) {old : ProcState} {cause : Word}
    (ho : Open M k (.interrupt old cause) p W V R) (h : With R (some p) k') :
    wp (dispatchInterrupt M cause) (fun _ => After R p (k.Leaves M p (.interrupt old cause))) E k' := by
  rw [dispatchInterrupt_eq]
  cases hline : M.pendingLine cause with
  | none =>
    refine h.after ?_
    rintro ⟨hl, -⟩
    rw [hline] at hl
    exact absurd hl (by simp)
  | some line =>
    dsimp only
    refine wp_if (fun htimer => ?_) (fun htimer => ?_)
    · subst htimer
      refine wp_mono (hW.handleTimer (ho.tick hline) h (ho.slice hline)) ?_ (fun _ _ h => h)
      exact fun _ _ h' => h'.congr ⟨fun hl => ⟨hline, hl⟩, fun hl => hl.2⟩
    · refine wp_mono (hW.handleDevices (pendingLine_device hline htimer) h
        (fun c q _ _ _ _ _ _ _ k₁ => ho.wake k₁ q c.status)) ?_
        (fun _ _ h => h)
      intro _ _ h'
      refine h'.after ?_
      rintro ⟨hl, -⟩
      rw [hline] at hl
      exact htimer (Option.some.inj hl)

theorem interrupt (hW : Walk M W V R E) {old : ProcState} {cause : Word}
    (hp : k.gCurrentProcess = some p) (ho : Open M k (.interrupt old cause) p W V R)
    (hstart : R (k.start M p (.interrupt old cause)))
    (hback : ¬ k.Leaves M p (.interrupt old cause) → Backs M R E p)
    (hyield : k.Leaves M p (.interrupt old cause) → Yields M R E) :
    wp (handler M (.interrupt old cause)) (fun _ _ => False) E k := by
  have hp₁ : (k.start M p (.interrupt old cause)).gCurrentProcess = some p :=
    onEnter_current.trans hp
  rw [JaeOS.handler, wp_bind, wp_modify, interruptExceptionHandler, wp_bind, wp_modify, ← bind_assoc,
    wp_bind, wp_onEnter]
  change wp _ _ _ (k.start M p (.interrupt old cause))
  generalize k.start M p (.interrupt old cause) = k₁ at hstart hp₁ ⊢
  rw [wp_bind, wp_modify, hp₁, wp_bind]
  refine wp_mono (hW.dispatch ho ⟨ho.save _ _ hstart hp₁, hp₁⟩) ?_ (fun _ _ h => h)
  intro _ k₂ h₂
  rw [← bind_assoc, wp_bind, wp_onExit, wp_bind, wp_get, onExit_current]
  by_cases hC : k.Leaves M p (.interrupt old cause)
  · rw [h₂.gone hC]
    exact hyield hC _ (hW.exit false h₂.keeps) ((onExit_current false).trans (h₂.gone hC))
  · rw [h₂.stays hC]
    exact hback hC k₂ _ false h₂.keeps (h₂.stays hC)

/-- **Any entry while `p` runs.** -/
theorem handler (hW : Walk M W V R E) (hp : k.gCurrentProcess = some p) (hby : k.bySysHdl = false)
    (hbad : ∀ k', (∀ q, ∃ x, k'.pcb q = { k.pcb q with pS := x }) → E (.panic .badException) k')
    (ho : Open M k e p W V R)
    (hstart : R (k.start M p e)) (hback : ¬ k.Leaves M p e → Backs M R E p)
    (hyield : k.Leaves M p e → Yields M R E) :
    wp (JaeOS.handler M e) (fun _ _ => False) E k := by
  cases e with
  | sysBP old => exact hW.sysBP hp hbad ho hstart hback hyield
  | pgmTrap old =>
    rw [JaeOS.handler, wp_bind, wp_modify]
    exact hW.trap (k := { k with pgmold := old }) hp hby hstart ho.save (ho.area _ rfl)
      (fun hyes => hback (not_not.mpr hyes)) hyield
  | tlb old =>
    rw [JaeOS.handler, wp_bind, wp_modify]
    exact hW.trap (k := { k with tlbold := old }) hp hby hstart ho.save (ho.area _ rfl)
      (fun hyes => hback (not_not.mpr hyes)) hyield
  | interrupt old cause => exact hW.interrupt hp ho hstart hback hyield

/-- **An interrupt while the processor waits.** -/
theorem interrupt_none (hW : Walk M W V R E) {old : ProcState} {cause : Word}
    (hp : k.gCurrentProcess = none) (hyield : Yields M R E)
    (hstart : R (Kernel.onEnter M { k with intold := { old with pc := old.pc - 4 } }))
    (htick : M.pendingLine cause = some ilTimer → TickOpen R ∧
      (∀ k', R k' → R { k' with nullRead := true }) ∧ ∀ k', R k' → E (.fault .nullQueued) k')
    (hwake : ∀ k' q x, R k' → R (k'.setPcb q fun c => { c with pS := { c.pS with a1 := x } })) :
    wp (JaeOS.handler M (.interrupt old cause)) (fun _ _ => False) E k := by
  have h₁ : With R none (Kernel.onEnter M { k with intold := { old with pc := old.pc - 4 } }) :=
    ⟨hstart, onEnter_current.trans hp⟩
  rw [JaeOS.handler, wp_bind, wp_modify, interruptExceptionHandler, wp_bind, wp_modify, ← bind_assoc,
    wp_bind, wp_onEnter]
  generalize Kernel.onEnter M { k with intold := { old with pc := old.pc - 4 } } = k₁ at h₁ ⊢
  rw [wp_bind, wp_modify, h₁.2, wp_bind]
  have hdispatch : wp (dispatchInterrupt M cause) (fun _ => With R none) E k₁ := by
    rw [dispatchInterrupt_eq]
    cases hline : M.pendingLine cause with
    | none => exact h₁
    | some line =>
      dsimp only
      refine wp_if (fun htimer => ?_) (fun htimer => ?_)
      · subst htimer
        obtain ⟨ho, hnull, hqueued⟩ := htick hline
        rw [JaeOS.handleTimer]
        apply (hW.pseudoClock ho).seq h₁
        intro _ k₂ h₂
        exact hW.timeSlice_none h₂ hnull hqueued
      · exact hW.handleDevices (pendingLine_device hline htimer) h₁
          (fun c q _ _ _ _ _ _ _ k₂ => hwake k₂ q c.status)
  refine wp_mono hdispatch ?_ (fun _ _ h => h)
  intro _ k₂ h₂
  rw [← bind_assoc, wp_bind, wp_onExit, wp_bind, wp_get, onExit_current, h₂.2]
  exact hyield _ (hW.exit false h₂.1) ((onExit_current false).trans h₂.2)

end Walk

end JaeOS
