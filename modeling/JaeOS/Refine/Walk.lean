import JaeOS.Refine.Rest

/-!
# What the kernel does in any state

The relations of the last modules need well formed lists.  Here the functions of the
kernel are walked through for the part beside the lists, in any state: a property that
survives the time hooks, the changes of the current process's own block and the loss of
the current process survives them.  Besides, the walk says when the current process is
still there at the end.
-/

namespace JaeOS

open Function (update)

variable {n : ℕ} {M : Machine} {k k' : Kernel n} {p q : Fin n} {cur : Option (Fin n)}
  {W V : Set Hdl} {R : Kernel n → Prop} {E : Stop → Kernel n → Prop} {a w : Word} {C : Prop}

/-! ### Walks -/

/-- A property of the part beside the lists, which leads to `E` where the kernel stops before
the end of a handler. -/
structure Aside (R : Kernel n → Prop) (E : Stop → Kernel n → Prop) : Prop where
  rest : ∀ {k k'}, R k → k'.rest = k.rest → R k'
  stop : ∀ {k s}, R k → s.Plain → E s k

/-- A property that survives the work of a handler, which may pass up exceptions of the types
in `W`, and install handlers for those in `V`. -/
structure Walk (M : Machine) (W V : Set Hdl) (R : Kernel n → Prop) (E : Stop → Kernel n → Prop) :
    Prop extends Aside R E where
  read : ∀ {k}, R k → R { k with tods := k.tods + 1 }
  exit : ∀ {k} flag, R k → R (k.onExit M flag)
  own : ∀ {k p f}, R k → k.gCurrentProcess = some p → (k.pcb p).Own W V (f (k.pcb p)) →
    R (k.setPcb p f)
  idle : ∀ {k}, R k → R { k with gCurrentProcess := none }

/-- The property, with a given current process. -/
def With (R : Kernel n → Prop) (cur : Option (Fin n)) (k : Kernel n) : Prop :=
  R k ∧ k.gCurrentProcess = cur

/-- The property, and `p` has lost the processor exactly if `C`. -/
structure After (R : Kernel n → Prop) (p : Fin n) (C : Prop) (k : Kernel n) : Prop where
  keeps : R k
  gone : C → k.gCurrentProcess = none
  stays : ¬ C → k.gCurrentProcess = some p

theorem With.after (h : With R (some p) k) (hC : ¬ C) : After R p C k :=
  ⟨h.1, fun hc => absurd hc hC, fun _ => h.2⟩

theorem After.of_none (h : R k) (hnone : k.gCurrentProcess = none) (hC : C) : After R p C k :=
  ⟨h, fun _ => hnone, fun hc => absurd hC hc⟩

theorem keeps_current : Keeps (With R (some p)) E current := by
  intro k h
  exact (wp_current h.2).mpr h

theorem wp_current_none {Q : Fin n → Kernel n → Prop} (hp : k.gCurrentProcess = none) :
    wp current Q E k ↔ E (.fault .noCurrent) k := by
  rw [current, wp_bind, wp_get, hp, wp_throw]

namespace Aside

variable (hA : Aside R E)

include hA

theorem rest_with (h : With R cur k) (hr : k'.rest = k.rest) : With R cur k' :=
  ⟨hA.rest h.1 hr, (congrArg Rest.gCurrentProcess hr).trans h.2⟩

theorem stop_with {s : Stop} (hs : s.Plain) : ∀ k, With R cur k → E s k :=
  fun _ h => hA.stop h.1 hs

theorem liftQ {α : Type} (x : Q n α) : Keeps (With R cur) E (liftM x : K n α) := by
  intro k h
  rw [wp_liftQ]
  split
  · exact hA.rest_with h rfl
  · exact hA.stop h.1 trivial

theorem liftT {α : Type} (x : T n α) : Keeps (With R cur) E (liftM x : K n α) := by
  intro k h
  rw [wp_liftT]
  split
  · exact hA.rest_with h rfl
  · exact hA.stop h.1 trivial

theorem alter {f : Kernel n → Kernel n} (hf : ∀ k, (f k).rest = k.rest) :
    Keeps (With R cur) E (modify f : K n PUnit) :=
  Keeps.modify (fun k h => hA.rest_with h (hf k))

theorem readInt : Keeps (With R cur) E (readInt M a) := by
  rw [JaeOS.readInt]
  exact Keeps.ite (Keeps.throw (hA.stop_with trivial)) (Keeps.get_bind (fun _ => Keeps.pure))

theorem writeInt : Keeps (With R cur) E (writeInt M a w) := by
  rw [JaeOS.writeInt]
  exact Keeps.ite (Keeps.throw (hA.stop_with trivial)) (hA.alter (fun _ => rfl))

theorem writeWord : Keeps (With R cur) E (writeWord M a w) := by
  rw [JaeOS.writeWord]
  exact Keeps.ite (Keeps.throw (hA.stop_with trivial)) (hA.alter (fun _ => rfl))

theorem writeReg : Keeps (With R cur) E (writeReg M a w) := by
  rw [JaeOS.writeReg]
  refine Keeps.ite ?_ hA.writeWord
  exact Keeps.ite (Keeps.throw (hA.stop_with trivial)) (hA.alter (fun _ => rfl))

/-! ### Semaphores -/

theorem semopWake {fuel : ℕ} {r : Word} : Keeps (With R cur) E (semopWake M a fuel r) := by
  induction fuel generalizing r with
  | zero => exact Keeps.throw (hA.stop_with trivial)
  | succ fuel ih =>
    rw [JaeOS.semopWake]
    apply Keeps.bind (hA.liftQ _)
    intro head
    cases head with
    | none => exact Keeps.pure
    | some head =>
      apply Keeps.get_bind
      intro k
      refine Keeps.ite ?_ Keeps.pure
      dsimp only
      apply Keeps.bind (hA.alter ?_)
      · intro _
        apply Keeps.bind (hA.liftQ _)
        intro _
        apply Keeps.bind (hA.liftQ _)
        intro _
        apply Keeps.get_bind
        intro k'
        split
        · exact Keeps.throw (hA.stop_with trivial)
        · refine Keeps.bind (Keeps.ite (hA.alter (fun _ => rfl)) Keeps.pure) ?_
          intro _
          exact ih
      · exact fun _ => rfl

theorem semopV : Keeps (With R cur) E (semopV M a w) := by
  rw [JaeOS.semopV]
  apply Keeps.bind hA.readInt
  intro value
  exact Keeps.bind hA.semopWake (fun _ => hA.writeInt)

end Aside

namespace Walk

variable (hW : Walk M W V R E)

include hW

theorem getTODLO : Keeps (With R cur) E (getTODLO M) := fun _ h => ⟨hW.read h.1, h.2⟩

theorem exit_with {flag : Bool} :
    Keeps (With R cur) E (JaeOS.getTODLO M >>= fun t => onHandlerExit t flag) := fun _ h =>
  wp_onExit.mpr ⟨hW.exit flag h.1, (onExit_current flag).trans h.2⟩

theorem wp_own {f : Pcb → Pcb} {g : Kernel n → Kernel n} (h : With R (some p) k)
    (hf : (k.pcb p).Own W V (f (k.pcb p))) (hg : ∀ k, (g k).rest = k.rest) :
    wp (modify g : K n PUnit) (fun _ => With R (some p)) E (k.setPcb p f) :=
  hW.alter hg _ ⟨hW.own h.1 h.2 hf, h.2⟩

/-- **`semop` takes the current process away if it puts it to sleep.** -/
theorem semop (h : With R (some p) k) :
    wp (semop M a w) (fun _ => After R p (k.Sleeps a w)) E k := by
  rw [JaeOS.semop]
  refine wp_if (fun hpos => ?_) (fun hpos => wp_if (fun hneg => ?_) (fun hneg => ?_))
  · refine wp_mono (hW.semopV k h) (fun _ _ h' => h'.after ?_) (fun _ _ h => h)
    rintro ⟨hneg, -⟩
    omega
  · rw [semopP, wp_bind, wp_liftQ]
    cases hhead : (headBlocked a).run k.toQueues with
    | none => exact hW.stop h.1 trivial
    | some r =>
      obtain ⟨head, s⟩ := r
      obtain rfl := run_headBlocked_eq hhead
      dsimp only
      have hread : wp (JaeOS.readInt M a) (fun v k' => k' = k ∧ v = k.mem a) E k := by
        rw [JaeOS.readInt]
        exact wp_if (fun _ => hW.stop h.1 trivial) (fun _ => ⟨rfl, rfl⟩)
      rw [wp_bind]
      refine wp_mono hread ?_ (fun _ _ h => h)
      rintro _ _ ⟨rfl, rfl⟩
      rename_i k
      have hsleeps : k.Sleeps a w ↔ head.isSome = true ∨ (k.mem a + w).toInt < 0 := by
        rw [Kernel.Sleeps, and_iff_right hneg]
        refine or_congr_left ?_
        constructor
        · rintro ⟨q, s, hq⟩
          rw [hhead] at hq
          obtain rfl : head = some q := congrArg Prod.fst (Option.some.inj hq)
          rfl
        · intro hsome
          obtain ⟨q, rfl⟩ := Option.isSome_iff_exists.mp hsome
          exact ⟨q, _, hhead⟩
      rw [hsleeps]
      refine wp_if (fun hblock => ?_) (fun hgrant => ?_)
      · rw [semopBlock]
        apply keeps_current.seq h
        intro p' k₁ h₁
        apply (hW.liftQ _).seq h₁
        intro full k₂ h₂
        refine wp_if (fun _ => ?_) (fun _ => hW.stop h₂.1 trivial)
        apply Keeps.seq (hW.alter ?_) h₂
        · intro _ k₃ h₃
          rw [← bind_assoc]
          apply hW.exit_with.seq h₃
          intro _ k₄ h₄
          have hidle := hW.idle h₄.1
          rw [wp_bind, wp_modify]
          refine wp_if (fun _ => ?_) (fun _ => ?_)
          · exact .of_none (hW.rest hidle rfl) rfl hblock
          · exact .of_none hidle rfl hblock
        · exact fun _ => rfl
      · exact wp_mono (hW.writeInt k h) (fun _ _ h' => h'.after hgrant) (fun _ _ h => h)
  · exact hW.stop h.1 trivial

/-! ### Processes -/

theorem releasePcb : Keeps (With R cur) E (releasePcb M q) := by
  rw [JaeOS.releasePcb]
  apply Keeps.get_bind
  intro k
  refine Keeps.bind ?_ (fun _ => Keeps.bind (hW.liftQ _) (fun _ => hW.alter (fun _ => rfl)))
  split
  · refine Keeps.bind (Keeps.ite (hW.alter (fun _ => rfl)) Keeps.pure) ?_
    intro _
    exact Keeps.bind (hW.liftQ _) (fun _ => Keeps.pure)
  · exact Keeps.bind (hW.liftQ _) (fun _ => Keeps.pure)

theorem killChildren {kill : Fin n → K n Unit} (hkill : ∀ q, Keeps (With R cur) E (kill q))
    {fuel : ℕ} : Keeps (With R cur) E (killChildren kill fuel q) := by
  induction fuel with
  | zero => exact Keeps.throw (hW.stop_with trivial)
  | succ fuel ih =>
    rw [JaeOS.killChildren]
    apply Keeps.get_bind
    intro k
    apply Keeps.ite Keeps.pure
    apply Keeps.bind (hW.liftT _)
    intro child
    cases child with
    | none => exact Keeps.throw (hW.stop_with trivial)
    | some child => exact Keeps.bind (hkill child) (fun _ => ih)

theorem terminateProgeny {fuel : ℕ} : Keeps (With R cur) E (terminateProgeny M fuel q) := by
  induction fuel generalizing q with
  | zero => exact Keeps.throw (hW.stop_with trivial)
  | succ fuel ih =>
    rw [JaeOS.terminateProgeny]
    apply Keeps.bind (hW.liftT _)
    intro _
    apply Keeps.bind (hW.killChildren (fun _ => ih))
    intro _
    exact hW.releasePcb

/-- **Only the pid 0 takes the current process away.** -/
theorem terminateProcess (h : With R (some p) k) :
    wp (terminateProcess M w) (fun _ => After R p (w = 0)) E k := by
  rw [JaeOS.terminateProcess]
  apply keeps_current.seq h
  intro p' k₁ h₁
  refine wp_if (fun hpid => ?_) (fun hpid => ?_)
  · rw [wp_bind, wp_get]
    refine wp_if (fun _ => h₁.after hpid) (fun _ => ?_)
    split
    · exact hW.stop h₁.1 trivial
    · exact h₁.after hpid
    · exact wp_mono (hW.terminateProgeny _ h₁) (fun _ _ h' => h'.after hpid) (fun _ _ h => h)
  · apply hW.terminateProgeny.seq h₁
    intro _ k₂ h₂
    exact .of_none (hW.idle h₂.1) rfl (not_not.mp hpid)

theorem allocPcb (h : With R cur k)
    (hclear : ∀ b, (k.procQ .pcbFree).head.join = some b →
      ∀ k' f, R k' → R (k'.setPcb b f)) :
    wp allocPcb (fun r k' => With R cur k' ∧ ∀ b, r = some b →
      (k.procQ .pcbFree).head.join = some b) E k := by
  rw [JaeOS.allocPcb, wp_bind, wp_liftQ]
  cases hrem : (removeProcQ .pcbFree).run k.toQueues with
  | none => exact hW.stop h.1 trivial
  | some r =>
    obtain ⟨b, s⟩ := r
    cases b with
    | none => exact ⟨hW.rest_with h rfl, fun _ hb => absurd hb (by simp)⟩
    | some b =>
      have hb : (k.procQ .pcbFree).head.join = some b := by
        rw [run_removeProcQ_head hrem, Option.join_some]
      have hzero := hclear b hb k (fun _ => .zero) h.1
      refine ⟨⟨hW.rest hzero rfl, h.2⟩, ?_⟩
      rintro _ ⟨rfl⟩
      exact hb

/-- **`createProcess`** fills in the block it is handed out, and counts. -/
theorem createProcess {np : ProcState} (h : With R (some p) k)
    (hspare : ∀ b, k.core.spare = some b → ∀ k' f, R k' → R (k'.setPcb b f))
    (hcount : ∀ k', R k' → R { k' with absProcessCount := k'.absProcessCount + 1 }) :
    wp (createProcess np) (fun _ => With R (some p)) E k := by
  rw [JaeOS.createProcess, wp_bind, wp_get]
  refine wp_if (fun hroom => ?_) (fun _ => hW.rest_with h rfl)
  replace hspare : ∀ b, (k.procQ .pcbFree).head.join = some b →
      ∀ k' f, R k' → R (k'.setPcb b f) := fun b hb => hspare b ((if_pos hroom).trans hb)
  rw [wp_bind]
  refine wp_mono (hW.allocPcb h hspare) ?_ (fun _ _ h => h)
  rintro r k₁ ⟨h₁, hr⟩
  cases r with
  | none => exact hW.stop h₁.1 trivial
  | some b =>
    have hset := hspare b (hr b rfl)
    have hpid : Keeps (With R (some p)) E (pidSelector : K n Word) :=
      Keeps.bind (Keeps.modify (fun k' h' => ⟨hcount k' h'.1, h'.2⟩))
        (fun _ => Keeps.get_bind (fun _ => Keeps.pure))
    apply Keeps.seq (hW.alter ?_) h₁
    · intro _ k₂ h₂
      apply hpid.seq h₂
      intro pid k₃ h₃
      rw [wp_bind, wp_modify]
      apply keeps_current.seq ⟨hset _ _ h₃.1, h₃.2⟩
      intro p' k₄ h₄
      apply (hW.liftT _).seq h₄
      intro _ k₅ h₅
      apply (hW.liftQ _).seq h₅
      intro _ k₆ h₆
      exact hW.rest_with h₆ rfl
    · exact fun _ => rfl

/-! ### The system calls -/

theorem commonSys {check : Hdl} {pc sp flags : Word} (h : With R (some p) k) (hV : check ∈ V) :
    wp (commonSys M check pc sp flags) (fun _ => After R p (k.Handles p check)) E k := by
  rw [JaeOS.commonSys, wp_bind, wp_current h.2, wp_bind, wp_get]
  refine wp_if (fun hpc => ?_) (fun hpc => ?_)
  · have hnot : ¬ k.Handles p check := not_not.mpr hpc
    exact With.after ⟨hW.own h.1 h.2 (Pcb.own_newArea hV _ hpc _), h.2⟩ hnot
  · exact wp_mono (hW.terminateProcess h)
      (fun _ _ h' => ⟨h'.keeps, fun _ => h'.gone rfl, fun hnot => absurd hpc hnot⟩) (fun _ _ h => h)

theorem exitTrap {t r : Word} (h : With R (some p) k) (hold : ∀ hdl, trapType t = some hdl → hdl ∈ W) :
    wp (exitTrap t r) (fun _ => With R (some p)) E k := by
  rw [JaeOS.exitTrap]
  cases htype : trapType t with
  | none => exact hW.stop h.1 trivial
  | some hdl =>
    dsimp only
    rw [wp_bind, wp_current h.2, wp_bind, wp_modify]
    exact hW.wp_own h (Pcb.own_setArea (hold hdl htype) _ _ rfl) (fun _ => rfl)

theorem getCpuTime {u : Word} (h : With R (some p) k) :
    wp (getCpuTime M a u) (fun _ => With R (some p)) E k := by
  rw [JaeOS.getCpuTime]
  apply keeps_current.seq h
  intro p' k₁ h₁
  rw [wp_bind, wp_get]
  apply hW.writeInt.seq h₁
  intro _ k₂ h₂
  rw [wp_bind, wp_get]
  exact hW.writeInt k₂ h₂

theorem getPid (h : With R (some p) k) :
    wp (getPid : K n Unit) (fun _ => With R (some p)) E k := by
  rw [JaeOS.getPid, wp_bind, wp_current h.2, wp_modify]
  exact hW.rest_with h rfl

theorem waitClock (h : With R (some p) k)
    (hblk : ∀ k', R k' → R { k' with gPseudoClockBlk := k'.gPseudoClockBlk + 1 }) :
    wp (waitClock M) (fun _ => After R p (k.Sleeps M.gPcTimerS (-1))) E k := by
  rw [JaeOS.waitClock, wp_bind]
  refine wp_mono (hW.semop h) ?_ (fun _ _ h => h)
  intro _ k₁ h₁
  exact ⟨hblk k₁ h₁.keeps, h₁.gone, h₁.stays⟩

theorem ioDevop {c l d : Word} (h : With R (some p) k) :
    wp (ioDevop M c l d) (fun _ => After R p (k.Sleeps (ioSem M l d) (-1))) E k := by
  rw [JaeOS.ioDevop, wp_bind]
  refine wp_mono (hW.semop h) ?_ (fun _ _ h => h)
  intro _ k₁ h₁
  refine wp_mono (hW.writeReg _ ⟨h₁.keeps, rfl⟩) ?_ (fun _ _ h => h)
  intro _ k₂ h₂
  exact ⟨h₂.1, fun hC => h₂.2.trans (h₁.gone hC), fun hC => h₂.2.trans (h₁.stays hC)⟩

end Walk

/-- A system call up to 11 takes the processor away from the process. -/
def Kernel.SysLeaves (k : Kernel n) (M : Machine) (p : Fin n) (old : ProcState) : Prop :=
  if old.a1 = createProcessNr then False
  else if old.a1 = terminateProcessNr then old.a2 = 0
  else if old.a1 = semopNr then k.Sleeps old.a2 old.a3
  else if old.a1 = specSysHdlNr then k.Handles p .sbk
  else if old.a1 = specTLBHdlNr then k.Handles p .tlb
  else if old.a1 = specPgmTHdlNr then k.Handles p .pgm
  else if old.a1 = exitTrapNr then False
  else if old.a1 = getCpuTimeNr then False
  else if old.a1 = waitClockNr then k.Sleeps M.gPcTimerS (-1)
  else if old.a1 = ioDevopNr then k.Sleeps (ioSem M old.a3 old.a4) (-1)
  else False

/-- The system call that installs a handler. -/
def Hdl.nr : Hdl → Word
  | .sbk => specSysHdlNr
  | .tlb => specTLBHdlNr
  | .pgm => specPgmTHdlNr

/-- What the system calls need of a property, besides. -/
structure SysOpen (W V : Set Hdl) (R : Kernel n → Prop) (k : Kernel n) (old : ProcState) :
    Prop where
  spare : old.a1 = createProcessNr →
    ∀ b, k.core.spare = some b → ∀ k' f, R k' → R (k'.setPcb b f)
  count : old.a1 = createProcessNr →
    ∀ k', R k' → R { k' with absProcessCount := k'.absProcessCount + 1 }
  area : old.a1 = exitTrapNr → ∀ h, trapType old.a2 = some h → h ∈ W
  install : ∀ h : Hdl, old.a1 = h.nr → h ∈ V
  clock : old.a1 = waitClockNr →
    ∀ k', R k' → R { k' with gPseudoClockBlk := k'.gPseudoClockBlk + 1 }

namespace Walk

variable (hW : Walk M W V R E)

include hW

/-- **The eleven system calls.** -/
theorem defSys (h : With R (some p) k) (ho : SysOpen W V R k k.sysbold) :
    wp (defSys M) (fun _ => After R p (k.SysLeaves M p k.sysbold)) E k := by
  rw [JaeOS.defSys, wp_bind, wp_get]
  have hstays : ∀ {C : Prop}, ¬ C → ∀ (_ : Unit) k', With R (some p) k' → After R p C k' :=
    fun hC _ k' h' => h'.after hC
  refine wp_if (fun h1 => ?_) (fun h1 => ?_)
  · rw [Kernel.SysLeaves, if_pos h1, wp_bind, wp_get]
    exact wp_mono (hW.createProcess h (ho.spare h1) (ho.count h1)) (hstays not_false) (fun _ _ h => h)
  rw [Kernel.SysLeaves, if_neg h1]
  refine wp_if (fun h2 => ?_) (fun h2 => ?_)
  · rw [if_pos h2]
    exact hW.terminateProcess h
  rw [if_neg h2]
  refine wp_if (fun h3 => ?_) (fun h3 => ?_)
  · rw [if_pos h3]
    exact hW.semop h
  rw [if_neg h3]
  refine wp_if (fun h4 => ?_) (fun h4 => ?_)
  · rw [if_pos h4]
    exact hW.commonSys h (ho.install .sbk h4)
  rw [if_neg h4]
  refine wp_if (fun h5 => ?_) (fun h5 => ?_)
  · rw [if_pos h5]
    exact hW.commonSys h (ho.install .tlb h5)
  rw [if_neg h5]
  refine wp_if (fun h6 => ?_) (fun h6 => ?_)
  · rw [if_pos h6]
    exact hW.commonSys h (ho.install .pgm h6)
  rw [if_neg h6]
  refine wp_if (fun h7 => ?_) (fun h7 => ?_)
  · rw [if_pos h7]
    exact wp_mono (hW.exitTrap h (ho.area h7)) (hstays not_false) (fun _ _ h => h)
  rw [if_neg h7]
  refine wp_if (fun h8 => ?_) (fun h8 => ?_)
  · rw [if_pos h8]
    exact wp_mono (hW.getCpuTime h) (hstays not_false) (fun _ _ h => h)
  rw [if_neg h8]
  refine wp_if (fun h9 => ?_) (fun h9 => ?_)
  · rw [if_pos h9]
    exact hW.waitClock h (ho.clock h9)
  rw [if_neg h9]
  refine wp_if (fun h10 => ?_) (fun h10 => ?_)
  · rw [if_pos h10]
    exact hW.ioDevop h
  rw [if_neg h10]
  refine wp_if (fun _ => ?_) (fun _ => h.after not_false)
  exact wp_mono (hW.getPid h) (hstays not_false) (fun _ _ h => h)

/-! ### The handlers of exceptions -/

theorem sysAboveBP (h : With R (some p) k) (hW' : Hdl.sbk ∈ W) :
    wp (sysAboveBP M) (fun _ => After R p (¬ k.Handles p .sbk)) E k := by
  rw [JaeOS.sysAboveBP, wp_bind, wp_current h.2, wp_bind, wp_get]
  refine wp_if (fun hpc => ?_) (fun hpc => ?_)
  · have hnot : ¬ k.Handles p .sbk := not_not.mpr hpc
    exact wp_mono (hW.terminateProcess h)
      (fun _ _ h' => ⟨h'.keeps, fun _ => h'.gone rfl, fun hyes => absurd hnot hyes⟩) (fun _ _ h => h)
  · have hyes : k.Handles p .sbk := hpc
    dsimp only
    rw [wp_bind, wp_modify]
    exact wp_mono (hW.wp_own h (Pcb.own_setArea (h := .sbk) hW' _ _ rfl) (fun _ => rfl))
      (fun _ _ h' => h'.after (not_not.mpr hyes)) (fun _ _ h => h)

/-- Between the two time hooks of `commonSubHandler` the state is saved again. -/
theorem passUp {check : Hdl} (hp : k.gCurrentProcess = some p)
    (hsave : R (k.setPcb p fun c => { c with pS := k.romArea check })) (hW' : check ∈ W) :
    wp (passUp M check) (fun _ => After R p (¬ k.Handles p check)) E k := by
  rw [JaeOS.passUp, wp_bind, wp_current hp, wp_bind, wp_modify, wp_bind, wp_get]
  have h : With R (some p) (k.setPcb p fun c => { c with pS := k.romArea check }) := ⟨hsave, hp⟩
  have hhandles : (k.setPcb p fun c => { c with pS := k.romArea check }).Handles p check ↔
      k.Handles p check := by
    rw [Kernel.Handles, Kernel.Handles, setPcb_pcb_self]
    cases check <;> rfl
  rw [← hhandles]
  refine wp_if (fun hpc => ?_) (fun hpc => ?_)
  · exact wp_mono (hW.terminateProcess h)
      (fun _ _ h' => ⟨h'.keeps, fun _ => h'.gone rfl, fun hyes => absurd hpc (not_not.mp hyes)⟩)
      (fun _ _ h => h)
  · rw [wp_bind, wp_modify]
    exact wp_mono (hW.wp_own h (Pcb.own_setArea hW' _ _ rfl) (fun _ => rfl))
      (fun _ _ h' => h'.after (not_not.mpr hpc)) (fun _ _ h => h)

end Walk

end JaeOS
