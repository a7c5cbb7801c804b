import JaeOS.Refine.Interrupt

/-!
# System calls and traps

Each system call and each exception handler does the task its arguments ask for,
and leaves a state to return to as long as its process is current.
-/

namespace JaeOS

open Function (update)
open Forest (Progeny)

variable {n : ℕ} {M : Machine} {k k' : Kernel n} {σ σ' : Snap n} {p root : Fin n} {a w : Word}
  {t : Task n} {h : Hdl} {old : ProcState} {Q : Unit → Kernel n → Prop}

/-! ### What the task depends on -/

/-- Two kernels in which every entry asks for the same. -/
structure Alike (k k' : Kernel n) : Prop where
  core : k'.core = k.core
  pid : ∀ p, (k'.pcb p).pPid = (k.pcb p).pPid
  area : ∀ p h, (k'.pcb p).area h = (k.pcb p).area h

theorem Alike.trans {k'' : Kernel n} (h : Alike k k') (h' : Alike k' k'') : Alike k k'' :=
  ⟨h'.core.trans h.core, fun p => (h'.pid p).trans (h.pid p),
    fun p x => (h'.area p x).trans (h.area p x)⟩

theorem Beside.alike (h : Beside k k') (hc : k'.core = k.core) : Alike k k' := by
  refine ⟨hc, fun p => (h.saved p).pPid, fun p x => ?_⟩
  cases x
  · exact (h.saved p).sysbp
  · exact (h.saved p).tlb
  · exact (h.saved p).pgmtr

theorem alike_setPS (k : Kernel n) (p : Fin n) (s : ProcState → ProcState) :
    Alike k (k.setPcb p fun c => { c with pS := s c.pS }) := by
  refine ⟨rfl, fun q => ?_, fun q x => ?_⟩
  all_goals
    by_cases hq : q = p
    · subst hq
      rw [setPcb_pcb_self]
      try cases x
      all_goals rfl
    · rw [setPcb_pcb_of_ne _ _ hq]

namespace Alike

theorem current (h : Alike k k') : k'.gCurrentProcess = k.gCurrentProcess :=
  congrArg Core.gCurrentProcess h.core

theorem toTree (h : Alike k k') : k'.toTree = k.toTree := congrArg Core.toTree h.core

theorem childByPid (h : Alike k k') (fuel : ℕ) (p : Fin n) (pid : Word) :
    k'.childByPid fuel p pid = k.childByPid fuel p pid := by
  induction fuel generalizing p with
  | zero => rfl
  | succ fuel ih => simp only [Kernel.childByPid, h.toTree, h.pid, ih]

theorem target (h : Alike k k') (p : Fin n) (pid : Word) : k'.target p pid = k.target p pid := by
  simp only [Kernel.target, h.toTree, h.childByPid]

theorem handles (h : Alike k k') (p : Fin n) (x : Hdl) : k'.Handles p x ↔ k.Handles p x := by
  rw [Kernel.Handles, Kernel.Handles, h.area]

theorem raise (h : Alike k k') (p : Fin n) (x : Hdl) : k'.raise p x = k.raise p x := by
  simp only [Kernel.raise, h.handles]

theorem sysTask (h : Alike k k') (p : Fin n) (old : ProcState) :
    k'.sysTask M p old = k.sysTask M p old := by
  simp only [Kernel.sysTask, Kernel.specify, Kernel.killTask, h.handles, h.target]

theorem stale (h : Alike k k') {q : Fin n} (hq : k'.Stale q) : k.Stale q := by
  have hs : k'.toQueues = k.toQueues := congrArg Core.toQueues h.core
  rwa [Kernel.Stale, hs] at hq

end Alike

/-! ### Termination and the handlers of a process -/

/-- No process below `root` is on the ready queue with a `p_cursem`. -/
def Kernel.Fresh (k : Kernel n) (t : Task n) : Prop :=
  ∀ root, t = .kill root → ∀ q, Progeny k.pParent root q → ¬ k.Stale q

theorem Alike.fresh (h : Alike k k') (hf : k.Fresh t) : k'.Fresh t := fun root ht q hq hs => by
  have htree := h.toTree
  have hpar : k'.pParent = k.pParent := congrArg Tree.pParent htree
  rw [hpar] at hq
  exact hf root ht q hq (h.stale hs)

theorem wp_terminateProcess_done {pid : Word} {E : Stop → Kernel n → Prop} (hσ : σ.core = k.core)
    (hc : Consistent σ) (hp : k.gCurrentProcess = some p) (hf : k.Fresh (k.killTask p pid))
    (hQ : ∀ k', Done M (k.killTask p pid) σ k' → k'.mStateLoaded = k.mStateLoaded → Q () k') :
    wp (terminateProcess M pid) Q E k := by
  refine wp_terminateProcess hσ hc hp (fun root ht q hq hr => ?_) (fun ht => ?_)
    (fun root k' σ' ht hσ' hb hterm hc' => ?_)
  · rw [Kernel.killTask, ht] at hf
    by_contra hcs
    exact hf root rfl q hq
      ⟨⟨_, (Snap.owned_of_core hσ).listed .ready _ rfl, (σ.view.mem _ q).mpr hr⟩, hcs⟩
  · rw [Kernel.killTask, ht] at hQ
    exact hQ k ⟨σ, hσ, hc, .nothing, fun _ _ _ ht => nomatch ht⟩ rfl
  · rw [Kernel.killTask, ht] at hQ
    exact hQ k' ⟨σ', hσ', hc', .kill hterm, fun _ _ _ ht => nomatch ht⟩ hb.mStateLoaded

theorem wp_terminateSelf {E : Stop → Kernel n → Prop} (hσ : σ.core = k.core)
    (hc : Consistent σ) (hp : k.gCurrentProcess = some p) (hf : k.Fresh (.kill p))
    (hQ : ∀ k', Done M (.kill p) σ k' → k'.gCurrentProcess = none → Q () k') :
    wp (terminateProcess M 0) Q E k := by
  have htask : k.killTask p 0 = .kill p := by simp [Kernel.killTask, Kernel.target]
  refine wp_terminateProcess_done hσ hc hp (by rwa [htask]) (fun k' hd _ => ?_)
  rw [htask] at hd
  refine hQ k' hd ?_
  obtain ⟨σ', hσ', _, hdoes, _⟩ := hd
  cases hdoes with
  | kill hterm =>
    have hcur := hterm.current
    rw [hσ', hσ] at hcur
    exact hcur.trans (if_pos hp)

theorem done_nothing (hσ : σ.core = k'.core) (hc : Consistent σ) : Done M .nothing σ k' :=
  ⟨σ, hσ, hc, .nothing, fun _ _ _ ht => nomatch ht⟩

theorem wp_commonSys {pc sp flags : Word} {E : Stop → Kernel n → Prop} (hσ : σ.core = k.core)
    (hc : Consistent σ) (hp : k.gCurrentProcess = some p) (hf : k.Fresh (k.specify p h))
    (hQ : ∀ k', Done M (k.specify p h) σ k' →
      (k'.gCurrentProcess = none ∨ k'.mStateLoaded = k.mStateLoaded) → Q () k') :
    wp (commonSys M h pc sp flags) Q E k := by
  rw [commonSys, wp_bind, wp_current hp]
  simp only [wp_bind, wp_get, wp_ite, wp_modify]
  by_cases hpc : ((k.pcb p).area h).newArea.pc = 0
  · have htask : k.specify p h = .nothing := if_neg (not_not.mpr hpc)
    rw [htask] at hQ
    rw [if_pos hpc]
    exact hQ _ (done_nothing hσ hc) (.inr rfl)
  · have htask : k.specify p h = .kill p := if_pos hpc
    rw [htask] at hf hQ
    rw [if_neg hpc]
    exact wp_terminateSelf hσ hc hp hf (fun k' hd hidle => hQ k' hd (.inl hidle))

theorem wp_passUp {E : Stop → Kernel n → Prop} (hσ : σ.core = k.core)
    (hc : Consistent σ) (hp : k.gCurrentProcess = some p) (hf : k.Fresh (k.raise p h))
    (hQ : ∀ k', Done M (k.raise p h) σ k' → k'.Loaded → Q () k') :
    wp (passUp M h) Q E k := by
  rw [passUp, wp_bind, wp_current hp]
  have halike := alike_setPS k p fun s => copyState (k.romArea h) s
  simp only [wp_bind, wp_modify, wp_get, wp_ite, halike.area]
  rw [← halike.raise] at hf hQ
  by_cases hpc : ((k.pcb p).area h).newArea.pc = 0
  · have htask : Kernel.raise _ p h = .kill p := if_neg (not_not.mpr ((halike.area p h).symm ▸ hpc))
    rw [htask] at hf hQ
    rw [if_pos hpc]
    exact wp_terminateSelf hσ hc hp (halike.fresh hf)
      (fun k' hd hidle => hQ k' hd (fun hne => absurd hidle hne))
  · have htask : Kernel.raise _ p h = .nothing := if_pos ((halike.area p h).symm ▸ hpc)
    rw [htask] at hQ
    rw [if_neg hpc]
    exact hQ _ (done_nothing hσ hc) (fun _ => by simp)

/-! ### Semaphores, times and the pid -/

theorem wp_semop_done (hσ : σ.core = k.core) (hc : Consistent σ) (hp : k.gCurrentProcess = some p)
    {E : Stop → Kernel n → Prop} (ha : M.kernelData a = false)
    (hfail : ∀ site, Fails σ (.semop a w) site → E (.panic site) k)
    (hQ : ∀ k', Done M (.semop a w) σ k' → k'.mStateLoaded = k.mStateLoaded → Q () k') :
    wp (semop M a w) Q E k := by
  have hheld : σ.view.place p = .held := (hc.current p).mpr (by rw [hσ]; exact hp)
  refine wp_semop hσ ha (fun _ => ⟨p, hp, hheld⟩) (fun hw k' σ' hσ' hb h => ?_)
    (fun hw k' σ' hσ' hb h => ?_) (fun hw q _ k' σ' hσ' hb h => ?_) (fun hw => ?_)
    (fun hw hwait hfree => ?_)
  · exact hQ k' ⟨σ', hσ', h.consistent hc, .signal hw h, fun _ _ _ ht => nomatch ht⟩ hb.mStateLoaded
  · exact hQ k' ⟨σ', hσ', h.consistent hc, .grant hw h, fun _ _ _ ht => nomatch ht⟩ hb.mStateLoaded
  · exact hQ k' ⟨σ', hσ', h.consistent hc, .block hw h, fun _ _ _ ht => nomatch ht⟩ hb.mStateLoaded
  · exact hfail _ (.zero hw)
  · exact hfail _ (.full hw (by rw [hσ]; exact hp) hwait hfree)

theorem wp_getCpuTime {b : Word} {E : Stop → Kernel n → Prop} (hσ : σ.core = k.core)
    (hc : Consistent σ) (hp : k.gCurrentProcess = some p) (ha : M.kernelData a = false)
    (hb : M.kernelData b = false)
    (hQ : ∀ k', Done M (.store a b) σ k' → k'.mStateLoaded = k.mStateLoaded → Q () k') :
    wp (getCpuTime M a b) Q E k := by
  rw [getCpuTime, wp_bind, wp_current hp]
  simp only [wp_bind, wp_get, wp_writeInt ha, wp_writeInt hb]
  let k' : Kernel n := { k with
    mem := update (update k.mem a (k.pcb p).pGlobalTime) b (k.pcb p).pUserTime
    reg := M.regStore (M.regStore k.reg a (k.pcb p).pGlobalTime) b (k.pcb p).pUserTime }
  let σ' : Snap n := ⟨k'.core, σ.view, σ.asl, σ.free, Snap.owned_of_core hσ⟩
  have hstore : Store a b σ σ' := ⟨rfl, rfl, rfl, _, _, by rw [hσ]; rfl⟩
  have hcons : Consistent σ' := by
    obtain ⟨hcount, htree, hrooted, hcur⟩ := hc
    rw [hσ] at hcount htree hrooted hcur
    exact ⟨hcount, htree, hrooted, hcur⟩
  exact hQ k' ⟨σ', rfl, hcons, .store hstore, by intro _ _ _ ht; cases ht⟩ rfl

theorem Snap.store_word (hσ : σ.core = k.core) (hc : Consistent σ) (r x : Word) :
    ∃ σ', σ'.core = Kernel.core { k with mem := update k.mem r x } ∧ Consistent σ' ∧
      Store r r σ σ' := by
  let k' : Kernel n := { k with mem := update k.mem r x }
  refine ⟨⟨k'.core, σ.view, σ.asl, σ.free, Snap.owned_of_core hσ⟩, rfl, ?_, rfl, rfl, rfl, x, x, ?_⟩
  · obtain ⟨hcount, htree, hrooted, hcur⟩ := hc
    rw [hσ] at hcount htree hrooted hcur
    exact ⟨hcount, htree, hrooted, hcur⟩
  · rw [hσ, Function.update_idem]
    rfl

/-- SYS10, with a device number that some device has or that none has. -/
theorem wp_ioDevop {command intlNo dnum : Word} (hσ : σ.core = k.core) (hc : Consistent σ)
    (hp : k.gCurrentProcess = some p) (ha : M.kernelData (ioSem M intlNo dnum) = false)
    (hr : M.kernelData (ioReg M intlNo dnum) = false)
    (ht : (if M.isReg (ioReg M intlNo dnum) then .semop (ioSem M intlNo dnum) (-1)
      else .command (ioSem M intlNo dnum) (ioReg M intlNo dnum)) = t)
    (hQ : ∀ k', Done M t σ k' → k'.mStateLoaded = k.mStateLoaded → Q () k') :
    wp (ioDevop M command intlNo dnum) Q (Ended M t σ) k := by
  rw [ioDevop, wp_bind]
  by_cases hreg : M.isReg (ioReg M intlNo dnum) = true
  · rw [if_pos hreg] at ht
    subst ht
    refine wp_semop_done hσ hc hp ha (fun _ h => h.ended hσ hc) (fun k₁ hd hl => ?_)
    rw [wp_writeReg hr hreg]
    exact hQ _ (hd.congr rfl (fun _ => .refl _)) hl
  · rw [if_neg hreg] at ht
    subst ht
    refine wp_semop_done hσ hc hp ha (fun _ h => (Fails.command h).ended hσ hc)
      (fun k₁ hd hl => ?_)
    rw [wp_writeReg_word hr hreg]
    obtain ⟨σ₁, hσ₁, hc₁, hdoes, -⟩ := hd
    obtain ⟨σ', hσ', hc', hs⟩ := Snap.store_word hσ₁ hc₁ (ioReg M intlNo dnum) command
    exact hQ _ ⟨σ', hσ', hc', .command hdoes hs, by intro _ _ _ ht; cases ht⟩ hl

theorem wp_exitTrap {excptype retval : Word} (hσ : σ.core = k.core) (hc : Consistent σ)
    (hp : k.gCurrentProcess = some p)
    (hQ : (trapType excptype).isSome → ∀ k', Done M .nothing σ k' → k'.Loaded → Q () k') :
    wp (exitTrap excptype retval) Q (fun stop k' => trapType excptype = none ∧
      stop = .panic .badTrap ∧ k' = k) k := by
  rw [exitTrap]
  cases htype : trapType excptype with
  | none => exact ⟨rfl, rfl, rfl⟩
  | some x =>
    simp only
    rw [wp_bind, wp_current hp]
    simp only [wp_bind, wp_modify]
    exact hQ (by simp [htype]) _ (done_nothing hσ hc) (fun _ => by simp)

/-! ### The system calls -/

/-- **`defSys` does the task of the system call.** -/
theorem wp_defSys (hL : Layout M) (hn : maxProc ≤ n) (hσ : σ.core = k.core) (hc : Consistent σ)
    (hp : k.gCurrentProcess = some p) (hload : k.mStateLoaded ≠ none)
    (haddr : ∀ a ∈ Kernel.sysAddresses M k.sysbold, M.kernelData a = false)
    (hf : k.Fresh (k.sysTask M p k.sysbold))
    (hQ : ∀ k', Done M (k.sysTask M p k.sysbold) σ k' → k'.Loaded → Q () k') :
    wp (defSys M) Q (Ended M (k.sysTask M p k.sysbold) σ) k := by
  obtain ⟨t, ht⟩ : ∃ t, k.sysTask M p k.sysbold = t := ⟨_, rfl⟩
  rw [ht] at hf hQ ⊢
  have hkeep : ∀ k' : Kernel n, k'.mStateLoaded = k.mStateLoaded → k'.Loaded := fun k' h _ => by
    rw [h]
    exact hload
  have hsame : ∀ k' : Kernel n, Done M t σ k' → k'.mStateLoaded = k.mStateLoaded → Q () k' :=
    fun k' hd h => hQ k' hd (hkeep k' h)
  have hspec : ∀ k' : Kernel n, Done M t σ k' →
      (k'.gCurrentProcess = none ∨ k'.mStateLoaded = k.mStateLoaded) → Q () k' :=
    fun k' hd h => hQ k' hd (h.elim (fun hidle hne => absurd hidle hne) (hkeep k'))
  simp only [defSys, wp_bind, wp_get]
  rw [Kernel.sysTask] at ht
  rw [Kernel.sysAddresses] at haddr
  by_cases h1 : k.sysbold.a1 = createProcessNr
  · rw [if_pos h1] at ht ⊢
    subst ht
    simp only [wp_bind, wp_get]
    refine wp_createProcess hσ hc hn hp (fun hfull => hQ _ ?_ (hkeep _ rfl))
      (fun c k' σ' hσ' hapart hcreate hc' => hQ k' ?_ (hkeep k' hapart.mStateLoaded))
    · exact ⟨σ, hσ, hc, .full (by rw [hσ]; exact hfull), by intro _ _ _ ht; cases ht⟩
    · exact ⟨σ', hσ', hc', .create hcreate, by intro _ _ _ ht; cases ht⟩
  rw [if_neg h1] at ht ⊢
  by_cases h2 : k.sysbold.a1 = terminateProcessNr
  · rw [if_pos h2] at ht ⊢
    subst ht
    exact wp_terminateProcess_done hσ hc hp hf hsame
  rw [if_neg h2] at ht ⊢
  by_cases h3 : k.sysbold.a1 = semopNr
  · rw [if_pos h3] at ht haddr ⊢
    subst ht
    exact wp_semop_done hσ hc hp (haddr _ (by simp)) (fun _ h => h.ended hσ hc) hsame
  rw [if_neg h3] at ht haddr ⊢
  by_cases h4 : k.sysbold.a1 = specSysHdlNr
  · rw [if_pos h4] at ht ⊢
    subst ht
    exact wp_commonSys hσ hc hp hf hspec
  rw [if_neg h4] at ht ⊢
  by_cases h5 : k.sysbold.a1 = specTLBHdlNr
  · rw [if_pos h5] at ht ⊢
    subst ht
    exact wp_commonSys hσ hc hp hf hspec
  rw [if_neg h5] at ht ⊢
  by_cases h6 : k.sysbold.a1 = specPgmTHdlNr
  · rw [if_pos h6] at ht ⊢
    subst ht
    exact wp_commonSys hσ hc hp hf hspec
  rw [if_neg h6] at ht ⊢
  by_cases h7 : k.sysbold.a1 = exitTrapNr
  · rw [if_pos h7] at ht ⊢
    refine wp_mono (wp_exitTrap (M := M) hσ hc hp (fun htype k' hd hl => ?_)) (fun _ _ h => h) ?_
    · rw [if_pos htype] at ht
      subst ht
      exact hQ k' hd hl
    · rintro _ _ ⟨htype, rfl, rfl⟩
      rw [htype] at ht
      subst ht
      exact Fails.ended .badTrap hσ hc
  rw [if_neg h7] at ht ⊢
  by_cases h8 : k.sysbold.a1 = getCpuTimeNr
  · rw [if_pos h8] at ht haddr ⊢
    subst ht
    exact wp_getCpuTime hσ hc hp (haddr _ (by simp)) (haddr _ (by simp)) hsame
  rw [if_neg h8] at ht haddr ⊢
  by_cases h9 : k.sysbold.a1 = waitClockNr
  · rw [if_pos h9] at ht ⊢
    subst ht
    simp only [waitClock, wp_bind, wp_modify]
    refine wp_semop_done hσ hc hp hL.clock (fun _ h => h.ended hσ hc)
      (fun k₁ hd hl => hsame _ ?_ hl)
    exact hd.congr rfl (fun _ => .refl _)
  rw [if_neg h9] at ht ⊢
  by_cases h10 : k.sysbold.a1 = ioDevopNr
  · rw [if_pos h10] at ht haddr ⊢
    exact wp_ioDevop hσ hc hp (haddr _ List.mem_cons_self)
      (haddr _ (List.mem_cons_of_mem _ List.mem_cons_self)) ht hsame
  rw [if_neg h10] at ht ⊢
  subst ht
  by_cases h11 : k.sysbold.a1 = getPidNr
  · rw [if_pos h11, getPid, wp_bind, wp_current hp, wp_modify]
    exact hsame _ (done_nothing hσ hc) rfl
  · rw [if_neg h11, wp_pure]
    exact hsame k (done_nothing hσ hc) rfl

/-! ### The handlers -/

theorem wp_sysAboveBP {E : Stop → Kernel n → Prop} (hσ : σ.core = k.core) (hc : Consistent σ)
    (hp : k.gCurrentProcess = some p) (hf : k.Fresh (k.raise p .sbk))
    (hQ : ∀ k', Done M (k.raise p .sbk) σ k' → k'.Loaded → Q () k') :
    wp (sysAboveBP M) Q E k := by
  rw [sysAboveBP, wp_bind, wp_current hp]
  simp only [wp_bind, wp_get, wp_ite, wp_modify]
  by_cases hpc : (k.pcb p).sysbp.newArea.pc = 0
  · have htask : k.raise p .sbk = .kill p := if_neg (not_not.mpr hpc)
    rw [htask] at hf hQ
    rw [if_pos hpc]
    exact wp_terminateSelf hσ hc hp hf
      (fun k' hd hidle => hQ k' hd (fun hne => absurd hidle hne))
  · have htask : k.raise p .sbk = .nothing := if_pos hpc
    rw [htask] at hQ
    rw [if_neg hpc]
    exact hQ _ (done_nothing hσ hc) (fun _ => by simp)

theorem Done.exit {flag : Bool} {E : Stop → Kernel n → Prop} (hd : Done M t σ k)
    (hload : k.Loaded) (hQ : ∀ k', Done M t σ k' → k'.Loaded → Q () k') :
    wp (getTODLO M >>= fun tod => onHandlerExit tod flag) Q E k := by
  refine wp_exit (fun k' hc hb => hQ k' (hd.beside hc hb) (fun hne => ?_))
  have hcur : k'.gCurrentProcess = k.gCurrentProcess := congrArg Core.gCurrentProcess hc
  rw [hcur] at hne
  rw [hb.mStateLoaded]
  exact hload hne

/-- **Program traps and TLB exceptions**, also the ones that were system calls. -/
theorem wp_commonSubHandler {E : Stop → Kernel n → Prop} (hσ : σ.core = k.core)
    (hc : Consistent σ) (hp : k.gCurrentProcess = some p) (hf : k.Fresh (k.raise p h))
    (hQ : ∀ k', Done M (k.raise p h) σ k' → k'.Loaded → Q () k') :
    wp (commonSubHandler M h) Q E k := by
  have hrest : ∀ k₁ : Kernel n, Alike k k₁ →
      wp (passUp M h >>= fun _ => getTODLO M >>= fun tod => onHandlerExit tod false) Q E k₁ := by
    intro k₁ halike
    rw [wp_bind]
    rw [← halike.raise] at hf hQ
    exact wp_passUp (hσ.trans halike.core.symm) hc (halike.current.trans hp) (halike.fresh hf)
      (fun k₂ hd hload => hd.exit hload hQ)
  rw [commonSubHandler, wp_bind, wp_get, wp_bind]
  cases k.bySysHdl with
  | true => exact hrest _ ⟨rfl, fun _ => rfl, fun _ _ => rfl⟩
  | false => exact wp_enter (fun k₁ hc₁ hb₁ => hrest k₁ (hb₁.alike hc₁))

theorem wp_pgmTrapHandler (hL : Layout M) (hσ : σ.core = k.core) (hc : Consistent σ)
    (hp : k.gCurrentProcess = some p) (hf : k.Fresh (k.raise p .pgm)) :
    wp (pgmTrapHandler M) Q (Ended M (k.raise p .pgm) σ) k := by
  rw [pgmTrapHandler, wp_bind]
  exact wp_commonSubHandler hσ hc hp hf (fun k' hd hload => hd.leaveHandler hL hload)

theorem wp_tlbHandler (hL : Layout M) (hσ : σ.core = k.core) (hc : Consistent σ)
    (hp : k.gCurrentProcess = some p) (hf : k.Fresh (k.raise p .tlb)) :
    wp (tlbHandler M) Q (Ended M (k.raise p .tlb) σ) k := by
  rw [tlbHandler, wp_bind]
  exact wp_commonSubHandler hσ hc hp hf (fun k' hd hload => hd.leaveHandler hL hload)

theorem wp_userModeSys (hL : Layout M) (hσ : σ.core = k.core) (hc : Consistent σ)
    (hp : k.gCurrentProcess = some p) (hf : k.Fresh (k.raise p .pgm)) :
    wp (userModeSys M) Q (Ended M (k.raise p .pgm) σ) k := by
  simp only [userModeSys, wp_bind, wp_modify]
  refine wp_getTODLO (fun tod k₁ hc₁ hb₁ => wp_onHandlerExit (fun k₂ hc₂ hb₂ => ?_))
  have halike : Alike k k₂ := by
    have h₁ := hb₁.alike hc₁
    have h₂ := h₁.trans (hb₂.alike hc₂)
    exact ⟨h₂.core, h₂.pid, h₂.area⟩
  rw [← halike.raise] at hf ⊢
  exact wp_pgmTrapHandler hL (hσ.trans halike.core.symm) hc (halike.current.trans hp)
    (halike.fresh hf)

/-- **System calls.** -/
theorem wp_sysCall (hL : Layout M) (hn : maxProc ≤ n) (hσ : σ.core = k.core) (hc : Consistent σ)
    (hp : k.gCurrentProcess = some p) (hload : k.mStateLoaded ≠ none)
    (haddr : M.kernelMode k.sysbold.cpsr = true →
      ∀ a ∈ Kernel.sysAddresses M k.sysbold, M.kernelData a = false)
    (ht : t = if createProcessNr ≤ k.sysbold.a1 ∧ k.sysbold.a1 ≤ getPidNr then
        if M.kernelMode k.sysbold.cpsr then k.sysTask M p k.sysbold else k.raise p .pgm
      else k.raise p .sbk)
    (hf : k.Fresh t) (hQ : ∀ k', Done M t σ k' → k'.Loaded → Q () k') :
    wp (sysCall M) Q (Ended M t σ) k := by
  rw [sysCall, ← bind_assoc, wp_bind]
  refine wp_enter (fun k₁ hc₁ hb₁ => ?_)
  have halike := hb₁.alike hc₁
  have hσ₁ := hσ.trans halike.core.symm
  have hp₁ := halike.current.trans hp
  have hexit : ∀ k', Done M t σ k' → k'.Loaded →
      wp (getTODLO M >>= fun tod => onHandlerExit tod true) Q (Ended M t σ) k' :=
    fun k' hd hl => hd.exit hl hQ
  rw [← hb₁.sysbold, ← halike.raise, ← halike.raise, ← halike.sysTask] at ht
  rw [← hb₁.sysbold] at haddr
  have hf₁ := halike.fresh hf
  simp only [wp_bind, wp_get, wp_ite]
  by_cases hnr : createProcessNr ≤ k₁.sysbold.a1 ∧ k₁.sysbold.a1 ≤ getPidNr
  · rw [if_pos hnr] at ht ⊢
    by_cases hmode : M.kernelMode k₁.sysbold.cpsr = true
    · rw [if_pos hmode] at ht ⊢
      subst ht
      exact wp_defSys hL hn hσ₁ hc hp₁ (by rw [hb₁.mStateLoaded]; exact hload)
        (haddr hmode) hf₁
        (fun k' hd hl => by simpa only [wp_bind] using hexit k' hd hl)
    · rw [if_neg hmode] at ht ⊢
      subst ht
      exact wp_userModeSys hL hσ₁ hc hp₁ hf₁
  · rw [if_neg hnr] at ht ⊢
    subst ht
    exact wp_sysAboveBP hσ₁ hc hp₁ hf₁
      (fun k' hd hl => by simpa only [wp_bind] using hexit k' hd hl)

/-- **System calls and breakpoints.** -/
theorem wp_sysBPHandler (hL : Layout M) (hn : maxProc ≤ n) (hσ : σ.core = k.core)
    (hc : Consistent σ) (hp : k.gCurrentProcess = some p)
    (haddr : ∀ a ∈ k.addresses M (.sysBP k.sysbold), M.kernelData a = false)
    (hf : k.Fresh (k.sysBPTask M p k.sysbold)) :
    wp (sysBPHandler M) Q (Ended M (k.sysBPTask M p k.sysbold) σ) k := by
  obtain ⟨t, ht⟩ : ∃ t, k.sysBPTask M p k.sysbold = t := ⟨_, rfl⟩
  rw [ht] at hf ⊢
  rw [Kernel.sysBPTask] at ht
  have hleave : ∀ k', Done M t σ k' → k'.Loaded → wp (leaveHandler M) Q (Ended M t σ) k' :=
    fun k' hd hl => hd.leaveHandler hL hl
  have hmain : ∀ k₁ : Kernel n, Alike k k₁ → k₁.sysbold = k.sysbold → k₁.mStateLoaded ≠ none →
      wp (if M.causeExcCodeGet k.sysbold.cp15Cause = M.excSyscall then sysCall M
        else if M.causeExcCodeGet k.sysbold.cp15Cause = M.excBreakpoint then breakpoint M
        else throw (.panic .badException) : K n Unit)
        (fun _ => wp (leaveHandler M) Q (Ended M t σ)) (Ended M t σ) k₁ := by
    intro k₁ halike hold hload
    have hσ₁ := hσ.trans halike.core.symm
    have hp₁ := halike.current.trans hp
    have hf₁ := halike.fresh hf
    rw [← halike.sysTask, ← halike.raise, ← halike.raise] at ht
    rw [wp_ite]
    by_cases h1 : M.causeExcCodeGet k.sysbold.cp15Cause = M.excSyscall
    · rw [if_pos h1] at ht ⊢
      have haddr₁ : M.kernelMode k₁.sysbold.cpsr = true →
          ∀ a ∈ Kernel.sysAddresses M k₁.sysbold, M.kernelData a = false := by
        rw [hold]
        intro hmode
        rwa [Kernel.addresses, if_pos ⟨h1, hmode⟩] at haddr
      exact wp_sysCall hL hn hσ₁ hc hp₁ hload haddr₁ (by rw [hold]; exact ht.symm) hf₁ hleave
    · rw [if_neg h1] at ht ⊢
      by_cases h2 : M.causeExcCodeGet k.sysbold.cp15Cause = M.excBreakpoint
      · rw [if_pos h2] at ht
        subst ht
        rw [wp_ite, if_pos h2, breakpoint, ← bind_assoc, wp_bind]
        refine wp_enter (fun k₂ hc₂ hb₂ => ?_)
        have halike₂ := hb₂.alike hc₂
        rw [← halike₂.raise] at hf₁ hleave ⊢
        rw [wp_bind]
        exact wp_sysAboveBP (hσ₁.trans halike₂.core.symm) hc (halike₂.current.trans hp₁)
          (halike₂.fresh hf₁) (fun k' hd hl => hd.exit hl hleave)
      · rw [if_neg h2] at ht
        subst ht
        rw [wp_ite, if_neg h2, wp_throw]
        exact Fails.ended .badException hσ₁ hc
  simp only [sysBPHandler, wp_bind, wp_modify, wp_get]
  refine (wp_current (p := p) ?_).mpr ?_
  · exact hp
  have hloaded : Alike k { k with mStateLoaded := some .sysbold } :=
    ⟨rfl, fun _ => rfl, fun _ _ => rfl⟩
  exact hmain _ (hloaded.trans (alike_setPS _ p fun s => copyState k.sysbold s)) rfl
    (by simp [Kernel.setPcb])

end JaeOS
