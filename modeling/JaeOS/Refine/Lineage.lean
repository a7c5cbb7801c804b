import JaeOS.Lib.ProcSystem
import JaeOS.Properties.PidFreshness

/-!
# Parents

`Terminate` and `Create` say what becomes of the lists and the counters.  Here the parent
pointers are followed through an entry: a creation gives the new block its creator as the
parent, a termination takes the parents of the ended processes away, and no other entry
changes a parent.
-/

namespace JaeOS

open Function (update)
open Forest (Progeny prune)

variable {n : ℕ} {M : Machine} {k k₁ : Kernel n} {σ : Snap n} {p root : Fin n} {h : Hdl} {e : Entry}
  {old : ProcState} {par : Fin n → Option (Fin n)} {E : Stop → Kernel n → Prop} {a w : Word}

/-- The parents after an entry. -/
noncomputable def Kernel.lineage (k : Kernel n) (M : Machine) (e : Entry) : Fin n → Option (Fin n) :=
  match k.task M e with
  | .create => (k.born M e).elim k.pParent fun c => update k.pParent c k.gCurrentProcess
  | .kill root => prune k.pParent root
  | _ => k.pParent

/-! ### Functions that change no parent -/

/-- The parents are these. -/
def Lineal (par : Fin n → Option (Fin n)) (k : Kernel n) : Prop := k.pParent = par

theorem Lineal.congr (hk : Lineal par k) (hc : k₁.core = k.core) : Lineal par k₁ :=
  (congrArg (fun c : Core n => c.pParent) hc).trans hk

theorem lineal_modify {f : Kernel n → Kernel n} (hf : ∀ k, (f k).pParent = k.pParent) :
    Keeps (Lineal par) E (modify f : K n PUnit) :=
  Keeps.modify (fun k hk => (hf k).trans hk)

theorem lineal_liftQ {α : Type} (x : Q n α) :
    Keeps (Lineal par) (fun _ => Lineal par) (liftM x : K n α) := by
  intro k hk
  rw [wp_liftQ]
  split
  · exact hk
  · exact hk

theorem lineal_current :
    Keeps (Lineal par) (fun _ => Lineal par) (current : K n (Fin n)) := by
  apply Keeps.get_bind
  intro k
  cases k.gCurrentProcess with
  | none => exact Keeps.throw (fun _ hk => hk)
  | some p => exact Keeps.pure

theorem lineal_hook {flag : Bool} :
    Keeps (Lineal par) (fun _ => Lineal par)
      (getTODLO M >>= fun t => onHandlerExit t flag : K n Unit) :=
  fun _ hk => wp_onExit.mpr (hk.congr (onExit_core flag))

theorem lineal_writeWord : Keeps (Lineal par) (fun _ => Lineal par) (writeWord M a w : K n Unit) := by
  rw [writeWord]
  exact Keeps.ite (Keeps.throw (fun _ hk => hk)) (lineal_modify (fun _ => rfl))

theorem lineal_scheduler : Keeps (Lineal par) (fun _ => Lineal par) (scheduler M : K n Unit) := by
  have hthrow : ∀ s, Keeps (Lineal par) (fun _ => Lineal par) (throw s : K n Unit) :=
    fun _ => Keeps.throw (fun _ hk => hk)
  rw [scheduler]
  apply Keeps.bind (lineal_liftQ _)
  intro head
  cases head with
  | none =>
    apply Keeps.get_bind
    intro k
    refine Keeps.ite (hthrow _) (Keeps.ite ?_ (hthrow _))
    rw [← bind_assoc]
    exact Keeps.bind lineal_hook (fun _ => hthrow _)
  | some p =>
    apply Keeps.bind (lineal_liftQ _)
    intro _
    refine Keeps.bind (lineal_modify ?_) (fun _ => ?_)
    · exact fun _ => rfl
    apply Keeps.bind lineal_current
    intro _
    refine Keeps.bind (lineal_modify ?_) (fun _ => ?_)
    · exact fun _ => rfl
    rw [← bind_assoc]
    apply Keeps.bind lineal_hook
    intro _
    apply Keeps.get_bind
    intro _
    apply Keeps.bind lineal_writeWord
    intro _
    apply Keeps.get_bind
    intro _
    exact hthrow _

theorem lineal_leaveHandler :
    Keeps (Lineal par) (fun _ => Lineal par) (leaveHandler M : K n Unit) := by
  rw [leaveHandler]
  apply Keeps.get_bind
  intro k
  cases k.gCurrentProcess with
  | none => exact lineal_scheduler
  | some p =>
    rw [ldstStateLoaded]
    apply Keeps.get_bind
    intro k'
    cases k'.mStateLoaded <;> exact Keeps.throw (fun _ hk => hk)

theorem wp_leave_lineal {flag : Bool} (hk : Lineal par k) :
    wp (leaveHandler M) (fun _ => Lineal par) (fun _ => Lineal par) (k.onExit M flag) :=
  lineal_leaveHandler _ (hk.congr (onExit_core flag))

/-! ### Creation -/

theorem run_insertChild_eq {t : Tree n} {c : Fin n} :
    (insertChild p c).run t = some ((), Tree.setChildren
      { t with pParent := update t.pParent c (some p) } p ((t.children p).enqueue c)) := rfl

/-- **A new process has its creator as the parent.** -/
theorem wp_createProcess_lineal {np : ProcState} (hE : ∀ k', E (.fault .wild) k')
    (hp : k.gCurrentProcess = some p) (hroom : k.gProcessCount.toNat < maxProc) :
    wp (createProcess np) (fun _ k' => ∃ b, k.core.spare = some b ∧
      Lineal (update k.pParent b (some p)) k') E k := by
  rw [createProcess, wp_bind, wp_get, if_pos hroom, allocPcb, bind_assoc, wp_bind, wp_liftQ]
  cases hrem : (removeProcQ .pcbFree).run k.toQueues with
  | none => exact hE k
  | some r =>
    obtain ⟨r, s⟩ := r
    cases r with
    | none => exact hE _
    | some b =>
      have hspare : k.core.spare = some b := by
        have hhead : (k.procQ .pcbFree).head.join = some b := by
          rw [run_removeProcQ_head hrem, Option.join_some]
        exact (if_pos hroom).trans hhead
      dsimp only
      rw [wp_bind, wp_bind, wp_modify, wp_pure, wp_bind, wp_modify, pidSelector, wp_bind, wp_bind,
        wp_modify, wp_bind, wp_get, wp_pure, wp_bind, wp_modify, wp_bind]
      refine (wp_current (p := p) ?_).mpr ?_
      · exact hp
      rw [wp_bind, wp_liftT, run_insertChild_eq]
      dsimp only
      rw [wp_bind, wp_liftQ, run_insertProcQ]
      dsimp only
      rw [wp_modify]
      exact ⟨b, hspare, Function.update_idem ..⟩

theorem wp_handler_create_lineal (hp : k.gCurrentProcess = some p) (he : e.Sys M createProcessNr)
    (hroom : k.gProcessCount.toNat < maxProc) :
    wp (handler M e) (fun _ _ => True) (fun s k' => (∀ f, s ≠ .fault f) →
      ∃ b, k.core.spare = some b ∧ Lineal (update k.pParent b (some p)) k') k := by
  obtain ⟨old, rfl, hsys, hmode, hnr⟩ := he.exists_old
  let k₁ : Kernel n := k.start M p (.sysBP old)
  have hp₁ : k₁.gCurrentProcess = some p := Kernel.start_current hp
  have hold : k₁.sysbold = old := Kernel.start_sysbold
  have hcore : k₁.core = k.core := Kernel.start_core
  have hpar : k₁.pParent = k.pParent := congrArg (fun c : Core n => c.pParent) hcore
  have hroom₁ : k₁.gProcessCount.toNat < maxProc := by
    rw [show k₁.gProcessCount = k.gProcessCount from congrArg Core.gProcessCount hcore]
    exact hroom
  rw [wp_handler_call hp hsys, if_pos (by rw [hnr]; decide), if_pos hmode, defSys, wp_bind, wp_get]
  change wp (if k₁.sysbold.a1 = createProcessNr then _ else _) _ _ k₁
  rw [hold, if_pos hnr, wp_bind, wp_get]
  refine wp_mono (wp_createProcess_lineal (fun _ hf => absurd rfl (hf _)) hp₁ hroom₁) ?_
    (fun _ _ h => h)
  rintro _ k₂ ⟨b, hb, h₂⟩
  rw [hpar] at h₂
  rw [hcore] at hb
  exact wp_mono (wp_leave_lineal h₂) (fun _ _ _ => trivial) (fun _ _ h₃ _ => ⟨b, hb, h₃⟩)

/-! ### Termination -/

/-- **What a termination leaves of the tree.** -/
theorem wp_terminateProcess_prune {pid : Word} (hσ : σ.core = k.core) (hc : Consistent σ)
    (hp : k.gCurrentProcess = some p) (hf : k.Fresh (.kill root)) (ht : k.target p pid = some root) :
    wp (terminateProcess M pid) (fun _ => Lineal (prune k.pParent root)) E k := by
  obtain ⟨kids, htree⟩ := hc.tree
  rw [hσ] at htree
  have hheld : σ.view.place p = .held := (hc.current p).mpr (by rw [hσ]; exact hp)
  have hpar := Snap.pParent_eq hσ
  have hrelease : Progeny k.pParent p root → ∀ q, Progeny k.pParent root q → σ.Releasable q := by
    intro hroot q hq
    refine ⟨hc.alive (by rw [hheld]; simp) (by rw [hpar]; exact hroot.trans hq), fun hr => ?_⟩
    by_contra hcs
    rw [hσ] at hcs
    exact hf root rfl q hq
      ⟨⟨_, (Snap.owned_of_core hσ).listed .ready _ rfl, (σ.view.mem _ q).mpr hr⟩, hcs⟩
  have hsize : Forest.SizeLE k.pParent root (n + 1) := by
    obtain ⟨S, hS, hcard⟩ : Forest.SizeLE k.pParent root _ := Forest.sizeLE_card
    refine ⟨S, hS, hcard.trans ?_⟩
    rw [Fintype.card_fin]
    omega
  have hkill : Progeny k.pParent p root → wp (terminateProgeny M (n + 1) root)
      (fun _ => Lineal (prune k.pParent root)) E k := by
    intro hroot
    refine wp_terminateProgeny (n + 1) root k σ kids _ hσ htree hsize (hrelease hroot)
      (fun k' σ' kids' ds hcl hds => ?_)
    funext q
    have hmem : q ∈ ds ↔ Progeny k.pParent root q := ⟨fun hq => hcl.below q hq,
      fun hq => hcl.mem_of_progeny hds hq⟩
    rw [hcl.pruned.parent]
    by_cases hq : Progeny k.pParent root q
    · rw [Forest.prune_of_progeny hq, if_pos (hmem.mpr hq)]
    · rw [Forest.prune_of_not hq, if_neg (fun hm => hq (hmem.mp hm))]
  rw [Kernel.target] at ht
  rw [terminateProcess, wp_bind, wp_current hp]
  by_cases hpid : pid = 0
  · rw [if_pos hpid] at ht
    obtain rfl : p = root := Option.some.inj ht
    rw [if_neg (by simpa using hpid), wp_bind]
    exact wp_mono (hkill .refl) (fun _ _ h => h) (fun _ _ h => h)
  · rw [if_neg hpid] at ht
    rw [if_pos (by simpa using hpid), wp_bind, wp_get]
    by_cases hempty : k.emptyChild p = true
    · rw [if_pos hempty] at ht
      cases ht
    · rw [if_neg hempty] at ht ⊢
      have hall : Forest.SizeLE k.pParent p (n + 1) := by
        obtain ⟨S, hS, hcard⟩ : Forest.SizeLE k.pParent p _ := Forest.sizeLE_card
        refine ⟨S, hS, hcard.trans ?_⟩
        rw [Fintype.card_fin]
        omega
      obtain ⟨r, hr, hspec⟩ := htree.childByPid_spec pid (n + 1) p hall
      rw [hr, Option.join_some] at ht
      obtain ⟨_, d, hd, hdr⟩ := hspec root ht
      subst ht
      rw [hr]
      exact hkill (hdr.of_child hd)

/-- The state is that of the entry, as far as the end of `root` goes. -/
structure Doomed (k : Kernel n) (σ : Snap n) (p root : Fin n) : Prop where
  core : σ.core = k.core
  consistent : Consistent σ
  current : k.gCurrentProcess = some p
  fresh : k.Fresh (.kill root)

theorem Doomed.alike (hd : Doomed k σ p root) (ha : Alike k k₁) : Doomed k₁ σ p root :=
  ⟨hd.core.trans ha.core.symm, hd.consistent, ha.current.trans hd.current, ha.fresh hd.fresh⟩

theorem Alike.pParent (h : Alike k k₁) : k₁.pParent = k.pParent := congrArg Tree.pParent h.toTree

namespace Doomed

variable (hd : Doomed k σ p root)

include hd

theorem killTask {pid : Word} (ht : k.killTask p pid = .kill root) :
    wp (terminateProcess M pid) (fun _ => Lineal (prune k.pParent root)) E k := by
  refine wp_terminateProcess_prune hd.core hd.consistent hd.current hd.fresh ?_
  rw [Kernel.killTask] at ht
  cases htarget : k.target p pid with
  | none =>
    rw [htarget] at ht
    cases ht
  | some r =>
    rw [htarget] at ht
    exact congrArg some (Task.kill.inj ht)

theorem self (hroot : p = root) :
    wp (terminateProcess M 0) (fun _ => Lineal (prune k.pParent root)) E k :=
  wp_terminateProcess_prune hd.core hd.consistent hd.current hd.fresh
    ((if_pos rfl).trans (congrArg some hroot))

theorem commonSys {pc sp flags : Word} (ht : k.specify p h = .kill root) :
    wp (commonSys M h pc sp flags) (fun _ => Lineal (prune k.pParent root)) E k := by
  by_cases hh : k.Handles p h
  · rw [Kernel.specify, if_pos hh] at ht
    rw [JaeOS.commonSys, wp_bind, wp_current hd.current, wp_bind, wp_get]
    dsimp only
    rw [if_neg hh]
    exact hd.self (Task.kill.inj ht)
  · rw [Kernel.specify, if_neg hh] at ht
    cases ht

theorem sysAboveBP (ht : k.raise p .sbk = .kill root) :
    wp (sysAboveBP M) (fun _ => Lineal (prune k.pParent root)) E k := by
  by_cases hh : k.Handles p .sbk
  · rw [Kernel.raise, if_pos hh] at ht
    cases ht
  · rw [Kernel.raise, if_neg hh] at ht
    have hpc : (k.pcb p).sysbp.newArea.pc = 0 := not_not.mp hh
    rw [JaeOS.sysAboveBP, wp_bind, wp_current hd.current, wp_bind, wp_get]
    dsimp only
    rw [if_pos hpc]
    exact hd.self (Task.kill.inj ht)

theorem passUp (ht : k.raise p h = .kill root) :
    wp (passUp M h) (fun _ => Lineal (prune k.pParent root)) E k := by
  by_cases hh : k.Handles p h
  · rw [Kernel.raise, if_pos hh] at ht
    cases ht
  · rw [Kernel.raise, if_neg hh] at ht
    have halike : Alike k (k.setPcb p fun c => { c with pS := copyState (k.romArea h) c.pS }) :=
      alike_setPS k p (fun s => copyState (k.romArea h) s)
    have hpc : (((k.setPcb p fun c => { c with pS := copyState (k.romArea h) c.pS }).pcb p).area
        h).newArea.pc = 0 := not_not.mp (fun hne => hh ((halike.handles p h).mp hne))
    rw [JaeOS.passUp, wp_bind, wp_current hd.current, wp_bind, wp_modify, wp_bind, wp_get]
    dsimp only
    rw [if_pos hpc, ← halike.pParent]
    exact (hd.alike halike).self (Task.kill.inj ht)

theorem defSys (ht : k.sysTask M p k.sysbold = .kill root) :
    wp (defSys M) (fun _ => Lineal (prune k.pParent root)) E k := by
  rw [Kernel.sysTask] at ht
  rw [JaeOS.defSys, wp_bind, wp_get]
  dsimp only
  by_cases h1 : k.sysbold.a1 = createProcessNr
  · rw [if_pos h1] at ht
    cases ht
  rw [if_neg h1] at ht ⊢
  by_cases h2 : k.sysbold.a1 = terminateProcessNr
  · rw [if_pos h2] at ht ⊢
    exact hd.killTask ht
  rw [if_neg h2] at ht ⊢
  by_cases h3 : k.sysbold.a1 = semopNr
  · rw [if_pos h3] at ht
    cases ht
  rw [if_neg h3] at ht ⊢
  by_cases h4 : k.sysbold.a1 = specSysHdlNr
  · rw [if_pos h4] at ht ⊢
    exact hd.commonSys ht
  rw [if_neg h4] at ht ⊢
  by_cases h5 : k.sysbold.a1 = specTLBHdlNr
  · rw [if_pos h5] at ht ⊢
    exact hd.commonSys ht
  rw [if_neg h5] at ht ⊢
  by_cases h6 : k.sysbold.a1 = specPgmTHdlNr
  · rw [if_pos h6] at ht ⊢
    exact hd.commonSys ht
  rw [if_neg h6] at ht
  split_ifs at ht

theorem commonSubHandler (ht : k.raise p h = .kill root) :
    wp (commonSubHandler M h) (fun _ => Lineal (prune k.pParent root)) E k := by
  have hrest : ∀ k₁ : Kernel n, Alike k k₁ →
      wp (JaeOS.passUp M h >>= fun _ => getTODLO M >>= fun tod => onHandlerExit tod false)
        (fun _ => Lineal (prune k.pParent root)) E k₁ := by
    intro k₁ halike
    rw [wp_bind, ← halike.pParent]
    refine wp_mono ((hd.alike halike).passUp ((halike.raise p h).trans ht)) ?_ (fun _ _ h => h)
    exact fun _ k₂ h₂ => wp_onExit.mpr (h₂.congr (onExit_core false))
  cases hby : k.bySysHdl with
  | true =>
    rw [wp_commonSubHandler_true hby]
    exact hrest _ ⟨rfl, fun _ => rfl, fun _ _ => rfl⟩
  | false =>
    rw [wp_commonSubHandler_false hby]
    exact hrest _ (beside_onEnter.alike onEnter_core)

theorem trap (ht : k.raise p h = .kill root) :
    wp (JaeOS.commonSubHandler M h >>= fun _ => leaveHandler M)
      (fun _ => Lineal (prune k.pParent root)) (fun _ => Lineal (prune k.pParent root)) k := by
  rw [wp_bind]
  exact wp_mono (hd.commonSubHandler ht) (fun _ k₂ h₂ => lineal_leaveHandler k₂ h₂) (fun _ _ h => h)

theorem userModeSys (ht : k.raise p .pgm = .kill root) :
    wp (userModeSys M) (fun _ => Lineal (prune k.pParent root))
      (fun _ => Lineal (prune k.pParent root)) k := by
  rw [JaeOS.userModeSys, wp_bind, wp_modify, wp_bind, wp_modify, wp_bind, wp_modify, ← bind_assoc,
    wp_bind, wp_onExit, pgmTrapHandler]
  let k₁ : Kernel n := { k with
    pgmold := { copyState k.sysbold k.pgmold with
      cp15Cause := M.causeExcCodeSet (copyState k.sysbold k.pgmold).cp15Cause M.excReservedInstr }
    bySysHdl := true }
  have hfirst : Alike k k₁ := ⟨rfl, fun _ => rfl, fun _ _ => rfl⟩
  have halike : Alike k (k₁.onExit M true) :=
    hfirst.trans ((beside_onExit true).alike (onExit_core true))
  rw [← halike.pParent]
  exact (hd.alike halike).trap ((halike.raise p .pgm).trans ht)

end Doomed

theorem alike_start : Alike k (k.start M p e) := by
  cases e with
  | sysBP old =>
    have hfirst : Alike k (Kernel.setPcb { k with sysbold := old, mStateLoaded := some .sysbold } p
        fun c => { c with pS := old }) := by
      have hrom : Alike k { k with sysbold := old, mStateLoaded := some .sysbold } :=
        ⟨rfl, fun _ => rfl, fun _ _ => rfl⟩
      exact hrom.trans (alike_setPS _ p fun _ => old)
    exact hfirst.trans (beside_onEnter.alike onEnter_core)
  | pgmTrap old =>
    have hfirst : Alike k { k with pgmold := old } := ⟨rfl, fun _ => rfl, fun _ _ => rfl⟩
    exact hfirst.trans (beside_onEnter.alike onEnter_core)
  | tlb old =>
    have hfirst : Alike k { k with tlbold := old } := ⟨rfl, fun _ => rfl, fun _ _ => rfl⟩
    exact hfirst.trans (beside_onEnter.alike onEnter_core)
  | interrupt old cause =>
    have hfirst : Alike k { k with intold := { old with pc := old.pc - 4 } } :=
      ⟨rfl, fun _ => rfl, fun _ _ => rfl⟩
    exact hfirst.trans (beside_onEnter.alike onEnter_core)

theorem interruptTask_ne_kill {reg : Word → Word} {cause : Word} :
    (M.interruptTask reg cause : Task n) ≠ .kill root := by
  rw [Machine.interruptTask]
  split
  · simp
  · split_ifs
    · simp
    · split <;> simp

/-- **A termination prunes the tree**, on every way through the handlers. -/
theorem wp_handler_kill_lineal (hσ : σ.core = k.core) (hc : Consistent σ)
    (hp : k.gCurrentProcess = some p) (hf : k.Fresh (k.task M e)) (ht : k.task M e = .kill root) :
    wp (handler M e) (fun _ => Lineal (prune k.pParent root))
      (fun _ => Lineal (prune k.pParent root)) k := by
  have hd : Doomed k σ p root := ⟨hσ, hc, hp, ht ▸ hf⟩
  have hstart : Alike k (k.start M p e) := alike_start
  cases e with
  | sysBP old =>
    have ht' : k.sysBPTask M p old = .kill root := by
      rw [Kernel.task, hp] at ht
      exact ht
    have hd₁ := hd.alike hstart
    have hleave : ∀ {flag : Bool} (_ : Unit) k', Lineal (prune k.pParent root) k' →
        wp (leaveHandler M) (fun _ => Lineal (prune k.pParent root))
          (fun _ => Lineal (prune k.pParent root)) (k'.onExit M flag) :=
      fun _ _ h' => wp_leave_lineal h'
    rw [← hstart.pParent] at hleave ⊢
    rw [Kernel.sysBPTask] at ht'
    by_cases hsys : M.causeExcCodeGet old.cp15Cause = M.excSyscall
    · rw [if_pos hsys] at ht'
      rw [wp_handler_call hp hsys]
      refine wp_if (fun hrange => wp_if (fun hmode => ?_) (fun hmode => ?_)) (fun hrange => ?_)
      · rw [if_pos hrange, if_pos hmode, ← hstart.sysTask] at ht'
        refine wp_mono (hd₁.defSys ?_) hleave (fun _ _ h => h)
        rw [Kernel.start_sysbold]
        exact ht'
      · rw [if_pos hrange, if_neg hmode, ← hstart.raise] at ht'
        exact wp_mono (hd₁.userModeSys ht') hleave (fun _ _ h => h)
      · rw [if_neg hrange, ← hstart.raise] at ht'
        exact wp_mono (hd₁.sysAboveBP ht') hleave (fun _ _ h => h)
    · rw [if_neg hsys] at ht'
      by_cases hbrk : M.causeExcCodeGet old.cp15Cause = M.excBreakpoint
      · rw [if_pos hbrk, ← hstart.raise] at ht'
        rw [wp_handler_break hp hsys hbrk]
        exact wp_mono (hd₁.sysAboveBP ht') hleave (fun _ _ h => h)
      · rw [if_neg hbrk] at ht'
        cases ht'
  | pgmTrap old =>
    have ht' : k.raise p .pgm = .kill root := by
      rw [Kernel.task, hp] at ht
      exact ht
    have halike : Alike k { k with pgmold := old } := ⟨rfl, fun _ => rfl, fun _ _ => rfl⟩
    rw [handler, wp_bind, wp_modify, pgmTrapHandler]
    exact (hd.alike halike).trap ((halike.raise p .pgm).trans ht')
  | tlb old =>
    have ht' : k.raise p .tlb = .kill root := by
      rw [Kernel.task, hp] at ht
      exact ht
    have halike : Alike k { k with tlbold := old } := ⟨rfl, fun _ => rfl, fun _ _ => rfl⟩
    rw [handler, wp_bind, wp_modify, tlbHandler]
    exact (hd.alike halike).trap ((halike.raise p .tlb).trans ht')
  | interrupt old cause => exact absurd ht interruptTask_ne_kill

/-! ### Every entry -/

theorem Does.toTree {σ' : Snap n} {t : Task n} (h : Does M t σ σ') (hcreate : t ≠ .create)
    (hkill : ∀ root, t ≠ .kill root) : σ'.core.toTree = σ.core.toTree := by
  have hsignals : ∀ {a : Word} {σ σ' : Snap n}, Signals M a σ σ' →
      σ'.core.toTree = σ.core.toTree := by
    intro a σ σ' hs
    induction hs with
    | refl => rfl
    | head _ h _ ih => exact ih.trans h.tree
  induction h with
  | nothing => rfl
  | full => rfl
  | create => exact absurd rfl hcreate
  | kill => exact absurd rfl (hkill _)
  | signal _ h => exact h.tree
  | grant _ h => rw [h.core]
  | block _ h => exact h.tree
  | command _ hs ih =>
    obtain ⟨x, y, hcore⟩ := hs.core
    rw [hcore]
    exact ih (by simp) (by simp)
  | store h =>
    obtain ⟨x, y, hcore⟩ := h.core
    rw [hcore]
  | tick h => exact hsignals h
  | preempt hs h => exact h.tree.trans (hsignals hs)
  | busy => rfl
  | device _ h => exact h.tree

theorem Ends.toTree {σ' : Snap n} {t : Task n} {stop : Stop} (h : Ends M t σ stop σ')
    (hcreate : t ≠ .create) (hkill : ∀ root, t ≠ .kill root) :
    σ'.core.toTree = σ.core.toTree := by
  cases h with
  | fail => rfl
  | back hd _ => exact hd.toTree hcreate hkill
  | dispatch hd _ h => exact h.tree.trans (hd.toTree hcreate hkill)
  | idle hd _ _ => exact hd.toTree hcreate hkill

theorem Ends.full {σ' : Snap n} {stop : Stop} (hσ : σ.core = k.core) (hc : Consistent σ)
    (h : Ends M (k.task M e) σ stop σ') (ht : k.task M e = .create) (hborn : k.born M e = none) :
    σ'.core.toTree = σ.core.toTree := by
  have hdoes : ∀ {σ₁ : Snap n}, Does M (k.task M e) σ σ₁ → σ₁ = σ := by
    intro σ₁ hd
    have hplace : ∀ q, σ₁.view.place q ≠ .free → σ.view.place q ≠ .free := fun q hq =>
      ((hd.place_free hσ hc).mp hq).1.resolve_right (by simp [hborn])
    rw [ht] at hd
    cases hd with
    | full => rfl
    | @create p c _ _ hcr =>
      refine absurd (Snap.place_of_head hcr.first) (hplace c ?_)
      rw [hcr.view, Placement.move_place_self]
      simp
  cases h with
  | fail => rfl
  | back hd _ => rw [hdoes hd]
  | dispatch hd _ h => rw [h.tree, hdoes hd]
  | idle hd _ _ => rw [hdoes hd]

/-- **The parents after an entry.** -/
theorem Between.lineage {c : Config maxProc} {L : Set (Fin maxProc)} {σ : Snap maxProc} {ev : Event}
    (hL : Layout M) (h : Between c L σ) (htake : CanTake c ev)
    (hok : (c.k.atEntry M ev).Admits M ev.entry) :
    (JaeOS.step M c ev).k.pParent = (c.k.atEntry M ev).lineage M ev.entry := by
  let k : Kernel maxProc := c.k.atEntry M ev
  obtain ⟨σ', hb', hends, -⟩ := h.step hL htake hok
  have hcore : (σ.atEntry M ev.mem).core = k.core := Snap.atEntry_core h.core
  have hc := h.consistent.atEntry M ev.mem
  have hrun : ev.entry.isInterrupt = false → ∃ p, k.gCurrentProcess = some p := by
    intro hint
    rcases htake with ⟨s, hs⟩ | ⟨_, hint'⟩
    · exact h.running s hs
    · rw [hint] at hint'
      cases hint'
  have hsame : σ'.core.toTree = (σ.atEntry M ev.mem).core.toTree →
      (JaeOS.step M c ev).k.pParent = k.pParent := by
    intro htree
    rw [hb'.core, hcore] at htree
    exact congrArg Tree.pParent htree
  have hwp := wp_handler (Q := fun _ _ => False) hL le_rfl hcore hc hrun hok
  obtain ⟨t, ht⟩ : ∃ t, k.task M ev.entry = t := ⟨_, rfl⟩
  change _ = k.lineage M ev.entry
  rw [Kernel.lineage, ht]
  cases t with
  | create =>
    cases hborn : k.born M ev.entry with
    | none => exact hsame (hends.full hcore hc ht hborn)
    | some b =>
      obtain ⟨hcall, hroom⟩ := sys_of_born hborn
      obtain ⟨old, hold, -⟩ := hcall.exists_old
      obtain ⟨p, hp⟩ := hrun (by rw [hold]; rfl)
      have hcreate := wp_handler_create_lineal hp hcall hroom
      obtain ⟨b', hb, hpar⟩ := (runToStop_of_wp (wp_mono (wp_both hwp hcreate)
        (fun _ _ h => h.1) (fun _ _ h => h))).2 hb'.sound
      rw [born_of_sys hp hcall, hb] at hborn
      obtain rfl := Option.some.inj hborn
      refine Eq.trans hpar ?_
      rw [hp]
      rfl
  | kill root =>
    obtain ⟨p, hp⟩ : ∃ p, k.gCurrentProcess = some p := by
      refine hrun ?_
      cases hentry : ev.entry with
      | interrupt old cause =>
        rw [hentry] at ht
        exact absurd ht interruptTask_ne_kill
      | _ => rfl
    have hf : k.Fresh (k.task M ev.entry) := fun r hr => hok.fresh r hr
    have hkill := wp_handler_kill_lineal hcore hc hp hf ht
    exact (runToStop_of_wp (wp_mono (wp_both hwp hkill) (fun _ _ h => h.1) (fun _ _ h => h))).2
  | nothing | semop _ _ | command _ _ | store _ _ | tick | device _ _ | fail _ | stuck =>
    have hends' : Ends M (k.task M ev.entry) (σ.atEntry M ev.mem) _ σ' := hends
    rw [ht] at hends'
    exact hsame (hends'.toTree (by simp) (by simp))

end JaeOS
