import JaeOS.Properties.StatusWord
import JaeOS.Properties.ClockCounter

/-!
# SYS10 waits for its device

A device semaphore is to be 0 whenever nobody waits on it: then SYS10 blocks its caller, and
the next interrupt of the device wakes it up.  An interrupt that finds nobody, because the
process that asked for the operation has been terminated, leaves a unit on the semaphore,
and the next SYS10 returns at once.
-/

namespace JaeOS

open Function (update)
open Forest (Progeny)

variable {n : ℕ} {M : Machine} {k k' : Kernel n} {σ σ' σ₁ : Snap n} {a : Word} {p q : Fin n}
  {e : Entry} {t : Task n} {stop : Stop} {op : DevOp} {c : Config maxProc} {L : Set (Fin maxProc)}

/-! ### The property -/

/-- Nobody but SYS10 and the devices names an element of `g_dev_s`, and SYS10 as its semaphore
only, not as its register. -/
def Kernel.DevApart (k : Kernel n) (M : Machine) (e : Entry) : Prop :=
  ∀ a, M.devCell a = true → (k.task M e).Names M a →
    (e.Sys M ioDevopNr ∧ ¬ (k.task M e).Commands a) ∨ ∃ st, k.task M e = .device a st

/-- The interrupt comes from the device, which has done what SYS10 has asked for. -/
def Kernel.Interrupts (k : Kernel n) (M : Machine) (op : DevOp) (e : Entry) : Prop :=
  (∃ old cause, e = .interrupt old cause ∧ M.pendingLine cause = some op.line) ∧
    pendingDevice (k.reg (M.cdevBitmapAddr op.line)) = some op.dev

/-- The entries that keep SYS10 synchronous: nobody else names an element of `g_dev_s`, an
interrupt of a device finds a process that waits for it, and the acknowledgement leaves the
status word in the register, where it is read only then. -/
structure Kernel.KeepsDevices (k : Kernel n) (M : Machine) (e : Entry) : Prop
    extends k.KeepsDescriptors M e where
  apart : k.DevApart M e
  awaited : ∀ op : DevOp, op.read = false → ∀ st, k.task M e = .device (op.sem M) st →
    ∃ q, k.WaitsAt (op.sem M) q
  shown : ∀ op : DevOp, op.line ≠ ilTerminal → k.Interrupts M op e →
    M.devWrite (M.afterFind k.reg op.line op.dev) (op.ackReg M) M.devCAck (op.statusReg M) =
      k.reg (op.statusReg M)

/-- The current process asks for the operation, with a command. -/
def Entry.Asks (M : Machine) (op : DevOp) (command : Word) : Entry → Prop
  | .sysBP old => (Entry.sysBP old).Sys M ioDevopNr ∧ old.a2 = command ∧ old.a3 = op.line ∧
      old.a4 = op.dnum
  | _ => False

/-- An interrupt of the device has ended the operation that `p` has waited for: `p` is ready,
and the status word that the device has shown is in its saved `a1`. -/
structure Replied (M : Machine) (op : DevOp) (p : Fin n) (k : Kernel n) (e : Entry) (k' : Kernel n) :
    Prop where
  interrupt : k.Interrupts M op e
  status : (k'.pcb p).pS.a1 = k.reg (op.statusReg M)
  ready : k'.gCurrentProcess = some p ∨ ∃ xs, k'.Queue .gReadyQueue xs ∧ p ∈ xs

/-- SYS10 in a state between two entries, when the next one meets `ok`: it blocks its caller
and writes the command, and who waits for a device goes on only when it has been answered. -/
structure Synchronous (M : Machine) (ok : Kernel maxProc → Entry → Prop) (c : Config maxProc) :
    Prop where
  blocks : ∀ ev op command p, CanTake c ev → ok (c.k.atEntry M ev) ev.entry → op.read = false →
    ev.entry.Asks M op command → c.k.gCurrentProcess = some p →
    (step M c ev).k.WaitsAt (op.sem M) p ∧
      (step M c ev).k.reg = M.devWrite ev.reg (ioReg M op.line op.dnum) command
  answered : ∀ ev op p, CanTake c ev → ok (c.k.atEntry M ev) ev.entry → op.read = false →
    c.k.WaitsAt (op.sem M) p → ¬ (c.k.atEntry M ev).Dies M ev.entry p →
    (step M c ev).k.WaitsAt (op.sem M) p ∨
      Replied M op p (c.k.atEntry M ev) ev.entry (step M c ev).k

/-- Where the linker has put `g_dev_s`, apart from the word the scheduler writes the pid to, and
where the status registers are, apart from the bitmaps. -/
structure DevApart (M : Machine) : Prop where
  pid : M.devCell 0x00011114 = false
  registers : ∀ op : DevOp, op.statusReg M ≠ M.cdevBitmapAddr op.line

/-! ### The invariant -/

/-- No unit is on the semaphore, and everybody who waits there waits for one. -/
structure Snap.Quiet (σ : Snap n) (a : Word) : Prop where
  value : σ.core.mem a = 0
  requests : ∀ q ∈ σ.waiting a, σ.core.resRequested q = 1

theorem Snap.Quiet.sameAt (h : σ.Quiet a) (hs : σ.SameAt σ' a) : σ'.Quiet a := by
  refine ⟨hs.value.trans h.value, fun q hq => ?_⟩
  rw [hs.waiting] at hq
  exact (hs.requests q hq).trans (h.requests q hq)

theorem Snap.Quiet.block (h : σ.Quiet a) (hb : Block M a (-1) p σ σ') : σ'.Quiet a := by
  refine ⟨by rw [hb.mem, h.value], fun q hq => ?_⟩
  rw [hb.waiting, List.mem_append, List.mem_singleton] at hq
  rw [hb.resRequested]
  by_cases hqp : q = p
  · rw [hqp, Function.update_self]
    rfl
  · rw [Function.update_of_ne hqp]
    exact h.requests q (hq.resolve_right hqp)

theorem Snap.Quiet.service (h : σ.Quiet a) {xs : List (Fin n)} (hxs : σ.waiting a = q :: xs) :
    σ.service a 1 = ⟨[q], xs, 0⟩ := by
  have hreq : σ.core.resRequested q = 1 := h.requests q (by simp [hxs])
  rw [Snap.service, h.value, hxs, serve_cons_of_le (by rw [hreq]; decide), hreq]
  cases xs with
  | nil => rfl
  | cons r xs =>
    have hreq' : σ.core.resRequested r = 1 := h.requests r (by simp [hxs])
    rw [serve_cons_of_not_le (by rw [hreq']; decide)]
    rfl

theorem Snap.Quiet.signal (h : σ.Quiet a) {xs : List (Fin n)} (hxs : σ.waiting a = q :: xs)
    (hs : Signal M a 1 σ σ') : σ'.Quiet a ∧ σ'.waiting a = xs := by
  have hserve := h.service hxs
  have hwait : σ'.waiting a = xs := by
    rw [hs.waiting, hserve]
  have hnd : (σ.waiting a).Nodup := σ.view.nodup _
  refine ⟨⟨?_, fun r hr => ?_⟩, hwait⟩
  · rw [hs.mem, hserve, Function.update_self]
  · rw [hwait] at hr
    rw [hxs] at hnd
    have hrq : r ≠ q := ne_of_mem_of_not_mem hr (List.nodup_cons.mp hnd).1
    rw [hs.resRequested, hserve, clearRequests_apply, if_neg (by simpa using hrq)]
    exact h.requests r (by simp [hxs, hr])

theorem Snap.Quiet.releases {ds : List (Fin n)} (h : σ.Quiet a) (hr : Releases M ds σ σ') :
    σ'.Quiet a := by
  refine ⟨by rw [hr.mem, h.value], fun q hq => ?_⟩
  rw [Snap.waiting, hr.list (by simp)] at hq
  rw [hr.resRequested]
  exact h.requests q (List.mem_of_mem_filter hq)

/-- Who waited at the address still does, dies, or is the first one when the device
interrupts. -/
def WaitsOn (t : Task n) (a : Word) (σ σ' : Snap n) : Prop :=
  ∀ q ∈ σ.waiting a, q ∈ σ'.waiting a ∨ (∃ root, t = .kill root ∧ Progeny σ.core.pParent root q) ∨
    (σ.waiting a).head? = some q ∧ q ∉ σ'.waiting a ∧ ∃ st, t = .device a st

theorem WaitsOn.of_sub (h : ∀ q ∈ σ.waiting a, q ∈ σ'.waiting a) : WaitsOn t a σ σ' :=
  fun q hq => .inl (h q hq)

/-- The task asks for one unit at the address, and stores nothing there. -/
def Task.AsksOne (t : Task n) (a : Word) : Prop := t.Operates a (-1) ∧ ¬ t.Commands a

theorem Snap.Quiet.does_semop (hq : σ.Quiet a) (h : Does M (.semop a (-1)) σ σ') :
    σ'.Quiet a ∧ ∀ q ∈ σ.waiting a, q ∈ σ'.waiting a := by
  obtain ⟨p, hb⟩ := h.blocks (by decide) (by rw [hq.value]; decide)
  refine ⟨hq.block hb, fun q hq' => ?_⟩
  rw [hb.waiting]
  exact List.mem_append_left _ hq'

/-- **What a task does to a quiet semaphore.** -/
theorem Does.quiet (hc : Consistent σ) (hq : σ.Quiet a) (h : Does M t σ σ')
    (hnames : t.Names M a → t.AsksOne a ∨ ∃ st, t = .device a st)
    (hawaited : ∀ st, t = .device a st → σ.waiting a ≠ []) : σ'.Quiet a ∧ WaitsOn t a σ σ' := by
  by_cases hn : t.Names M a
  · rcases hnames hn with ⟨hop, hstore⟩ | ⟨st, rfl⟩
    · cases t with
      | semop b w =>
        obtain ⟨rfl, rfl⟩ := hop
        obtain ⟨hquiet, hsub⟩ := hq.does_semop h
        exact ⟨hquiet, .of_sub hsub⟩
      | command b r =>
        obtain ⟨rfl, -⟩ := hop
        cases h with
        | command h hs =>
          obtain ⟨hquiet, hsub⟩ := hq.does_semop h
          have hsame := hs.sameAt (Ne.symm hstore) (Ne.symm hstore)
          refine ⟨hquiet.sameAt hsame, .of_sub (fun q hq' => ?_)⟩
          rw [hsame.waiting]
          exact hsub q hq'
      | _ => exact hop.elim
    · obtain ⟨q, xs, hxs⟩ := List.exists_cons_of_ne_nil (hawaited st rfl)
      cases h with
      | busy hv =>
        rw [hq.value] at hv
        exact absurd (by decide) hv
      | device hv hs =>
        obtain ⟨hquiet, hwait⟩ := hq.signal hxs hs
        refine ⟨hquiet, fun r hr => ?_⟩
        rw [hwait]
        by_cases hrx : r ∈ xs
        · exact .inl hrx
        · rw [hxs, List.mem_cons] at hr
          obtain rfl := hr.resolve_right hrx
          exact .inr (.inr ⟨by rw [hxs]; rfl, hrx, st, rfl⟩)
  · by_cases hkill : ∃ root, t = .kill root
    · obtain ⟨root, rfl⟩ := hkill
      cases h with
      | kill h =>
        obtain ⟨ds, -, hds, hrel⟩ := h.releases
        refine ⟨hq.releases hrel, fun q hq' => ?_⟩
        by_cases hqd : q ∈ ds
        · exact .inr (.inl ⟨root, rfl, (hds q).mp hqd⟩)
        · refine .inl ?_
          rw [Snap.waiting, hrel.list (by simp)]
          exact List.mem_filter.mpr ⟨hq', by simpa using hqd⟩
    · have hsame := h.sameAt hc hn (fun root hroot => absurd ⟨root, hroot⟩ hkill)
      refine ⟨hq.sameAt hsame, .of_sub (fun q hq' => ?_)⟩
      rw [hsame.waiting]
      exact hq'

theorem Ends.quiet (hc : Consistent σ) (hpid : a ≠ 0x00011114) (hq : σ.Quiet a)
    (h : Ends M t σ stop σ') (hnames : t.Names M a → t.AsksOne a ∨ ∃ st, t = .device a st)
    (hawaited : ∀ st, t = .device a st → σ.waiting a ≠ []) : σ'.Quiet a ∧ WaitsOn t a σ σ' := by
  rcases h.does hpid with ⟨site, -, rfl⟩ | ⟨σ₁, hd, hsame⟩
  · exact ⟨hq, .of_sub (fun q hq' => hq')⟩
  · obtain ⟨hquiet, hwaits⟩ := hd.quiet hc hq hnames hawaited
    refine ⟨hquiet.sameAt hsame, fun q hq' => ?_⟩
    rw [hsame.waiting]
    exact hwaits q hq'

/-! ### The entries of a device -/

theorem interrupt_of_device {st : Word} (h : k.task M e = .device a st) :
    ∃ old cause, e = .interrupt old cause ∧
      M.interruptTask k.reg cause = Task.device (n := n) a st := by
  have hraise : ∀ p t, k.raise p t ≠ .device a st := fun p t => raise_ne (by simp) (by simp)
  have hspecify : ∀ p t, k.specify p t ≠ .device a st := fun p t => specify_ne (by simp) (by simp)
  have hexit : ∀ x : Word, (if (trapType x).isSome then .nothing else .fail .badTrap : Task n) ≠
      .device a st := fun _ => ite_ne (by simp) (by simp)
  have helim : ∀ f : Fin n → Task n, (∀ p, f p ≠ .device a st) →
      k.gCurrentProcess.elim .stuck f ≠ .device a st := by
    intro f hf
    cases k.gCurrentProcess with
    | none => simp
    | some p => exact hf p
  cases e with
  | sysBP old =>
    refine absurd h (helim _ (fun p => ite_ne (ite_ne (ite_ne ?_ (hraise _ _)) (hraise _ _))
      (ite_ne (hraise _ _) (by simp))))
    refine ite_ne (by simp) (ite_ne (killTask_ne (by simp) (by simp)) (ite_ne (by simp) ?_))
    refine ite_ne (hspecify _ _) (ite_ne (hspecify _ _) (ite_ne (hspecify _ _) ?_))
    refine ite_ne (hexit _) (ite_ne (by simp) (ite_ne (by simp) (ite_ne ?_ (by simp))))
    exact ite_ne (by simp) (by simp)
  | pgmTrap old => exact absurd h (helim _ (fun p => hraise _ _))
  | tlb old => exact absurd h (helim _ (fun p => hraise _ _))
  | interrupt old cause => exact ⟨old, cause, rfl, h⟩

theorem report_of_device {st : Word} (h : k.task M e = .device a st) :
    ∃ (op : DevOp) (r : Completion), op.read = false ∧ k.Interrupts M op e ∧
      M.report (M.afterFind k.reg op.line op.dev) op.line (BitVec.ofNat 32 op.dev) = some r ∧
      r.sem = a ∧ r.status = st := by
  obtain ⟨old, cause, rfl, htask⟩ := interrupt_of_device h
  rw [Machine.interruptTask] at htask
  cases hline : M.pendingLine cause with
  | none =>
    rw [hline] at htask
    exact absurd htask (by simp)
  | some line =>
    rw [hline] at htask
    dsimp only at htask
    by_cases htimer : line = ilTimer
    · rw [if_pos htimer] at htask
      exact absurd htask (by simp)
    rw [if_neg htimer] at htask
    obtain ⟨hlo, hhi⟩ := pendingLine_device hline htimer
    cases hdev : pendingDevice (k.reg (M.cdevBitmapAddr line)) with
    | none =>
      rw [Machine.completion, hdev] at htask
      exact absurd htask (by simp)
    | some i =>
      rw [Machine.completion, hdev, Option.bind_some] at htask
      have hi : i < nDevPerIl.toNat := List.mem_range.mp (List.mem_of_find?_eq_some hdev)
      cases hr : M.report (M.afterFind k.reg line i) line (BitVec.ofNat 32 i) with
      | none =>
        rw [hr] at htask
        exact absurd htask (by simp)
      | some r =>
        rw [hr] at htask
        obtain ⟨hsem, hstatus⟩ := Task.device.inj htask
        exact ⟨⟨line, i, false, hlo, hhi, hi, fun h => absurd h (by simp)⟩, r, rfl,
          ⟨⟨old, cause, rfl, hline⟩, hdev⟩, hr, hsem, hstatus⟩

/-- Two operations that are no receptions have the same semaphore only if they are the same. -/
theorem DevOp.eq_of_sem {op op' : DevOp} (hwrite : op.read = false) (hwrite' : op'.read = false)
    (h : op'.sem M = op.sem M) : op' = op := by
  obtain ⟨i, hi, hrow⟩ := op.row_cases
  obtain ⟨j, hj, hrow'⟩ := op'.row_cases
  rw [op.sem_of_write hwrite, op'.sem_of_write hwrite', hrow, hrow'] at h
  obtain ⟨rfl, hdev⟩ := devSem_inj (Nat.lt_succ_of_lt hj).le op'.dev_lt (Nat.lt_succ_of_lt hi).le
    op.dev_lt h
  have hline : op'.line = op.line := sub_left_injective (hrow'.trans hrow.symm)
  cases op
  cases op'
  simp only at hline hdev hwrite hwrite'
  subst hline hdev hwrite hwrite'
  rfl

/-- The word a completion delivers: the one the device has shown, or, but for a terminal, what
the acknowledgement leaves in its place. -/
theorem report_cases {r : Completion} {reg : Word → Word} (op : DevOp) (hwrite : op.read = false)
    (h : M.report reg op.line (BitVec.ofNat 32 op.dev) = some r) :
    r.sem = M.devSem nDevTypes (BitVec.ofNat 32 op.dev) ∨ r.sem = op.sem M ∧ r.status =
      if op.line = ilTerminal then reg (op.statusReg M)
      else M.devWrite reg (op.ackReg M) M.devCAck (op.statusReg M) := by
  rw [op.sem_of_write hwrite, DevOp.statusReg, DevOp.ackReg]
  rw [Machine.report] at h
  by_cases hterm : op.line = ilTerminal
  · rw [if_pos hterm] at h
    rw [if_pos hterm, if_pos hterm]
    split_ifs at h with hrecv htransm
    · obtain rfl := Option.some.inj h
      exact .inl rfl
    · obtain rfl := Option.some.inj h
      exact .inr ⟨rfl, rfl⟩
  · rw [if_neg hterm] at h
    rw [if_neg hterm, if_neg hterm, if_neg hterm]
    obtain rfl := Option.some.inj h
    exact .inr ⟨rfl, rfl⟩

/-- **The interrupt of a device** that does a `V` on the semaphore of an operation. -/
theorem interrupts_of_device {st : Word} (hA : DevApart M) (hwrite : op.read = false)
    (h : k.task M e = .device (op.sem M) st)
    (hshown : op.line ≠ ilTerminal → k.Interrupts M op e →
      M.devWrite (M.afterFind k.reg op.line op.dev) (op.ackReg M) M.devCAck (op.statusReg M) =
        k.reg (op.statusReg M)) :
    k.Interrupts M op e ∧ st = k.reg (op.statusReg M) := by
  obtain ⟨op', r, hwrite', hint, hr, hsem, rfl⟩ := report_of_device h
  rcases report_cases op' hwrite' hr with hstray | ⟨hsem', hstatus⟩
  · -- a reception is answered behind the last row
    obtain ⟨i, hi, hrow⟩ := op.row_cases
    rw [hsem, op.sem_of_write hwrite, hrow] at hstray
    have hlast := (devSem_inj (Nat.lt_succ_of_lt hi).le op.dev_lt (le_refl nDevTypes.toNat)
      op'.dev_lt hstray).1
    exact absurd hlast (Nat.ne_of_lt (Nat.lt_succ_of_lt hi))
  · obtain rfl := DevOp.eq_of_sem hwrite hwrite' (hsem'.symm.trans hsem)
    refine ⟨hint, hstatus.trans ?_⟩
    split_ifs with hterm
    · exact Function.update_of_ne (hA.registers _) _ _
    · exact hshown hterm hint

/-! ### The call -/

theorem Entry.Asks.exists_old {command : Word} (h : e.Asks M op command) :
    ∃ old, e = .sysBP old ∧ (Entry.sysBP old).Sys M ioDevopNr ∧ old.a2 = command ∧
      old.a3 = op.line ∧ old.a4 = op.dnum := by
  cases e with
  | sysBP old => exact ⟨old, rfl, h⟩
  | pgmTrap _ => exact h.elim
  | tlb _ => exact h.elim
  | interrupt _ _ => exact h.elim

theorem sysTask_ioDevop {old : ProcState} (h : old.a1 = ioDevopNr) : k.sysTask M p old =
    if M.isReg (ioReg M old.a3 old.a4) then .semop (ioSem M old.a3 old.a4) (-1)
    else .command (ioSem M old.a3 old.a4) (ioReg M old.a3 old.a4) := by
  rw [Kernel.sysTask, h]
  rfl

theorem task_of_asks {command : Word} (hp : k.gCurrentProcess = some p) (h : e.Asks M op command) :
    k.task M e = .semop (op.sem M) (-1) := by
  obtain ⟨old, rfl, hsys, -, hline, hdnum⟩ := h.exists_old
  rw [task_of_sys hp hsys (by decide), sysTask_ioDevop hsys.2.2, hline, hdnum, if_pos op.isReg_ioReg]
  rfl

theorem wp_scheduler_reg {E : Stop → Kernel n → Prop} (hE : ∀ s k', k'.reg = k.reg → E s k') :
    wp (scheduler M) (fun _ _ => False) E k := by
  have hlift : ∀ {α : Type} (x : Q n α),
      Keeps (fun k' : Kernel n => k'.reg = k.reg) E (liftM x : K n α) := by
    intro α x k₁ h₁
    rw [wp_liftQ]
    split
    · exact h₁
    · exact hE _ _ h₁
  have hexit : ∀ {k₁ : Kernel n}, k₁.reg = k.reg → (k₁.onExit M false).reg = k.reg :=
    fun h₁ => (beside_onExit false).reg.trans h₁
  rw [scheduler]
  apply (hlift _).seq rfl
  intro r k₁ h₁
  cases r with
  | none =>
    rw [wp_bind, wp_get]
    refine wp_if (fun _ => hE _ _ h₁) (fun _ => wp_if (fun _ => ?_) (fun _ => hE _ _ h₁))
    rw [← bind_assoc, wp_bind, wp_onExit, wp_throw]
    exact hE _ _ (hexit h₁)
  | some _ =>
    apply (hlift _).seq h₁
    intro r k₂ h₂
    rw [wp_bind, wp_modify, wp_bind]
    cases r with
    | none => exact hE _ _ h₂
    | some q =>
      refine (wp_current (p := q) rfl).mpr ?_
      rw [wp_bind, wp_modify, ← bind_assoc, wp_bind, wp_onExit, wp_bind, wp_get, debugBKtwo,
        writeWord, wp_bind]
      have hreg := @hexit (Kernel.setPcb { k₂ with gCurrentProcess := some q } q fun c =>
        { c with pTimeSlice := schedTimeSlice }) h₂
      refine wp_if (fun _ => hE _ _ hreg) (fun _ => ?_)
      rw [wp_modify, wp_bind, wp_get, wp_throw]
      exact hE _ _ hreg

/-- **SYS10 writes its command** when the caller is asleep. -/
theorem wp_handler_ioDevop {old : ProcState} (hσ : σ.core = k.core) (hc : Consistent σ)
    (hp : k.gCurrentProcess = some p) (he : (Entry.sysBP old).Sys M ioDevopNr)
    (hsem : M.kernelData (ioSem M old.a3 old.a4) = false)
    (hreg : M.kernelData (ioReg M old.a3 old.a4) = false)
    (hisReg : M.isReg (ioReg M old.a3 old.a4) = true)
    (hshort : (σ.core.mem (ioSem M old.a3 old.a4) + -1).toInt < 0) :
    wp (handler M (.sysBP old)) (fun _ _ => False) (fun s k' => s ≠ .panic .noSemaphore →
      k'.reg = M.devWrite k.reg (ioReg M old.a3 old.a4) old.a2) k := by
  obtain ⟨hsys, hmode, hnr⟩ := he
  have hp₁ : (k.start M p (.sysBP old)).gCurrentProcess = some p := Kernel.start_current hp
  have hold : (k.start M p (.sysBP old)).sysbold = old := Kernel.start_sysbold
  have hσ₁ : σ.core = (k.start M p (.sysBP old)).core := hσ.trans Kernel.start_core.symm
  have hreg₁ : (k.start M p (.sysBP old)).reg = k.reg := beside_onEnter.reg
  rw [wp_handler_call hp hsys, if_pos (by rw [hnr]; decide), if_pos hmode, defSys, wp_bind, wp_get]
  generalize k.start M p (.sysBP old) = k₁ at hp₁ hold hσ₁ hreg₁ ⊢
  rw [hold]
  dsimp only
  rw [hnr]
  change wp (ioDevop M old.a2 old.a3 old.a4) _ _ k₁
  have hheld : σ.view.place p = .held := by
    rw [hc.current, hσ₁]
    exact hp₁
  rw [ioDevop, wp_bind]
  refine wp_semop hσ₁ hsem (fun _ => ⟨p, hp₁, hheld⟩) (fun h => absurd h (by decide))
    (fun _ k₂ σ₂ _ _ hg => ?_) (fun _ q _ k₂ σ₂ hσ₂ hb₂ hblock => ?_) (fun h => absurd h (by decide))
    (fun _ _ _ hne => absurd rfl hne)
  · have henough := hg.enough
    omega
  · have hidle : k₂.gCurrentProcess = none := by
      have hnone := hblock.idle
      rw [hσ₂] at hnone
      exact hnone
    have hwritten : M.devWrite k₂.reg (ioReg M old.a3 old.a4) old.a2 =
        M.devWrite k.reg (ioReg M old.a3 old.a4) old.a2 := by rw [hb₂.reg, hreg₁]
    rw [wp_writeReg hreg hisReg, hwritten]
    generalize M.devWrite k.reg (ioReg M old.a3 old.a4) old.a2 = r
    rw [leaveHandler, wp_bind, wp_get, onExit_current]
    dsimp only
    rw [hidle]
    exact wp_scheduler_reg fun _ _ hk' _ => hk'.trans (beside_onExit true).reg

/-! ### Runs -/

/-- No unit is on the semaphore of any operation. -/
def Snap.AllQuiet (σ : Snap n) (M : Machine) : Prop :=
  ∀ op : DevOp, op.read = false → σ.Quiet (op.sem M)

theorem DevOp.sem_ne_pid (hA : DevApart M) (op : DevOp) : op.sem M ≠ 0x00011114 := by
  intro heq
  have hcell := op.devCell_sem (M := M)
  rw [heq, hA.pid] at hcell
  exact absurd hcell (by simp)

theorem Snap.AllQuiet.atEntry (h : σ.AllQuiet M) (mem : Word → Word) :
    (σ.atEntry M mem).AllQuiet M := by
  intro op hwrite
  refine ⟨?_, (h op hwrite).requests⟩
  have hnucleus : M.nucleus (op.sem M) = true := by
    rw [Machine.nucleus, op.devCell_sem, Bool.or_true]
  exact (if_pos hnucleus).trans (h op hwrite).value

theorem clearDevS_zero : clearDevS M (fun _ => 0) = fun _ => 0 := by
  rw [clearDevS]
  generalize (List.range' 1 (nDevTypes.toNat - 1)).product (List.range' 1 (nDevPerIl.toNat - 1)) = l
  induction l with
  | nil => rfl
  | cons ij l ih =>
    rw [List.foldl_cons, Function.update_eq_self]
    exact ih

theorem Initial.allQuiet (hA : DevApart M) (h : Initial M p σ) : σ.AllQuiet M := by
  intro op _
  obtain ⟨x, hmem⟩ := h.mem
  refine ⟨?_, fun q hq => ?_⟩
  · rw [hmem, Function.update_of_ne (op.sem_ne_pid hA), clearDevS_zero, Function.update_eq_self]
  · have hplace := (σ.view.mem _ q).mp hq
    rw [h.place] at hplace
    split_ifs at hplace

theorem Kernel.DevApart.names (h : k.DevApart M e) (ha : M.devCell a = true)
    (hn : (k.task M e).Names M a) :
    (k.task M e).AsksOne a ∨ ∃ st, k.task M e = .device a st := by
  rcases h a ha hn with ⟨hcall, hstore⟩ | ⟨st, hst⟩
  · obtain ⟨old, rfl, hsys⟩ := hcall.exists_old
    cases hp : k.gCurrentProcess with
    | none =>
      rw [Kernel.task, hp] at hn
      exact hn.elim
    | some p =>
      refine .inl ⟨?_, hstore⟩
      rw [task_of_sys hp hsys (by decide), sysTask_ioDevop hsys.2.2] at hn hstore ⊢
      split_ifs at hn hstore ⊢
      · exact ⟨hn, rfl⟩
      · exact ⟨hn.resolve_right hstore, rfl⟩
  · exact .inr ⟨st, hst⟩

/-- **One entry** leaves every semaphore quiet. -/
theorem Ends.allQuiet (hA : DevApart M) (hσ : σ.core = k.core) (hc : Consistent σ)
    (hq : σ.AllQuiet M) (hok : k.DevApart M e)
    (hawaited : ∀ op : DevOp, op.read = false → ∀ st, k.task M e = .device (op.sem M) st →
      ∃ q, k.WaitsAt (op.sem M) q) (h : Ends M (k.task M e) σ stop σ') :
    ∀ op : DevOp, op.read = false →
      σ'.Quiet (op.sem M) ∧ WaitsOn (k.task M e) (op.sem M) σ σ' := by
  intro op hwrite
  refine h.quiet hc (op.sem_ne_pid hA) (hq op hwrite) (hok.names op.devCell_sem) (fun st hst => ?_)
  obtain ⟨q, hwait⟩ := hawaited op hwrite st hst
  exact List.ne_nil_of_mem ((Snap.mem_waiting hσ).mpr hwait)

theorem Reaches.allQuiet (hL : Layout M) (hA : DevApart M)
    (h : Reaches M (fun k e => k.KeepsDevices M e) c L) :
    ∃ σ, Between c L σ ∧ σ.Complete ∧ σ.AllQuiet M :=
  h.between (I := fun _ σ => σ.Complete ∧ σ.AllQuiet M) hL (fun _ _ h => h.toAdmits)
    (fun _ _ hi => ⟨hi.complete, hi.allQuiet hA⟩)
    (fun _ ev _ _ _ _ hσ hc hI hok hends =>
      ⟨(hends.complete (Snap.atEntry_core hσ) (hc.atEntry M ev.mem) hI.1 hok.returns).1,
        fun op hwrite => (hends.allQuiet hA (Snap.atEntry_core hσ) (hc.atEntry M ev.mem)
          (hI.2.atEntry ev.mem) hok.apart hok.awaited op hwrite).1⟩)

/-- SYS10 blocks its caller, and then writes the command. -/
theorem Between.asks {σ : Snap maxProc} {ev : Event} {command : Word} {p : Fin maxProc}
    (hL : Layout M) (hA : DevApart M) (hb : Between c L σ) (hcomplete : σ.Complete)
    (hquiet : σ.AllQuiet M) (htake : CanTake c ev)
    (hok : (c.k.atEntry M ev).KeepsDevices M ev.entry) (hwrite : op.read = false)
    (hasks : ev.entry.Asks M op command) (hp : c.k.gCurrentProcess = some p) :
    (JaeOS.step M c ev).k.WaitsAt (op.sem M) p ∧
      (JaeOS.step M c ev).k.reg = M.devWrite ev.reg (ioReg M op.line op.dnum) command := by
  obtain ⟨σ', hb', hends, -⟩ := hb.step hL htake hok.toAdmits
  have hσ : (σ.atEntry M ev.mem).core = (c.k.atEntry M ev).core := Snap.atEntry_core hb.core
  have hc : Consistent (σ.atEntry M ev.mem) := hb.consistent.atEntry M ev.mem
  have hcomplete' : (σ.atEntry M ev.mem).Complete := hcomplete
  have hp' : (σ.atEntry M ev.mem).core.gCurrentProcess = some p := by
    rw [hσ]
    exact hp
  have hshort : ((σ.atEntry M ev.mem).core.mem (op.sem M) + -1).toInt < 0 := by
    rw [(hquiet.atEntry ev.mem op hwrite).value]
    decide
  have hstop := (hends.complete hσ hc hcomplete' hok.returns).2
  have htask : (c.k.atEntry M ev).task M ev.entry = .semop (op.sem M) (-1) := task_of_asks hp hasks
  rw [htask] at hends
  obtain ⟨σ₁, hblock, hsame⟩ := hends.block (hcomplete'.free_ne_nil hc hp') (by decide) hp' hshort
    (op.sem_ne_pid hA)
  refine ⟨(Snap.mem_waiting hb'.core).mp ?_, ?_⟩
  · rw [hsame.waiting, hblock.waiting]
    simp
  · obtain ⟨old, hold, hcall, rfl, hline, hdnum⟩ := hasks.exists_old
    have haddr : (c.k.atEntry M ev).addresses M (.sysBP old) =
        [ioSem M old.a3 old.a4, ioReg M old.a3 old.a4] := by
      rw [Kernel.addresses, if_pos ⟨hcall.1, hcall.2.1⟩, Kernel.sysAddresses, hcall.2.2]
      rfl
    have houtside := hok.outside
    rw [hold, haddr, List.forall_mem_cons, List.forall_mem_singleton] at houtside
    have hsem : op.sem M = ioSem M old.a3 old.a4 := by rw [hline, hdnum, DevOp.sem]
    rw [hsem] at hshort
    have hisReg : M.isReg (ioReg M old.a3 old.a4) = true := by
      rw [hline, hdnum]
      exact op.isReg_ioReg
    have hrun := wp_handler_ioDevop hσ hc hp hcall houtside.1 houtside.2 hisReg hshort
    rw [← hold] at hrun
    have hreg := runToStop_of_wp hrun hstop
    rw [hline, hdnum] at hreg
    exact hreg

theorem Between.replied {σ : Snap maxProc} {ev : Event} {p : Fin maxProc}
    (hL : Layout M) (hA : DevApart M) (hb : Between c L σ) (hquiet : σ.AllQuiet M)
    (htake : CanTake c ev) (hok : (c.k.atEntry M ev).KeepsDevices M ev.entry)
    (hwrite : op.read = false) (hwait : c.k.WaitsAt (op.sem M) p)
    (hdies : ¬ (c.k.atEntry M ev).Dies M ev.entry p) :
    (JaeOS.step M c ev).k.WaitsAt (op.sem M) p ∨
      Replied M op p (c.k.atEntry M ev) ev.entry (JaeOS.step M c ev).k := by
  obtain ⟨σ', hb', hends, hdelivered⟩ := hb.step hL htake hok.toAdmits
  have hσ : (σ.atEntry M ev.mem).core = (c.k.atEntry M ev).core := Snap.atEntry_core hb.core
  have hc : Consistent (σ.atEntry M ev.mem) := hb.consistent.atEntry M ev.mem
  have hmem : p ∈ (σ.atEntry M ev.mem).waiting (op.sem M) := (Snap.mem_waiting hb.core).mpr hwait
  have hwaits := (hends.allQuiet hA hσ hc (hquiet.atEntry ev.mem) hok.apart hok.awaited op hwrite).2
  rcases hwaits p hmem with hstays | ⟨root, hroot, hprog⟩ | ⟨hfirst, hgone, st, hst⟩
  · exact .inl ((Snap.mem_waiting hb'.core).mp hstays)
  · rw [Snap.pParent_eq hσ] at hprog
    exact absurd ⟨root, hroot, hprog⟩ hdies
  · obtain ⟨hint, rfl⟩ := interrupts_of_device hA hwrite hst (hok.shown op)
    refine .inr ⟨hint, hdelivered _ _ p hst hfirst fun hplace => hgone ?_, ?_⟩
    · exact (σ'.view.mem _ p).mpr hplace
    · refine hends.leaves hσ hb'.core hc hb'.consistent hmem hdies hgone (fun b hne => ?_)
      refine hends.waiting hc (fun hn => ?_) (fun root hroot => ?_)
      · rw [hst] at hn
        exact hne hn.symm
      · rw [hst] at hroot
        exact absurd hroot (by simp)

/-- **SYS10 is synchronous.**  In every run in which an interrupt of a device finds a process that
waits for it, SYS10 blocks its caller, and an interrupt that comes after its command makes the
caller ready, with the status word. -/
theorem reaches_synchronous (hL : Layout M) (hA : DevApart M)
    (h : Reaches M (fun k e => k.KeepsDevices M e) c L) :
    Synchronous M (fun k e => k.KeepsDevices M e) c := by
  obtain ⟨σ, hb, hcomplete, hquiet⟩ := h.allQuiet hL hA
  constructor
  · intro ev op command p htake hok hwrite hasks hp
    exact hb.asks hL hA hcomplete hquiet htake hok hwrite hasks hp
  · intro ev op p htake hok hwrite hwait hdies
    exact hb.replied hL hA hquiet htake hok hwrite hwait hdies

theorem devApart_uarm : DevApart uarm := ⟨by decide, fun op => ackReady_uarmAck.apart op⟩

/-- `Kernel.DevApart`, as a test. -/
def Kernel.devApart (M : Machine) (k : Kernel n) (e : Entry) : Bool :=
  match k.task M e with
  | .semop b _ => decide (e.Sys M ioDevopNr) || !M.devCell b
  | .command b r => (decide (e.Sys M ioDevopNr) || !M.devCell b) && !M.devCell r
  | .store b c => !M.devCell b && !M.devCell c
  | .tick => !M.devCell M.gPcTimerS
  | _ => true

theorem Kernel.DevApart.of_test (h : k.devApart M e = true) : k.DevApart M e := by
  intro a ha hn
  rw [Kernel.devApart] at h
  cases htask : k.task M e with
  | semop b w =>
    rw [htask] at h hn
    obtain rfl : b = a := hn
    simp only [ha, Bool.not_true, Bool.or_false, decide_eq_true_eq] at h
    exact .inl ⟨h, id⟩
  | command b r =>
    rw [htask, Bool.and_eq_true] at h
    rw [htask] at hn
    have hr : r ≠ a := by
      rintro rfl
      exact absurd h.2 (by simp [ha])
    obtain rfl : b = a := hn.resolve_right hr
    simp only [ha, Bool.not_true, Bool.or_false, decide_eq_true_eq] at h
    exact .inl ⟨h.1, hr⟩
  | store b c =>
    rw [htask, Bool.and_eq_true] at h
    rw [htask] at hn
    rcases hn with rfl | rfl
    · exact absurd h.1 (by simp [ha])
    · exact absurd h.2 (by simp [ha])
  | tick =>
    rw [htask] at h hn
    obtain rfl : M.gPcTimerS = a := hn
    exact absurd h (by simp [ha])
  | device b st =>
    rw [htask] at hn
    obtain rfl : b = a := hn
    exact .inr ⟨st, rfl⟩
  | nothing => exact (htask ▸ hn : Task.Names M a .nothing).elim
  | create => exact (htask ▸ hn : Task.Names M a .create).elim
  | kill root => exact (htask ▸ hn : Task.Names M a (.kill root)).elim
  | fail site => exact (htask ▸ hn : Task.Names M a (.fail site)).elim
  | stuck => exact (htask ▸ hn : Task.Names M a .stuck).elim

theorem shown_uarm (op : DevOp) (reg : Word → Word) :
    uarm.devWrite (uarm.afterFind reg op.line op.dev) (op.ackReg uarm) uarm.devCAck
      (op.statusReg uarm) = reg (op.statusReg uarm) := by
  have hne : op.statusReg uarm ≠ op.ackReg uarm := by
    rw [DevOp.ackReg, DevOp.statusReg]
    split_ifs
    · rw [Machine.transmCommand, Machine.transmStatus]
      bv_omega
    · rw [Machine.command, Machine.status]
      bv_omega
  exact (Function.update_of_ne hne _ _).trans (Function.update_of_ne (devApart_uarm.registers op) _ _)

theorem Kernel.KeepsDevices.of_calm {k : Kernel maxProc} (hcalm : k.calm uarm e = true)
    (hapart : k.devApart uarm e = true)
    (hawaited : ∀ a st, k.task uarm e = .device a st → ∃ q, k.WaitsAt a q) :
    k.KeepsDevices uarm e := by
  obtain ⟨hadmits, hkill⟩ := Kernel.Admits.of_calm hcalm
  refine ⟨⟨hadmits, ?_⟩, .of_test hapart, fun op _ st => hawaited _ st, fun op _ _ => shown_uarm op _⟩
  rintro q _ ⟨root, hroot, -⟩
  exact absurd hroot (hkill root)

/-- A calm entry that is no interrupt of a device. -/
def Kernel.keepsDevices (M : Machine) (k : Kernel n) (e : Entry) : Bool :=
  k.calm M e && k.devApart M e &&
    match k.task M e with
    | .device _ _ => false
    | _ => true

theorem Kernel.KeepsDevices.of_test {k : Kernel maxProc} (h : k.keepsDevices uarm e = true) :
    k.KeepsDevices uarm e := by
  rw [Kernel.keepsDevices, Bool.and_eq_true, Bool.and_eq_true] at h
  refine .of_calm h.1.1 h.1.2 (fun a st hst => ?_)
  have hdevice := h.2
  rw [hst] at hdevice
  exact absurd hdevice (by simp)

/-- A child has asked the printer for an operation, and waits. -/
def asksPrinter : List Event :=
  [sys createProcessNr 0 0 0, timerInterrupt, sys ioDevopNr 2 ilPrinter 0]

/-- The printer answers the child, and then its parent asks and waits in turn. -/
theorem reaches_synchronous_printer : ∃ (c : Config maxProc) (child : Fin maxProc) (ev : Event),
    Replied uarm printOp child (c.k.atEntry uarm ev) ev.entry (step uarm c ev).k ∧
      (step uarm (step uarm c ev) (sys ioDevopNr 3 ilPrinter 0)).k.WaitsAt (printOp.sem uarm)
        proc0 := by
  let child : Fin maxProc := ⟨1, by decide⟩
  let ev : Event := deviceInterrupt ilPrinter 0 1
  let ev' : Event := sys ioDevopNr 3 ilPrinter 0
  have htest : ∀ (k : Kernel maxProc) e, k.keepsDevices uarm e = true → k.KeepsDevices uarm e :=
    fun k e h => .of_test h
  obtain ⟨c, L, hreach, hc⟩ := reaches_trace (M := uarm) htest asksPrinter
    (fun c => c.canTake ev && (c.k.atEntry uarm ev).calm uarm ev.entry &&
      (c.k.atEntry uarm ev).task uarm ev.entry == .device (printOp.sem uarm) 1 &&
      ((headBlocked (printOp.sem uarm)).run c.k.toQueues).map Prod.fst == some (some child) &&
      decide (∀ d, (step uarm c ev).k.sProcq d = none) &&
      (step uarm c ev).canTake ev' && (step uarm c ev).k.gCurrentProcess == some proc0 &&
      ((step uarm c ev).k.atEntry uarm ev').keepsDevices uarm ev'.entry)
    .boot (by decide +kernel)
  simp only [Bool.and_eq_true, beq_iff_eq, decide_eq_true_eq] at hc
  obtain ⟨⟨⟨⟨⟨⟨⟨htake, hcalm⟩, htask⟩, hhead⟩, hgone⟩, htake'⟩, hcur⟩, hok'⟩ := hc
  obtain ⟨σ, hb, -, -⟩ := hreach.allQuiet layout_uarm devApart_uarm
  rw [(Snap.owned_of_core hb.core).run_headBlocked] at hhead
  have hwait : c.k.WaitsAt (printOp.sem uarm) child :=
    (Snap.mem_waiting hb.core).mp (List.mem_of_mem_head? (Option.some.inj hhead))
  have hapart : (c.k.atEntry uarm ev).devApart uarm ev.entry = true := by
    rw [Kernel.devApart, htask]
  have hok : (c.k.atEntry uarm ev).KeepsDevices uarm ev.entry := by
    refine .of_calm hcalm hapart (fun a st hst => ?_)
    obtain ⟨rfl, -⟩ := Task.device.inj (htask.symm.trans hst)
    exact ⟨child, hwait⟩
  have hdies : ¬ (c.k.atEntry uarm ev).Dies uarm ev.entry child := by
    rintro ⟨root, hroot, -⟩
    exact absurd (htask.symm.trans hroot) (by simp)
  have hreplied := (reaches_synchronous layout_uarm devApart_uarm hreach).answered ev printOp child
    (Config.canTake_iff.mp htake) hok rfl hwait hdies
  have hleft : ¬ (step uarm c ev).k.WaitsAt (printOp.sem uarm) child := by
    rintro ⟨d, ⟨xs, hxs, hq⟩, -⟩
    rw [hxs.unique (Clist.holds_nil (hgone d))] at hq
    exact absurd hq List.not_mem_nil
  have hnext := reaches_synchronous layout_uarm devApart_uarm
    (hreach.step (Config.canTake_iff.mp htake) hok)
  refine ⟨c, child, ev, hreplied.resolve_left hleft, ?_⟩
  exact (hnext.blocks ev' printOp 3 proc0 (Config.canTake_iff.mp htake') (.of_test hok') rfl
    ⟨⟨by decide, by decide, rfl⟩, rfl, rfl, by decide⟩ hcur).1

/-- A child asks the printer for an operation and is terminated by its parent; the interrupt that
ends the operation finds nobody. -/
def banksUnit : List Event :=
  [sys createProcessNr 0 0 0, timerInterrupt, sys ioDevopNr 2 ilPrinter 0,
    sys terminateProcessNr 66 0 0, deviceInterrupt ilPrinter 0 1]

/-- **SYS10 may return at once**, though nobody but SYS10 and the devices has named an element of
`g_dev_s`. -/
theorem not_synchronous_of_legal : ¬ ∀ c L,
    Reaches uarm (fun k e => k.Legal uarm e ∧ k.DevApart uarm e) c L →
      Synchronous uarm (fun k e => k.Legal uarm e ∧ k.DevApart uarm e) c := by
  intro hall
  let ev : Event := sys ioDevopNr 2 ilPrinter 0
  have htest : ∀ (k : Kernel maxProc) e, (k.legal uarm e && k.devApart uarm e) = true →
      k.Legal uarm e ∧ k.DevApart uarm e := by
    intro k e h
    rw [Bool.and_eq_true] at h
    exact ⟨Kernel.legal_iff.mp h.1, .of_test h.2⟩
  obtain ⟨c, L, hreach, hc⟩ := reaches_trace (M := uarm) htest banksUnit
    (fun c => c.canTake ev && (c.k.atEntry uarm ev).legal uarm ev.entry &&
      (c.k.atEntry uarm ev).devApart uarm ev.entry && c.k.gCurrentProcess == some proc0 &&
      (List.finRange maxProc).all fun d => (step uarm c ev).k.sProcq d == none)
    .boot (by decide +kernel)
  rw [Bool.and_eq_true, Bool.and_eq_true, Bool.and_eq_true, Bool.and_eq_true, beq_iff_eq,
    List.all_eq_true] at hc
  obtain ⟨⟨⟨⟨htake, hlegal⟩, hapart⟩, hp⟩, hnone⟩ := hc
  have hcall : ev.entry.Sys uarm ioDevopNr := ⟨by decide, by decide, rfl⟩
  obtain ⟨⟨d, ⟨xs, hxs, hq⟩, -⟩, -⟩ := (hall c L hreach).blocks ev printOp 2 proc0
    (Config.canTake_iff.mp htake) ⟨Kernel.legal_iff.mp hlegal, .of_test hapart⟩ rfl
    ⟨hcall, rfl, rfl, by decide⟩ hp
  have htail : (step uarm c ev).k.sProcq d = none := beq_iff_eq.mp (hnone d (List.mem_finRange d))
  rw [hxs.unique (Clist.holds_nil htail)] at hq
  exact absurd hq List.not_mem_nil

end JaeOS
