import JaeOS.Properties.DeviceSem

/-!
# The status word of a device

The process that a device wakes up finds a status word in `a1`.  For a terminal
`handleDevices` reads it before the acknowledgement, for every other device after it, when
the register has already changed.
-/

namespace JaeOS

open Function (update)

variable {n : ℕ} {M : Machine} {k k' : Kernel n} {σ σ' : Snap n} {a st : Word} {p : Fin n}

/-! ### The property -/

def devSReady : Word := 1

namespace DevOp

variable (op : DevOp)

/-- The register with the status word of a transmission, or of a device that is no terminal. -/
def statusReg (M : Machine) : Word :=
  if op.line = ilTerminal then M.transmStatus op.line (BitVec.ofNat 32 op.dev)
  else M.status op.line (BitVec.ofNat 32 op.dev)

/-- The register for its acknowledgement. -/
def ackReg (M : Machine) : Word :=
  if op.line = ilTerminal then M.transmCommand op.line (BitVec.ofNat 32 op.dev)
  else M.command op.line (BitVec.ofNat 32 op.dev)

end DevOp

/-- What the kernel relies on: the acknowledgement makes a device ready, and the bitmaps are
not among the status registers. -/
structure AckReady (M : Machine) : Prop where
  ready : ∀ (op : DevOp) (reg : Word → Word),
    M.devWrite reg (op.ackReg M) M.devCAck (op.statusReg M) = devSReady
  apart : ∀ op : DevOp, op.statusReg M ≠ M.cdevBitmapAddr op.line

/-- **What the interrupt has to do**: acknowledge the device, and hand its status word over to
the first waiter, who is made ready; or leave a unit on the semaphore. -/
structure StatusDelivered (M : Machine) (op : DevOp) (σ : Snap n) (k k' : Kernel n) : Prop where
  acked : ∃ reg, (∀ b, b ≠ M.cdevBitmapAddr op.line → reg b = k.reg b) ∧
    k'.reg = M.devWrite reg (op.ackReg M) M.devCAck
  woken : ∀ p, (σ.waiting (op.sem M)).head? = some p →
    (∃ σ' : Snap n, σ'.core = k'.core ∧ σ'.view = σ.view.move p .ready) ∧
      (k'.pcb p).pS = { (k.pcb p).pS with a1 := k.reg (op.statusReg M) }
  kept : ∀ q, (σ.waiting (op.sem M)).head? ≠ some q → (k'.pcb q).pS = (k.pcb q).pS
  unit : σ.waiting (op.sem M) = [] → k'.mem (op.sem M) = 1

/-! ### The `V` of the interrupt -/

/-- One unit serves the first waiter, if that is what it has asked for. -/
theorem Snap.service_unit {xs : List (Fin n)} (hw : σ.waiting a = p :: xs) (hv : σ.core.mem a = 0)
    (hreq : ∀ q ∈ σ.waiting a, σ.core.resRequested q ≠ 0) :
    (σ.service a 1).woken = if σ.core.resRequested p = 1 then [p] else [] := by
  have hp : σ.core.resRequested p ≠ 0 := hreq p (by rw [hw]; exact List.mem_cons_self)
  have hone : (1 : Word) + 0 = 1 := by decide
  rw [Snap.service, hw, hv, hone]
  by_cases hask : σ.core.resRequested p = 1
  · rw [if_pos hask, serve_cons_of_le (by rw [hask]; decide), hask]
    cases xs with
    | nil => rfl
    | cons x xs =>
      have hx : σ.core.resRequested x ≠ 0 :=
        hreq x (by rw [hw]; exact List.mem_cons_of_mem _ List.mem_cons_self)
      have hmore : ¬ σ.core.resRequested x ≤ (1 : Word) - 1 := by bv_omega
      rw [serve_cons_of_not_le hmore]
  · have hmore : ¬ σ.core.resRequested p ≤ (1 : Word) := by bv_omega
    rw [if_neg hask, serve_cons_of_not_le hmore]

theorem wp_signalDevice_nobody {Q : Unit → Kernel n → Prop} {E : Stop → Kernel n → Prop}
    (hσ : σ.core = k.core) (ha : M.kernelData a = false) (hcell : M.nucleus a = true)
    (hval : k.mem a = 0 ∨ k.mem a = 1) (hnone : σ.waiting a = [])
    (hQ : ∀ k', Beside k k' → k'.mem a = 1 → Q () k') :
    wp (signalDevice M a (some st)) Q E k := by
  have h := Snap.owned_of_core hσ
  have hmem : σ.core.mem = k.mem := by
    rw [hσ]
    rfl
  have hhead : (σ.view.list (.sem a)).head? = none := by
    rw [show σ.view.list (.sem a) = [] from hnone]
    rfl
  have hservice : σ.service a 1 = ⟨[], [], 1 + k.mem a⟩ := by
    rw [Snap.service, hnone, hmem]
    rfl
  simp only [signalDevice, wp_bind, wp_liftQ, h.run_headBlocked a, wp_readInt ha, wp_ite]
  rcases hval with hval | hval
  · rw [if_pos (by rw [hval]; decide), semop, if_pos (by decide)]
    refine wp_semopV hσ ha (fun k₁ σ₁ hσ₁ hb h₁ => ?_)
    have hhead₁ : (σ₁.view.list (.sem a)).head? = none := by
      rw [show σ₁.view.list (.sem a) = [] by rw [← Snap.waiting, h₁.waiting, hservice]]
      rfl
    simp only [(Snap.owned_of_core hσ₁).run_headBlocked a, hhead, hhead₁, ne_eq, not_true_eq_false,
      if_false, wp_pure]
    refine hQ k₁ (hb.beside hcell) ?_
    have hmem₁ := congrFun h₁.mem a
    rw [hσ₁, Function.update_self, hservice, hval] at hmem₁
    exact hmem₁
  · rw [if_neg (by rw [hval]; decide), wp_pure]
    simp only [h.run_headBlocked a, ne_eq, not_true_eq_false, if_false, wp_pure]
    exact hQ k (.refl k) hval

/-- **The first waiter** is made ready and finds the status word, or goes on waiting. -/
theorem wp_signalDevice_first {Q : Unit → Kernel n → Prop} {E : Stop → Kernel n → Prop}
    {xs : List (Fin n)} (hσ : σ.core = k.core) (ha : M.kernelData a = false)
    (hcell : M.nucleus a = true) (hval : k.mem a = 0) (hw : σ.waiting a = p :: xs)
    (hreq : ∀ q ∈ σ.waiting a, k.resRequested q ≠ 0)
    (hwoken : k.resRequested p = 1 → ∀ (k' : Kernel n) (σ' : Snap n), σ'.core = k'.core →
      Beside k k' → σ'.view = σ.view.move p .ready →
      Q () (k'.setPcb p fun c => { c with pS := { c.pS with a1 := st } }))
    (hstill : k.resRequested p ≠ 1 → ∀ (k' : Kernel n) (σ' : Snap n), σ'.core = k'.core →
      σ'.view = σ.view → Q () k') :
    wp (signalDevice M a (some st)) Q E k := by
  have h := Snap.owned_of_core hσ
  have hmem : σ.core.mem a = 0 := by
    rw [hσ]
    exact hval
  have hrequests : σ.core.resRequested = k.resRequested := by
    rw [hσ]
    rfl
  have hhead : (σ.view.list (.sem a)).head? = some p := by
    rw [show σ.view.list (.sem a) = p :: xs from hw]
    rfl
  have hserved := Snap.service_unit hw hmem (by rw [hrequests]; exact hreq)
  rw [hrequests] at hserved
  simp only [signalDevice, wp_bind, wp_liftQ, h.run_headBlocked a, wp_readInt ha, wp_ite]
  rw [if_pos (by rw [hval]; decide), semop, if_pos (by decide)]
  refine wp_semopV hσ ha (fun k₁ σ₁ hσ₁ hb h₁ => ?_)
  simp only [(Snap.owned_of_core hσ₁).run_headBlocked a, hhead]
  by_cases hask : k.resRequested p = 1
  · have hview : σ₁.view = σ.view.move p .ready := by
      rw [h₁.view, hserved, if_pos hask]
      rfl
    have hgone : p ∉ σ₁.view.list (.sem a) := by
      rw [σ₁.view.mem, hview, Placement.move_place_self]
      simp
    have hne : some p ≠ (σ₁.view.list (.sem a)).head? := fun heq =>
      hgone (List.mem_of_mem_head? heq.symm)
    rw [if_pos hne]
    exact hwoken hask k₁ σ₁ hσ₁ (hb.beside hcell) hview
  · have hview : σ₁.view = σ.view := by
      rw [h₁.view, hserved, if_neg hask]
      rfl
    rw [hview, hhead]
    simp only [ne_eq, not_true_eq_false, if_false, wp_pure]
    exact hstill hask k₁ σ₁ hσ₁ hview

/-! ### The interrupt -/

/-- **The acknowledgement** of a transmission, or of a device that is no terminal: the status
word is read before it in the one case, and after it in the other. -/
theorem wp_handleDevices_write {Q : Unit → Kernel n → Prop} {E : Stop → Kernel n → Prop}
    (hL : DevLayout M) (hA : AckReady M) (op : DevOp) (hwrite : op.read = false)
    (hdone : op.Completes M k.reg) (hrecv : op.line = ilTerminal → ¬ op.Receives M k.reg)
    (hQ : ∀ reg, (∀ b, b ≠ M.cdevBitmapAddr op.line → reg b = k.reg b) →
      wp (signalDevice M (op.sem M)
        (some (if op.line = ilTerminal then k.reg (op.statusReg M) else devSReady))) Q E
        { k with reg := M.devWrite reg (op.ackReg M) M.devCAck }) :
    wp (handleDevices M op.line) Q E k := by
  have hfound : ∀ b, b ≠ M.cdevBitmapAddr op.line → M.afterFind k.reg op.line op.dev b = k.reg b :=
    fun b hb => Function.update_of_ne hb _ _
  have hsem := op.sem_of_write (M := M) hwrite
  have hisReg : ∀ {off : Word}, [0, 4, 8, 12].contains off = true →
      M.isReg (M.devRegAddr op.line (BitVec.ofNat 32 op.dev) + off) = true := fun hoff =>
    Machine.isReg_devRegAddr ⟨op.line_lo, op.line_hi⟩ op.dev_lt hoff
  rw [handleDevices, wp_bind]
  refine wp_findDevice le_rfl (fun j hj => ?_) (fun hnone => ?_)
  · obtain rfl : op.dev = j := Option.some.inj (hdone.pending.symm.trans hj)
    specialize hQ (M.afterFind k.reg op.line op.dev) hfound
    simp only [wp_bind, Nat.zero_add, show 8 - nDevPerIl.toNat = 0 from rfl]
    rw [ackDevice]
    by_cases hterm : op.line = ilTerminal
    · have hno : ¬ M.recvDone (M.afterFind k.reg op.line op.dev
          (M.recvStatus op.line (BitVec.ofNat 32 op.dev))) = true := hrecv hterm
      have hyes := hdone.status hterm
      rw [if_neg (by simp [hwrite])] at hyes
      have hstatus : op.statusReg M = M.transmStatus op.line (BitVec.ofNat 32 op.dev) := if_pos hterm
      have hack : op.ackReg M = M.transmCommand op.line (BitVec.ofNat 32 op.dev) := if_pos hterm
      rw [if_pos hterm, hack, ← hfound _ (hA.apart op), hstatus, hsem] at hQ
      rw [if_pos hterm]
      simp only [Machine.afterFind] at hno hyes hQ
      simp only [wp_bind, wp_get, wp_ite]
      rw [if_neg hno, if_pos hyes, wp_writeReg (hL.transm op) (hisReg (by decide))]
      exact hQ
    · have hack : op.ackReg M = M.command op.line (BitVec.ofNat 32 op.dev) := if_neg hterm
      have hready := hA.ready op (M.afterFind k.reg op.line op.dev)
      have hstatus : op.statusReg M = M.status op.line (BitVec.ofNat 32 op.dev) := if_neg hterm
      rw [if_neg hterm, ← hready, hack, hstatus, hsem] at hQ
      rw [if_neg hterm]
      simp only [Machine.afterFind] at hQ
      simp only [wp_bind, wp_get]
      rw [wp_writeReg (hL.command op) (hisReg (by decide))]
      exact hQ
  · cases hdone.pending.symm.trans hnone

section Delivery

variable (hL : DevLayout M) (hA : AckReady M) (hσ : σ.core = k.core) (op : DevOp)
  (hwrite : op.read = false) (hdone : op.Completes M k.reg)
  (hrecv : op.line = ilTerminal → ¬ op.Receives M k.reg) {xs : List (Fin n)}

include hL hA hσ hwrite hdone hrecv

theorem handleDevices_nobody (hval : k.mem (op.sem M) = 0 ∨ k.mem (op.sem M) = 1)
    (hw : σ.waiting (op.sem M) = []) :
    ∃ k', handleDevices M op.line k = .ok () k' ∧ StatusDelivered M op σ k k' := by
  have hsem : M.kernelData (op.sem M) = false := hL.cells _ op.devCell_sem
  obtain ⟨⟨⟩, k', hrun, hd⟩ := wp_false (wp_handleDevices_write (Q := fun _ k' =>
    StatusDelivered M op σ k k') (E := fun _ _ => False) hL hA op hwrite hdone hrecv
    fun reg hreg => wp_signalDevice_nobody hσ hsem op.nucleus_sem hval hw fun k' hb hunit => by
      refine ⟨⟨reg, hreg, hb.reg⟩, fun p hp => ?_, fun q _ => (hb.saved q).pS, fun _ => hunit⟩
      rw [hw] at hp
      exact absurd hp (by simp))
  exact ⟨k', hrun, hd⟩

theorem handleDevices_first (hzero : k.mem (op.sem M) = 0) (hw : σ.waiting (op.sem M) = p :: xs)
    (hreq : ∀ q ∈ σ.waiting (op.sem M), k.resRequested q ≠ 0) (hask : k.resRequested p = 1)
    (hstatus : op.line = ilTerminal ∨ k.reg (op.statusReg M) = devSReady) :
    ∃ k', handleDevices M op.line k = .ok () k' ∧ StatusDelivered M op σ k k' := by
  have hsem : M.kernelData (op.sem M) = false := hL.cells _ op.devCell_sem
  have hhead : (σ.waiting (op.sem M)).head? = some p := by
    rw [hw]
    rfl
  have hread : (if op.line = ilTerminal then k.reg (op.statusReg M) else devSReady) =
      k.reg (op.statusReg M) := by
    split_ifs with hterm
    · rfl
    · exact (hstatus.resolve_left hterm).symm
  obtain ⟨⟨⟩, k', hrun, hd⟩ := wp_false (wp_handleDevices_write (Q := fun _ k' =>
    StatusDelivered M op σ k k') (E := fun _ _ => False) hL hA op hwrite hdone hrecv
    fun reg hreg => wp_signalDevice_first hσ hsem op.nucleus_sem hzero hw hreq
      (fun _ k' σ' hσ' hb hview => by
        rw [hread]
        refine ⟨⟨reg, hreg, hb.reg⟩, fun q hq => ?_, fun q hq => ?_, fun hnil => ?_⟩
        · obtain rfl : p = q := Option.some.inj (hhead.symm.trans hq)
          rw [setPcb_pcb_self, (hb.saved p).pS]
          exact ⟨⟨σ', hσ', hview⟩, rfl⟩
        · rw [setPcb_pcb_of_ne _ _ fun hqp => hq (by rw [hhead, hqp]), (hb.saved q).pS]
        · exact absurd (hw.symm.trans hnil) (by simp))
      (fun hmore => absurd hask hmore))
  exact ⟨k', hrun, hd⟩

theorem handleDevices_fails (hzero : k.mem (op.sem M) = 0) (hw : σ.waiting (op.sem M) = p :: xs)
    (hreq : ∀ q ∈ σ.waiting (op.sem M), k.resRequested q ≠ 0)
    (hbad : ¬ (k.resRequested p = 1 ∧
      (op.line = ilTerminal ∨ k.reg (op.statusReg M) = devSReady))) :
    ¬ ∃ k', handleDevices M op.line k = .ok () k' ∧ StatusDelivered M op σ k k' := by
  have hsem : M.kernelData (op.sem M) = false := hL.cells _ op.devCell_sem
  have hhead : (σ.waiting (op.sem M)).head? = some p := by
    rw [hw]
    rfl
  rintro ⟨k', hrun, hd⟩
  refine (wp_of_ok (Q := fun _ k' => ¬ StatusDelivered M op σ k k') (E := fun _ _ => True)
    hrun).mp (wp_handleDevices_write hL hA op hwrite hdone hrecv fun reg hreg => ?_) hd
  refine wp_signalDevice_first hσ hsem op.nucleus_sem hzero hw hreq ?_ ?_
  · rintro hask k' σ' hσ' hb hview hd
    have hother := not_or.mp fun h => hbad ⟨hask, h⟩
    have ha1 := congrArg ProcState.a1 (hd.woken p hhead).2
    rw [setPcb_pcb_self, if_neg hother.1] at ha1
    exact hother.2 ha1.symm
  · rintro - k' σ' hσ' hview hd
    obtain ⟨⟨σ₂, hσ₂, hview₂⟩, -⟩ := hd.woken p hhead
    have hready : p ∈ σ₂.view.list .ready := by
      rw [σ₂.view.mem, hview₂, Placement.move_place_self]
    have hlist := ((Snap.owned_of_core hσ').listed .ready _ rfl).unique
      ((Snap.owned_of_core hσ₂).listed .ready _ rfl)
    rw [← hlist, σ'.view.mem, hview] at hready
    have hplace : σ.view.place p = .sem (op.sem M) :=
      (σ.view.mem _ p).mp (List.mem_of_mem_head? hhead)
    exact absurd (hready.symm.trans hplace) (by simp)

end Delivery

/-- **When the status word is delivered.**  The interrupt does what it has to do exactly if
nobody waits, or the first waiter has asked for one unit and the status word is read before the
acknowledgement, as for a terminal, or is the one that the acknowledgement leaves. -/
theorem handleDevices_delivers_iff (hL : DevLayout M) (hA : AckReady M) (hσ : σ.core = k.core)
    (op : DevOp) (hwrite : op.read = false) (hdone : op.Completes M k.reg)
    (hrecv : op.line = ilTerminal → ¬ op.Receives M k.reg)
    (hval : k.mem (op.sem M) = 0 ∨ k.mem (op.sem M) = 1)
    (hzero : σ.waiting (op.sem M) ≠ [] → k.mem (op.sem M) = 0)
    (hreq : ∀ q ∈ σ.waiting (op.sem M), k.resRequested q ≠ 0) :
    (∃ k', handleDevices M op.line k = .ok () k' ∧ StatusDelivered M op σ k k') ↔
      ∀ p, (σ.waiting (op.sem M)).head? = some p → k.resRequested p = 1 ∧
        (op.line = ilTerminal ∨ k.reg (op.statusReg M) = devSReady) := by
  cases hw : σ.waiting (op.sem M) with
  | nil =>
    exact iff_of_true (handleDevices_nobody hL hA hσ op hwrite hdone hrecv hval hw)
      (fun p hp => absurd hp (by simp))
  | cons p xs =>
    have hzero' := hzero (by rw [hw]; simp)
    by_cases hgood : k.resRequested p = 1 ∧
        (op.line = ilTerminal ∨ k.reg (op.statusReg M) = devSReady)
    · refine iff_of_true (handleDevices_first hL hA hσ op hwrite hdone hrecv hzero' hw hreq hgood.1
        hgood.2) (fun q hq => ?_)
      obtain rfl : p = q := Option.some.inj hq
      exact hgood
    · exact iff_of_false (handleDevices_fails hL hA hσ op hwrite hdone hrecv hzero' hw hreq hgood)
        (fun hall => hgood (hall p rfl))

/-! ### Two devices -/

/-- `uarm` with devices that are ready again when they are acknowledged. -/
def uarmAck : Machine := { uarm with
  devWrite := fun reg a v => if v = 1 then update (update reg a v) (a - 4) devSReady
    else update reg a v }

theorem ackReady_uarmAck : AckReady uarmAck where
  ready op reg := by
    have hreg : op.ackReg uarmAck - 4 = op.statusReg uarmAck := by
      rw [DevOp.ackReg, DevOp.statusReg]
      split_ifs
      · rw [Machine.transmCommand, Machine.transmStatus]
        bv_omega
      · rw [Machine.command, Machine.status]
        bv_omega
    show (if (1 : Word) = 1 then update (update reg (op.ackReg uarmAck) 1)
      (op.ackReg uarmAck - 4) devSReady else update reg (op.ackReg uarmAck) 1) (op.statusReg uarmAck) = _
    rw [if_pos rfl, hreg, Function.update_self]
  apart op := by
    have hall : ∀ i < nExtIl.toNat, ∀ j < nDevPerIl.toNat,
        uarmAck.transmStatus (BitVec.ofNat 32 (3 + i)) (BitVec.ofNat 32 j) ≠
          uarmAck.cdevBitmapAddr (BitVec.ofNat 32 (3 + i)) ∧
        uarmAck.status (BitVec.ofNat 32 (3 + i)) (BitVec.ofNat 32 j) ≠
          uarmAck.cdevBitmapAddr (BitVec.ofNat 32 (3 + i)) := by decide
    obtain ⟨i, hi, hline⟩ := op.line_cases
    obtain ⟨htransm, hstatus⟩ := hall i hi op.dev op.dev_lt
    rw [DevOp.statusReg, hline]
    split_ifs
    · exact htransm
    · exact hstatus

theorem devLayout_uarmAck : DevLayout uarmAck :=
  ⟨devLayout_uarm.cells, devLayout_uarm.command, devLayout_uarm.transm⟩

/-- The transmitting half of the first terminal. -/
def transmitOp : DevOp :=
  ⟨ilTerminal, 0, false, receiveOp.line_lo, receiveOp.line_hi, receiveOp.dev_lt, fun _ => rfl⟩

/-- The first terminal has transmitted a character. -/
def transmitted : Event :=
  { (interruptOn ilTerminal).event with
    reg := update (update (fun _ => 0) (uarm.cdevBitmapAddr ilTerminal) 1)
      (uarm.transmStatus ilTerminal 0) 5 }

theorem handleDevices_delivers_transmitted : ∃ (k k' : Kernel maxProc) (σ : Snap maxProc),
    σ.waiting (transmitOp.sem uarmAck) = [proc0] ∧ handleDevices uarmAck ilTerminal k = .ok () k' ∧
      StatusDelivered uarmAck transmitOp σ k k' := by
  obtain ⟨k, σ, hσ, -, hreg, hwait, hreq, hv⟩ := waits_first transmitOp transmitted (by decide +kernel)
  have hdone : transmitOp.Completes uarmAck k.reg := by
    rw [hreg]
    exact ⟨by decide +kernel, fun _ => by decide +kernel⟩
  have hrecv : ¬ transmitOp.Receives uarmAck k.reg := by
    rw [hreg, DevOp.Receives]
    decide +kernel
  have hasked : ∀ q ∈ σ.waiting (transmitOp.sem uarmAck), k.resRequested q = 1 := by
    intro q hq
    rw [show σ.waiting (transmitOp.sem uarmAck) = [proc0] from hwait, List.mem_singleton] at hq
    rw [hq]
    exact hreq
  have hiff := handleDevices_delivers_iff devLayout_uarmAck ackReady_uarmAck hσ transmitOp rfl hdone
    (fun _ => hrecv) (.inl hv) (fun _ => hv) (fun q hq => by rw [hasked q hq]; decide)
  obtain ⟨k', hrun, hd⟩ := hiff.mpr fun p hp => ⟨hasked p (List.mem_of_mem_head? hp), .inl rfl⟩
  exact ⟨k, k', σ, hwait, hrun, hd⟩

/-- The first printer reports an error, and the process finds that it is ready. -/
theorem not_handleDevices_delivers : ¬ ∀ (M : Machine) (k : Kernel maxProc) (σ : Snap maxProc)
    (op : DevOp), DevLayout M → AckReady M → σ.core = k.core → op.read = false →
    op.Completes M k.reg → (op.line = ilTerminal → ¬ op.Receives M k.reg) →
    (k.mem (op.sem M) = 0 ∨ k.mem (op.sem M) = 1) →
    (σ.waiting (op.sem M) ≠ [] → k.mem (op.sem M) = 0) →
    (∀ q ∈ σ.waiting (op.sem M), k.resRequested q = 1) →
    ∃ k', handleDevices M op.line k = .ok () k' ∧ StatusDelivered M op σ k k' := by
  intro hall
  obtain ⟨k, σ, hσ, -, hreg, hwait, hreq, hv⟩ :=
    waits_first printOp (deviceInterrupt ilPrinter 0 4) (by decide +kernel)
  have hdone : printOp.Completes uarmAck k.reg := by
    rw [hreg]
    exact ⟨by decide +kernel, by decide⟩
  have hasked : ∀ q ∈ σ.waiting (printOp.sem uarmAck), k.resRequested q = 1 := by
    intro q hq
    rw [show σ.waiting (printOp.sem uarmAck) = [proc0] from hwait, List.mem_singleton] at hq
    rw [hq]
    exact hreq
  have hprinter : printOp.line ≠ ilTerminal := by decide
  obtain ⟨k', hrun, hd⟩ := hall uarmAck k σ printOp devLayout_uarmAck ackReady_uarmAck hσ rfl hdone
    (fun hline => absurd hline hprinter) (.inl hv) (fun _ => hv) hasked
  have hhead : (σ.waiting (printOp.sem uarmAck)).head? = some proc0 := by
    rw [show σ.waiting (printOp.sem uarmAck) = [proc0] from hwait]
    rfl
  have hready : wp (handleDevices uarmAck printOp.line)
      (fun _ k' => (k'.pcb proc0).pS.a1 = devSReady) (fun _ _ => True) k := by
    refine wp_handleDevices_write devLayout_uarmAck ackReady_uarmAck printOp rfl hdone
      (fun hline => absurd hline hprinter) fun reg _ => ?_
    refine wp_signalDevice_first hσ (devLayout_uarmAck.cells _ printOp.devCell_sem)
      printOp.nucleus_sem hv hwait
      (fun q hq => by rw [hasked q hq]; decide) (fun _ k' _ _ _ _ => ?_) (fun hne => absurd hreq hne)
    rw [setPcb_pcb_self, if_neg hprinter]
  have ha1 := (wp_of_ok hrun).mp hready
  rw [(hd.woken proc0 hhead).2, hreg] at ha1
  change (deviceInterrupt ilPrinter 0 4).reg (printOp.statusReg uarmAck) = devSReady at ha1
  exact absurd ha1 (by decide +kernel)

end JaeOS
