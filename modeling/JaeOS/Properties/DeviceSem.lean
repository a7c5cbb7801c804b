import JaeOS.Refine.Bystander

/-!
# The semaphore of a device

SYS10 and the device interrupt compute the semaphore of a device each on its own: `ioSem`
from the arguments, `Machine.report` from the registers.  They agree for every device but
the receiving half of a terminal, where SYS10 takes the last row of `g_dev_s` and the
interrupt the one behind it.
-/

namespace JaeOS

open Function (update)

variable {n : ℕ} {M : Machine} {k k' : Kernel n} {σ σ' : Snap n} {a : Word} {p : Fin n}

/-! ### The property -/

/-- An operation of SYS10: a line with devices, one of its devices, and for a terminal the
half that is meant. -/
structure DevOp where
  line : Word
  dev : ℕ
  read : Bool
  line_lo : devIlStart ≤ line
  line_hi : line ≤ ilTerminal
  dev_lt : dev < nDevPerIl.toNat
  read_line : read = true → line = ilTerminal

/-- The third argument of SYS10: bit 31 asks for the receiving half. -/
def DevOp.dnum (op : DevOp) : Word :=
  if op.read then BitVec.ofNat 32 op.dev ||| 0x80000000 else BitVec.ofNat 32 op.dev

/-- The element of `g_dev_s` that SYS10 waits on. -/
def DevOp.sem (M : Machine) (op : DevOp) : Word := ioSem M op.line op.dnum

/-- The interrupt of the device: its bit is the first in the bitmap of the line, and the half
of a terminal that is meant reports a completion, in the registers the handler reads. -/
structure DevOp.Completes (op : DevOp) (M : Machine) (reg : Word → Word) : Prop where
  pending : pendingDevice (reg (M.cdevBitmapAddr op.line)) = some op.dev
  status : op.line = ilTerminal →
    if op.read then
      M.recvDone (M.afterFind reg op.line op.dev (M.recvStatus op.line (BitVec.ofNat 32 op.dev))) = true
    else
      M.transmDone (M.afterFind reg op.line op.dev (M.transmStatus op.line (BitVec.ofNat 32 op.dev))) =
        true

/-- The receiving half of the device reports a completion, too. -/
def DevOp.Receives (op : DevOp) (M : Machine) (reg : Word → Word) : Prop :=
  M.recvDone (M.afterFind reg op.line op.dev (M.recvStatus op.line (BitVec.ofNat 32 op.dev))) = true

/-- The interrupt has done a `V` on the semaphore at `a`, an element of `g_dev_s`: the process
`p` is ready, and no other semaphore has changed. -/
structure Answered (M : Machine) (a : Word) (p : Fin n) (k k' : Kernel n) : Prop where
  inside : M.devCell a = true
  signal : ∃ σ σ' : Snap n, σ.core = k.core ∧ σ'.core = k'.core ∧ Signal M a 1 σ σ'
  ready : ∃ xs, k'.Queue .gReadyQueue xs ∧ p ∈ xs
  others : ∀ b, b ≠ a → k'.mem b = k.mem b ∧ ∀ q, k'.WaitsAt b q ↔ k.WaitsAt b q

/-- Where the linker and the machine put the device semaphores and the device registers. -/
structure DevLayout (M : Machine) : Prop where
  cells : ∀ a, M.devCell a = true → M.kernelData a = false
  command : ∀ op : DevOp, M.kernelData (M.command op.line (BitVec.ofNat 32 op.dev)) = false
  transm : ∀ op : DevOp, M.kernelData (M.transmCommand op.line (BitVec.ofNat 32 op.dev)) = false

/-! ### Rows and columns -/

theorem devSem_sub (M : Machine) (row col : Word) :
    M.devSem row col - M.gDevS = 4 * (nDevPerIl * row + col) := by
  rw [Machine.devSem, BitVec.add_comm]
  exact BitVec.add_sub_cancel _ _

theorem devCell_devSem {i j : ℕ} (hi : i < nDevTypes.toNat) (hj : j < nDevPerIl.toNat) :
    M.devCell (M.devSem (BitVec.ofNat 32 i) (BitVec.ofNat 32 j)) = true := by
  have hall : ∀ i < nDevTypes.toNat, ∀ j < nDevPerIl.toNat,
      (decide ((4 * (nDevPerIl * BitVec.ofNat 32 i + BitVec.ofNat 32 j)).toNat <
        4 * (nDevTypes * nDevPerIl).toNat) &&
      (4 * (nDevPerIl * BitVec.ofNat 32 i + BitVec.ofNat 32 j)).toNat % 4 == 0) = true := by decide
  rw [Machine.devCell, devSem_sub]
  exact hall i hi j hj

theorem devSem_inj {i j i' j' : ℕ} (hi : i ≤ nDevTypes.toNat) (hj : j < nDevPerIl.toNat)
    (hi' : i' ≤ nDevTypes.toNat) (hj' : j' < nDevPerIl.toNat)
    (h : M.devSem (BitVec.ofNat 32 i) (BitVec.ofNat 32 j) =
      M.devSem (BitVec.ofNat 32 i') (BitVec.ofNat 32 j')) : i = i' ∧ j = j' := by
  have hnum : ∀ i j : ℕ, 4 * (nDevPerIl * BitVec.ofNat 32 i + BitVec.ofNat 32 j) =
      BitVec.ofNat 32 (4 * (8 * i + j)) := by
    intro i j
    rw [BitVec.ofNat_mul, BitVec.ofNat_add, BitVec.ofNat_mul]
    rfl
  have hi₀ : i ≤ 6 := hi
  have hj₀ : j < 8 := hj
  have hi₁ : i' ≤ 6 := hi'
  have hj₁ : j' < 8 := hj'
  have heq := congrArg (fun a => (a - M.gDevS).toNat) h
  rw [devSem_sub, devSem_sub, hnum, hnum, BitVec.toNat_ofNat, BitVec.toNat_ofNat,
    Nat.mod_eq_of_lt (by omega), Nat.mod_eq_of_lt (by omega)] at heq
  omega

theorem devSem_ne {i j : ℕ} (hi : i < nDevTypes.toNat) (hj : j < nDevPerIl.toNat) :
    M.devSem (BitVec.ofNat 32 i) (BitVec.ofNat 32 j) ≠ M.devSem nDevTypes (BitVec.ofNat 32 j) :=
  fun heq => (Nat.ne_of_lt hi) (devSem_inj (Nat.le_of_lt hi) hj (le_refl nDevTypes.toNat) hj heq).1

namespace DevOp

variable (op : DevOp)

theorem line_cases : ∃ i < nExtIl.toNat, op.line = BitVec.ofNat 32 (3 + i) := by
  have hlo : 3 ≤ op.line.toNat := op.line_lo
  have hhi : op.line.toNat ≤ 7 := op.line_hi
  refine ⟨op.line.toNat - 3, ?_, ?_⟩
  · show op.line.toNat - 3 < 5
    omega
  · rw [Nat.add_sub_cancel' hlo]
    exact BitVec.eq_of_toNat_eq (by simp)

theorem row_cases : ∃ i < nExtIl.toNat, op.line - devIlStart = BitVec.ofNat 32 i := by
  obtain ⟨i, hi, hline⟩ := op.line_cases
  have hall : ∀ i < nExtIl.toNat, BitVec.ofNat 32 (3 + i) - devIlStart = BitVec.ofNat 32 i := by decide
  exact ⟨i, hi, by rw [hline, hall i hi]⟩

theorem sem_of_write (h : op.read = false) :
    op.sem M = M.devSem (op.line - devIlStart) (BitVec.ofNat 32 op.dev) := by
  have hall : ∀ i < nDevPerIl.toNat, (BitVec.ofNat 32 i : Word) >>> 7 = 0 ∧
      (BitVec.ofNat 32 i : Word) <<< 1 >>> 1 = BitVec.ofNat 32 i := by decide
  obtain ⟨hshift, hback⟩ := hall op.dev op.dev_lt
  have hdnum : op.dnum = BitVec.ofNat 32 op.dev := by
    rw [dnum, h]
    rfl
  rw [sem, hdnum, ioSem]
  split_ifs with hterm hread
  · exact absurd hshift hread
  · rw [hback, hterm]
    rfl
  · rfl

theorem sem_of_read (h : op.read = true) : op.sem M = M.devSem 5 (BitVec.ofNat 32 op.dev) := by
  have hall : ∀ i < nDevPerIl.toNat, (BitVec.ofNat 32 i ||| 0x80000000 : Word) >>> 7 ≠ 0 ∧
      (BitVec.ofNat 32 i ||| 0x80000000 : Word) <<< 1 >>> 1 = BitVec.ofNat 32 i := by decide
  obtain ⟨hshift, hback⟩ := hall op.dev op.dev_lt
  have hdnum : op.dnum = BitVec.ofNat 32 op.dev ||| 0x80000000 := by
    rw [dnum, h]
    rfl
  have hterm : op.line = intTerminal := op.read_line h
  rw [sem, hdnum, ioSem, if_pos hterm]
  dsimp only
  rw [if_pos hshift, hback]

theorem isReg_ioReg : M.isReg (ioReg M op.line op.dnum) = true := by
  have hwrite : ∀ i < nDevPerIl.toNat, (BitVec.ofNat 32 i : Word) <<< 1 >>> 1 = BitVec.ofNat 32 i := by
    decide
  have hread : ∀ i < nDevPerIl.toNat,
      (BitVec.ofNat 32 i ||| 0x80000000 : Word) <<< 1 >>> 1 = BitVec.ofNat 32 i := by decide
  have hback : op.dnum <<< 1 >>> 1 = BitVec.ofNat 32 op.dev := by
    rw [dnum]
    split_ifs
    · exact hread op.dev op.dev_lt
    · exact hwrite op.dev op.dev_lt
  have hreg : ∀ {off : Word}, [0, 4, 8, 12].contains off = true →
      M.isReg (M.devRegAddr op.line (BitVec.ofNat 32 op.dev) + off) = true := fun hoff =>
    Machine.isReg_devRegAddr ⟨op.line_lo, op.line_hi⟩ op.dev_lt hoff
  rw [ioReg]
  split_ifs with hterm hrecv
  · rw [hback]
    exact hreg (by decide)
  · rw [hback]
    exact hreg (by decide)
  · have hdnum : op.dnum = BitVec.ofNat 32 op.dev := by
      rw [dnum, if_neg (fun hread => hterm (op.read_line hread))]
    rw [hdnum]
    exact hreg (by decide)

theorem devCell_sem : M.devCell (op.sem M) = true := by
  cases h : op.read with
  | false =>
    obtain ⟨i, hi, hrow⟩ := op.row_cases
    rw [op.sem_of_write h, hrow]
    exact devCell_devSem (Nat.lt_succ_of_lt hi) op.dev_lt
  | true =>
    rw [op.sem_of_read h]
    exact devCell_devSem (i := 5) (by decide) op.dev_lt

theorem nucleus_sem : M.nucleus (op.sem M) = true := by
  rw [Machine.nucleus, op.devCell_sem, Bool.or_true]

theorem sem_ne : op.sem M ≠ M.devSem nDevTypes (BitVec.ofNat 32 op.dev) := by
  cases h : op.read with
  | false =>
    obtain ⟨i, hi, hrow⟩ := op.row_cases
    rw [op.sem_of_write h, hrow]
    exact devSem_ne (Nat.lt_succ_of_lt hi) op.dev_lt
  | true =>
    rw [op.sem_of_read h]
    exact devSem_ne (i := 5) (by decide) op.dev_lt

/-- The interrupt and SYS10 mean the same semaphore. -/
def Agrees (op : DevOp) (M : Machine) (reg : Word → Word) : Prop :=
  op.line = ilTerminal → op.read = false ∧ ¬ op.Receives M reg

/-- **The semaphore of the completion** is that of the operation, or the one behind the
last row. -/
theorem completion {reg : Word → Word} (h : op.Completes M reg) :
    ∃ c, M.completion reg op.line = some c ∧
      (c.ack = M.command op.line (BitVec.ofNat 32 op.dev) ∨
        c.ack = M.transmCommand op.line (BitVec.ofNat 32 op.dev)) ∧
      (op.Agrees M reg → c.sem = op.sem M) ∧
      (¬ op.Agrees M reg → c.sem = M.devSem nDevTypes (BitVec.ofNat 32 op.dev)) := by
  have hcompl : M.completion reg op.line =
      M.report (M.afterFind reg op.line op.dev) op.line (BitVec.ofNat 32 op.dev) := by
    rw [Machine.completion, h.pending, Option.bind_some]
  rw [hcompl, Machine.report]
  by_cases hterm : op.line = ilTerminal
  · have hstatus := h.status hterm
    rw [if_pos hterm]
    by_cases hrecv : op.Receives M reg
    · rw [Receives] at hrecv
      rw [if_pos hrecv]
      refine ⟨_, rfl, .inl rfl, fun hag => absurd hrecv (hag hterm).2, fun _ => rfl⟩
    · have hwrite : op.read = false := by
        by_contra hread
        rw [Bool.not_eq_false] at hread
        rw [if_pos hread] at hstatus
        exact hrecv hstatus
      rw [if_neg (by simp [hwrite])] at hstatus
      rw [Receives] at hrecv
      rw [if_neg hrecv, if_pos hstatus]
      refine ⟨_, rfl, .inr rfl, fun _ => (op.sem_of_write hwrite).symm, fun hag => ?_⟩
      exact absurd (fun _ => ⟨hwrite, hrecv⟩) hag
  · have hwrite : op.read = false := by
      by_contra hread
      exact hterm (op.read_line (by simpa using hread))
    rw [if_neg hterm]
    refine ⟨_, rfl, .inl rfl, fun _ => (op.sem_of_write hwrite).symm, fun hag => ?_⟩
    exact absurd (fun hline => absurd hline hterm) hag

end DevOp

/-! ### The interrupt -/

theorem mem_woken_iff (hp : (σ.waiting a).head? = some p) (hreq : σ.core.resRequested p = 1) :
    p ∈ (σ.service a 1).woken ↔ σ.core.mem a ≠ -1 := by
  obtain ⟨xs, hxs⟩ := List.head?_eq_some_iff.mp hp
  have hle : (1 : Word) ≤ 1 + σ.core.mem a ↔ σ.core.mem a ≠ -1 := by
    bv_omega
  rw [← hle, Snap.service, hxs]
  by_cases h : σ.core.resRequested p ≤ 1 + σ.core.mem a
  · rw [serve_cons_of_le h]
    rw [hreq] at h
    exact ⟨fun _ => h, fun _ => List.mem_cons_self⟩
  · rw [serve_cons_of_not_le h]
    rw [hreq] at h
    exact ⟨fun hm => absurd hm List.not_mem_nil, fun hle => absurd hle h⟩

/-- **A `V` of the device interrupt** answers the first waiter. -/
theorem Signal.answered (hσ : σ.core = k.core) (hσ' : σ'.core = k'.core) (h : Signal M a 1 σ σ')
    (ha : M.devCell a = true) (hp : p ∈ (σ.service a 1).woken) : Answered M a p k k' := by
  refine ⟨ha, ⟨σ, σ', hσ, hσ', h⟩, ⟨_, (Snap.owned_of_core hσ').listed .ready _ rfl, ?_⟩,
    fun b hb => ?_⟩
  · rw [h.ready]
    exact List.mem_append_right _ hp
  · have hsame := h.sameAt hb
    refine ⟨?_, fun q => ?_⟩
    · have := hsame.value
      rw [hσ, hσ'] at this
      exact this
    · rw [← Snap.mem_waiting hσ, ← Snap.mem_waiting hσ', hsame.waiting]

theorem not_answered {b : Word} (hσ' : σ'.core = k'.core) (hp : p ∈ σ'.waiting b) :
    ¬ Answered M a p k k' := by
  rintro ⟨-, -, ⟨xs, hxs, hmem⟩, -⟩
  have hready : σ'.view.place p = .ready := by
    refine (σ'.view.mem .ready p).mp ?_
    rw [← hxs.unique ((Snap.owned_of_core hσ').listed .ready _ rfl)]
    exact hmem
  have hplace := (σ'.view.mem _ p).mp hp
  rw [hready] at hplace
  exact absurd hplace (by simp)

/-- The word at the semaphore is not touched if it is one of the kernel's other variables. -/
theorem wp_signalDevice_stray {st : Option Word} {Q : Unit → Kernel n → Prop}
    (hσ : σ.core = k.core) (ha : M.kernelData a = true) :
    wp (signalDevice M a st) Q (fun _ _ => True) k := by
  rw [signalDevice, wp_bind, wp_liftQ, (Snap.owned_of_core hσ).run_headBlocked a]
  dsimp only
  rw [wp_bind, readInt, if_pos ha]
  exact trivial

theorem not_answered_elsewhere {line b : Word} {c : Completion} (hσ : σ.core = k.core)
    (hc : Consistent σ) (hline : devIlStart ≤ line ∧ line ≤ ilTerminal)
    (hcompl : M.completion k.reg line = some c) (hack : M.kernelData c.ack = false)
    (hb : c.sem ≠ b) (hp : p ∈ σ.waiting b) :
    wp (handleDevices M line) (fun _ k' => ¬ Answered M a p k k') (fun _ _ => True) k := by
  cases hsem : M.kernelData c.sem with
  | true =>
    refine wp_handleDevices_signal hline hcompl hack (fun k₁ hcore => ?_)
    exact wp_signalDevice_stray (hσ.trans hcore.symm) hsem
  | false =>
    refine wp_handleDevices hσ hc hline hcompl hack hsem ?_
    rintro k' ⟨σ', hσ', -, hd, -⟩
    have hsame : σ.SameAt σ' b :=
      hd.sameAt hc hb (fun root hroot => absurd hroot (by simp))
    refine not_answered hσ' (b := b) ?_
    rw [hsame.waiting]
    exact hp

/-- On its semaphore the first waiter is answered, unless no `V` is done there or the `V`
leaves nothing. -/
theorem Does.answered_iff {st : Word} (hσ : σ.core = k.core) (hσ' : σ'.core = k'.core)
    (ha : M.devCell a = true) (hp : (σ.waiting a).head? = some p)
    (hreq : σ.core.resRequested p = 1) (h : Does M (.device a st) σ σ') :
    Answered M a p k k' ↔ (σ.core.mem a).toInt < 1 ∧ σ.core.mem a ≠ -1 := by
  have hwait : p ∈ σ.waiting a := List.mem_of_mem_head? hp
  cases h with
  | busy hv => exact iff_of_false (not_answered hσ' hwait) (fun h => hv h.1)
  | device hv hs =>
    rw [and_iff_right hv, ← mem_woken_iff hp hreq]
    by_cases hwoken : p ∈ (σ.service a 1).woken
    · exact iff_of_true (hs.answered hσ hσ' ha hwoken) hwoken
    · refine iff_of_false (not_answered hσ' (b := a) ?_) hwoken
      have happ := serve_append σ.core.resRequested (1 + σ.core.mem a) (σ.waiting a)
      change (σ.service a 1).woken ++ (σ.service a 1).rest = σ.waiting a at happ
      rw [← happ, List.mem_append] at hwait
      rw [hs.waiting]
      exact hwait.resolve_left hwoken

/-- **Where the interrupt answers.**  With `p` waiting first on the semaphore of its operation,
the interrupt that reports the end of the operation does its `V` there and wakes `p` up, if
and only if the device is no terminal, or the operation a transmission while the receiving
half has nothing to report, and the value of the semaphore is below 1 and not -1. -/
theorem handleDevices_answered_iff (hL : DevLayout M) (hσ : σ.core = k.core) (hc : Consistent σ)
    (op : DevOp) (hp : (σ.waiting (op.sem M)).head? = some p) (hreq : k.resRequested p = 1)
    (hdone : op.Completes M k.reg) :
    (∃ k', handleDevices M op.line k = .ok () k' ∧ Answered M (op.sem M) p k k') ↔
      (op.line = ilTerminal → op.read = false ∧ ¬ op.Receives M k.reg) ∧
        (k.mem (op.sem M)).toInt < 1 ∧ k.mem (op.sem M) ≠ -1 := by
  obtain ⟨c, hcompl, hreg, hyes, hno⟩ := op.completion hdone
  have hack : M.kernelData c.ack = false := by
    rcases hreg with h | h
    · rw [h]
      exact hL.command op
    · rw [h]
      exact hL.transm op
  change _ ↔ op.Agrees M k.reg ∧ _
  by_cases hag : op.Agrees M k.reg
  · have hsem := hyes hag
    have hcell : M.kernelData c.sem = false := by
      rw [hsem]
      exact hL.cells _ op.devCell_sem
    obtain ⟨_, k', hrun, σ', hσ', hc', hd, -⟩ := wp_false (wp_handleDevices (Q := fun _ k' =>
      Done M (.device c.sem c.status) σ k') hσ hc ⟨op.line_lo, op.line_hi⟩ hcompl hack hcell (fun _ h => h))
    rw [hsem] at hd
    have hiff : Answered M (op.sem M) p k k' ↔ _ := hd.answered_iff hσ hσ' op.devCell_sem hp (by
      rw [hσ]
      exact hreq)
    rw [hσ] at hiff
    rw [and_iff_right hag]
    refine Iff.trans ⟨?_, fun h => ⟨k', hrun, h⟩⟩ hiff
    rintro ⟨k₁, hrun₁, h⟩
    rw [hrun] at hrun₁
    injection hrun₁ with _ hk
    rwa [hk]
  · have hne : c.sem ≠ op.sem M := by
      rw [hno hag]
      exact op.sem_ne.symm
    have hnot := not_answered_elsewhere (a := op.sem M) hσ hc ⟨op.line_lo, op.line_hi⟩
      hcompl hack hne (List.mem_of_mem_head? hp)
    refine iff_of_false ?_ (fun h => hag h.1)
    rintro ⟨k', hrun, h⟩
    exact (wp_of_ok hrun).mp hnot h

/-! ### Two operations -/

theorem devLayout_uarm : DevLayout uarm := by
  have hreg : ∀ i < nExtIl.toNat, ∀ j < nDevPerIl.toNat,
      uarm.kernelData (uarm.command (BitVec.ofNat 32 (3 + i)) (BitVec.ofNat 32 j)) = false ∧
        uarm.kernelData (uarm.transmCommand (BitVec.ofNat 32 (3 + i)) (BitVec.ofNat 32 j)) = false := by
    decide
  refine ⟨fun a ha => ?_, fun op => ?_, fun op => ?_⟩
  · rw [Machine.devCell, Bool.and_eq_true, decide_eq_true_eq] at ha
    have hlt : (a - 0x10000).toNat < 192 := ha.1
    have hout : ¬ ((0x10300 : Word) ≤ a ∧ a < 0x11000) := by bv_omega
    show (decide ((0x10300 : Word) ≤ a) && decide (a < 0x11000)) = false
    rw [← Bool.decide_and, decide_eq_false hout]
  · obtain ⟨i, hi, hline⟩ := op.line_cases
    rw [hline]
    exact (hreg i hi op.dev op.dev_lt).1
  · obtain ⟨i, hi, hline⟩ := op.line_cases
    rw [hline]
    exact (hreg i hi op.dev op.dev_lt).2

def printOp : DevOp := ⟨ilPrinter, 0, false, by decide, by decide, by decide, by decide⟩

/-- The receiving half of the first terminal. -/
def receiveOp : DevOp := ⟨ilTerminal, 0, true, by decide, by decide, by decide, by decide⟩

/-- The first process has asked for an operation, and the device reports its end. -/
theorem waits_first (op : DevOp) (ev : Event)
    (hP : trace uarm (fun k e => k.calm uarm e) (fun c => c.k.aslh == some ⟨0, by decide⟩ &&
      c.k.sSemAdd ⟨0, by decide⟩ == op.sem uarm && c.k.sProcq ⟨0, by decide⟩ == some proc0 &&
      c.k.pList proc0 == some proc0 && c.k.resRequested proc0 == 1 &&
      (c.k.atEntry uarm ev).mem (op.sem uarm) == 0) (boot uarm)
      [sys 10 2 op.line op.dnum] = true) :
    ∃ (k : Kernel maxProc) (σ : Snap maxProc), σ.core = k.core ∧ Consistent σ ∧ k.reg = ev.reg ∧
      σ.waiting (op.sem uarm) = [proc0] ∧ k.resRequested proc0 = 1 ∧
      k.mem (op.sem uarm) = 0 := by
  obtain ⟨c, L, hreach, hc⟩ := reaches_calm _ _ hP
  simp only [Bool.and_eq_true, beq_iff_eq] at hc
  obtain ⟨⟨⟨⟨⟨hasl, hadd⟩, htail⟩, hnext⟩, hreq⟩, hv⟩ := hc
  obtain ⟨σ, hb, -⟩ := hreach.complete layout_uarm
  have hwait : σ.waiting (op.sem uarm) = [proc0] := by
    rw [← hadd]
    exact Snap.waiting_eq hb.core hasl (queue_singleton htail hnext)
  exact ⟨c.k.atEntry uarm ev, σ.atEntry uarm ev.mem, Snap.atEntry_core hb.core,
    hb.consistent.atEntry uarm ev.mem, rfl, hwait, hreq, hv⟩

/-- The first printer answers. -/
theorem handleDevices_answered_printer : ∃ k k' : Kernel maxProc,
    handleDevices uarm ilPrinter k = .ok () k' ∧ Answered uarm (printOp.sem uarm) proc0 k k' := by
  obtain ⟨k, σ, hσ, hc, hreg, hwait, hreq, hv⟩ :=
    waits_first printOp (deviceInterrupt ilPrinter 0 1) (by decide +kernel)
  have hp : (σ.waiting (printOp.sem uarm)).head? = some proc0 := by
    rw [hwait]
    rfl
  have hdone : printOp.Completes uarm k.reg := by
    rw [hreg]
    exact ⟨by decide +kernel, by decide⟩
  refine ⟨k, (handleDevices_answered_iff devLayout_uarm hσ hc printOp hp hreq hdone).mpr ?_⟩
  rw [hv]
  exact ⟨fun hline => absurd hline (by decide), by decide, by decide⟩

/-- The receiving half of the first terminal does not. -/
theorem not_handleDevices_answered : ¬ ∀ (k : Kernel maxProc) (σ : Snap maxProc) (op : DevOp)
    (p : Fin maxProc), σ.core = k.core → Consistent σ →
    (σ.waiting (op.sem uarm)).head? = some p → k.resRequested p = 1 → k.mem (op.sem uarm) = 0 →
    op.Completes uarm k.reg →
    ∃ k', handleDevices uarm op.line k = .ok () k' ∧ Answered uarm (op.sem uarm) p k k' := by
  intro hall
  obtain ⟨k, σ, hσ, hc, hreg, hwait, hreq, hv⟩ :=
    waits_first receiveOp (deviceInterrupt ilTerminal 0 5) (by decide +kernel)
  have hp : (σ.waiting (receiveOp.sem uarm)).head? = some proc0 := by
    rw [hwait]
    rfl
  have hdone : receiveOp.Completes uarm k.reg := by
    rw [hreg]
    exact ⟨by decide +kernel, fun _ => by decide +kernel⟩
  have hiff := handleDevices_answered_iff devLayout_uarm hσ hc receiveOp hp hreq hdone
  obtain ⟨hread, -⟩ := (hiff.mp (hall k σ receiveOp proc0 hσ hc hp hreq hv hdone)).1 rfl
  exact absurd hread (by decide)

end JaeOS
