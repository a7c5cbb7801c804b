import JaeOS.Properties.SemopEffect
import Mathlib.Algebra.BigOperators.Intervals

/-!
# The tick of the pseudo-clock

The loop of `handleTimer` does a `V` on `g_pc_timer_s` with the number of waiters as
its weight, counts that number down by one and starts again.  The first round wakes
everybody up; the later ones find nobody, and their weights stay on the semaphore:
`tickLoop_empty` adds them up.  So `n` waiters leave the sum of the numbers below `n`
behind, which is 0 for at most one waiter only.
-/

namespace JaeOS

open Function (update)

variable {n : ℕ} {M : Machine} {k k' : Kernel n} {σ σ' : Snap n} {a w : Word} {p q : Fin n}

/-! ### The property -/

/-- `handleTimer` finds the pseudo-clock expired. -/
def Kernel.Expired (M : Machine) (k : Kernel n) : Prop :=
  k.gLeftTo100 = BitVec.ofNat 32 (M.tod k.tods) - k.gLastUpdate ∨
    k.gLeftTo100 - (BitVec.ofNat 32 (M.tod k.tods) - k.gLastUpdate) > schedPseudoClock

instance (M : Machine) (k : Kernel n) : Decidable (k.Expired M) :=
  inferInstanceAs (Decidable (_ ∨ _))

/-- The waiters of the pseudo-clock are as many as `g_pseudoClockBlk` says, and each
waits for one unit. -/
structure Kernel.ClockWaits (M : Machine) (k : Kernel n) (σ : Snap n) : Prop where
  blk : k.gPseudoClockBlk = BitVec.ofNat 32 (σ.waiting M.gPcTimerS).length
  requests : ∀ q ∈ σ.waiting M.gPcTimerS, k.resRequested q = 1

/-- All waiters of the pseudo-clock have been woken up, and `left` units are on the
semaphore. -/
structure AllWoken (M : Machine) (left : Word) (k k' : Kernel n) (σ σ' : Snap n) : Prop where
  core : σ'.core = k'.core
  ready : σ'.view.list .ready = σ.view.list .ready ++ σ.waiting M.gPcTimerS
  waiting : σ'.waiting M.gPcTimerS = []
  blk : k'.gPseudoClockBlk = 0
  soft : k'.gSoftBlockCount =
    k.gSoftBlockCount - BitVec.ofNat 32 (σ.waiting M.gPcTimerS).length
  value : k'.mem M.gPcTimerS = left
  others : ∀ b, b ≠ M.gPcTimerS → σ'.waiting b = σ.waiting b
  mem : ∀ b, b ≠ M.gPcTimerS → k'.mem b = k.mem b
  requests : ∀ q, k'.resRequested q =
    if q ∈ σ.waiting M.gPcTimerS then 0 else k.resRequested q
  current : k'.gCurrentProcess = k.gCurrentProcess

/-- WAITCLOCK blocks whoever calls it while the pseudo-clock is as `k` and `σ` have
left it. -/
def NextBlocks (M : Machine) (k : Kernel n) (σ : Snap n) : Prop :=
  ∀ (k₁ : Kernel n) (σ₁ : Snap n) (p : Fin n), σ₁.core = k₁.core → σ₁.Complete →
    k₁.mem M.gPcTimerS = k.mem M.gPcTimerS → σ₁.waiting M.gPcTimerS = σ.waiting M.gPcTimerS →
    k₁.gCurrentProcess = some p → σ₁.view.place p = .held →
    ∃ (k₂ : Kernel n) (σ₂ : Snap n), waitClock M k₁ = .ok () k₂ ∧ σ₂.core = k₂.core ∧
      σ₂.waiting M.gPcTimerS = σ₁.waiting M.gPcTimerS ++ [p] ∧ k₂.gCurrentProcess = none

/-- What a tick is to do: wake up all waiters, in order, and leave nothing on the
semaphore, so that the next WAITCLOCK blocks its caller. -/
def TickRight (M : Machine) (k : Kernel n) (σ : Snap n) : Prop :=
  ∃ k' σ', pseudoClock M k = .ok () k' ∧ AllWoken M 0 k k' σ σ' ∧ NextBlocks M k' σ'

/-! ### Rounds without waiters -/

theorem Machine.nucleus_gPcTimerS (M : Machine) : M.nucleus M.gPcTimerS = true := by
  simp [Machine.nucleus]

theorem Machine.isDev_gPcTimerS (M : Machine) : M.isDev M.gPcTimerS = true := by
  simp [Machine.isDev]

theorem semopV_empty (hσ : σ.core = k.core) (ha : M.kernelData a = false)
    (hq : σ.waiting a = []) :
    semopV M a w k = .ok () (k.put M a (w + k.mem a)) := by
  have h := Snap.owned_of_core hσ
  have hhead : (headBlocked a).run k.toQueues = some (none, k.toQueues) := by
    have := h.run_headBlocked a
    rwa [show σ.view.list (.sem a) = [] from hq] at this
  have hwp : wp (semopV M a w) (fun _ k' => k' = k.put M a (w + k.mem a)) (fun _ _ => False) k := by
    rw [semopV, wp_bind, wp_readInt ha, wp_bind, semopWake]
    simp only [wp_bind, wp_liftQ, hhead, wp_pure]
    rw [wp_writeInt ha]
    rfl
  obtain ⟨_, _, hrun, rfl⟩ := wp_false hwp
  exact hrun

theorem ofNat_toInt_pos {b : ℕ} (h : b < 2 ^ 31) :
    0 < (BitVec.ofNat 32 b : Word).toInt ↔ 0 < b := by
  rw [BitVec.toInt_eq_toNat_cond, BitVec.toNat_ofNat, Nat.mod_eq_of_lt (by omega),
    if_pos (by omega)]
  omega

/-- **The rounds that find nobody** add the numbers up to `b` to the semaphore. -/
theorem tickLoop_empty (ha : M.kernelData M.gPcTimerS = false) :
    ∀ {b fuel : ℕ} {k : Kernel n} {σ : Snap n}, σ.core = k.core → σ.waiting M.gPcTimerS = [] →
      k.gPseudoClockBlk = BitVec.ofNat 32 b → b < 2 ^ 31 → b < fuel →
      tickLoop M fuel k = .ok () { k with
        mem := update k.mem M.gPcTimerS
          (k.mem M.gPcTimerS + BitVec.ofNat 32 (∑ i ∈ Finset.range (b + 1), i))
        gPseudoClockBlk := 0 } := by
  intro b
  induction b with
  | zero =>
    intro fuel k σ hσ hq hblk _ hf
    obtain ⟨fuel, rfl⟩ : ∃ f, fuel = f + 1 := ⟨fuel - 1, by omega⟩
    have hwp : wp (tickLoop M (fuel + 1)) (fun _ k' => k' = k) (fun _ _ => False) k := by
      simp only [tickLoop, wp_bind, wp_get, wp_ite, hblk]
      rw [if_neg (by decide), wp_pure]
    obtain ⟨_, k', hrun, rfl⟩ := wp_false hwp
    rw [hrun]
    congr 1
    have hblk' : k'.gPseudoClockBlk = 0 := hblk
    rw [← hblk']
    simp
  | succ b ih =>
    intro fuel k σ hσ hq hblk hb hf
    obtain ⟨fuel, rfl⟩ : ∃ f, fuel = f + 1 := ⟨fuel - 1, by omega⟩
    have hpos : 0 < k.gPseudoClockBlk.toInt := by
      rw [hblk, ofNat_toInt_pos hb]
      exact Nat.succ_pos b
    let k₁ : Kernel n := { k with
      mem := update k.mem M.gPcTimerS (k.gPseudoClockBlk + k.mem M.gPcTimerS)
      gPseudoClockBlk := k.gPseudoClockBlk - 1 }
    have hpred : k₁.gPseudoClockBlk = BitVec.ofNat 32 b := by
      show k.gPseudoClockBlk - 1 = _
      rw [hblk, BitVec.ofNat_add]
      exact BitVec.add_sub_cancel (BitVec.ofNat 32 b) 1
    let σ₁ : Snap n := ⟨{ σ.core with mem := k₁.mem }, σ.view, σ.asl, σ.free, σ.owned⟩
    have hσ₁ : σ₁.core = k₁.core := by
      show { σ.core with mem := k₁.mem } = _
      rw [hσ]
      rfl
    have hrest := @ih fuel k₁ σ₁ hσ₁ hq hpred (by omega) (by omega)
    have hwp : wp (tickLoop M (fuel + 1)) (fun _ k' => tickLoop M fuel k₁ = .ok () k')
        (fun _ _ => False) k := by
      simp only [tickLoop, wp_bind, wp_get, wp_ite, if_pos hpos, semop]
      rw [wp_of_ok (semopV_empty hσ ha hq), wp_modify, Kernel.put_of_nucleus M.nucleus_gPcTimerS]
      show wp (tickLoop M fuel) _ _ k₁
      rw [wp_of_ok hrest]
      exact hrest
    obtain ⟨_, k', hrun, hk'⟩ := wp_false hwp
    rw [hrest] at hk'
    injection hk' with _ hk'
    rw [hrun, ← hk']
    congr 1
    show { k₁ with mem := _, gPseudoClockBlk := _ } = _
    simp only [k₁, Function.update_idem, Function.update_self]
    rw [hblk, Finset.sum_range_succ _ (b + 1), BitVec.ofNat_add (x := _) (y := b + 1)]
    congr 2
    ac_rfl

/-! ### The round that wakes everybody up -/

theorem asked_ones (hreq : ∀ q ∈ σ.waiting a, k.resRequested q = 1) {i : ℕ}
    (hi : i ≤ (σ.waiting a).length) : k.asked σ a i = i := by
  rw [Kernel.asked]
  have hones : ((σ.waiting a).take i).map (fun q => (k.resRequested q).toNat) =
      List.replicate i 1 := by
    refine List.eq_replicate_iff.mpr ⟨by simp [hi], ?_⟩
    intro x hx
    obtain ⟨q, hq, rfl⟩ := List.mem_map.mp hx
    rw [hreq q (List.mem_of_mem_take hq)]
    rfl
  rw [hones]
  simp

theorem Served.all {dev : Bool} {j : ℕ} (h : Served M dev a w j k k' σ σ')
    (hreq : ∀ q ∈ σ.waiting a, k.resRequested q = 1) (hv : k.mem a = 0)
    (hw : w.toNat = (σ.waiting a).length) :
    j = (σ.waiting a).length ∧ k'.mem a = 0 := by
  have hzero : (k.mem a).toNat = 0 := by rw [hv]; rfl
  have hmem : (σ.waiting a).length ∈ k.Affordable σ a ((k.mem a).toNat + w.toNat) := by
    refine ⟨le_rfl, ?_⟩
    intro i hi
    rw [asked_ones hreq hi]
    omega
  have hj : j = (σ.waiting a).length := Nat.le_antisymm h.most.1.1 (h.most.2 hmem)
  refine ⟨hj, ?_⟩
  have hvalue := h.value
  rw [hj, asked_ones hreq le_rfl] at hvalue
  apply BitVec.eq_of_toNat_eq
  show (k'.mem a).toNat = 0
  omega

/-- **The loop of the tick.**  `n` waiters are woken up in order, and leave the sum
of the numbers below `n` on the semaphore. -/
theorem wp_tickLoop_all {Q : Unit → Kernel n → Prop} {E : Stop → Kernel n → Prop} {fuel : ℕ}
    (hn : n ≤ maxProc) (hσ : σ.core = k.core) (ha : M.kernelData M.gPcTimerS = false)
    (hw : k.ClockWaits M σ) (hv : k.mem M.gPcTimerS = 0)
    (hfuel : (σ.waiting M.gPcTimerS).length < fuel)
    (hQ : ∀ k' σ', AllWoken M (BitVec.ofNat 32 (∑ i ∈ Finset.range (σ.waiting M.gPcTimerS).length, i))
      k k' σ σ' → Q () k') :
    wp (tickLoop M fuel) Q E k := by
  have hlen : (σ.waiting M.gPcTimerS).length ≤ maxProc := (length_list_le σ.view _).trans hn
  have hlt : (σ.waiting M.gPcTimerS).length < 2 ^ 31 := hlen.trans_lt (by decide)
  have hpos : 0 < k.gPseudoClockBlk.toInt ↔ 0 < (σ.waiting M.gPcTimerS).length := by
    rw [hw.blk, ofNat_toInt_pos hlt]
  obtain ⟨fuel, rfl⟩ : ∃ f, fuel = f + 1 := ⟨fuel - 1, by omega⟩
  simp only [tickLoop, wp_bind, wp_get, wp_ite]
  cases hl : σ.waiting M.gPcTimerS with
  | nil =>
    have hnot : ¬ 0 < k.gPseudoClockBlk.toInt := by
      rw [hpos, hl]
      simp
    have hblk := hw.blk
    rw [hl] at hblk hQ
    rw [if_neg hnot, wp_pure]
    refine hQ k σ ⟨hσ, ?_, hl, hblk, ?_, hv, fun _ _ => rfl, fun _ _ => rfl, ?_, rfl⟩
    · rw [hl, List.append_nil]
    · simp [hl]
    · simp [hl]
  | cons q qs =>
    have hyes : 0 < k.gPseudoClockBlk.toInt := by
      rw [hpos, hl]
      simp
    have hweight : k.gPseudoClockBlk.toNat = (σ.waiting M.gPcTimerS).length := by
      rw [hw.blk, BitVec.toNat_ofNat, Nat.mod_eq_of_lt (by omega)]
    rw [if_pos hyes, semop, if_pos hyes]
    refine wp_semopV hσ ha (fun k₁ σ₁ hσ₁ hb h₁ => ?_)
    have hserved := h₁.served hσ hσ₁ hb (by rw [hv, hweight]; simp; omega)
    obtain ⟨hj, hzero⟩ := hserved.all hw.requests hv hweight
    rw [hj] at hserved
    have hempty : σ₁.waiting M.gPcTimerS = [] := by
      rw [hserved.waiting, List.drop_length]
    rw [wp_modify]
    let k₂ : Kernel n := { k₁ with gPseudoClockBlk := k₁.gPseudoClockBlk - 1 }
    have hlen' : (σ.waiting M.gPcTimerS).length = qs.length + 1 := by
      rw [hl, List.length_cons]
    have hblk₂ : k₂.gPseudoClockBlk = BitVec.ofNat 32 qs.length := by
      show k₁.gPseudoClockBlk - 1 = _
      rw [hb.gPseudoClockBlk, hw.blk, hlen', BitVec.ofNat_add]
      exact BitVec.add_sub_cancel (BitVec.ofNat 32 qs.length) 1
    have hσ₂ : σ₁.core = k₂.core := hσ₁
    have hrest := tickLoop_empty ha hσ₂ hempty hblk₂ (by omega) (show qs.length < fuel by omega)
    rw [wp_of_ok hrest]
    let left : Word := k₂.mem M.gPcTimerS + BitVec.ofNat 32 (∑ i ∈ Finset.range (qs.length + 1), i)
    have hleft : left = BitVec.ofNat 32 (∑ i ∈ Finset.range (σ.waiting M.gPcTimerS).length, i) := by
      show k₁.mem M.gPcTimerS + _ = _
      rw [hzero, hlen']
      exact BitVec.zero_add _
    have hmem : ∀ b, b ≠ M.gPcTimerS → update k₁.mem M.gPcTimerS left b = k.mem b := by
      intro b hb
      rw [Function.update_of_ne hb, hserved.mem b hb]
    refine hQ _ ⟨{ σ₁.core with mem := update k₁.mem M.gPcTimerS left }, σ₁.view, σ₁.asl, σ₁.free,
      σ₁.owned⟩ ⟨?_, ?_, hempty, rfl, ?_, ?_, hserved.others, hmem, ?_, hserved.current⟩
    · exact congrArg (fun c : Core n => { c with mem := update k₁.mem M.gPcTimerS left }) hσ₁
    · rw [hserved.ready, List.take_length]
    · show k₁.gSoftBlockCount = _
      rw [hserved.soft, M.isDev_gPcTimerS, if_pos rfl]
    · rw [← hleft]
      exact Function.update_self ..
    · intro r
      show k₁.resRequested r = _
      rw [hserved.requests, List.take_length]

/-! ### The tick -/

theorem wp_pseudoClock_expired {Q : Unit → Kernel n → Prop} {E : Stop → Kernel n → Prop}
    (hn : n ≤ maxProc) (hσ : σ.core = k.core) (ha : M.kernelData M.gPcTimerS = false)
    (hexp : k.Expired M) (hw : k.ClockWaits M σ) (hv : k.mem M.gPcTimerS = 0)
    (hQ : ∀ k' σ', AllWoken M (BitVec.ofNat 32 (∑ i ∈ Finset.range (σ.waiting M.gPcTimerS).length, i))
      k k' σ σ' → Q () k') :
    wp (pseudoClock M) Q E k := by
  have hlen : (σ.waiting M.gPcTimerS).length < 2 ^ 32 :=
    ((length_list_le σ.view _).trans hn).trans_lt (by decide)
  rw [pseudoClock, getTODLO]
  simp only [wp_bind, wp_get, wp_set, wp_pure, wp_ite]
  rw [if_pos (show _ ∨ _ from hexp), wp_modify]
  refine wp_tickLoop_all (σ := σ) hn hσ ha ⟨hw.blk, hw.requests⟩ hv ?_ (fun k' σ' h => ?_)
  · rw [hw.blk, BitVec.toNat_ofNat, Nat.mod_eq_of_lt hlen]
    exact Nat.lt_succ_self _
  · exact hQ k' σ' ⟨h.core, h.ready, h.waiting, h.blk, h.soft, h.value, h.others, h.mem, h.requests,
      h.current⟩

theorem nextBlocks {k : Kernel maxProc} {σ : Snap maxProc} (ha : M.kernelData M.gPcTimerS = false)
    (hv : k.mem M.gPcTimerS = 0) : NextBlocks M k σ := by
  intro k₁ σ₁ p hσ₁ hall hmem hwait hp hheld
  have hright : SemopRight M k₁ σ₁ M.gPcTimerS (-1) := by
    rw [semopRight_iff hσ₁ hall ha (by rw [hmem, hv]; decide)]
    exact fun hw => absurd hw (by decide)
  have hblocks : k₁.Blocks σ₁ M.gPcTimerS (-1) := by
    right
    rw [hmem, hv]
    decide
  obtain ⟨k₂, σ₂, hrun, hst⟩ := hright.block (by decide) p hp hheld hblocks
  have hwp : wp (waitClock M) (fun _ k' => k' = { k₂ with gPseudoClockBlk := k₂.gPseudoClockBlk + 1 })
      (fun _ _ => False) k₁ := by
    rw [waitClock, wp_bind, wp_of_ok hrun, wp_modify]
  obtain ⟨_, _, hclock, rfl⟩ := wp_false hwp
  exact ⟨_, σ₂, hclock, hst.core, hst.waiting, hst.idle⟩

/-- The numbers below `n` add up to 0 for at most one of them. -/
theorem ofNat_sum_range_eq_zero {m : ℕ} (hm : m ≤ maxProc) :
    BitVec.ofNat 32 (∑ i ∈ Finset.range m, i) = 0 ↔ m ≤ 1 := by
  have hall : ∀ m ≤ 20, BitVec.ofNat 32 (∑ i ∈ Finset.range m, i) = 0 ↔ m ≤ 1 := by decide
  exact hall m hm

/-- **A tick is right for at most one waiter.**  With the counter in step with the
queue and an empty semaphore, the loop ends and wakes everybody up; it leaves the
semaphore empty, so that the next WAITCLOCK blocks, if and only if at most one
process was waiting. -/
theorem tickRight_iff {k : Kernel maxProc} {σ : Snap maxProc} (hσ : σ.core = k.core)
    (ha : M.kernelData M.gPcTimerS = false) (hexp : k.Expired M) (hw : k.ClockWaits M σ)
    (hv : k.mem M.gPcTimerS = 0) :
    TickRight M k σ ↔ (σ.waiting M.gPcTimerS).length ≤ 1 := by
  have hlen : (σ.waiting M.gPcTimerS).length ≤ maxProc := length_list_le σ.view _
  obtain ⟨_, k', hrun, σ', h⟩ := wp_false (x := pseudoClock M) (s := k)
    (Q := fun _ k' => ∃ σ', AllWoken M
      (BitVec.ofNat 32 (∑ i ∈ Finset.range (σ.waiting M.gPcTimerS).length, i)) k k' σ σ')
    (wp_pseudoClock_expired le_rfl hσ ha hexp hw hv (fun k' σ' h => ⟨σ', h⟩))
  rw [← ofNat_sum_range_eq_zero hlen]
  constructor
  · rintro ⟨k₁, σ₁, hrun₁, h₁, -⟩
    rw [hrun] at hrun₁
    injection hrun₁ with _ hk
    rw [← h.value, hk]
    exact h₁.value
  · intro hzero
    rw [hzero] at h
    exact ⟨k', σ', hrun, h, nextBlocks ha h.value⟩

/-- The first process waits for the clock. -/
theorem tickRight_one : ∃ (k : Kernel maxProc) (σ : Snap maxProc),
    σ.waiting uarm.gPcTimerS = [proc0] ∧ TickRight uarm k σ := by
  obtain ⟨c, L, hreach, hc⟩ := reaches_calm (List.replicate 7 (sys 11 0 0 0) ++ [sys 9 0 0 0])
    (fun c => c.k.aslh == some ⟨0, by decide⟩ && c.k.sSemAdd ⟨0, by decide⟩ == uarm.gPcTimerS &&
      c.k.sProcq ⟨0, by decide⟩ == some proc0 && c.k.pList proc0 == some proc0 &&
      c.k.resRequested proc0 == 1 && c.k.gPseudoClockBlk == 1 && c.k.mem uarm.gPcTimerS == 0 &&
      decide (c.k.Expired uarm))
    (by decide +kernel)
  simp only [Bool.and_eq_true, beq_iff_eq, decide_eq_true_eq] at hc
  obtain ⟨⟨⟨⟨⟨⟨⟨hasl, hadd⟩, htail⟩, hnext⟩, hreq⟩, hblk⟩, hv⟩, hexp⟩ := hc
  obtain ⟨σ, hb, -⟩ := hreach.complete layout_uarm
  have hwait : σ.waiting uarm.gPcTimerS = [proc0] := by
    rw [← hadd]
    exact Snap.waiting_eq hb.core hasl (queue_singleton htail hnext)
  refine ⟨c.k, σ, hwait, ?_⟩
  refine (tickRight_iff hb.core (by decide) hexp ⟨?_, ?_⟩ hv).mpr ?_
  · rw [hwait, hblk]
    rfl
  · rw [hwait]
    simpa using hreq
  · rw [hwait]
    exact le_rfl

/-- Two processes wait for the clock, until it expires. -/
def twoClockWaiters : List Event :=
  [sys 1 0 0 0, timerInterrupt, sys 9 0 0 0, sys 11 0 0 0, sys 9 0 0 0]

/-- A tick with two waiters leaves a unit on the semaphore. -/
theorem not_tickRight : ¬ ∀ (M : Machine) (k : Kernel maxProc) (σ : Snap maxProc),
    σ.core = k.core → M.kernelData M.gPcTimerS = false → k.Expired M → k.ClockWaits M σ →
      k.mem M.gPcTimerS = 0 → TickRight M k σ := by
  intro hall
  let child : Fin maxProc := ⟨1, by decide⟩
  obtain ⟨c, L, hreach, hc⟩ := reaches_calm twoClockWaiters
    (fun c => c.k.aslh == some ⟨0, by decide⟩ && c.k.sSemAdd ⟨0, by decide⟩ == uarm.gPcTimerS &&
      c.k.sProcq ⟨0, by decide⟩ == some proc0 && c.k.pList proc0 == some child &&
      c.k.pList child == some proc0 && c.k.resRequested proc0 == 1 &&
      c.k.resRequested child == 1 && c.k.gPseudoClockBlk == 2 && c.k.mem uarm.gPcTimerS == 0 &&
      decide (c.k.Expired uarm))
    (by decide +kernel)
  simp only [Bool.and_eq_true, beq_iff_eq, decide_eq_true_eq] at hc
  obtain ⟨⟨⟨⟨⟨⟨⟨⟨⟨hasl, hadd⟩, htail⟩, hnext⟩, hnext'⟩, hreq⟩, hreq'⟩, hblk⟩, hv⟩, hexp⟩ := hc
  obtain ⟨σ, hb, -⟩ := hreach.complete layout_uarm
  have hwait : σ.waiting uarm.gPcTimerS = [child, proc0] := by
    rw [← hadd]
    exact Snap.waiting_eq hb.core hasl (queue_pair htail hnext hnext' (by decide))
  have hclock : c.k.ClockWaits uarm σ := by
    refine ⟨?_, ?_⟩
    · rw [hwait, hblk]
      rfl
    · rw [hwait]
      simpa using ⟨hreq', hreq⟩
  have hright := hall uarm c.k σ hb.core (by decide) hexp hclock hv
  rw [tickRight_iff hb.core (by decide) hexp hclock hv, hwait] at hright
  exact absurd hright (by decide)

end JaeOS
