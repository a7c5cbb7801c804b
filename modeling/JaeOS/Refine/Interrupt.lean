import JaeOS.Refine.Task
import Mathlib.Data.List.Find

/-!
# Interrupts

The interval timer and the devices, as tasks: a tick is a series of `V`s on the
pseudo-clock and perhaps a preemption, a device interrupt is a `V` of weight one
on the semaphore of its completion.
-/

namespace JaeOS

open Function (update)

variable {n : ℕ} {M : Machine} {k k' : Kernel n} {σ σ' : Snap n} {p : Fin n} {a st : Word}
  {Q : Unit → Kernel n → Prop} {E : Stop → Kernel n → Prop}

/-! ### The search for the device -/

theorem and_one_eq_one (x : Word) : x &&& 1 = 1 ↔ x.getLsbD 0 = true := by
  constructor
  · intro h
    have := congrArg (fun y : Word => y.getLsbD 0) h
    simpa using this
  · intro h
    apply BitVec.eq_of_getLsbD_eq
    intro i hi
    cases i with
    | zero => simpa using h
    | succ i => simp [BitVec.getLsbD_one]

/-- **The search stops at the first bit of the bitmap**, which it has shifted to
the end. -/
theorem wp_findDevice {Q : Option Word → Kernel n → Prop} {b : Word} :
    ∀ {left : ℕ} {k : Kernel n}, left ≤ 8 →
      (∀ i, (List.range left).find? (fun i => (k.reg b).getLsbD i) = some i →
        Q (some (BitVec.ofNat 32 (8 - left + i)))
          { k with reg := update k.reg b ((k.reg b).sshiftRight i) }) →
      ((List.range left).find? (fun i => (k.reg b).getLsbD i) = none →
        ∀ r, Q none { k with reg := r }) →
      wp (findDevice M b left) Q E k := by
  intro left
  induction left with
  | zero => exact fun {k} _ _ hnone => hnone rfl k.reg
  | succ left ih =>
    intro k hleft hsome hnone
    have hdev : ∀ m ≤ 8, nDevPerIl - BitVec.ofNat 32 m = BitVec.ofNat 32 (8 - m) := by decide
    have hfind : (List.range (left + 1)).find? (fun i => (k.reg b).getLsbD i) =
        if (k.reg b).getLsbD 0 then some 0
        else ((List.range left).find? fun i => ((k.reg b).sshiftRight 1).getLsbD i).map (· + 1) := by
      rw [List.range_succ_eq_map, List.find?_cons, List.find?_map]
      have hshift : ∀ i ∈ List.range left,
          ((fun i => (k.reg b).getLsbD i) ∘ Nat.succ) i = ((k.reg b).sshiftRight 1).getLsbD i := by
        intro i hi
        rw [List.mem_range] at hi
        rw [BitVec.getLsbD_sshiftRight, if_pos (by omega), Function.comp_apply, Nat.succ_eq_add_one,
          Nat.add_comm]
        simp only [Bool.eq_and_self, Bool.not_eq_true', decide_eq_false_iff_not]
        intro _
        omega
      rw [List.find?_congr hshift]
      cases (k.reg b).getLsbD 0 <;> rfl
    simp only [findDevice, wp_bind, wp_get, wp_ite, and_one_eq_one, wp_pure, wp_modify]
    rw [hfind] at hsome hnone
    by_cases h0 : (k.reg b).getLsbD 0 = true
    · rw [if_pos h0] at hsome ⊢
      have := hsome 0 rfl
      rw [BitVec.sshiftRight_zero, Function.update_eq_self] at this
      rw [hdev _ hleft]
      exact this
    · rw [if_neg h0] at hsome hnone ⊢
      refine ih (by omega) (fun i hi => ?_) (fun hi r => ?_)
      · simp only [Function.update_self, Function.update_idem, ← BitVec.sshiftRight_add] at hi ⊢
        have := hsome (i + 1) (by rw [hi]; rfl)
        rw [Nat.add_comm 1 i, show 8 - left + i = 8 - (left + 1) + (i + 1) by omega]
        exact this
      · simp only [Function.update_self] at hi
        exact hnone (by rw [hi]; rfl) r

/-! ### The registers -/

theorem pendingLine_device {cause line : Word} (h : M.pendingLine cause = some line)
    (htimer : line ≠ ilTimer) : devIlStart ≤ line ∧ line ≤ ilTerminal := by
  rw [Machine.pendingLine] at h
  split_ifs at h
  · exact absurd (Option.some.inj h).symm htimer
  all_goals
    obtain rfl := Option.some.inj h
    decide

theorem lt_of_pendingDevice {bits : Word} {i : ℕ} (h : pendingDevice bits = some i) : i < 8 :=
  List.mem_range.mp (List.mem_of_find?_eq_some h)

theorem Machine.isReg_devRegAddr {line off : Word} {i : ℕ}
    (hline : devIlStart ≤ line ∧ line ≤ ilTerminal) (hi : i < 8)
    (hoff : [0, 4, 8, 12].contains off = true) :
    M.isReg (M.devRegAddr line (BitVec.ofNat 32 i) + off) = true := by
  have hlo : 3 ≤ line.toNat := hline.1
  have hhi : line.toNat ≤ 7 := hline.2
  have heq : devIlStart + BitVec.ofNat 32 (line.toNat - 3) = line := by
    rw [devIlStart]
    bv_omega
  rw [Machine.isReg, List.any_eq_true]
  refine ⟨line.toNat - 3, List.mem_range.mpr ?_, ?_⟩
  · change line.toNat - 3 < 5
    omega
  · rw [heq, Bool.or_eq_true, List.any_eq_true]
    refine .inr ⟨i, List.mem_range.mpr hi, ?_⟩
    rw [BitVec.add_comm, BitVec.add_sub_cancel]
    exact hoff

theorem Machine.isReg_of_report {line : Word} {i : ℕ} {reg : Word → Word} {c : Completion}
    (hline : devIlStart ≤ line ∧ line ≤ ilTerminal) (hi : i < 8)
    (hc : M.report reg line (BitVec.ofNat 32 i) = some c) : M.isReg c.ack = true := by
  rw [Machine.report] at hc
  split_ifs at hc
  all_goals
    obtain rfl := Option.some.inj hc
    exact Machine.isReg_devRegAddr hline hi (by decide)

/-! ### The acknowledgement -/

theorem wp_writeReg {x : Word} (ha : M.kernelData a = false) (hreg : M.isReg a = true) :
    wp (writeReg M a x) Q E k ↔ Q () { k with reg := M.devWrite k.reg a x } := by
  rw [writeReg, if_pos hreg, if_neg (by simp [ha])]
  exact Iff.rfl

/-- A device number that no device has is good for a word of memory. -/
theorem wp_writeReg_word {x : Word} (ha : M.kernelData a = false) (hreg : M.isReg a ≠ true) :
    wp (writeReg M a x) Q E k ↔ Q () { k with mem := update k.mem a x } := by
  rw [writeReg, if_neg hreg, wp_writeWord ha]

/-- **The acknowledgement finds the completion of the device.** -/
theorem wp_ackDevice {Q : Word × Option Word → Kernel n → Prop} {line dev : Word} {c : Completion}
    (hc : M.report k.reg line dev = some c) (hack : M.kernelData c.ack = false)
    (hreg : M.isReg c.ack = true)
    (hQ : ∀ row k', M.devSem row dev = c.sem → k'.core = k.core → k'.pcb = k.pcb →
      Q (row, some c.status) k') : wp (ackDevice M line dev) Q E k := by
  rw [Machine.report] at hc
  rw [ackDevice, wp_ite]
  split_ifs at hc ⊢ with hterm hrecv htransm
  · obtain rfl := Option.some.inj hc
    simp only [wp_bind, wp_get, wp_ite, if_pos hrecv, wp_writeReg hack hreg, wp_pure]
    exact hQ _ _ rfl rfl rfl
  · obtain rfl := Option.some.inj hc
    simp only [wp_bind, wp_get, wp_ite, if_neg hrecv, if_pos htransm, wp_writeReg hack hreg, wp_pure]
    exact hQ _ _ rfl rfl rfl
  · obtain rfl := Option.some.inj hc
    simp only [wp_bind, wp_get, wp_writeReg hack hreg, wp_pure]
    exact hQ _ _ rfl rfl rfl

/-! ### The `V` of a device -/

theorem View.wake_list_sem (v : View n) (ps : List (Fin n)) {xs : List (Fin n)}
    (h : v.list (.sem a) = ps ++ xs) : (v.wake ps).list (.sem a) = xs := by
  have hnd := v.nodup (.sem a)
  rw [h] at hnd
  rw [View.wake_list v ps (by simp), h, List.filter_append]
  have hps : ps.filter (· ∉ ps) = [] := by simp
  have hxs : xs.filter (· ∉ ps) = xs :=
    List.filter_eq_self.mpr
      (fun x hx => by simpa using fun hm => List.disjoint_of_nodup_append hnd hm hx)
  rw [hps, hxs, List.nil_append]

theorem Signal.waiting {w : Word} (h : Signal M a w σ σ') : σ'.waiting a = (σ.service a w).rest := by
  rw [Snap.waiting, h.view]
  exact View.wake_list_sem _ _
    (serve_append σ.core.resRequested (w + σ.core.mem a) (σ.waiting a)).symm

/-- **The `V` of a device**, and the status word for the process it wakes up. -/
theorem wp_signalDevice (hσ : σ.core = k.core) (hc : Consistent σ) (ha : M.kernelData a = false)
    (hQ : ∀ k', Done M (.device a st) σ k' → Q () k') :
    wp (signalDevice M a (some st)) Q E k := by
  have h := Snap.owned_of_core hσ
  have hmem : σ.core.mem = k.mem := by rw [hσ]; rfl
  simp only [signalDevice, wp_bind, wp_liftQ, h.run_headBlocked a, wp_readInt ha, wp_ite]
  by_cases hv : (k.mem a).toInt < 1
  · rw [if_pos hv, semop, if_pos (by decide)]
    refine wp_semopV hσ ha (fun k₁ σ₁ hσ₁ hb h₁ => ?_)
    have happ := serve_append σ.core.resRequested (1 + σ.core.mem a) (σ.waiting a)
    have hrest : σ₁.view.list (.sem a) = (σ.service a 1).rest := h₁.waiting
    have hnd : (σ.waiting a).Nodup := σ.view.nodup _
    have hdone : Does M (.device a st) σ σ₁ := .device (by rw [hmem]; exact hv) h₁
    change (σ.service a 1).woken ++ (σ.service a 1).rest = σ.waiting a at happ
    have hhead : σ.view.list (.sem a) = (σ.service a 1).woken ++ (σ.service a 1).rest := happ.symm
    simp only [(Snap.owned_of_core hσ₁).run_headBlocked a, hrest, hhead]
    rw [← happ] at hnd
    cases hw : (σ.service a 1).woken with
    | nil =>
      rw [hw] at happ
      simp only [List.nil_append, ne_eq, not_true_eq_false, if_false, wp_pure]
      refine hQ _ ⟨σ₁, hσ₁, h₁.consistent hc, hdone, fun b s p ht hp hpl => ?_⟩
      obtain ⟨rfl, rfl⟩ := Task.device.inj ht
      rw [← happ, List.nil_append, ← hrest] at hp
      exact absurd ((σ₁.view.mem _ p).mp (List.mem_of_mem_head? hp)) hpl
    | cons x xs =>
      rw [hw] at happ hnd
      have hne : (x :: xs ++ (σ.service a 1).rest).head? ≠ (σ.service a 1).rest.head? := by
        rw [List.cons_append, List.head?_cons]
        intro heq
        exact (List.nodup_cons.mp hnd).1 (List.mem_append_right _ (List.mem_of_mem_head? heq.symm))
      rw [if_pos hne]
      simp only [List.cons_append, List.head?_cons, wp_modify]
      refine hQ _ ⟨σ₁, hσ₁, h₁.consistent hc, hdone, fun b s p ht hp hpl => ?_⟩
      obtain ⟨rfl, rfl⟩ := Task.device.inj ht
      rw [← happ] at hp
      obtain rfl : x = p := Option.some.inj hp
      rw [setPcb_pcb_self]
  · rw [if_neg hv, wp_pure]
    simp only [h.run_headBlocked a, ne_eq, not_true_eq_false, if_false, wp_pure]
    refine hQ _ ⟨σ, hσ, hc, .busy (by rw [hmem]; exact hv), fun b s p ht hp hpl => ?_⟩
    obtain ⟨rfl, rfl⟩ := Task.device.inj ht
    exact absurd ((σ.view.mem _ p).mp (List.mem_of_mem_head? hp)) hpl

theorem wp_handleDevices_signal {line : Word} {c : Completion}
    (hline : devIlStart ≤ line ∧ line ≤ ilTerminal)
    (hcompl : M.completion k.reg line = some c) (hack : M.kernelData c.ack = false)
    (hQ : ∀ k₁, k₁.core = k.core → wp (signalDevice M c.sem (some c.status)) Q E k₁) :
    wp (handleDevices M line) Q E k := by
  obtain ⟨i, hi, hreport⟩ := Option.bind_eq_some_iff.mp hcompl
  rw [handleDevices, wp_bind]
  refine wp_findDevice le_rfl (fun j hj => ?_) (fun hnone => ?_)
  · obtain rfl : i = j := Option.some.inj (hi.symm.trans hj)
    simp only [wp_bind, Nat.zero_add, show 8 - nDevPerIl.toNat = 0 from rfl]
    have hreg := Machine.isReg_of_report hline (lt_of_pendingDevice hi) hreport
    refine wp_ackDevice hreport hack hreg (fun row k₁ hrow hcore hpcb => ?_)
    rw [hrow]
    exact hQ k₁ hcore
  · cases hi.symm.trans hnone

/-- **`handleDevices`** is a `V` on the semaphore of the completion. -/
theorem wp_handleDevices {line : Word} {c : Completion} (hσ : σ.core = k.core) (hc : Consistent σ)
    (hline : devIlStart ≤ line ∧ line ≤ ilTerminal)
    (hcompl : M.completion k.reg line = some c) (hack : M.kernelData c.ack = false)
    (hsem : M.kernelData c.sem = false)
    (hQ : ∀ k', Done M (.device c.sem c.status) σ k' → Q () k') :
    wp (handleDevices M line) Q E k :=
  wp_handleDevices_signal hline hcompl hack
    (fun _ hcore => wp_signalDevice (hσ.trans hcore.symm) hc hsem hQ)

/-! ### The tick -/

theorem Signals.consistent (h : Signals M a σ σ') (hc : Consistent σ) : Consistent σ' := by
  induction h with
  | refl => exact hc
  | head _ h _ ih => exact ih (h.consistent hc)

theorem Signals.current (h : Signals M a σ σ') :
    σ'.core.gCurrentProcess = σ.core.gCurrentProcess := by
  induction h with
  | refl => rfl
  | head _ h _ ih => exact ih.trans h.current

/-- **The loop of the tick** is a series of `V`s on the pseudo-clock. -/
theorem wp_tickLoop (hL : Layout M) :
    ∀ {fuel : ℕ} {k : Kernel n} {σ : Snap n}, σ.core = k.core → k.gPseudoClockBlk.toNat < fuel →
      (∀ k' σ', σ'.core = k'.core → k'.nullSlice = k.nullSlice → k'.intold = k.intold →
        Signals M M.gPcTimerS σ σ' → Q () k') → wp (tickLoop M fuel) Q E k := by
  intro fuel
  induction fuel with
  | zero => exact fun _ h => absurd h (Nat.not_lt_zero _)
  | succ fuel ih =>
    intro k σ hσ hf hQ
    simp only [tickLoop, wp_bind, wp_get, wp_ite, wp_pure, wp_modify]
    by_cases hblk : 0 < k.gPseudoClockBlk.toInt
    · rw [if_pos hblk, semop, if_pos hblk]
      refine wp_semopV hσ hL.clock (fun k₁ σ₁ hσ₁ hb h₁ => ?_)
      refine ih (σ := σ₁) hσ₁ ?_ (fun k' σ' hσ' hnull hold hs => ?_)
      · show (k₁.gPseudoClockBlk - 1).toNat < fuel
        have hpos : 1 ≤ k.gPseudoClockBlk.toNat := by
          by_contra hlt
          have hzero : k.gPseudoClockBlk = 0 := BitVec.eq_of_toNat_eq (by simp; omega)
          rw [hzero] at hblk
          exact absurd hblk (by decide)
        have hle : (1 : Word) ≤ k.gPseudoClockBlk := hpos
        rw [hb.gPseudoClockBlk, BitVec.toNat_sub_of_le hle]
        show k.gPseudoClockBlk.toNat - 1 < fuel
        omega
      · exact hQ k' σ' hσ' (hnull.trans hb.nullSlice) (hold.trans hb.intold) (.head hblk h₁ hs)
    · rw [if_neg hblk]
      exact hQ k σ hσ rfl rfl (.refl σ)

theorem wp_pseudoClock (hL : Layout M) (hσ : σ.core = k.core)
    (hQ : ∀ k' σ', σ'.core = k'.core → k'.nullSlice = k.nullSlice → k'.intold = k.intold →
      Signals M M.gPcTimerS σ σ' → Q () k') : wp (pseudoClock M) Q E k := by
  rw [pseudoClock, wp_bind]
  refine wp_getTODLO (fun currentTime k₁ hcore hb => ?_)
  simp only [wp_bind, wp_get, wp_ite, wp_modify, wp_pure]
  have hσ₁ := hσ.trans hcore.symm
  split_ifs
  · exact wp_tickLoop hL (σ := σ) hσ₁ (Nat.lt_succ_self _)
      (fun k' σ' hσ' hnull hold => hQ k' σ' hσ' (hnull.trans hb.nullSlice) (hold.trans hb.intold))
  · exact hQ k₁ σ hσ₁ hb.nullSlice hb.intold (.refl σ)

/-- **The end of the time slice** preempts the current process. -/
theorem wp_timeSlice (hσ : σ.core = k.core) (hc : Consistent σ)
    (hnull : k.gCurrentProcess = none → k.nullSlice ≤ schedTimeSlice)
    (hgo : ∀ k', k'.core = k.core → k'.intold = k.intold → Q () k')
    (hstop : ∀ p k' σ', σ'.core = k'.core → Preempt p σ σ' → Q () k') :
    wp (timeSlice M) Q E k := by
  simp only [timeSlice, currentSlice, wp_bind, wp_get]
  cases hp : k.gCurrentProcess with
  | none =>
    have hslice : ¬ k.nullSlice > schedTimeSlice := BitVec.not_lt.mpr (hnull hp)
    simp only [wp_bind, wp_modify, wp_pure, if_neg hslice]
    exact hgo _ rfl rfl
  | some p =>
    simp only [wp_pure, wp_ite]
    split_ifs
    · rw [wp_bind]
      refine wp_getTODLO (fun t k₁ hc₁ hb₁ => ?_)
      rw [wp_bind]
      refine wp_onHandlerExit (fun k₂ hc₂ hb₂ => ?_)
      have hcore := hc₂.trans hc₁
      have hp₂ : k₂.gCurrentProcess = some p := (congrArg Core.gCurrentProcess hcore).trans hp
      have hσ₂ : σ.core = k₂.core := hσ.trans hcore.symm
      have h₂ := Snap.owned_of_core hσ₂
      have hheld : σ.view.place p = .held := (hc.current p).mpr (by rw [hσ₂]; exact hp₂)
      simp only [wp_bind, wp_get, hp₂, wp_liftQ, run_insertProcQ, wp_modify]
      refine hstop p _ ⟨_, _, σ.asl, σ.free, h₂.insertProcQ_ready hheld⟩ rfl ?_
      refine ⟨by rw [hσ₂]; exact hp₂, rfl, rfl, rfl, rfl, ?_, ?_, ?_, ?_, ?_, ?_⟩
      all_goals rw [hσ₂]
      · exact sameSemd_setProcQ
      all_goals rfl
    · exact hgo k rfl rfl

/-- **`handleTimer`** is a tick. -/
theorem wp_handleTimer (hL : Layout M) (hσ : σ.core = k.core) (hc : Consistent σ)
    (hnull : k.gCurrentProcess = none → k.nullSlice ≤ schedTimeSlice)
    (hQ : ∀ k', Done M .tick σ k' → (k'.gCurrentProcess ≠ none → k'.intold = k.intold) → Q () k') :
    wp (handleTimer M) Q E k := by
  rw [handleTimer, wp_bind]
  refine wp_pseudoClock hL hσ (fun k₁ σ₁ hσ₁ hnull₁ hold hs => ?_)
  have hc₁ := hs.consistent hc
  have hcur : k₁.gCurrentProcess = k.gCurrentProcess := by
    have := hs.current
    rw [hσ₁, hσ] at this
    exact this
  refine wp_timeSlice hσ₁ hc₁ (by rw [hcur, hnull₁]; exact hnull) (fun k' hk' hold' => ?_)
    (fun p k' σ' hσ' h => ?_)
  · exact hQ k' ⟨σ₁, hσ₁.trans hk'.symm, hc₁, .tick hs, fun _ _ _ ht => nomatch ht⟩
      (fun _ => hold'.trans hold)
  · refine hQ k' ⟨σ', hσ', h.consistent hc₁, .preempt hs h, fun _ _ _ ht => nomatch ht⟩ ?_
    intro hne
    have hidle := h.idle
    rw [hσ'] at hidle
    exact absurd hidle hne

/-! ### The handler -/

theorem dispatchInterrupt_eq (cause : Word) : (dispatchInterrupt M cause : K n Unit) =
    match M.pendingLine cause with
    | none => pure ()
    | some line => if line = ilTimer then handleTimer M else handleDevices M line := by
  rw [dispatchInterrupt, Machine.pendingLine]
  split_ifs <;> rfl

theorem wp_dispatchInterrupt {old : ProcState} {cause : Word} (hL : Layout M) (hσ : σ.core = k.core)
    (hc : Consistent σ) (hok : k.Admits M (.interrupt old cause))
    (hQ : ∀ k', Done M (k.task M (.interrupt old cause)) σ k' → Q () k') :
    wp (dispatchInterrupt M cause) Q E k := by
  obtain ⟨⟨houtside, hgenuine⟩, hidle, -⟩ := hok
  replace hgenuine := hgenuine rfl
  rw [dispatchInterrupt_eq]
  rw [Kernel.task, Machine.interruptTask] at hgenuine hidle hQ
  rw [Kernel.addresses] at houtside
  cases hline : M.pendingLine cause with
  | none =>
    simp only [hline] at hQ
    exact hQ k ⟨σ, hσ, hc, .nothing, fun _ _ _ ht => nomatch ht⟩
  | some line =>
    simp only [hline, Option.bind_some] at hgenuine hidle hQ houtside
    by_cases htimer : line = ilTimer
    · simp only [if_pos htimer] at hidle hQ ⊢
      exact wp_handleTimer hL hσ hc (hidle trivial) (fun k' h _ => hQ k' h)
    · simp only [if_neg htimer] at hgenuine hQ ⊢
      cases hcompl : M.completion k.reg line with
      | none => simp [hcompl] at hgenuine
      | some c =>
        simp only [hcompl, Option.elim_some] at hQ houtside
        exact wp_handleDevices hσ hc (pendingLine_device hline htimer) hcompl (houtside _ (by simp))
          (houtside _ (by simp)) hQ

theorem interrupt_congr {e : Entry} (he : e.isInterrupt = true) (hreg : k'.reg = k.reg)
    (hnull : k'.nullSlice = k.nullSlice) (hcore : k'.core = k.core) (hok : k.Admits M e) :
    k'.Admits M e ∧ k'.task M e = k.task M e := by
  cases e with
  | interrupt old cause =>
    obtain ⟨⟨houtside, hgenuine⟩, hidle, -⟩ := hok
    have hcur : k'.gCurrentProcess = k.gCurrentProcess := congrArg Core.gCurrentProcess hcore
    have htask : k'.task M (.interrupt old cause) = k.task M (.interrupt old cause) := by
      rw [Kernel.task, Kernel.task, hreg]
    refine ⟨⟨⟨?_, by rwa [htask]⟩, ?_, fun root ht => ?_⟩, htask⟩
    · rw [Kernel.addresses, hreg]
      exact houtside
    · rw [htask, hcur, hnull]
      exact hidle
    · rw [Kernel.task, Machine.interruptTask] at ht
      split at ht
      · exact nomatch ht
      · split_ifs at ht
        split at ht <;> exact nomatch ht
  | _ => exact nomatch he

/-- **The interrupt handler** does its task and leaves. -/
theorem wp_interruptExceptionHandler {old : ProcState} {cause : Word} (hL : Layout M)
    (hσ : σ.core = k.core) (hc : Consistent σ) (hok : k.Admits M (.interrupt old cause)) :
    wp (interruptExceptionHandler M cause) Q
      (Ended M (k.task M (.interrupt old cause)) σ) k := by
  rw [interruptExceptionHandler, wp_bind, wp_modify, ← bind_assoc, wp_bind]
  refine wp_enter (fun k₁ hc₁ hb₁ => ?_)
  rw [wp_bind, wp_modify, wp_bind]
  have hcore : ∀ k₂ : Kernel n, k₂.core = k.core → k₂.reg = k.reg → k₂.nullSlice = k.nullSlice →
      wp (dispatchInterrupt M cause) (fun _ => Done M (k.task M (.interrupt old cause)) σ)
        (fun _ _ => False) k₂ := by
    intro k₂ hk₂ hreg hnull
    obtain ⟨hok₂, htask⟩ := interrupt_congr rfl hreg hnull hk₂ hok
    rw [← htask]
    exact wp_dispatchInterrupt hL (hσ.trans hk₂.symm) hc hok₂ (fun _ h => h)
  refine wp_mono (hcore _ ?_ ?_ ?_) (fun _ k₃ hd => ?_) (fun _ _ h => h.elim)
  · cases k₁.gCurrentProcess <;> exact hc₁
  · cases k₁.gCurrentProcess <;> exact hb₁.reg
  · cases k₁.gCurrentProcess <;> exact hb₁.nullSlice
  rw [← bind_assoc, wp_bind]
  refine wp_exit (fun k₄ hc₄ hb₄ => ?_)
  have hd₄ := hd.beside hc₄ hb₄
  rw [wp_bind, wp_get]
  cases hp : k₄.gCurrentProcess with
  | none => exact hd₄.scheduler hL hp
  | some p => exact hd₄.back hp

end JaeOS
