import JaeOS.Refine.Bystander
import JaeOS.Refine.Effect
import JaeOS.Properties.Tick

/-!
# The counter of the pseudo-clock

`g_pseudoClockBlk` is to count the processes that wait for the pseudo-clock.  WAITCLOCK
counts its caller without asking whether it has blocked, and `terminateProgeny` does not
count the waiters that die: the counter is right as long as WAITCLOCK blocks and no waiter
dies.
-/

namespace JaeOS

open Function (update)
open Forest (Progeny)

variable {n : ℕ} {M : Machine} {k k' : Kernel n} {σ σ' σ₁ : Snap n} {p q : Fin n} {e : Entry}
  {stop : Stop} {x : Word} {ys : List (Fin n)} {c : Config maxProc} {L : Set (Fin maxProc)}

/-! ### The property -/

/-- The entry is a tick of the pseudo-clock: the interval timer finds it expired. -/
def Kernel.Rings (k : Kernel n) (M : Machine) (e : Entry) : Prop :=
  e.Tick M ∧ (k.onEnter M).Expired M

/-- A tick releases the processes that wait for the pseudo-clock, and no others. -/
structure Released (M : Machine) (k k' : Kernel n) : Prop where
  all : ∀ q, ¬ k'.WaitsAt M.gPcTimerS q
  ready : ∀ q, k.WaitsAt M.gPcTimerS q →
    k'.gCurrentProcess = some q ∨ ∃ xs, k'.Queue .gReadyQueue xs ∧ q ∈ xs
  others : ∀ a, a ≠ M.gPcTimerS → ∀ q, k'.WaitsAt a q ↔ k.WaitsAt a q

/-- Nobody but WAITCLOCK and the interval timer names `g_pc_timer_s`. -/
def Kernel.ClockApart (k : Kernel n) (M : Machine) (e : Entry) : Prop :=
  (k.task M e).Names M M.gPcTimerS → e.Tick M ∨ e.Sys M waitClockNr

instance (k : Kernel n) (M : Machine) (e : Entry) : Decidable (k.ClockApart M e) :=
  inferInstanceAs (Decidable (_ → _ ∨ _))

/-- The entries that keep the counter right: WAITCLOCK finds no unit that an earlier tick has
left, no waiter dies, and nobody else names `g_pc_timer_s`. -/
structure Kernel.KeepsClock (k : Kernel n) (M : Machine) (e : Entry) : Prop
    extends k.KeepsDescriptors M e where
  empty : e.Sys M waitClockNr → k.mem M.gPcTimerS = 0
  spares : ∀ q, k.Dies M e q → ¬ k.WaitsAt M.gPcTimerS q
  apart : k.ClockApart M e

/-- The pseudo-clock in a state between two entries, and behind the next ones. -/
structure ClockRight (M : Machine) (c : Config maxProc) : Prop where
  counted : c.stop.Live → c.k.gPseudoClockBlk.toNat = {q | c.k.WaitsAt M.gPcTimerS q}.ncard
  tick : ∀ ev, CanTake c ev → (c.k.atEntry M ev).KeepsClock M ev.entry →
    (c.k.atEntry M ev).Rings M ev.entry → Released M (c.k.atEntry M ev) (step M c ev).k
  blocked : ∀ ev p, CanTake c ev → (c.k.atEntry M ev).KeepsClock M ev.entry →
    ev.entry.Sys M waitClockNr → c.k.gCurrentProcess = some p →
    ∀ cs c', Path M (fun k e => k.KeepsClock M e ∧ ¬ k.Rings M e) (step M c ev) cs c' →
      c'.k.WaitsAt M.gPcTimerS p

/-! ### The invariant -/

/-- The counter is in step with the queue, and the units an earlier tick has left are there
for the next WAITCLOCK only. -/
structure Clocked (M : Machine) (k : Kernel n) (σ : Snap n) : Prop extends k.ClockWaits M σ where
  value : k.mem M.gPcTimerS = 0 ∨ σ.waiting M.gPcTimerS = [] ∧ 0 < (k.mem M.gPcTimerS).toInt

theorem Clocked.sameAt (h : Clocked M k σ) (hσ : σ.core = k.core) (hσ' : σ'.core = k'.core)
    (hsame : σ.SameAt σ' M.gPcTimerS) (hblk : k'.gPseudoClockBlk = k.gPseudoClockBlk) :
    Clocked M k' σ' := by
  have hmem : k'.mem M.gPcTimerS = k.mem M.gPcTimerS := by
    have := hsame.value
    rw [hσ, hσ'] at this
    exact this
  refine ⟨⟨?_, ?_⟩, ?_⟩
  · rw [hsame.waiting, hblk]
    exact h.blk
  · intro q hq
    rw [hsame.waiting] at hq
    have hreq := hsame.requests q hq
    rw [hσ, hσ'] at hreq
    exact hreq.trans (h.requests q hq)
  · rw [hsame.waiting, hmem]
    exact h.value

theorem Clocked.snap (h : Clocked M k σ) (hσ : σ.core = k.core) (hσ' : σ'.core = k.core) :
    Clocked M k σ' := by
  have hperm : (σ'.waiting M.gPcTimerS).Perm (σ.waiting M.gPcTimerS) := Snap.waiting_perm hσ hσ'
  refine ⟨⟨?_, ?_⟩, ?_⟩
  · rw [hperm.length_eq]
    exact h.blk
  · intro q hq
    exact h.requests q (hperm.mem_iff.mp hq)
  · refine h.value.imp id (fun hv => ⟨?_, hv.2⟩)
    rw [hv.1] at hperm
    exact hperm.eq_nil

theorem Clocked.counted {k : Kernel maxProc} {σ : Snap maxProc} (h : Clocked M k σ)
    (hσ : σ.core = k.core) :
    k.gPseudoClockBlk.toNat = {q | k.WaitsAt M.gPcTimerS q}.ncard := by
  have hset : {q | k.WaitsAt M.gPcTimerS q} = ↑(σ.waiting M.gPcTimerS).toFinset := by
    ext q
    rw [Finset.mem_coe, List.mem_toFinset]
    exact (Snap.mem_waiting hσ).symm
  have hlen : (σ.waiting M.gPcTimerS).length ≤ maxProc := length_list_le σ.view _
  have hnd : (σ.waiting M.gPcTimerS).Nodup := σ.view.nodup _
  rw [hset, Set.ncard_coe_finset, List.toFinset_card_of_nodup hnd, h.blk, BitVec.toNat_ofNat]
  exact Nat.mod_eq_of_lt (hlen.trans_lt (by decide))

/-! ### The counter beside the lists -/

theorem walk_blk (x : Word) {E : Stop → Kernel n → Prop} (hE : ∀ s k', s.Plain → E s k') :
    Walk M Set.univ Set.univ (fun k' : Kernel n => k'.gPseudoClockBlk = x) E where
  rest h hr := (congrArg Rest.gPseudoClockBlk hr).trans h
  read h := h
  exit flag h := (beside_onExit flag).gPseudoClockBlk.trans h
  own h _ _ := h
  idle h := h
  stop _ hs := hE _ _ hs

theorem wp_scheduler_blk : wp (scheduler M) (fun _ _ => False)
    (fun s k' => s.Live → k'.gPseudoClockBlk = k.gPseudoClockBlk) k :=
  wp_mono wp_scheduler_schedules (fun _ _ h => h) (fun _ _ h hlive => (h.beside hlive).2.2)

/-! ### The tick -/

/-- The counter is in step with the queue, and `ys` wait. -/
def Clocks (M : Machine) (ys : List (Fin n)) (k : Kernel n) : Prop :=
  ∃ σ, σ.core = k.core ∧ Consistent σ ∧ Clocked M k σ ∧ σ.waiting M.gPcTimerS = ys

/-- The same when an entry has ended; a stop for good need not keep the counter. -/
def ClocksEnd (M : Machine) (ys : List (Fin n)) (s : Stop) (k : Kernel n) : Prop :=
  ∃ σ, σ.core = k.core ∧ σ.waiting M.gPcTimerS = ys ∧ (s.Live → Clocked M k σ)

theorem Clocks.congr (h : Clocks M ys k) (hc : k'.core = k.core)
    (hblk : k'.gPseudoClockBlk = k.gPseudoClockBlk) : Clocks M ys k' := by
  obtain ⟨σ, hσ, hcons, hw, hys⟩ := h
  have hσ' : σ.core = k'.core := hσ.trans hc.symm
  exact ⟨σ, hσ', hcons, hw.sameAt hσ hσ' (.refl σ _) hblk, hys⟩

theorem AllWoken.clocked {m : ℕ} (hm : m ≤ maxProc)
    (h : AllWoken M (BitVec.ofNat 32 (∑ i ∈ Finset.range m, i)) k k' σ σ') : Clocked M k' σ' := by
  have hsmall : ∀ m ≤ 20, ∑ i ∈ Finset.range m, i < 2 ^ 31 := by decide
  refine ⟨⟨?_, ?_⟩, ?_⟩
  · rw [h.waiting, h.blk]
    rfl
  · intro q hq
    rw [h.waiting] at hq
    exact absurd hq List.not_mem_nil
  · rw [h.value]
    rcases Nat.eq_zero_or_pos (∑ i ∈ Finset.range m, i) with hzero | hpos
    · rw [hzero]
      exact .inl rfl
    · exact .inr ⟨h.waiting, (ofNat_toInt_pos (hsmall m hm)).mpr hpos⟩

/-- **The pseudo-clock in `handleTimer`**: all waiters go if it has expired. -/
theorem wp_pseudoClock_clocks {E : Stop → Kernel n → Prop} (hL : Layout M) (hn : n ≤ maxProc)
    (h : Clocks M ys k) :
    wp (pseudoClock M) (fun _ k' => Clocks M (if k.Expired M then [] else ys) k' ∧
      k'.gCurrentProcess = k.gCurrentProcess ∧ k'.nullSlice = k.nullSlice) E k := by
  obtain ⟨σ, hσ, hcons, hw, rfl⟩ := h
  let Signalled : Kernel n → Prop := fun k' =>
    ∃ σ', σ'.core = k'.core ∧ k'.nullSlice = k.nullSlice ∧ Signals M M.gPcTimerS σ σ'
  have hsignals : wp (pseudoClock M) (fun _ => Signalled) E k :=
    wp_pseudoClock hL hσ (fun k' σ' hσ' hnull _ hs => ⟨σ', hσ', hnull, hs⟩)
  have hcur : ∀ k' : Kernel n, Signalled k' → k'.gCurrentProcess = k.gCurrentProcess ∧
      k'.nullSlice = k.nullSlice := by
    rintro k' ⟨σ', hσ', hnull, hs⟩
    have := hs.current
    rw [hσ, hσ'] at this
    exact ⟨this, hnull⟩
  by_cases hexp : k.Expired M
  · rw [if_pos hexp]
    -- nothing is left to wake up, whatever units an earlier tick has left
    have hall : wp (pseudoClock M) (fun _ k' => ∃ σ', σ'.core = k'.core ∧
        σ'.waiting M.gPcTimerS = [] ∧ Clocked M k' σ') E k := by
      rcases hw.value with hv | ⟨hnil, -⟩
      · have hlen : (σ.waiting M.gPcTimerS).length ≤ maxProc := (length_list_le σ.view _).trans hn
        exact wp_pseudoClock_expired hn hσ hL.clock hexp hw.toClockWaits hv
          (fun k' σ' hwoken => ⟨σ', hwoken.core, hwoken.waiting, hwoken.clocked hlen⟩)
      · have hblk : k.gPseudoClockBlk = 0 := by
          rw [hw.blk, hnil]
          rfl
        rw [pseudoClock, getTODLO]
        simp only [wp_bind, wp_get, wp_set, wp_pure, wp_ite]
        rw [if_pos (show _ ∨ _ from hexp), wp_modify, hblk]
        simp only [tickLoop, wp_bind, wp_get, wp_ite, wp_pure]
        rw [if_neg (by decide)]
        exact ⟨σ, hσ, hnil, hw.sameAt hσ hσ (.refl σ _) hblk.symm⟩
    refine wp_mono (wp_and hsignals hall) ?_ (fun _ _ h => h)
    rintro _ k' ⟨hsig, σ₁, hσ₁, hnil, hclock⟩
    refine ⟨?_, hcur k' hsig⟩
    obtain ⟨σ', hσ', -, hs⟩ := hsig
    have hperm : (σ'.waiting M.gPcTimerS).Perm (σ₁.waiting M.gPcTimerS) := Snap.waiting_perm hσ₁ hσ'
    rw [hnil] at hperm
    exact ⟨σ', hσ', hs.consistent hcons, hclock.snap hσ₁ hσ', hperm.eq_nil⟩
  · rw [if_neg hexp, pseudoClock, getTODLO]
    simp only [wp_bind, wp_get, wp_set, wp_pure, wp_ite]
    rw [if_neg (show ¬ (_ ∨ _) from hexp)]
    have hclocks : Clocks M (σ.waiting M.gPcTimerS) k := ⟨σ, hσ, hcons, hw, rfl⟩
    exact ⟨hclocks.congr rfl rfl, trivial, trivial⟩

/-- **The end of the time slice** does not concern the pseudo-clock. -/
theorem wp_timeSlice_clocks {E : Stop → Kernel n → Prop}
    (hnull : k.gCurrentProcess = none → k.nullSlice ≤ schedTimeSlice) (h : Clocks M ys k) :
    wp (timeSlice M) (fun _ => Clocks M ys) E k := by
  obtain ⟨σ, hσ, hcons, hw, rfl⟩ := h
  let Sliced : Kernel n → Prop := fun k' =>
    ∃ σ', σ'.core = k'.core ∧ Consistent σ' ∧ σ.SameAt σ' M.gPcTimerS
  have hsliced : wp (timeSlice M) (fun _ => Sliced) E k := by
    refine wp_timeSlice hσ hcons hnull (fun k' hk' _ => ?_) (fun p k' σ' hσ' hpre => ?_)
    · exact ⟨σ, hσ.trans hk'.symm, hcons, .refl σ _⟩
    · exact ⟨σ', hσ', hpre.consistent hcons, hpre.sameAt hcons⟩
  have hW : Walk M Set.univ Set.univ (fun k' : Kernel n => k'.gPseudoClockBlk = k.gPseudoClockBlk)
      (fun _ _ => True) := walk_blk _ (fun _ _ _ => trivial)
  have hblk : wp (timeSlice M) (fun _ k' => k'.gPseudoClockBlk = k.gPseudoClockBlk)
      (fun _ _ => True) k := by
    rcases Option.eq_none_or_eq_some k.gCurrentProcess with hnone | ⟨p, hp⟩
    · exact wp_mono (hW.timeSlice_none ⟨rfl, hnone⟩ (fun _ h => h) (fun _ _ => trivial))
        (fun _ _ h => h.1) (fun _ _ h => h)
    · exact wp_mono (hW.timeSlice ⟨rfl, hp⟩) (fun _ _ h => h.keeps) (fun _ _ h => h)
  refine wp_mono (wp_both hsliced hblk) ?_ (fun _ _ h => h.1)
  rintro _ k' ⟨⟨σ', hσ', hcons', hsame⟩, hblk'⟩
  exact ⟨σ', hσ', hcons', hw.sameAt hσ hσ' hsame hblk', hsame.waiting⟩

/-- **The scheduler** does not either. -/
theorem wp_scheduler_clocks (hL : Layout M) (hpid : M.gPcTimerS ≠ 0x00011114) (h : Clocks M ys k) :
    wp (scheduler M) (fun _ _ => False) (ClocksEnd M ys) k := by
  obtain ⟨σ, hσ, hcons, hw, rfl⟩ := h
  let Scheduled : Stop → Kernel n → Prop := fun _ k' =>
    ∃ σ', σ'.core = k'.core ∧ σ.SameAt σ' M.gPcTimerS
  have hsched : wp (scheduler M) (fun _ _ => False) Scheduled k := by
    refine wp_scheduler hσ hL.pid ?_ ?_ ?_ ?_
    · exact fun p k' σ' hσ' _ hdis => ⟨σ', hσ', hdis.sameAt hpid⟩
    · exact fun _ _ => ⟨σ, hσ, .refl σ _⟩
    · exact fun _ _ _ k' hk' _ => ⟨σ, hσ.trans hk'.symm, .refl σ _⟩
    · exact fun _ _ _ => ⟨σ, hσ, .refl σ _⟩
  refine wp_mono (wp_both hsched wp_scheduler_blk) (fun _ _ h => h.1) ?_
  rintro s k' ⟨⟨σ', hσ', hsame⟩, hblk⟩
  exact ⟨σ', hσ', hsame.waiting, fun hlive => hw.sameAt hσ hσ' hsame (hblk hlive)⟩

theorem onEnter_clock {x : ProcState} : (Kernel.onEnter M { k with intold := x }).gPseudoClockBlk =
      k.gPseudoClockBlk ∧
    (Kernel.onEnter M { k with intold := x }).nullSlice = k.nullSlice ∧
    ((Kernel.onEnter M { k with intold := x }).Expired M ↔ (k.onEnter M).Expired M) := by
  rcases Option.eq_none_or_eq_some k.gCurrentProcess with h | ⟨p, h⟩
  · rw [onEnter_none h, onEnter_none (k := { k with intold := x }) h]
    exact ⟨rfl, rfl, Iff.rfl⟩
  · rw [onEnter_some h, onEnter_some (k := { k with intold := x }) h]
    exact ⟨rfl, rfl, Iff.rfl⟩

/-- **An interrupt of the interval timer**: if the pseudo-clock has expired, all waiters go. -/
theorem wp_handler_tick (hL : Layout M) (hn : n ≤ maxProc) (hpid : M.gPcTimerS ≠ 0x00011114)
    (he : e.Tick M) (hnull : k.gCurrentProcess = none → k.nullSlice ≤ schedTimeSlice)
    (h : Clocks M ys k) :
    wp (handler M e) (fun _ _ => False)
      (ClocksEnd M (if (k.onEnter M).Expired M then [] else ys)) k := by
  let zs : List (Fin n) := if (k.onEnter M).Expired M then [] else ys
  have hdispatch : ∀ (cause : Word) (k₁ : Kernel n), M.pendingLine cause = some ilTimer →
      Clocks M ys k₁ → k₁.gCurrentProcess = k.gCurrentProcess → k₁.nullSlice = k.nullSlice →
      (k₁.Expired M ↔ (k.onEnter M).Expired M) →
      wp (dispatchInterrupt M cause) (fun _ => Clocks M zs) (ClocksEnd M zs) k₁ := by
    intro cause k₁ hline h₁ hcur hslice hexp
    rw [dispatchInterrupt_eq, hline]
    dsimp only
    rw [if_pos rfl, handleTimer, wp_bind]
    refine wp_mono (wp_pseudoClock_clocks hL hn h₁) ?_ (fun _ _ h => h)
    rintro _ k₂ ⟨h₂, hcur₂, hslice₂⟩
    rw [if_congr hexp rfl rfl] at h₂
    refine wp_timeSlice_clocks ?_ h₂
    rw [hcur₂, hcur, hslice₂, hslice]
    exact hnull
  cases e with
  | interrupt old cause =>
    let x : ProcState := { old with pc := old.pc - 4 }
    obtain ⟨hblk, hslice, hexp⟩ := onEnter_clock (M := M) (k := k) (x := x)
    have h₁ : Clocks M ys (Kernel.onEnter M { k with intold := x }) := h.congr onEnter_core hblk
    have hcur : (Kernel.onEnter M { k with intold := x }).gCurrentProcess = k.gCurrentProcess :=
      onEnter_current
    rw [handler, wp_bind, wp_modify, interruptExceptionHandler, wp_bind, wp_modify, ← bind_assoc,
      wp_bind, wp_onEnter]
    change wp _ _ _ (Kernel.onEnter M { k with intold := x })
    generalize Kernel.onEnter M { k with intold := x } = k₁ at hblk hslice hexp h₁ hcur ⊢
    rw [wp_bind, wp_modify, wp_bind]
    have hsaved : ∀ k₂ : Kernel n, k₂.core = k₁.core → k₂.gPseudoClockBlk = k₁.gPseudoClockBlk →
        k₂.nullSlice = k₁.nullSlice → (k₂.Expired M ↔ k₁.Expired M) →
        wp (dispatchInterrupt M cause) (fun _ => Clocks M zs) (ClocksEnd M zs) k₂ := by
      intro k₂ hc₂ hblk₂ hslice₂ hexp₂
      refine hdispatch cause k₂ he (h₁.congr hc₂ hblk₂) ?_ (hslice₂.trans hslice) (hexp₂.trans hexp)
      exact (congrArg Core.gCurrentProcess hc₂).trans hcur
    refine wp_mono (Q := fun _ => Clocks M zs) ?_ (fun _ k₂ h₂ => ?_) (fun _ _ h => h)
    · cases k₁.gCurrentProcess with
      | none => exact hsaved k₁ rfl rfl rfl Iff.rfl
      | some p => exact hsaved _ rfl rfl rfl Iff.rfl
    · rw [← bind_assoc, wp_bind, wp_onExit, wp_bind, wp_get]
      have h₃ : Clocks M zs (k₂.onExit M false) :=
        h₂.congr (onExit_core false) (beside_onExit false).gPseudoClockBlk
      cases (k₂.onExit M false).gCurrentProcess with
      | none => exact wp_scheduler_clocks hL hpid h₃
      | some p =>
        obtain ⟨σ, hσ, -, hw, hzs⟩ := h₃
        exact ⟨σ, hσ, hzs, fun _ => hw⟩
  | sysBP _ => exact he.elim
  | pgmTrap _ => exact he.elim
  | tlb _ => exact he.elim

/-! ### WAITCLOCK -/

/-- **WAITCLOCK counts its caller.** -/
theorem wp_handler_waitClock (hp : k.gCurrentProcess = some p) (he : e.Sys M waitClockNr) :
    wp (handler M e) (fun _ _ => False)
      (fun s k' => s.Live → k'.gPseudoClockBlk = k.gPseudoClockBlk + 1) k := by
  obtain ⟨old, rfl, hsys, hmode, hnr⟩ := he.exists_old
  let k₁ : Kernel n := k.start M p (.sysBP old)
  let E : Stop → Kernel n → Prop := fun s k' => s.Live → k'.gPseudoClockBlk = k.gPseudoClockBlk + 1
  have hE : ∀ s k', s.Plain → E s k' := fun _ _ hs hlive => absurd hlive hs.not_live
  have hold : k₁.sysbold = old := Kernel.start_sysbold
  have h₁ : With (fun k' : Kernel n => k'.gPseudoClockBlk = k.gPseudoClockBlk) (some p) k₁ :=
    ⟨beside_onEnter.gPseudoClockBlk, Kernel.start_current hp⟩
  rw [wp_handler_call hp hsys, if_pos (by rw [hnr]; decide), if_pos hmode, defSys, wp_bind, wp_get]
  change wp (if k₁.sysbold.a1 = createProcessNr then _ else _) _ _ k₁
  rw [hold, hnr]
  change wp (waitClock M) _ _ k₁
  rw [waitClock, wp_bind]
  refine wp_mono ((walk_blk _ hE).semop h₁) (fun _ k₂ h₂ => ?_) (fun _ _ h => h)
  rw [wp_modify]
  have hW : Walk M Set.univ Set.univ
      (fun k' : Kernel n => k'.gPseudoClockBlk = k.gPseudoClockBlk + 1) E :=
    walk_blk _ hE
  have hafter : After (fun k' : Kernel n => k'.gPseudoClockBlk = k.gPseudoClockBlk + 1) p
      (k₁.Sleeps M.gPcTimerS (-1)) { k₂ with gPseudoClockBlk := k₂.gPseudoClockBlk + 1 } :=
    ⟨congrArg (· + 1) h₂.keeps, h₂.gone, h₂.stays⟩
  refine hW.leaveHandler ⟨_, true, hafter, rfl⟩ (fun _ => ?_) (fun _ => ?_)
  · exact fun k₃ _ flag h₃ _ _ => (beside_onExit flag).gPseudoClockBlk.trans h₃
  · exact fun k₃ h₃ _ => wp_mono wp_scheduler_blk (fun _ _ h => h)
      (fun _ _ h hlive => (h hlive).trans h₃)

theorem task_of_waitClock (hp : k.gCurrentProcess = some p) (he : e.Sys M waitClockNr) :
    k.task M e = .semop M.gPcTimerS (-1) := by
  obtain ⟨old, rfl, hsys⟩ := he.exists_old
  rw [task_of_sys hp hsys (by decide), Kernel.sysTask, hsys.2.2]
  rfl

theorem Clocked.block (h : Clocked M k σ) (hσ : σ.core = k.core) (hσ' : σ'.core = k'.core)
    (hv : k.mem M.gPcTimerS = 0) (hb : Block M M.gPcTimerS (-1) p σ σ₁)
    (hsame : σ₁.SameAt σ' M.gPcTimerS) (hblk : k'.gPseudoClockBlk = k.gPseudoClockBlk + 1) :
    Clocked M k' σ' := by
  have hwait : σ'.waiting M.gPcTimerS = σ.waiting M.gPcTimerS ++ [p] :=
    hsame.waiting.trans hb.waiting
  have hreq : ∀ q ∈ σ'.waiting M.gPcTimerS, k'.resRequested q = update k.resRequested p 1 q := by
    intro q hq
    rw [hsame.waiting] at hq
    have := hsame.requests q hq
    rw [hσ', hb.resRequested, hσ] at this
    exact this
  have hmem : k'.mem M.gPcTimerS = k.mem M.gPcTimerS := by
    have := hsame.value
    rw [hσ', hb.mem, hσ] at this
    exact this
  refine ⟨⟨?_, ?_⟩, ?_⟩
  · rw [hwait, hblk, h.blk, List.length_append, List.length_singleton, BitVec.ofNat_add]
    rfl
  · intro q hq
    rw [hreq q hq]
    by_cases hqp : q = p
    · rw [hqp, Function.update_self]
    · rw [Function.update_of_ne hqp]
      rw [hwait, List.mem_append, List.mem_singleton] at hq
      exact h.requests q (hq.resolve_right hqp)
  · rw [hmem]
    exact .inl hv

/-! ### One entry -/

/-- What an entry does to the waiters of the pseudo-clock. -/
structure ClockStep (M : Machine) (k : Kernel n) (e : Entry) (k' : Kernel n) : Prop where
  rings : k.Rings M e → ∀ q, ¬ k'.WaitsAt M.gPcTimerS q
  waits : ¬ k.Rings M e → ∀ q, k'.WaitsAt M.gPcTimerS q ↔
    k.WaitsAt M.gPcTimerS q ∨ e.Sys M waitClockNr ∧ k.gCurrentProcess = some q

theorem not_sys_of_tick {nr : Word} (he : e.Tick M) : ¬ e.Sys M nr := by
  obtain ⟨old, cause, rfl, -⟩ := he.exists_old
  exact id

theorem ClocksEnd.step (hσ : σ.core = k.core) (hσ' : σ'.core = k'.core) (he : e.Tick M)
    (h : ClocksEnd M (if (k.onEnter M).Expired M then [] else σ.waiting M.gPcTimerS) stop k') :
    (stop.Live → Clocked M k' σ') ∧ ClockStep M k e k' := by
  obtain ⟨σ₁, hσ₁, hwait, hw⟩ := h
  refine ⟨fun hlive => (hw hlive).snap hσ₁ hσ', ⟨fun hrings q hq => ?_, fun hrings q => ?_⟩⟩
  · rw [if_pos hrings.2] at hwait
    have hmem := (Snap.mem_waiting hσ₁).mpr hq
    rw [hwait] at hmem
    exact absurd hmem List.not_mem_nil
  · rw [if_neg (fun hexp => hrings ⟨he, hexp⟩)] at hwait
    rw [← Snap.mem_waiting hσ₁, ← Snap.mem_waiting hσ, hwait]
    exact ⟨.inl, fun hq => hq.resolve_right (fun hsys => not_sys_of_tick he hsys.1)⟩

/-- **One entry keeps the counter in step**, and says who waits then. -/
theorem Ends.clockStep {k k' : Kernel maxProc} {σ σ' : Snap maxProc}
    (hpid : M.gPcTimerS ≠ 0x00011114) (hσ : σ.core = k.core) (hσ' : σ'.core = k'.core)
    (hc : Consistent σ) (hI : σ.Complete) (hw : Clocked M k σ) (hok : k.KeepsClock M e)
    (hrun : e.isInterrupt = false → ∃ p, k.gCurrentProcess = some p)
    (hends : Ends M (k.task M e) σ stop σ')
    (hblk : stop.Live → ¬ e.Tick M → ¬ e.Sys M waitClockNr → k'.gPseudoClockBlk = k.gPseudoClockBlk)
    (hcall : ∀ p, k.gCurrentProcess = some p → e.Sys M waitClockNr → stop.Live →
      k'.gPseudoClockBlk = k.gPseudoClockBlk + 1)
    (htick : e.Tick M →
      ClocksEnd M (if (k.onEnter M).Expired M then [] else σ.waiting M.gPcTimerS) stop k') :
    (stop.Live → Clocked M k' σ') ∧ ClockStep M k e k' := by
  by_cases he : e.Tick M
  · exact (htick he).step hσ hσ' he
  by_cases hs : e.Sys M waitClockNr
  · obtain ⟨p, hp⟩ : ∃ p, k.gCurrentProcess = some p := by
      obtain ⟨old, rfl, -⟩ := hs.exists_old
      exact hrun rfl
    have hp' : σ.core.gCurrentProcess = some p := by
      rw [hσ]
      exact hp
    have hv := hok.empty hs
    have hshort : (σ.core.mem M.gPcTimerS + -1).toInt < 0 := by
      rw [hσ, show k.core.mem M.gPcTimerS = 0 from hv]
      decide
    rw [task_of_waitClock hp hs] at hends
    obtain ⟨σ₁, hb, hsame⟩ := hends.block (hI.free_ne_nil hc hp') (by decide) hp' hshort hpid
    refine ⟨fun hlive => hw.block hσ hσ' hv hb hsame (hcall p hp hs hlive), ⟨fun h => absurd h.1 he,
      fun _ q => ?_⟩⟩
    rw [← Snap.mem_waiting hσ', ← Snap.mem_waiting hσ, hsame.waiting, hb.waiting, List.mem_append,
      List.mem_singleton, and_iff_right hs, hp, Option.some.injEq, eq_comm]
  · have hsame : σ.SameAt σ' M.gPcTimerS := by
      refine hends.sameAt hc hpid (fun hnames => (hok.apart hnames).elim he hs) ?_
      intro root hroot q hq hwait
      rw [Snap.pParent_eq hσ] at hq
      exact hok.spares q ⟨root, hroot, hq⟩ ((Snap.mem_waiting hσ).mp hwait)
    refine ⟨fun hlive => hw.sameAt hσ hσ' hsame (hblk hlive he hs), ⟨fun h => absurd h.1 he, ?_⟩⟩
    intro _ q
    rw [← Snap.mem_waiting hσ', ← Snap.mem_waiting hσ, hsame.waiting]
    exact ⟨.inl, fun hq => hq.resolve_right (fun h => hs h.1)⟩

/-! ### Runs -/

/-- What every such run keeps up between two entries. -/
structure Timed (M : Machine) (c : Config maxProc) (L : Set (Fin maxProc)) (σ : Snap maxProc) : Prop
    extends Between c L σ where
  complete : σ.Complete
  ready : Ready M c
  clocked : c.stop.Live → Clocked M c.k σ

theorem Timed.step {σ : Snap maxProc} {ev : Event} (hL : Layout M)
    (hpid : M.gPcTimerS ≠ 0x00011114) (h : Timed M c L σ) (htake : CanTake c ev)
    (hok : (c.k.atEntry M ev).KeepsClock M ev.entry) :
    ∃ σ', Timed M (step M c ev) {q | (q ∈ L ∨ (c.k.atEntry M ev).born M ev.entry = some q) ∧
        ¬ (c.k.atEntry M ev).Dies M ev.entry q} σ' ∧
      Ends M ((c.k.atEntry M ev).task M ev.entry) (σ.atEntry M ev.mem) (JaeOS.step M c ev).stop σ' ∧
      ClockStep M (c.k.atEntry M ev) ev.entry (JaeOS.step M c ev).k := by
  obtain ⟨σ', hb, hends, -⟩ := h.toBetween.step hL htake hok.toAdmits
  let k : Kernel maxProc := c.k.atEntry M ev
  have hσ : (σ.atEntry M ev.mem).core = k.core := Snap.atEntry_core h.core
  have hcons : Consistent (σ.atEntry M ev.mem) := h.consistent.atEntry M ev.mem
  have hmem : k.mem M.gPcTimerS = c.k.mem M.gPcTimerS := if_pos (by simp [Machine.nucleus])
  have hw : Clocked M k (σ.atEntry M ev.mem) := by
    have := h.clocked htake.live
    refine ⟨⟨this.blk, this.requests⟩, ?_⟩
    rw [hmem]
    exact this.value
  have hrun : ev.entry.isInterrupt = false → ∃ p, k.gCurrentProcess = some p := by
    intro hint
    rcases htake with ⟨s, hs⟩ | ⟨_, hint'⟩
    · exact h.running s hs
    · rw [hint] at hint'
      exact absurd hint' (by simp)
  have hclocks : Clocks M ((σ.atEntry M ev.mem).waiting M.gPcTimerS) k :=
    ⟨_, hσ, hcons, hw, rfl⟩
  obtain ⟨hclocked, hstep⟩ := hends.clockStep hpid hσ hb.core hcons h.complete hw hok hrun
    (fun hlive ht hs => (h.ready.step htake hlive).blk ht hs)
    (fun p hp hs hlive => runToStop_of_wp (wp_handler_waitClock hp hs) hlive)
    (fun ht => runToStop_of_wp (wp_handler_tick hL le_rfl hpid ht (hok.idle (task_of_tick ht)) hclocks))
  have hcomplete := (hends.complete hσ hcons h.complete hok.returns).1
  exact ⟨σ', ⟨hb, hcomplete, h.ready.next htake, hclocked⟩, hends, hstep⟩

theorem timed_boot (hL : Layout M) (hpid : M.gPcTimerS ≠ 0x00011114) :
    ∃ σ, Timed M (boot M) {proc0} σ := by
  obtain ⟨σ, s, hb, -, hi⟩ := between_boot hL
  have hnil : σ.waiting M.gPcTimerS = [] := by
    refine List.eq_nil_iff_forall_not_mem.mpr (fun q hq => ?_)
    have hplace := (σ.view.mem _ q).mp hq
    rw [hi.place] at hplace
    split_ifs at hplace
  have hzero : (boot M : Config maxProc).k.mem M.gPcTimerS = 0 := by
    obtain ⟨x, hmem⟩ := hi.mem
    rw [hb.core] at hmem
    refine (congrFun hmem M.gPcTimerS).trans ?_
    rw [Function.update_of_ne hpid, Function.update_self]
  refine ⟨σ, hb, hi.complete, ready_boot, fun hlive => ⟨⟨?_, ?_⟩, .inl hzero⟩⟩
  · rw [hnil]
    exact (booted_boot hlive).blk
  · rw [hnil]
    exact fun q hq => absurd hq List.not_mem_nil

theorem Reaches.timed (hL : Layout M) (hpid : M.gPcTimerS ≠ 0x00011114)
    (h : Reaches M (fun k e => k.KeepsClock M e) c L) : ∃ σ, Timed M c L σ := by
  induction h with
  | boot => exact timed_boot hL hpid
  | step _ htake hok ih =>
    obtain ⟨σ, hT⟩ := ih
    obtain ⟨σ', hT', -⟩ := hT.step hL hpid htake hok
    exact ⟨σ', hT'⟩

/-- **Who waits keeps waiting** until the pseudo-clock rings. -/
theorem Path.waitsAt {cs : List (Config maxProc)} {c' : Config maxProc} {p : Fin maxProc}
    (hL : Layout M) (hpid : M.gPcTimerS ≠ 0x00011114) (hT : ∃ L σ, Timed M c L σ)
    (hp : c.k.WaitsAt M.gPcTimerS p)
    (h : Path M (fun k e => k.KeepsClock M e ∧ ¬ k.Rings M e) c cs c') :
    (∃ L σ, Timed M c' L σ) ∧ c'.k.WaitsAt M.gPcTimerS p := by
  induction h with
  | refl => exact ⟨hT, hp⟩
  | snoc _ htake hok ih =>
    obtain ⟨⟨L, σ, hT'⟩, hwaits⟩ := ih
    obtain ⟨σ', hnext, -, hstep⟩ := hT'.step hL hpid htake hok.1
    exact ⟨⟨_, σ', hnext⟩, (hstep.waits hok.2 p).mpr (.inl hwaits)⟩

theorem Ends.leaves {k k' : Kernel maxProc} {σ σ' : Snap maxProc} {q : Fin maxProc} {a : Word}
    (hσ : σ.core = k.core) (hσ' : σ'.core = k'.core) (hc : Consistent σ) (hc' : Consistent σ')
    (hends : Ends M (k.task M e) σ stop σ') (hq : q ∈ σ.waiting a) (hdies : ¬ k.Dies M e q)
    (hgone : q ∉ σ'.waiting a) (hothers : ∀ b, b ≠ a → σ'.waiting b = σ.waiting b) :
    k'.gCurrentProcess = some q ∨ ∃ xs, k'.Queue .gReadyQueue xs ∧ q ∈ xs := by
  have hplace : σ.view.place q = .sem a := (σ.view.mem _ q).mp hq
  have halive : σ'.view.place q ≠ .free :=
    (hends.place_free hσ hc).mpr ⟨.inl (by simp [hplace]), hdies⟩
  cases hplace' : σ'.view.place q with
  | free => exact absurd hplace' halive
  | ready =>
    refine .inr ⟨_, (Snap.owned_of_core hσ').listed .ready _ rfl, ?_⟩
    exact (σ'.view.mem _ q).mpr hplace'
  | held =>
    have hcur := (hc'.current q).mp hplace'
    rw [hσ'] at hcur
    exact .inl hcur
  | sem b =>
    have hmem : q ∈ σ'.waiting b := (σ'.view.mem _ q).mpr hplace'
    by_cases hb : b = a
    · rw [hb] at hmem
      exact absurd hmem hgone
    · rw [hothers b hb] at hmem
      have hsem := hplace.symm.trans ((σ.view.mem _ q).mp hmem)
      exact absurd (Place.sem.inj hsem).symm hb

/-- **A tick makes all waiters ready**, and leaves the other semaphores alone. -/
theorem Ends.released {k k' : Kernel maxProc} {σ σ' : Snap maxProc} (hσ : σ.core = k.core)
    (hσ' : σ'.core = k'.core) (hc : Consistent σ) (hc' : Consistent σ') (he : e.Tick M)
    (hends : Ends M (k.task M e) σ stop σ') (hall : ∀ q, ¬ k'.WaitsAt M.gPcTimerS q) :
    Released M k k' := by
  have htask := task_of_tick (k := k) he
  have hdies : ∀ q, ¬ k.Dies M e q := by
    rintro q ⟨root, hroot, -⟩
    rw [htask] at hroot
    exact absurd hroot (by simp)
  have hothers : ∀ a, a ≠ M.gPcTimerS → σ'.waiting a = σ.waiting a := by
    intro a ha
    refine hends.waiting hc ?_ ?_
    · rw [htask]
      exact fun hpc => ha hpc.symm
    · rw [htask]
      exact fun root hroot => absurd hroot (by simp)
  refine ⟨hall, fun q hq => ?_, fun a ha q => ?_⟩
  · refine hends.leaves hσ hσ' hc hc' ((Snap.mem_waiting hσ).mpr hq) (hdies q) ?_ hothers
    exact fun hmem => hall q ((Snap.mem_waiting hσ').mp hmem)
  · rw [← Snap.mem_waiting hσ', ← Snap.mem_waiting hσ, hothers a ha]

/-- **The counter of the pseudo-clock.**  In every run in which WAITCLOCK finds no unit that an
earlier tick has left, no process dies that waits for the pseudo-clock, and nobody else names
`g_pc_timer_s`, the counter is the number of the waiters between two entries; every tick
releases them, and every caller of WAITCLOCK waits until the next tick. -/
theorem reaches_clockRight (hL : Layout M) (hpid : M.gPcTimerS ≠ 0x00011114)
    (h : Reaches M (fun k e => k.KeepsClock M e) c L) : ClockRight M c := by
  obtain ⟨σ, hT⟩ := h.timed hL hpid
  refine ⟨fun hlive => (hT.clocked hlive).counted hT.core, fun ev htake hok hrings => ?_,
    fun ev p htake hok hsys hp cs c' hpath => ?_⟩
  · obtain ⟨σ', hT', hends, hstep⟩ := hT.step hL hpid htake hok
    exact hends.released (Snap.atEntry_core hT.core) hT'.core (hT.consistent.atEntry M ev.mem)
      hT'.consistent hrings.1 (hstep.rings hrings)
  · obtain ⟨σ', hT', -, hstep⟩ := hT.step hL hpid htake hok
    have hnot : ¬ (c.k.atEntry M ev).Rings M ev.entry := fun hr => not_sys_of_tick hr.1 hsys
    have hwaits := (hstep.waits hnot p).mpr (.inr ⟨hsys, hp⟩)
    exact (hpath.waitsAt hL hpid ⟨_, σ', hT'⟩ hwaits).2

instance (k : Kernel n) (M : Machine) (e : Entry) : Decidable (k.Rings M e) :=
  inferInstanceAs (Decidable (_ ∧ _))

/-- An entry that ends nobody and loses no descriptor, and at which `g_pc_timer_s` has no unit for
WAITCLOCK and is named by nobody else. -/
def Kernel.keepsClock (M : Machine) (k : Kernel n) (e : Entry) : Bool :=
  k.keepsDescriptors M e && decide (e.Sys M waitClockNr → k.mem M.gPcTimerS = 0) &&
    decide (k.ClockApart M e) &&
      match k.task M e with
      | .kill _ => false
      | _ => true

theorem Kernel.KeepsClock.of_test (h : k.keepsClock M e = true) : k.KeepsClock M e := by
  rw [Kernel.keepsClock, Bool.and_eq_true, Bool.and_eq_true, Bool.and_eq_true, decide_eq_true_eq,
    decide_eq_true_eq] at h
  obtain ⟨⟨⟨hkeeps, hempty⟩, hapart⟩, hspares⟩ := h
  refine ⟨.of_test hkeeps, hempty, ?_, hapart⟩
  rintro q ⟨root, hroot, -⟩
  rw [hroot] at hspares
  exact absurd hspares (by simp)

/-- A child waits for the pseudo-clock, and its parent asks for its pid until the interval is
over. -/
def waitsForTick : List Event :=
  [sys 1 0 0 0, timerInterrupt, sys 9 0 0 0, sys 11 0 0 0, sys 11 0 0 0]

/-- The child is counted, and the next tick releases it. -/
theorem reaches_clockRight_tick : (afterAll uarm waitsForTick).k.gPseudoClockBlk = 1 ∧
    ClockRight uarm (afterAll uarm waitsForTick) ∧
      Released uarm ((afterAll uarm waitsForTick).k.atEntry uarm timerInterrupt)
        (step uarm (afterAll uarm waitsForTick) timerInterrupt).k := by
  have htest : ∀ (k : Kernel maxProc) e, k.keepsClock uarm e = true → k.KeepsClock uarm e :=
    fun _ _ h => .of_test h
  obtain ⟨L, hreach, hstate⟩ := reaches_afterAll (M := uarm) htest waitsForTick
    (fun c => decide (c.k.gPseudoClockBlk = 1) && c.canTake timerInterrupt &&
      (c.k.atEntry uarm timerInterrupt).keepsClock uarm timerInterrupt.entry &&
        decide ((c.k.atEntry uarm timerInterrupt).Rings uarm timerInterrupt.entry))
    (by decide +kernel)
  rw [Bool.and_eq_true, Bool.and_eq_true, Bool.and_eq_true, decide_eq_true_eq,
    decide_eq_true_eq] at hstate
  obtain ⟨⟨⟨hblk, htake⟩, hkeeps⟩, hrings⟩ := hstate
  have hright := reaches_clockRight layout_uarm (by decide) hreach
  exact ⟨hblk, hright, hright.tick _ (Config.canTake_iff.mp htake) (.of_test hkeeps) hrings⟩

/-- A child waits for the pseudo-clock, and its parent terminates it. -/
def killCountedWaiter : List Event := [sys 1 0 0 0, timerInterrupt, sys 9 0 0 0, sys 2 66 0 0]

/-- The counter counts a process that has been terminated, though nobody but WAITCLOCK and the
interval timer has named `g_pc_timer_s`. -/
theorem not_counted_of_legal : ¬ ∀ c L,
    Reaches uarm (fun k e => k.Legal uarm e ∧ k.ClockApart uarm e) c L → c.stop.Live →
      c.k.gPseudoClockBlk.toNat = {q | c.k.WaitsAt uarm.gPcTimerS q}.ncard := by
  intro hall
  have htest : ∀ (k : Kernel maxProc) e, (k.legal uarm e && decide (k.ClockApart uarm e)) = true →
      k.Legal uarm e ∧ k.ClockApart uarm e := by
    intro k e h
    rw [Bool.and_eq_true, decide_eq_true_eq] at h
    exact ⟨Kernel.legal_iff.mp h.1, h.2⟩
  obtain ⟨c, L, hreach, hc⟩ := reaches_trace (M := uarm) htest killCountedWaiter
    (fun c => c.k.gPseudoClockBlk == 1 && (c.canTake timerInterrupt) &&
      (List.finRange maxProc).all (fun d => c.k.sProcq d == none)) .boot (by decide +kernel)
  rw [Bool.and_eq_true, Bool.and_eq_true, beq_iff_eq, List.all_eq_true] at hc
  obtain ⟨⟨hblk, htake⟩, hnone⟩ := hc
  have hempty : {q | c.k.WaitsAt uarm.gPcTimerS q} = ∅ := by
    refine Set.eq_empty_of_forall_notMem ?_
    rintro q ⟨d, ⟨xs, hxs, hq⟩, -⟩
    have htail : c.k.sProcq d = none := beq_iff_eq.mp (hnone d (List.mem_finRange d))
    rw [hxs.unique (Clist.holds_nil htail)] at hq
    exact absurd hq List.not_mem_nil
  have hcount := hall c L hreach (Config.canTake_iff.mp htake).live
  rw [hblk, hempty, Set.ncard_empty] at hcount
  exact absurd hcount (by decide)

end JaeOS
