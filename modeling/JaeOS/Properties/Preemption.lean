import JaeOS.Lib.Countdown
import JaeOS.Properties.Descriptors
import JaeOS.Properties.TimeSlice
import JaeOS.Refine.Passage

/-!
# The end of a time slice

Every entry takes the time since the last one off `p_time_slice`, and `handleTimer` tells the
end of the slice by an underflow: the counter is then above `SCHED_TIME_SLICE`.  A slice that
is used up exactly leaves 0, and the process keeps the processor.
-/

namespace JaeOS

variable {n : ℕ} {M : Machine} {k k' : Kernel n} {σ σ' : Snap n} {p : Fin n} {x : ProcState}
  {cause : Word}

/-! ### The property -/

/-- The state in which `handleTimer` is called, when `p` is interrupted with the registers `x`. -/
def Kernel.atTimer (k : Kernel n) (M : Machine) (p : Fin n) (x : ProcState) : Kernel n :=
  (Kernel.onEnter M { k with intold := x }).setPcb p fun c => { c with pS := x }

/-- `p` is the last one on the ready queue, with the registers `x`, and no process is current. -/
structure Preempted (p : Fin n) (x : ProcState) (k' : Kernel n) : Prop where
  ready : ∃ xs, k'.Queue .gReadyQueue (xs ++ [p])
  saved : (k'.pcb p).pS = x
  idle : k'.gCurrentProcess = none

/-- `p` is still current, and on no ready queue. -/
structure Continues (p : Fin n) (k' : Kernel n) : Prop where
  current : k'.gCurrentProcess = some p
  ready : ∀ xs, k'.Queue .gReadyQueue xs → p ∉ xs

/-- **What a timer interrupt has to do** while `p` runs, after `used` microseconds. -/
def PreemptsRight (M : Machine) (c : Config n) (ev : Event) (p : Fin n) (used : ℕ) : Prop :=
  ∃ k', handleTimer M ((c.k.atEntry M ev).atTimer M p ev.entry.saved) = .ok () k' ∧
    (Preempted p ev.entry.saved k' ↔ schedTimeSlice.toNat ≤ used) ∧
    (used < schedTimeSlice.toNat → Continues p k' ∧
      (step M c ev).stop = .ldst ev.entry.saved ∧ (step M c ev).k.gCurrentProcess = some p)

/-! ### `handleTimer` -/

theorem Preempted.not_continues (h : Preempted p x k') : ¬ Continues p k' := fun hc =>
  absurd (h.idle.symm.trans hc.current) (by simp)

theorem walk_slice (p : Fin n) (x : ProcState) (v : Word) :
    Walk M Set.univ Set.univ (fun k' : Kernel n => (k'.pcb p).pS = x ∧ (k'.pcb p).pTimeSlice = v)
      (fun _ _ => True) where
  rest h hr := by
    rename_i k k'
    have hpcb : k'.pcb = k.pcb := congrArg Rest.pcb hr
    rw [hpcb]
    exact h
  stop _ _ := trivial
  read h := h
  exit flag h := by
    rw [onExit_pcb]
    split_ifs
    · exact h
    · exact h
  own := by
    intro k q f h _ hf
    by_cases hpq : p = q
    · subst hpq
      rw [setPcb_pcb_self, hf.pS, hf.pTimeSlice]
      exact h
    · rw [setPcb_pcb_of_ne _ _ hpq]
      exact h
  idle h := h

/-- **`handleTimer` preempts the process exactly when its counter is above the slice.** -/
theorem handleTimer_slice (hL : Layout M) (hσ : σ.core = k.core) (hc : Consistent σ)
    (hp : k.gCurrentProcess = some p) : ∃ k', handleTimer M k = .ok () k' ∧
      if schedTimeSlice < (k.pcb p).pTimeSlice then Preempted p (k.pcb p).pS k'
      else Continues p k' ∧ k'.intold = k.intold := by
  obtain ⟨⟨⟩, k', hrun, hdone, hold⟩ := wp_false (wp_handleTimer (E := fun _ _ => False)
    (Q := fun _ k' => Done M .tick σ k' ∧ (k'.gCurrentProcess ≠ none → k'.intold = k.intold)) hL hσ hc
    (fun hnone => absurd (hnone.symm.trans hp) (by simp)) (fun _ hd hold => ⟨hd, hold⟩))
  have hafter := (wp_of_ok hrun).mp
    ((walk_slice (M := M) p (k.pcb p).pS (k.pcb p).pTimeSlice).handleTimer
      ⟨fun _ h => h, fun _ h => h⟩ ⟨⟨rfl, rfl⟩, hp⟩ fun _ h => h.2)
  refine ⟨k', hrun, ?_⟩
  obtain ⟨σ', hσ', hc', hdoes, -⟩ := hdone
  have hcur : σ.core.gCurrentProcess = some p := by
    rw [hσ]
    exact hp
  by_cases hlate : schedTimeSlice < (k.pcb p).pTimeSlice
  · rw [if_pos hlate]
    have hnone : σ'.core.gCurrentProcess = none := by
      rw [hσ']
      exact hafter.gone hlate
    cases hdoes with
    | tick hs => exact absurd (hnone.symm.trans (hs.current.trans hcur)) (by simp)
    | @preempt q _ σ₁ _ hs hpre =>
      obtain rfl : p = q := Option.some.inj ((hs.current.trans hcur).symm.trans hpre.current)
      have hheld : σ₁.view.place p = .held := ((hs.consistent hc).current p).mpr hpre.current
      have hready := σ'.owned.listed .ready .gReadyQueue rfl
      rw [hpre.view, Placement.move_list_self (by rw [hheld]; decide), hσ'] at hready
      exact ⟨⟨_, hready⟩, hafter.keeps.1, hafter.gone hlate⟩
  · rw [if_neg hlate]
    have hstays := hafter.stays hlate
    have hheld : σ'.view.place p = .held := (hc'.current p).mpr (by rw [hσ']; exact hstays)
    refine ⟨⟨hstays, fun xs hxs hmem => ?_⟩, hold (by rw [hstays]; simp)⟩
    have hready := σ'.owned.listed .ready .gReadyQueue rfl
    rw [hσ'] at hready
    rw [← hready.unique hxs, σ'.view.mem, hheld] at hmem
    exact absurd hmem (by decide)

/-! ### The handler -/

theorem wp_handler_timer {old : ProcState} {Q : Unit → Kernel n → Prop}
    {E : Stop → Kernel n → Prop} (hp : k.gCurrentProcess = some p)
    (hline : M.pendingLine cause = some ilTimer) :
    wp (handler M (.interrupt old cause)) Q E k ↔ wp (handleTimer M)
      (fun _ k' => wp (match k'.gCurrentProcess with
        | some _ => throw (.ldst (k'.onExit M false).intold)
        | none => scheduler M) Q E (k'.onExit M false)) E
      (k.atTimer M p (Entry.interrupt old cause).saved) := by
  have hcur : (Kernel.onEnter M { k with intold := { old with pc := old.pc - 4 } }).gCurrentProcess =
      some p := onEnter_current.trans hp
  have hold : (Kernel.onEnter M { k with intold := { old with pc := old.pc - 4 } }).intold =
      { old with pc := old.pc - 4 } := beside_onEnter.intold
  rw [JaeOS.handler, wp_bind, wp_modify, interruptExceptionHandler, wp_bind, wp_modify, ← bind_assoc,
    wp_bind, wp_onEnter, Kernel.atTimer, Entry.saved]
  change wp _ _ _ (Kernel.onEnter M { k with intold := { old with pc := old.pc - 4 } }) ↔ _
  generalize Kernel.onEnter M { k with intold := { old with pc := old.pc - 4 } } = k₁ at hcur hold ⊢
  rw [wp_bind, wp_modify, hcur, wp_bind, dispatchInterrupt_eq, hline, ← hold]
  simp only [if_true]
  refine iff_of_eq (congrArg (fun R => wp (handleTimer M) R E _) ?_)
  funext _ k'
  rw [← bind_assoc, wp_bind, wp_onExit, wp_bind, wp_get, onExit_current]
  cases k'.gCurrentProcess with
  | none => rfl
  | some q => rfl

theorem Continues.loaded {c : Config n} {ev : Event} (h : Continues p k')
    (hp : c.k.gCurrentProcess = some p) (he : ev.entry.Tick M)
    (hrun : handleTimer M ((c.k.atEntry M ev).atTimer M p ev.entry.saved) = .ok () k')
    (hold : k'.intold = ev.entry.saved) :
    (step M c ev).stop = .ldst ev.entry.saved ∧ (step M c ev).k.gCurrentProcess = some p := by
  obtain ⟨old, cause, hev, hline⟩ := he.exists_old
  refine runToStop_of_wp (E := fun s k'' => s = .ldst ev.entry.saved ∧ k''.gCurrentProcess = some p) ?_
  have hp' : (c.k.atEntry M ev).gCurrentProcess = some p := hp
  rw [hev] at hrun hold ⊢
  rw [wp_handler_timer hp' hline, wp_of_ok hrun, h.current]
  exact ⟨by rw [(beside_onExit false).intold, hold], (onExit_current false).trans h.current⟩

/-! ### Runs -/

/-- The entry does not hand out the block of the process it comes from. -/
def Kernel.KeepsBlock (k : Kernel n) (M : Machine) (e : Entry) : Prop :=
  ∀ p, k.gCurrentProcess = some p → k.born M e ≠ some p

/-- The lists hold every block once, and the tree links fit. -/
def Kernel.Intact (k : Kernel n) : Prop := ∃ σ : Snap n, σ.core = k.core ∧ Consistent σ

theorem Reaches.intact {c : Config maxProc} {L : Set (Fin maxProc)} (hL : Layout M)
    (h : Reaches M (fun k e => k.Admits M e) c L) : c.k.Intact := by
  obtain ⟨σ, hb⟩ := h.exists_between hL
  exact ⟨σ, hb.core, hb.consistent⟩

/-- What is left of the slice of the current process, modulo `2 ^ 32`. -/
def Config.Counted (c : Config n) (used : ℕ) : Prop :=
  c.stop.Live → ∀ p, c.k.gCurrentProcess = some p →
    (c.k.pcb p).pTimeSlice = schedTimeSlice - BitVec.ofNat 32 used

theorem Config.Counted.enter {c : Config maxProc} {used : ℕ} {ev : Event} {p : Fin maxProc}
    (h : c.Counted used) (hmono : Monotone M.tod) (hr : Ready M c) (htake : CanTake c ev)
    (hp : c.k.gCurrentProcess = some p) :
    ((Kernel.onEnter M (c.k.atEntry M ev)).pcb p).pTimeSlice =
      schedTimeSlice - BitVec.ofNat 32 (used + c.k.ran M) := by
  have helapsed : c.k.elapsed M = BitVec.ofNat 32 (c.k.ran M) := (hr.handed htake.live).elapsed hmono
  have hp' : (c.k.atEntry M ev).gCurrentProcess = some p := hp
  rw [onEnter_pcb, if_pos hp']
  show (c.k.pcb p).pTimeSlice - c.k.elapsed M = _
  rw [h htake.live p hp, helapsed, BitVec.ofNat_add, sub_sub]

/-- **The counter of the current process**, in every run. -/
theorem slices_counted (hmono : Monotone M.tod) {c : Config maxProc} {used : ℕ}
    (h : Slices M (fun k e => k.KeepsBlock M e) c used) : c.Counted used := by
  induction h with
  | boot =>
    intro hlive p hp
    rw [(booted_boot hlive).fresh p hp]
    rfl
  | @stay c used ev p hrun htake hok hp hstay ih =>
    intro hlive q hq
    obtain ⟨hcur, hkeep⟩ := ((slices_ready hrun).step htake hlive).stays p hp hstay
    obtain rfl : p = q := Option.some.inj (hcur.symm.trans hq)
    rw [hkeep (hok p hp), ih.enter hmono (slices_ready hrun) htake hp]
  | @dispatch c used ev hrun htake hok hleft ih =>
    intro hlive p hp
    rw [((slices_ready hrun).step htake hlive).fresh hleft p hp]
    rfl

/-! ### The timer interrupt -/

theorem atTimer_core : (k.atTimer M p x).core = k.core :=
  onEnter_core (k := { k with intold := x })

theorem atTimer_saved : ((k.atTimer M p x).pcb p).pS = x := by
  rw [Kernel.atTimer, setPcb_pcb_self]

theorem atTimer_intold : (k.atTimer M p x).intold = x :=
  (beside_onEnter (k := { k with intold := x })).intold

theorem atTimer_slice (hp : k.gCurrentProcess = some p) :
    ((k.atTimer M p x).pcb p).pTimeSlice = ((k.onEnter M).pcb p).pTimeSlice := by
  have hp' : Kernel.gCurrentProcess { k with intold := x } = some p := hp
  rw [Kernel.atTimer, setPcb_pcb_self, onEnter_pcb, onEnter_pcb, if_pos hp, if_pos hp']
  rfl

theorem slice_over_iff {u : ℕ} (hless : u < 2 ^ 32 - schedTimeSlice.toNat) :
    schedTimeSlice < schedTimeSlice - BitVec.ofNat 32 u ↔ schedTimeSlice.toNat < u := by
  have hnat : (BitVec.ofNat 32 u).toNat = u := Nat.mod_eq_of_lt (by omega)
  rw [Countdown.lt_sub_iff (BitVec.le_refl _) (by rw [hnat]; omega), hnat]

/-- `handleTimer` leaves a process alone that has not used more than its slice, in any state. -/
theorem handleTimer_keeps (hp : k.gCurrentProcess = some p)
    (hslice : ¬ schedTimeSlice < (k.pcb p).pTimeSlice) (hrun : handleTimer M k = .ok () k') :
    k'.gCurrentProcess = some p := by
  have hafter := (wp_of_ok hrun).mp
    ((walk_slice (M := M) p (k.pcb p).pS (k.pcb p).pTimeSlice).handleTimer
      ⟨fun _ h => h, fun _ h => h⟩ ⟨⟨rfl, rfl⟩, hp⟩ fun _ h => h.2)
  exact hafter.stays hslice

/-- **A timer interrupt does what it has to do unless the slice has just been used up**: a
process that has run for exactly `SCHED_TIME_SLICE` is never preempted, and where the lists are
intact all others are treated right. -/
theorem preemptsRight_iff (hL : Layout M) (hmono : Monotone M.tod) {c : Config maxProc} {used : ℕ}
    {ev : Event} {p : Fin maxProc} (h : Slices M (fun k e => k.KeepsBlock M e) c used)
    (htake : CanTake c ev) (he : ev.entry.Tick M) (hp : c.k.gCurrentProcess = some p)
    (hless : used + c.k.ran M < 2 ^ 32 - schedTimeSlice.toNat) :
    (PreemptsRight M c ev p (used + c.k.ran M) → used + c.k.ran M ≠ schedTimeSlice.toNat) ∧
      (c.k.Intact → used + c.k.ran M ≠ schedTimeSlice.toNat →
        PreemptsRight M c ev p (used + c.k.ran M)) := by
  have hp' : (c.k.atEntry M ev).gCurrentProcess = some p := hp
  have henter : (((c.k.atEntry M ev).onEnter M).pcb p).pTimeSlice =
      schedTimeSlice - BitVec.ofNat 32 (used + c.k.ran M) :=
    (slices_counted hmono h).enter hmono (slices_ready h) htake hp
  obtain ⟨u, hu⟩ : ∃ u, used + c.k.ran M = u := ⟨_, rfl⟩
  rw [hu] at hless henter ⊢
  have hcur : ((c.k.atEntry M ev).atTimer M p ev.entry.saved).gCurrentProcess = some p :=
    (congrArg Core.gCurrentProcess (atTimer_core (p := p))).trans hp'
  refine ⟨?_, fun hintact hne => ?_⟩
  · rintro ⟨k', hrun, hpre, -⟩ rfl
    have hearly : ¬ schedTimeSlice <
        (((c.k.atEntry M ev).atTimer M p ev.entry.saved).pcb p).pTimeSlice := by
      rw [atTimer_slice hp', henter, slice_over_iff hless]
      exact lt_irrefl _
    have hstays := handleTimer_keeps hcur hearly hrun
    exact absurd ((hpre.mpr le_rfl).idle.symm.trans hstays) (by simp)
  · obtain ⟨σ, hσ, hcons⟩ := hintact
    have hσ' : (σ.atEntry M ev.mem).core = ((c.k.atEntry M ev).atTimer M p ev.entry.saved).core :=
      (Snap.atEntry_core hσ).trans atTimer_core.symm
    obtain ⟨k', hrun, hcase⟩ := handleTimer_slice hL hσ' (hcons.atEntry M ev.mem) hcur
    rw [atTimer_saved, atTimer_intold, atTimer_slice hp', henter,
      if_congr (slice_over_iff hless) rfl rfl] at hcase
    rcases lt_or_gt_of_ne hne with hlt | hgt
    · rw [if_neg (by omega)] at hcase
      obtain ⟨hcont, hint⟩ := hcase
      refine ⟨k', hrun, iff_of_false (fun hpre => hpre.not_continues hcont) (by omega), fun _ => ?_⟩
      exact ⟨hcont, hcont.loaded hp he hrun hint⟩
    · rw [if_pos hgt] at hcase
      exact ⟨k', hrun, iff_of_true hcase hgt.le, fun hlt => by omega⟩

/-- `uarm`, with two entries in a slice. -/
def uarmSlow : Machine := uarmEvery 2000

/-- The first process creates another one and asks for its pid, in the middle of its slice; then
the timer comes after the end, and the process goes behind the new one. -/
theorem preemptsRight_iff_late : ∃ c : Config maxProc,
    c.k.gProcessCount = 2 ∧ PreemptsRight uarmSlow c timerInterrupt proc0 6000 := by
  let create : Event := sys createProcessNr 0 0 0
  let ask : Event := sys getPidNr 0 0 0
  let c₁ : Config maxProc := step uarmSlow (boot uarmSlow) create
  let c₂ : Config maxProc := step uarmSlow c₁ ask
  have hmono : Monotone uarmSlow.tod := fun _ _ h => Nat.mul_le_mul_left 2000 h
  have hp₀ : (boot uarmSlow : Config maxProc).k.gCurrentProcess = some proc0 := by decide +kernel
  have hp₁ : c₁.k.gCurrentProcess = some proc0 := by decide +kernel
  have hp₂ : c₂.k.gCurrentProcess = some proc0 := by decide +kernel
  have htake₀ : CanTake (boot uarmSlow : Config maxProc) create :=
    Config.canTake_iff.mp (by decide +kernel)
  have htake₁ : CanTake c₁ ask := Config.canTake_iff.mp (by decide +kernel)
  have htake₂ : CanTake c₂ timerInterrupt := Config.canTake_iff.mp (by decide +kernel)
  have hkeeps₀ : ((boot uarmSlow : Config maxProc).k.atEntry uarmSlow create).KeepsBlock uarmSlow
      create.entry := by
    intro p hp
    obtain rfl : proc0 = p := Option.some.inj (hp₀.symm.trans hp)
    decide +kernel
  have hkeeps₁ : (c₁.k.atEntry uarmSlow ask).KeepsBlock uarmSlow ask.entry := by
    intro p hp
    obtain rfl : proc0 = p := Option.some.inj (hp₁.symm.trans hp)
    decide +kernel
  have hused : 0 + (boot uarmSlow : Config maxProc).k.ran uarmSlow + c₁.k.ran uarmSlow +
      c₂.k.ran uarmSlow = 6000 := by decide +kernel
  have hrun : Slices uarmSlow (fun k e => k.KeepsBlock uarmSlow e) c₂ _ :=
    .stay (.stay .boot htake₀ hkeeps₀ hp₀ id) htake₁ hkeeps₁ hp₁ not_leaves_getPid
  have hlayout : Layout uarmSlow := ⟨by decide, by decide⟩
  have hreach : Reaches uarmSlow (fun k e => k.Admits uarmSlow e) c₂ _ :=
    .step (.step .boot htake₀ (.of_tame (by decide +kernel))) htake₁ (.of_tame (by decide +kernel))
  have hright := preemptsRight_iff hlayout hmono hrun htake₂ (by decide) hp₂
    (by rw [hused]; decide)
  rw [hused] at hright
  exact ⟨c₂, by decide +kernel, hright.2 (hreach.intact hlayout) (by decide)⟩

/-- `uarm`, with a clock by which the interrupt comes when the slice has just been used up. -/
def uarmExact : Machine := uarmEvery 5000

/-- The first process has used up its slice, and keeps the processor. -/
theorem not_preemptsRight : ¬ ∀ (M : Machine) (c : Config maxProc) (used : ℕ) (ev : Event)
    (p : Fin maxProc), Layout M → Monotone M.tod → Slices M (fun k e => k.Admits M e) c used →
      CanTake c ev → ev.entry.Tick M → c.k.gCurrentProcess = some p →
      used + c.k.ran M < 2 ^ 32 - schedTimeSlice.toNat →
      PreemptsRight M c ev p (used + c.k.ran M) := by
  intro hall
  have hused : 0 + (boot uarmExact : Config maxProc).k.ran uarmExact = 5000 := by decide +kernel
  obtain ⟨k', hrun, hpre, -⟩ := hall uarmExact (boot uarmExact) 0 timerInterrupt proc0
    ⟨by decide, by decide⟩ (fun _ _ h => Nat.mul_le_mul_left 5000 h) .boot
    (Config.canTake_iff.mp (by decide +kernel)) (by decide) (by decide +kernel)
    (by rw [hused]; decide)
  rw [hused] at hpre
  have hnone : k'.gCurrentProcess = none := (hpre.mpr (by decide)).idle
  have hstays : EStateM.run' (handleTimer uarmExact >>= fun _ => Kernel.gCurrentProcess <$> get)
      (((boot uarmExact : Config maxProc).k.atEntry uarmExact timerInterrupt).atTimer uarmExact proc0
        timerInterrupt.entry.saved) = some (some proc0) := by decide +kernel
  have hreturns : EStateM.run' (handleTimer uarmExact >>= fun _ => Kernel.gCurrentProcess <$> get)
      (((boot uarmExact : Config maxProc).k.atEntry uarmExact timerInterrupt).atTimer uarmExact proc0
        timerInterrupt.entry.saved) = some k'.gCurrentProcess := by
    delta EStateM.run'
    simp only [EStateM.run, bind, EStateM.bind, hrun]
    rfl
  rw [hreturns, hnone] at hstays
  exact absurd hstays (by simp)

end JaeOS
