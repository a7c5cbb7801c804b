import JaeOS.Lib.Countdown
import JaeOS.Properties.Tick
import JaeOS.Refine.Effect

/-!
# The pseudo-clock under the wrap-around of the clock

`onHandlerEnter`, `onHandlerExit` and `handleTimer` read the low word of the clock and count
`g_leftTo100` down.  A run of them is followed with the times that the words stand for: of the
last update of `g_lastUpdate`, of the last reading, and of the handler entry of the last tick.

`handleTimer` compares its reading with `g_lastUpdate`, but leaves it where it is.  So what has
to be close is a reading and the last update, not a reading and the one before.
-/

namespace JaeOS

variable {n : ℕ} {M : Machine} {k k' : Kernel n} {t : ℕ} {fresh : Bool}

/-! ### Runs -/

/-- The unwrapped times of a run. -/
structure Times where
  update : ℕ
  reading : ℕ
  tick : ℕ

namespace Times

variable (s : Times)

/-- `t` is less than `2 ^ 32 - SCHED_PSEUDO_CLOCK` after the last reading. -/
def NearReading (t : ℕ) : Prop :=
  s.reading ≤ t ∧ t - s.reading < 2 ^ 32 - schedPseudoClock.toNat

/-- `t` is less than `2 ^ 32 - SCHED_PSEUDO_CLOCK` after the last update. -/
def NearUpdate (t : ℕ) : Prop :=
  s.reading ≤ t ∧ t - s.update < 2 ^ 32 - schedPseudoClock.toNat

instance : Decidable (s.NearReading t) := inferInstanceAs (Decidable (_ ∧ _))

instance : Decidable (s.NearUpdate t) := inferInstanceAs (Decidable (_ ∧ _))

/-- After an update of `g_lastUpdate`. -/
def updated (t : ℕ) : Times := { s with update := t, reading := t }

end Times

/-- The time slice of the current process. -/
def Kernel.slice (k : Kernel n) : Word := k.gCurrentProcess.elim 0 fun p => (k.pcb p).pTimeSlice

/-- The times after `handleTimer`: it takes a second reading at the end of a slice only. -/
def Kernel.timed (M : Machine) (k : Kernel n) (s : Times) : Times :=
  let s₁ : Times := { s with
    reading := M.tod k.tods
    tick := if k.Expired M then s.update else s.tick }
  if schedTimeSlice < k.slice then s₁.updated (M.tod (k.tods + 1)) else s₁

/-- Calls of `onHandlerEnter`, `onHandlerExit` and `handleTimer`, from a state like the one
`main` builds, with other code in between that leaves the two variables alone.  `near` says
which readings can follow.  `handleTimer` comes after an `onHandlerEnter` only. -/
inductive ClockRun (M : Machine) (near : Times → ℕ → Prop) : Kernel n → Times → Bool → Prop
  | boot {k : Kernel n} (hlast : k.gLastUpdate = 0) (hleft : k.gLeftTo100 = schedPseudoClock) :
      ClockRun M near k ⟨0, 0, 0⟩ false
  | other {k k' : Kernel n} {s : Times} {fresh : Bool} (h : ClockRun M near k s fresh)
      (hleft : k'.gLeftTo100 = k.gLeftTo100) (hlast : k'.gLastUpdate = k.gLastUpdate) :
      ClockRun M near k' s fresh
  | enter {k k' : Kernel n} {s : Times} {fresh : Bool} {t : ℕ} (h : ClockRun M near k s fresh)
      (ht : near s t) (hrun : onHandlerEnter (BitVec.ofNat 32 t) k = .ok () k') :
      ClockRun M near k' (s.updated t) true
  | exit {k k' : Kernel n} {s : Times} {fresh : Bool} {t : ℕ} (flag : Bool)
      (h : ClockRun M near k s fresh) (ht : near s t)
      (hrun : onHandlerExit (BitVec.ofNat 32 t) flag k = .ok () k') :
      ClockRun M near k' (s.updated t) false
  | timer {k k' : Kernel n} {s : Times} (h : ClockRun M near k s true)
      (ht : near s (M.tod k.tods))
      (hslice : schedTimeSlice < k.slice →
        near { s with reading := M.tod k.tods } (M.tod (k.tods + 1)))
      (hrun : handleTimer M k = .ok () k') : ClockRun M near k' (k.timed M s) false

/-! ### The functions -/

/-- The tick in `handleTimer`. -/
def tick (M : Machine) : K n Unit := do
  modify fun k => { k with gLeftTo100 := schedPseudoClock }
  tickLoop M ((← get).gPseudoClockBlk.toNat + 1)

/-- **`handleTimer` ticks if `g_leftTo100` is over**, and then looks at the time slice. -/
theorem pseudoClock_eq : (pseudoClock M : K n Unit) k =
    (if k.Expired M then tick M else pure ()) { k with tods := k.tods + 1 } := by
  generalize hr : (if k.Expired M then tick M else pure () : K n Unit) { k with tods := k.tods + 1 } = r
  refine (wp_iff_eq.mp ?_).symm
  rw [pseudoClock, getTODLO]
  simp only [wp_bind, wp_get, wp_set, wp_pure, wp_ite, wp_modify]
  by_cases hexp : k.Expired M
  · rw [if_pos hexp] at hr
    rw [if_pos (show _ ∨ _ from hexp), wp_iff_eq]
    exact hr.symm
  · rw [if_neg hexp] at hr
    rw [if_neg (show ¬ (_ ∨ _) from hexp)]
    exact hr.symm

theorem onHandlerEnter_clock {x : Word} (h : onHandlerEnter x k = .ok () k') :
    k'.gLeftTo100 = Countdown.run schedPseudoClock k.gLeftTo100 (x - k.gLastUpdate) ∧
      k'.gLastUpdate = x := by
  injection h with _ h
  rw [← h]
  cases hp : k.gCurrentProcess with
  | none =>
    simp only [hp]
    exact ⟨rfl, rfl⟩
  | some p =>
    simp only [hp]
    exact ⟨rfl, rfl⟩

theorem onHandlerExit_clock {x : Word} {flag : Bool} (h : onHandlerExit x flag k = .ok () k') :
    k'.gLeftTo100 = Countdown.run schedPseudoClock k.gLeftTo100 (x - k.gLastUpdate) ∧
      k'.gLastUpdate = x := by
  injection h with _ h
  rw [← h]
  cases flag with
  | false => exact ⟨rfl, rfl⟩
  | true =>
    cases hp : k.gCurrentProcess with
    | none =>
      simp only [hp]
      exact ⟨rfl, rfl⟩
    | some p =>
      simp only [hp]
      exact ⟨rfl, rfl⟩

theorem onExit_left (flag : Bool) : (k.onExit M flag).gLeftTo100 =
    Countdown.run schedPseudoClock k.gLeftTo100 (k.elapsed M) := by
  rcases onExit_cases k flag with h | ⟨rfl, p, h⟩
  · rw [onExit_free h]
    rfl
  · rw [onExit_some h]
    rfl

/-- The variables of the clock and the time slice, in the middle of `handleTimer`. -/
structure Clockwork (left last : Word) (i : ℕ) (slice : Word) (k : Kernel n) : Prop where
  left : k.gLeftTo100 = left
  last : k.gLastUpdate = last
  tods : k.tods = i
  slice : k.slice = slice

theorem aside_clockwork (left last : Word) (i : ℕ) (slice : Word) :
    Aside (Clockwork (n := n) left last i slice) (fun _ _ => True) where
  rest h hr := by
    refine ⟨(congrArg Rest.gLeftTo100 hr).trans h.left, (congrArg Rest.gLastUpdate hr).trans h.last,
      (congrArg Rest.tods hr).trans h.tods, ?_⟩
    have hpcb := congrArg Rest.pcb hr
    have hcur := congrArg Rest.gCurrentProcess hr
    rw [← h.slice, Kernel.slice, Kernel.slice]
    exact congrArg₂ (fun c f => Option.elim c 0 fun p => (f p : Pcb).pTimeSlice) hcur hpcb
  stop _ _ := trivial

theorem wp_pseudoClock_clockwork : wp (pseudoClock M)
    (fun _ => Clockwork (if k.Expired M then schedPseudoClock else k.gLeftTo100) k.gLastUpdate
      (k.tods + 1) k.slice) (fun _ _ => True) k := by
  rw [pseudoClock, getTODLO]
  simp only [wp_bind, wp_get, wp_set, wp_pure, wp_ite, wp_modify]
  by_cases hexp : k.Expired M
  · rw [if_pos (show _ ∨ _ from hexp), if_pos hexp]
    have hkeeps : Keeps (With (Clockwork schedPseudoClock k.gLastUpdate (k.tods + 1) k.slice)
        k.gCurrentProcess) _ (tickLoop M (k.gPseudoClockBlk.toNat + 1)) :=
      (aside_clockwork _ _ _ _).tickLoop fun k' h => ⟨h.left, h.last, h.tods, h.slice⟩
    refine wp_mono (hkeeps _ ⟨⟨rfl, rfl, rfl, rfl⟩, rfl⟩) (fun _ _ h => h.1) (fun _ _ h => h)
  · rw [if_neg (show ¬ (_ ∨ _) from hexp), if_neg hexp]
    exact ⟨rfl, rfl, rfl, rfl⟩

/-- The second half of `handleTimer` reads the clock at the end of a slice only. -/
theorem wp_timeSlice_clockwork {left last slice : Word} {i : ℕ} (h : Clockwork left last i slice k) :
    wp (timeSlice M) (fun _ k' =>
      k'.gLeftTo100 = (if schedTimeSlice < slice then
        Countdown.run schedPseudoClock left (BitVec.ofNat 32 (M.tod i) - last) else left) ∧
      k'.gLastUpdate = if schedTimeSlice < slice then BitVec.ofNat 32 (M.tod i) else last)
      (fun _ _ => True) k := by
  obtain ⟨rfl, rfl, rfl, rfl⟩ := h
  rw [timeSlice, wp_bind]
  cases hcur : k.gCurrentProcess with
  | none =>
    have hslice : k.slice = 0 := by rw [Kernel.slice, hcur]; rfl
    rw [hslice, if_neg (by decide), if_neg (by decide), currentSlice, wp_bind, wp_get, hcur]
    refine wp_if (fun _ => ?_) (fun _ => ⟨rfl, rfl⟩)
    rw [← bind_assoc, wp_bind, wp_onExit, wp_bind, wp_get, onExit_current]
    show wp _ _ _ _
    rw [show ({ k with nullRead := true } : Kernel n).gCurrentProcess = none from hcur]
    trivial
  | some p =>
    have hslice : k.slice = (k.pcb p).pTimeSlice := by rw [Kernel.slice, hcur]; rfl
    rw [hslice, currentSlice, wp_bind, wp_get, hcur]
    refine wp_if (fun hlate => ?_) (fun hearly => ?_)
    · rw [if_pos hlate, if_pos hlate, ← bind_assoc, wp_bind, wp_onExit, wp_bind, wp_get,
        onExit_current, hcur]
      exact ⟨onExit_left true, onExit_last true⟩
    · rw [if_neg hearly, if_neg hearly]
      exact ⟨rfl, rfl⟩

theorem handleTimer_clock (h : handleTimer M k = .ok () k') :
    k'.gLeftTo100 = (if schedTimeSlice < k.slice then
      Countdown.run schedPseudoClock (if k.Expired M then schedPseudoClock else k.gLeftTo100)
        (BitVec.ofNat 32 (M.tod (k.tods + 1)) - k.gLastUpdate)
      else if k.Expired M then schedPseudoClock else k.gLeftTo100) ∧
    k'.gLastUpdate =
      if schedTimeSlice < k.slice then BitVec.ofNat 32 (M.tod (k.tods + 1)) else k.gLastUpdate := by
  have hw : wp (pseudoClock M >>= fun _ => timeSlice M) _ (fun _ _ => True) k :=
    wp_bind.mpr (wp_mono wp_pseudoClock_clockwork (fun _ _ hw => wp_timeSlice_clockwork (M := M) hw)
      fun _ _ h => h)
  exact (wp_of_ok h).mp hw

/-! ### The invariant -/

/-- The variables of the clock stand for the times. -/
structure Kernel.Counts (k : Kernel n) (s : Times) : Prop where
  tick : s.tick ≤ s.update
  reading : s.update ≤ s.reading
  last : k.gLastUpdate = BitVec.ofNat 32 s.update
  left : k.gLeftTo100.toNat = schedPseudoClock.toNat - (s.update - s.tick)

namespace Kernel.Counts

variable {s : Times}

theorem left_le (h : k.Counts s) : k.gLeftTo100 ≤ schedPseudoClock := by
  rw [BitVec.le_def, h.left]
  exact Nat.sub_le _ _

theorem elapsed (h : k.Counts s) (ht : s.NearUpdate t) :
    (BitVec.ofNat 32 t - k.gLastUpdate).toNat = t - s.update ∧
      (BitVec.ofNat 32 t - k.gLastUpdate).toNat + schedPseudoClock.toNat < 2 ^ 32 := by
  have hut : s.update ≤ t := h.reading.trans ht.1
  have hlt : t - s.update < 2 ^ 32 - schedPseudoClock.toNat := ht.2
  have hsub := Countdown.toNat_sub_ofNat (w := 32) hut (hlt.trans_le (Nat.sub_le _ _))
  rw [h.last, hsub]
  exact ⟨rfl, by omega⟩

/-- **An update keeps them**, whatever the time since the one before. -/
theorem updated (h : k.Counts s) (ht : s.NearUpdate t)
    (hleft : k'.gLeftTo100 =
      Countdown.run schedPseudoClock k.gLeftTo100 (BitVec.ofNat 32 t - k.gLastUpdate))
    (hlast : k'.gLastUpdate = BitVec.ofNat 32 t) : k'.Counts (s.updated t) := by
  obtain ⟨hsub, hless⟩ := h.elapsed ht
  have hut : s.update ≤ t := h.reading.trans ht.1
  have htick := h.tick
  refine ⟨htick.trans hut, le_rfl, hlast, ?_⟩
  rw [hleft, Countdown.toNat_run h.left_le hless, hsub, h.left]
  show _ = schedPseudoClock.toNat - (t - s.tick)
  omega

/-- **The test in `handleTimer` compares the time since the last tick.** -/
theorem expired_iff (h : k.Counts s) (ht : s.NearUpdate (M.tod k.tods)) :
    k.Expired M ↔ schedPseudoClock.toNat ≤ M.tod k.tods - s.tick := by
  obtain ⟨hsub, hless⟩ := h.elapsed ht
  have hut : s.update ≤ M.tod k.tods := h.reading.trans ht.1
  have htick := h.tick
  have hover := Countdown.over_iff h.left_le hless
  rw [hsub, h.left] at hover
  rw [show k.Expired M ↔ _ from hover]
  omega

/-- **`handleTimer` keeps them.**  The tick counts from the last update, not from the reading. -/
theorem timed (h : k.Counts s) (ht : s.NearUpdate (M.tod k.tods))
    (hslice : schedTimeSlice < k.slice →
      Times.NearUpdate { s with reading := M.tod k.tods } (M.tod (k.tods + 1)))
    (hrun : handleTimer M k = .ok () k') : k'.Counts (k.timed M s) := by
  obtain ⟨hleft, hlast⟩ := handleTimer_clock hrun
  have hut : s.update ≤ M.tod k.tods := h.reading.trans ht.1
  obtain ⟨left, hl⟩ : ∃ left, (if k.Expired M then schedPseudoClock else k.gLeftTo100) = left :=
    ⟨_, rfl⟩
  have hmid : Counts { k with gLeftTo100 := left } { s with
      reading := M.tod k.tods, tick := if k.Expired M then s.update else s.tick } := by
    by_cases hexp : k.Expired M
    · rw [if_pos hexp] at hl ⊢
      exact ⟨le_rfl, hut, h.last, by rw [← hl, Nat.sub_self, Nat.sub_zero]⟩
    · rw [if_neg hexp] at hl ⊢
      exact ⟨h.tick, hut, h.last, by rw [← hl]; exact h.left⟩
  rw [hl] at hleft
  rw [Kernel.timed]
  by_cases hlate : schedTimeSlice < k.slice
  · rw [if_pos hlate] at hleft hlast ⊢
    exact hmid.updated (hslice hlate) hleft hlast
  · rw [if_neg hlate] at hleft hlast ⊢
    exact ⟨hmid.tick, hmid.reading, hlast.trans h.last, by rw [hleft]; exact hmid.left⟩

end Kernel.Counts

/-- **The variables stand for the times in every run.** -/
theorem clockRun_counts {s : Times} (h : ClockRun M Times.NearUpdate k s fresh) : k.Counts s := by
  induction h with
  | boot hlast hleft => exact ⟨le_rfl, le_rfl, hlast, by rw [hleft]; rfl⟩
  | other _ hleft hlast ih => exact ⟨ih.tick, ih.reading, hlast.trans ih.last, by rw [hleft, ih.left]⟩
  | enter _ ht hrun ih =>
    obtain ⟨hleft, hlast⟩ := onHandlerEnter_clock hrun
    exact ih.updated ht hleft hlast
  | exit _ _ ht hrun ih =>
    obtain ⟨hleft, hlast⟩ := onHandlerExit_clock hrun
    exact ih.updated ht hleft hlast
  | timer _ ht hslice hrun ih => exact ih.timed ht hslice hrun

/-! ### The pseudo-clock -/

/-- **The pseudo-clock is exact under wrap-around**, in every run where each reading is less than
`2 ^ 32 - SCHED_PSEUDO_CLOCK` after the last update of `g_lastUpdate`: `g_leftTo100` is what is
left of the interval since the last tick, and `handleTimer` ticks exactly when the interval is
over. -/
theorem pseudoClock_exact {s : Times} (h : ClockRun M Times.NearUpdate k s fresh) :
    k.gLeftTo100.toNat = schedPseudoClock.toNat - (s.update - s.tick) ∧
      k.gLeftTo100 ≤ schedPseudoClock ∧
      (fresh = true → s.NearUpdate (M.tod k.tods) → handleTimer M k =
        ((if schedPseudoClock.toNat ≤ M.tod k.tods - s.tick then tick M else pure ()) >>=
          fun _ => timeSlice M) { k with tods := k.tods + 1 }) := by
  have hc := clockRun_counts h
  refine ⟨hc.left, hc.left_le, fun _ ht => ?_⟩
  rw [handleTimer]
  show EStateM.bind _ _ _ = EStateM.bind _ _ _
  rw [EStateM.bind, EStateM.bind, pseudoClock_eq, if_congr (hc.expired_iff ht) rfl rfl]

/-- The variables as `main` sets them. -/
def clockStart : Kernel maxProc := { Kernel.static maxProc with gLeftTo100 := schedPseudoClock }

/-- The handler is entered at the end of the interval. -/
def clockEntered : Kernel maxProc := clockStart.updateTimer 100000 100000

/-- And the tick comes after it. -/
def clockTicked : Kernel maxProc :=
  { clockEntered with gLeftTo100 := schedPseudoClock, tods := 1, nullRead := true }

/-- `uarm`, with one reading of the clock at a given time. -/
def uarmAt (t : ℕ) : Machine := { uarm with tod := fun _ => t }

theorem clockRun_entered {near : Times → ℕ → Prop} (h : near ⟨0, 0, 0⟩ 100000) :
    ClockRun M near clockEntered ⟨100000, 100000, 0⟩ true :=
  .enter (.boot (k := clockStart) rfl rfl) h rfl

theorem pseudoClock_exact_entered :
    handleTimer (uarmAt 100010) clockEntered =
      (tick (uarmAt 100010) >>= fun _ => timeSlice (uarmAt 100010))
        { clockEntered with tods := 1 } :=
  (pseudoClock_exact (clockRun_entered (by decide))).2.2 rfl (by decide)

/-- A handler that reads the clock shortly before it wraps, and is left after that. -/
theorem not_pseudoClock_exact : ¬ ∀ (M : Machine) (k : Kernel maxProc) (s : Times) (fresh : Bool),
    ClockRun M Times.NearReading k s fresh →
      k.gLeftTo100.toNat = schedPseudoClock.toNat - (s.update - s.tick) := by
  intro h
  have htimer : ClockRun (uarmAt (2 ^ 32 - 1)) Times.NearReading clockTicked
      ⟨100000, 2 ^ 32 - 1, 100000⟩ false :=
    .timer (clockRun_entered (by decide)) (by decide) (fun hlate => absurd hlate (by decide)) rfl
  have hexit := htimer.exit (t := 2 ^ 32 + 100001) false (by decide) rfl
  exact absurd (h _ _ _ _ hexit) (by decide)

end JaeOS
