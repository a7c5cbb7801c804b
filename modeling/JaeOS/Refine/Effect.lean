import JaeOS.Refine.Handler
import Mathlib.Order.Monotone.Basic

/-!
# What an entry does beside the lists

One statement for all entries, in any state: which process is charged for how much, which
saved states are written, and what is left of a time slice when a process goes on.  The
block that `createProcess` hands out is the only one it says nothing of.
-/

namespace JaeOS

open Function (update)

variable {n : ℕ} {M : Machine} {k k' k₀ : Kernel n} {p q : Fin n} {e : Entry}
  {R : Kernel n → Prop} {E : Stop → Kernel n → Prop} {s : Stop} {flag : Bool}

/-! ### The relations -/

/-- What is kept from the entry on: the time since then is charged, in `x`
microseconds up to some reading of the clock, to the process that was current. -/
structure Kept (M : Machine) (k : Kernel n) (e : Entry) (k' : Kernel n) : Prop where
  flag : k'.bySysHdl = false
  tods : k.tods < k'.tods
  abs : ¬ e.Sys M createProcessNr → k'.absProcessCount = k.absProcessCount
  blk : ¬ e.Tick M → ¬ e.Sys M waitClockNr → k'.gPseudoClockBlk = k.gPseudoClockBlk
  pid : ∀ q, k.born M e ≠ some q → (k'.pcb q).pPid = (k.pcb q).pPid
  user : ∀ q, k.born M e ≠ some q → (k'.pcb q).pUserTime = ((k.onEnter M).pcb q).pUserTime
  oldArea : ∀ q, k.born M e ≠ some q → ∀ h, (k.gCurrentProcess = some q → e.saves M ≠ some h) →
    ((k'.pcb q).area h).oldArea = ((k.pcb q).area h).oldArea
  charged : Monotone M.tod → ∃ i x, k.tods ≤ i ∧ i < k'.tods ∧ x + M.tod k.tods ≤ M.tod i ∧
    k'.gLastUpdate = BitVec.ofNat 32 (M.tod i) ∧
    ∀ q, k.born M e ≠ some q → (k'.pcb q).pGlobalTime = ((k.onEnter M).pcb q).pGlobalTime +
      if k.gCurrentProcess = some q then BitVec.ofNat 32 x else 0

structure Work (M : Machine) (k : Kernel n) (e : Entry) (k' : Kernel n) : Prop
    extends Kept M k e k' where
  current : k'.gCurrentProcess = k.gCurrentProcess ∨ k'.gCurrentProcess = none
  slice : ∀ q, k.born M e ≠ some q → (k'.pcb q).pTimeSlice = ((k.onEnter M).pcb q).pTimeSlice

/-- What the timer is set to: the rest of the pseudo-clock interval or of the time slice,
whichever comes first. -/
def Kernel.shot (k : Kernel n) : Word :=
  match k.gCurrentProcess with
  | some p => if k.gLeftTo100 < (k.pcb p).pTimeSlice then k.gLeftTo100 else (k.pcb p).pTimeSlice
  | none => k.gLeftTo100

/-- The processor is handed over: the last time hook has just run. -/
structure Handed (M : Machine) (s : Stop) (k' : Kernel n) : Prop where
  hooked : k'.gLastUpdate = BitVec.ofNat 32 (M.tod (k'.tods - 1))
  timer : k'.timer = k'.shot
  running : ∀ x, s = .ldst x → ∃ q, k'.gCurrentProcess = some q
  idle : s = .wait → k'.gCurrentProcess = none

/-- What an entry has done when a process goes on, or the processor waits. -/
structure Passed (M : Machine) (k : Kernel n) (e : Entry) (s : Stop) (k' : Kernel n) : Prop
    extends Kept M k e k', Handed M s k' where
  stays : ∀ p, k.gCurrentProcess = some p → ¬ k.Leaves M p e → k'.gCurrentProcess = some p ∧
    (k.born M e ≠ some p → (k'.pcb p).pTimeSlice = ((k.onEnter M).pcb p).pTimeSlice)
  fresh : (∀ p, k.gCurrentProcess = some p → k.Leaves M p e) →
    ∀ q, k'.gCurrentProcess = some q → (k'.pcb q).pTimeSlice = schedTimeSlice

/-- The stops after which the kernel is entered again. -/
def Stop.Live (s : Stop) : Prop := (∃ x, s = .ldst x) ∨ s = .wait

theorem Stop.Plain.not_live (h : s.Plain) : ¬ s.Live := by
  rintro (⟨x, rfl⟩ | rfl)
  · exact h
  · exact h

theorem not_live_fault (f : Fault) : ¬ (Stop.fault f).Live := by
  rintro (⟨x, hx⟩ | hx)
  · exact absurd hx (by simp)
  · exact absurd hx (by simp)

/-! ### The time hooks -/

theorem onExit_tods (flag : Bool) : (k.onExit M flag).tods = k.tods + 1 := by
  rcases onExit_cases k flag with h | ⟨rfl, p, h⟩
  · rw [onExit_free h]
    rfl
  · rw [onExit_some h]
    rfl

theorem onExit_last (flag : Bool) :
    (k.onExit M flag).gLastUpdate = BitVec.ofNat 32 (M.tod k.tods) := by
  rcases onExit_cases k flag with h | ⟨rfl, p, h⟩
  · rw [onExit_free h]
    rfl
  · rw [onExit_some h]
    rfl

theorem onEnter_tods : (k.onEnter M).tods = k.tods + 1 := by
  rcases Option.eq_none_or_eq_some k.gCurrentProcess with h | ⟨p, h⟩
  · rw [onEnter_none h]
    rfl
  · rw [onEnter_some h]
    rfl

theorem onEnter_last : (k.onEnter M).gLastUpdate = BitVec.ofNat 32 (M.tod k.tods) := by
  rcases Option.eq_none_or_eq_some k.gCurrentProcess with h | ⟨p, h⟩
  · rw [onEnter_none h]
    rfl
  · rw [onEnter_some h]
    rfl

theorem onEnter_abs : (k.onEnter M).absProcessCount = k.absProcessCount := by
  rcases Option.eq_none_or_eq_some k.gCurrentProcess with h | ⟨p, h⟩
  · rw [onEnter_none h]
    rfl
  · rw [onEnter_some h]
    rfl

theorem updateTimer_timer (t x : Word) : (k.updateTimer t x).timer = (k.updateTimer t x).shot := rfl

theorem onExit_timer (flag : Bool) : (k.onExit M flag).timer = (k.onExit M flag).shot := by
  rcases onExit_cases k flag with h | ⟨rfl, p, h⟩
  · rw [onExit_free h, updateTimer_timer]
  · rw [onExit_some h, updateTimer_timer]

theorem Kernel.shot_congr (h : k'.rest = k.rest) : k'.shot = k.shot := by
  have hp : k'.gCurrentProcess = k.gCurrentProcess := congrArg Rest.gCurrentProcess h
  have hl : k'.gLeftTo100 = k.gLeftTo100 := congrArg Rest.gLeftTo100 h
  have hb : k'.pcb = k.pcb := congrArg Rest.pcb h
  rw [Kernel.shot, Kernel.shot, hp, hl, hb]

theorem onExit_abs (flag : Bool) : (k.onExit M flag).absProcessCount = k.absProcessCount := by
  rcases onExit_cases k flag with h | ⟨rfl, p, h⟩
  · rw [onExit_free h]
    rfl
  · rw [onExit_some h]
    rfl

theorem ofNat_sub_ofNat {a b : ℕ} (h : a ≤ b) :
    BitVec.ofNat 32 b - BitVec.ofNat 32 a = BitVec.ofNat 32 (b - a) := by
  obtain ⟨d, rfl⟩ := Nat.exists_eq_add_of_le h
  rw [Nat.add_sub_cancel_left, BitVec.ofNat_add, BitVec.add_comm, BitVec.add_sub_cancel]

/-! ### What is kept -/

namespace Kept

theorem congr (h : Kept M k e k₀) (hr : k'.rest = k₀.rest) : Kept M k e k' := by
  have hpcb : k'.pcb = k₀.pcb := congrArg Rest.pcb hr
  have htods : k'.tods = k₀.tods := congrArg Rest.tods hr
  have hlast : k'.gLastUpdate = k₀.gLastUpdate := congrArg Rest.gLastUpdate hr
  refine ⟨(congrArg Rest.bySysHdl hr).trans h.flag, ?_, ?_, ?_, ?_, ?_, ?_, ?_⟩
  · rw [htods]
    exact h.tods
  · exact fun hnr => (congrArg Rest.absProcessCount hr).trans (h.abs hnr)
  · exact fun ht hnr => (congrArg Rest.gPseudoClockBlk hr).trans (h.blk ht hnr)
  · rw [hpcb]
    exact h.pid
  · rw [hpcb]
    exact h.user
  · rw [hpcb]
    exact h.oldArea
  · rw [hpcb, htods, hlast]
    exact h.charged

/-- The last time hook charges nobody but the process that was current at the entry. -/
theorem onExit (h : Kept M k e k₀)
    (hcur : flag = true → ∀ q, k₀.gCurrentProcess = some q → k.gCurrentProcess = some q) :
    Kept M k e (k₀.onExit M flag) := by
  have hpcb : ∀ q, (k₀.onExit M flag).pcb q = { k₀.pcb q with
      pGlobalTime := ((k₀.onExit M flag).pcb q).pGlobalTime } := by
    intro q
    rw [onExit_pcb]
    split_ifs <;> rfl
  refine ⟨(beside_onExit flag).bySysHdl.trans h.flag, ?_, ?_, ?_, ?_, ?_, ?_, ?_⟩
  · rw [onExit_tods]
    exact Nat.lt_succ_of_lt h.tods
  · exact fun hnr => (onExit_abs flag).trans (h.abs hnr)
  · exact fun ht hnr => (beside_onExit flag).gPseudoClockBlk.trans (h.blk ht hnr)
  · intro q hq
    rw [hpcb]
    exact h.pid q hq
  · intro q hq
    rw [hpcb]
    exact h.user q hq
  · intro q hq hdl hsaves
    rw [hpcb, ← h.oldArea q hq hdl hsaves]
    cases hdl <;> rfl
  · intro hmono
    obtain ⟨i, x, hi, hlt, hx, hlast, hglobal⟩ := h.charged hmono
    have hle : M.tod i ≤ M.tod k₀.tods := hmono (Nat.le_of_lt hlt)
    have helapsed : k₀.elapsed M = BitVec.ofNat 32 (M.tod k₀.tods - M.tod i) := by
      rw [Kernel.elapsed, hlast, ofNat_sub_ofNat hle]
    by_cases hcharge : flag = true ∧ ∃ p, k₀.gCurrentProcess = some p
    · obtain ⟨htrue, p, hp⟩ := hcharge
      have hkp := hcur htrue p hp
      refine ⟨k₀.tods, x + (M.tod k₀.tods - M.tod i), ?_, ?_, by omega, onExit_last flag, ?_⟩
      · exact Nat.le_of_lt h.tods
      · rw [onExit_tods]
        exact Nat.lt_succ_self _
      intro q hq
      rw [onExit_pcb]
      by_cases hqp : q = p
      · subst hqp
        have hglobal' := hglobal q hq
        rw [if_pos hkp] at hglobal'
        rw [if_pos ⟨htrue, hp⟩, if_pos hkp, BitVec.ofNat_add, ← BitVec.add_assoc, ← hglobal',
          ← helapsed]
      · have hne : k₀.gCurrentProcess ≠ some q := fun hq' =>
          hqp (Option.some.inj (hq'.symm.trans hp))
        have hne' : k.gCurrentProcess ≠ some q := fun hq' =>
          hqp (Option.some.inj (hq'.symm.trans hkp))
        rw [if_neg (fun hc => hne hc.2), if_neg hne', hglobal q hq, if_neg hne']
    · refine ⟨k₀.tods, x, Nat.le_of_lt h.tods, ?_, hx.trans hle, onExit_last flag, ?_⟩
      · rw [onExit_tods]
        exact Nat.lt_succ_self _
      intro q hq
      rw [onExit_pcb, if_neg (fun hc => hcharge ⟨hc.1, q, hc.2⟩)]
      exact hglobal q hq

theorem pick (h : Kept M k e k₀) (q : Fin n) (w : Word) :
    Kept M k e (Kernel.setPcb { k₀ with gCurrentProcess := some q } q
      fun c => { c with pTimeSlice := w }) := by
  have hpcb : ∀ q', (Kernel.setPcb { k₀ with gCurrentProcess := some q } q
      fun c => { c with pTimeSlice := w }).pcb q' = { k₀.pcb q' with
        pTimeSlice := ((Kernel.setPcb { k₀ with gCurrentProcess := some q } q
          fun c => { c with pTimeSlice := w }).pcb q').pTimeSlice } := by
    intro q'
    by_cases hq : q' = q
    · rw [hq, setPcb_pcb_self]
    · rw [setPcb_pcb_of_ne _ _ hq]
  refine ⟨h.flag, h.tods, h.abs, h.blk, ?_, ?_, ?_, ?_⟩
  · intro q' hq
    rw [hpcb]
    exact h.pid q' hq
  · intro q' hq
    rw [hpcb]
    exact h.user q' hq
  · intro q' hq hdl hsaves
    rw [hpcb, ← h.oldArea q' hq hdl hsaves]
    cases hdl <;> rfl
  · intro hmono
    obtain ⟨i, x, hi, hlt, hx, hlast, hglobal⟩ := h.charged hmono
    refine ⟨i, x, hi, hlt, hx, hlast, fun q' hq => ?_⟩
    rw [hpcb]
    exact hglobal q' hq

theorem setPcb (h : Kept M k e k₀) {f : Pcb → Pcb}
    (hf : k.born M e ≠ some p → Pcb.Own {hdl | k.gCurrentProcess = some p ∧ e.saves M = some hdl} Set.univ
      (k₀.pcb p) { f (k₀.pcb p) with pS := (k₀.pcb p).pS }) :
    Kept M k e (k₀.setPcb p f) := by
  refine ⟨h.flag, h.tods, h.abs, h.blk, ?_, ?_, ?_, ?_⟩
  · intro q hq
    by_cases hqp : q = p
    · subst hqp
      rw [setPcb_pcb_self, ← h.pid q hq]
      exact (hf hq).pPid
    · rw [setPcb_pcb_of_ne _ _ hqp]
      exact h.pid q hq
  · intro q hq
    by_cases hqp : q = p
    · subst hqp
      rw [setPcb_pcb_self, ← h.user q hq]
      exact (hf hq).pUserTime
    · rw [setPcb_pcb_of_ne _ _ hqp]
      exact h.user q hq
  · intro q hq hdl hsaves
    by_cases hqp : q = p
    · subst hqp
      rw [setPcb_pcb_self, ← h.oldArea q hq hdl hsaves]
      have hold := (hf hq).oldArea hdl (fun hw => hsaves hw.1 hw.2)
      cases hdl <;> exact hold
    · rw [setPcb_pcb_of_ne _ _ hqp]
      exact h.oldArea q hq hdl hsaves
  · intro hmono
    obtain ⟨i, x, hi, hlt, hx, hlast, hglobal⟩ := h.charged hmono
    refine ⟨i, x, hi, hlt, hx, hlast, fun q hq => ?_⟩
    by_cases hqp : q = p
    · subst hqp
      rw [setPcb_pcb_self, ← hglobal q hq]
      exact (hf hq).pGlobalTime
    · rw [setPcb_pcb_of_ne _ _ hqp]
      exact hglobal q hq

end Kept

/-! ### Between the hooks -/

namespace Work

theorem congr (h : Work M k e k₀) (hr : k'.rest = k₀.rest) : Work M k e k' := by
  have hpcb : k'.pcb = k₀.pcb := congrArg Rest.pcb hr
  refine ⟨h.toKept.congr hr, ?_, ?_⟩
  · rw [show k'.gCurrentProcess = k₀.gCurrentProcess from congrArg Rest.gCurrentProcess hr]
    exact h.current
  · rw [hpcb]
    exact h.slice

theorem current_of_some (h : Work M k e k₀) (hq : k₀.gCurrentProcess = some q) :
    k.gCurrentProcess = some q := by
  rcases h.current with hc | hc
  · exact hc.symm.trans hq
  · exact absurd (hc.symm.trans hq) (by simp)

theorem save (h : Work M k e k₀) (x : ProcState → ProcState) :
    Work M k e (k₀.setPcb p fun c => { c with pS := x c.pS }) := by
  refine ⟨h.toKept.setPcb (fun _ => ⟨rfl, rfl, rfl, rfl, rfl, fun hdl _ => ?_, fun hdl => .inl ?_⟩),
    h.current, ?_⟩
  · cases hdl <;> rfl
  · cases hdl <;> rfl
  · intro q hq
    rw [← h.slice q hq]
    by_cases hqp : q = p
    · subst hqp
      rw [setPcb_pcb_self]
    · rw [setPcb_pcb_of_ne _ _ hqp]

/-- **The work of an entry** is a walk. -/
theorem walk (hE : ∀ s k', s.Plain → E s k') :
    Walk M {hdl | e.saves M = some hdl} Set.univ (Work M k e) E where
  rest h hr := h.congr hr
  read := by
    intro k₀ h
    refine ⟨⟨h.flag, Nat.lt_succ_of_lt h.tods, h.abs, h.blk, h.pid, h.user, h.oldArea, ?_⟩,
      h.current, h.slice⟩
    intro hmono
    obtain ⟨i, x, hi, hlt, hrest⟩ := h.charged hmono
    exact ⟨i, x, hi, Nat.lt_succ_of_lt hlt, hrest⟩
  exit := by
    intro k₀ flag h
    refine ⟨h.toKept.onExit (fun _ q hq => h.current_of_some hq), ?_, ?_⟩
    · rw [onExit_current]
      exact h.current
    · intro q hq
      rw [← h.slice q hq, onExit_pcb]
      split_ifs <;> rfl
  own := by
    intro k₀ p f h hp hf
    refine ⟨h.toKept.setPcb (fun _ => ?_), h.current, ?_⟩
    · refine ⟨hf.pPid, rfl, hf.pGlobalTime, hf.pUserTime, hf.pTimeSlice, fun hdl hw => ?_, fun hdl => ?_⟩
      · have hold := hf.oldArea hdl (fun hs => hw ⟨h.current_of_some hp, hs⟩)
        cases hdl <;> exact hold
      · have hnew := (hf.newArea hdl).imp_right
          (Or.imp_left (And.imp_left fun hs => (⟨h.current_of_some hp, hs⟩ : _ ∧ _)))
        cases hdl <;> exact hnew
    · intro q hq
      rw [← h.slice q hq]
      by_cases hqp : q = p
      · subst hqp
        rw [setPcb_pcb_self]
        exact hf.pTimeSlice
      · rw [setPcb_pcb_of_ne _ _ hqp]
  idle h := ⟨⟨h.flag, h.tods, h.abs, h.blk, h.pid, h.user, h.oldArea, h.charged⟩, .inr rfl, h.slice⟩
  stop _ hs := hE _ _ hs

theorem start (hby : k.bySysHdl = false) (hr : { k₀.rest with pcb := k.pcb } = k.rest)
    (hpcb : ∀ q, k₀.pcb q = { k.pcb q with pS := (k₀.pcb q).pS }) :
    Work M k e (k₀.onEnter M) := by
  have hcur : k₀.gCurrentProcess = k.gCurrentProcess := congrArg Rest.gCurrentProcess hr
  have htods : k₀.tods = k.tods := congrArg Rest.tods hr
  have hlast : k₀.gLastUpdate = k.gLastUpdate := congrArg Rest.gLastUpdate hr
  have helapsed : k₀.elapsed M = k.elapsed M := by rw [Kernel.elapsed, Kernel.elapsed, htods, hlast]
  have hblock : ∀ q, (k₀.onEnter M).pcb q = { (k.onEnter M).pcb q with pS := (k₀.pcb q).pS } := by
    intro q
    rw [onEnter_pcb, onEnter_pcb, hcur, helapsed, hpcb q]
    split_ifs <;> rfl
  have hentered : ∀ q, ((k.onEnter M).pcb q).pPid = (k.pcb q).pPid ∧
      ∀ hdl, ((k.onEnter M).pcb q).area hdl = (k.pcb q).area hdl := by
    intro q
    rw [onEnter_pcb]
    split_ifs
    · exact ⟨rfl, fun hdl => by cases hdl <;> rfl⟩
    · exact ⟨rfl, fun _ => rfl⟩
  have hflag : (k₀.onEnter M).bySysHdl = false :=
    beside_onEnter.bySysHdl.trans ((congrArg Rest.bySysHdl hr).trans hby)
  refine ⟨⟨hflag, ?_, ?_, ?_, ?_, ?_, ?_, ?_⟩, ?_, ?_⟩
  · rw [onEnter_tods, htods]
    exact Nat.lt_succ_self _
  · exact fun _ => onEnter_abs.trans (congrArg Rest.absProcessCount hr)
  · exact fun _ _ => beside_onEnter.gPseudoClockBlk.trans (congrArg Rest.gPseudoClockBlk hr)
  · intro q _
    rw [hblock]
    exact (hentered q).1
  · intro q _
    rw [hblock]
  · intro q _ hdl _
    rw [hblock, ← (hentered q).2 hdl]
    cases hdl <;> rfl
  · intro _
    refine ⟨k.tods, 0, le_rfl, ?_, by omega, ?_, ?_⟩
    · rw [onEnter_tods, htods]
      exact Nat.lt_succ_self _
    · rw [onEnter_last, htods]
    · intro q _
      rw [hblock]
      simp
  · rw [onEnter_current, hcur]
    exact .inl rfl
  · intro q _
    rw [hblock]

end Work

/-! ### Whole entries -/

theorem Schedules.handed (h : Schedules M k₀ s k') (hlive : s.Live) (hnone : k₀.gCurrentProcess = none) :
    Handed M s k' ∧ ∀ q, k'.gCurrentProcess = some q → (k'.pcb q).pTimeSlice = schedTimeSlice := by
  cases h with
  | stop hplain => exact absurd hlive hplain.not_live
  | halt =>
    rcases hlive with ⟨x, hx⟩ | hx
    · exact absurd hx (by simp)
    · exact absurd hx (by simp)
  | wait hr =>
    have hcur : k'.gCurrentProcess = none :=
      (congrArg Rest.gCurrentProcess hr).trans ((onExit_current (M := M) false).trans hnone)
    have htods : k'.tods = k₀.tods + 1 := (congrArg Rest.tods hr).trans (onExit_tods (M := M) false)
    refine ⟨⟨?_, ?_, fun x hx => absurd hx (by simp), fun _ => hcur⟩, fun q hq => ?_⟩
    · rw [htods]
      exact (congrArg Rest.gLastUpdate hr).trans (onExit_last false)
    · rw [Kernel.shot_congr hr]
      exact (congrArg Rest.timer hr).trans (onExit_timer false)
    · exact absurd (hcur.symm.trans hq) (by simp)
  | load p hr =>
    have hcur : k'.gCurrentProcess = some p :=
      (congrArg Rest.gCurrentProcess hr).trans (onExit_current (M := M) false)
    have htods : k'.tods = k₀.tods + 1 := (congrArg Rest.tods hr).trans (onExit_tods (M := M) false)
    refine ⟨⟨?_, ?_, fun _ _ => ⟨p, hcur⟩, fun hw => absurd hw (by simp)⟩, fun q hq => ?_⟩
    · rw [htods]
      exact (congrArg Rest.gLastUpdate hr).trans (onExit_last false)
    · rw [Kernel.shot_congr hr]
      have hload : (k₀.loads M p).timer = (k₀.loads M p).shot := onExit_timer false
      exact (congrArg Rest.timer hr).trans hload
    · obtain rfl : p = q := Option.some.inj (hcur.symm.trans hq)
      rw [show k'.pcb = (k₀.loads M p).pcb from congrArg Rest.pcb hr, Kernel.loads, onExit_pcb,
        if_neg (by simp), setPcb_pcb_self]

theorem Schedules.kept (h : Schedules M k₀ s k') (hlive : s.Live) (hk : Kept M k e k₀) :
    Kept M k e k' := by
  cases h with
  | stop hplain => exact absurd hlive hplain.not_live
  | halt => exact hk
  | wait hr =>
    have hkept : Kept M k e (k₀.onExit M false) := hk.onExit (fun hf => absurd hf (by simp))
    exact hkept.congr hr
  | load p hr =>
    have hkept : Kept M k e (k₀.loads M p) := (hk.pick p _).onExit (fun hf => absurd hf (by simp))
    exact hkept.congr hr

theorem Schedules.beside (h : Schedules M k₀ s k') (hlive : s.Live) :
    k'.bySysHdl = k₀.bySysHdl ∧ k'.absProcessCount = k₀.absProcessCount ∧
      k'.gPseudoClockBlk = k₀.gPseudoClockBlk := by
  have hcongr : ∀ {k₁ k₂ : Kernel n}, k₁.rest = k₂.rest → k₁.bySysHdl = k₂.bySysHdl ∧
      k₁.absProcessCount = k₂.absProcessCount ∧ k₁.gPseudoClockBlk = k₂.gPseudoClockBlk :=
    fun hr => ⟨congrArg Rest.bySysHdl hr, congrArg Rest.absProcessCount hr,
      congrArg Rest.gPseudoClockBlk hr⟩
  cases h with
  | stop hplain => exact absurd hlive hplain.not_live
  | halt => exact ⟨rfl, rfl, rfl⟩
  | wait hr =>
    obtain ⟨hflag, habs, hblk⟩ := hcongr hr
    exact ⟨hflag.trans (beside_onExit false).bySysHdl, habs.trans (onExit_abs false),
      hblk.trans (beside_onExit false).gPseudoClockBlk⟩
  | load p hr =>
    obtain ⟨hflag, habs, hblk⟩ := hcongr hr
    exact ⟨hflag.trans (beside_onExit false).bySysHdl, habs.trans (onExit_abs false),
      hblk.trans (beside_onExit false).gPseudoClockBlk⟩

theorem Schedules.pid (h : Schedules M k₀ s k') (hlive : s.Live) (q : Fin n) :
    (k'.pcb q).pPid = (k₀.pcb q).pPid := by
  cases h with
  | stop hplain => exact absurd hlive hplain.not_live
  | halt => rfl
  | wait hr =>
    rw [show k'.pcb = (k₀.onExit M false).pcb from congrArg Rest.pcb hr, onExit_pcb, if_neg (by simp)]
  | load p hr =>
    rw [show k'.pcb = (k₀.loads M p).pcb from congrArg Rest.pcb hr, Kernel.loads, onExit_pcb,
      if_neg (by simp)]
    by_cases hq : q = p
    · rw [hq, setPcb_pcb_self]
    · rw [setPcb_pcb_of_ne _ _ hq]

theorem Work.yields (hleft : ∀ p, k.gCurrentProcess = some p → k.Leaves M p e) :
    Yields M (Work M k e) (fun s k' => s.Live → Passed M k e s k') := by
  intro k₀ h hnone
  refine wp_mono wp_scheduler_schedules (fun _ _ h => h) ?_
  intro s k' hs hlive
  obtain ⟨hhanded, hfresh⟩ := hs.handed hlive hnone
  exact ⟨hs.kept hlive h.toKept, hhanded, fun p hp hstay => absurd (hleft p hp) hstay, fun _ => hfresh⟩

theorem Work.backs (hp : k.gCurrentProcess = some p) (hstay : ¬ k.Leaves M p e) :
    Backs M (Work M k e) (fun s k' => s.Live → Passed M k e s k') p := by
  intro k₀ x flag h hcur _
  have hkept : Kept M k e (k₀.onExit M flag) := h.toKept.onExit (fun _ q hq => h.current_of_some hq)
  have hcur' : (k₀.onExit M flag).gCurrentProcess = some p := (onExit_current flag).trans hcur
  refine ⟨hkept, ⟨?_, onExit_timer flag, fun _ _ => ⟨p, hcur'⟩, fun hw => absurd hw (by simp)⟩,
    ?_, ?_⟩
  · rw [onExit_last, onExit_tods, Nat.add_sub_cancel]
  · intro p' hp' _
    obtain rfl : p = p' := Option.some.inj (hp.symm.trans hp')
    refine ⟨hcur', fun hborn => ?_⟩
    rw [← h.slice p hborn, onExit_pcb]
    split_ifs <;> rfl
  · exact fun hleft => absurd (hleft p hp) hstay

theorem task_of_sys {old : ProcState} {nr : Word} (hp : k.gCurrentProcess = some p)
    (he : (Entry.sysBP old).Sys M nr) (hnr : createProcessNr ≤ nr ∧ nr ≤ getPidNr) :
    k.task M (.sysBP old) = k.sysTask M p old := by
  obtain ⟨hsys, hmode, ha1⟩ := he
  rw [← ha1] at hnr
  rw [Kernel.task, hp, Option.elim_some, Kernel.sysBPTask, if_pos hsys, if_pos hnr, if_pos hmode]

theorem born_of_sys (hp : k.gCurrentProcess = some p) (he : e.Sys M createProcessNr) :
    k.born M e = k.core.spare := by
  obtain ⟨old, rfl, hsys⟩ := he.exists_old
  have htask : k.task M (.sysBP old) = .create := by
    rw [task_of_sys hp hsys (by decide), Kernel.sysTask, if_pos hsys.2.2]
  rw [Kernel.born, htask]
  rfl

section OtherTasks

variable {t : Task n}

theorem ite_ne {c : Prop} [Decidable c] {x y : Task n} (hx : x ≠ t) (hy : y ≠ t) :
    (if c then x else y) ≠ t := by
  split
  · exact hx
  · exact hy

theorem raise_ne {h : Hdl} (hn : Task.nothing ≠ t) (hk : ∀ root, Task.kill root ≠ t) :
    k.raise p h ≠ t := ite_ne hn (hk p)

theorem specify_ne {h : Hdl} (hn : Task.nothing ≠ t) (hk : ∀ root, Task.kill root ≠ t) :
    k.specify p h ≠ t := ite_ne (hk p) hn

theorem killTask_ne {w : Word} (hn : Task.nothing ≠ t) (hk : ∀ root, Task.kill root ≠ t) :
    k.killTask p w ≠ t := by
  rw [Kernel.killTask]
  split
  · exact hk _
  · exact hn

end OtherTasks

theorem sys_of_task (h : k.task M e = .create) : e.Sys M createProcessNr := by
  have hraise : ∀ p t, k.raise p t ≠ .create := fun p t => raise_ne (by simp) (by simp)
  have hspecify : ∀ p t, k.specify p t ≠ .create := fun p t => specify_ne (by simp) (by simp)
  cases e with
  | sysBP old =>
    rw [Kernel.task] at h
    cases hp : k.gCurrentProcess with
    | none =>
      rw [hp] at h
      exact absurd h (by simp)
    | some p =>
      rw [hp, Option.elim_some, Kernel.sysBPTask] at h
      by_cases hsys : M.causeExcCodeGet old.cp15Cause = M.excSyscall
      · rw [if_pos hsys] at h
        split_ifs at h with hrange hmode
        · by_cases hnr : old.a1 = createProcessNr
          · exact ⟨hsys, hmode, hnr⟩
          · rw [Kernel.sysTask, if_neg hnr] at h
            refine absurd h (ite_ne (killTask_ne (by simp) (by simp)) (ite_ne (by simp)
              (ite_ne (hspecify _ _) (ite_ne (hspecify _ _) (ite_ne (hspecify _ _) (ite_ne ?_
                (ite_ne (by simp) (ite_ne (by simp) (ite_ne ?_ (by simp))))))))))
            · exact ite_ne (by simp) (by simp)
            · exact ite_ne (by simp) (by simp)
        · exact absurd h (hraise _ _)
        · exact absurd h (hraise _ _)
      · rw [if_neg hsys] at h
        split_ifs at h
        exact absurd h (hraise _ _)
  | pgmTrap old =>
    rw [Kernel.task] at h
    cases hp : k.gCurrentProcess with
    | none =>
      rw [hp] at h
      exact absurd h (by simp)
    | some p =>
      rw [hp, Option.elim_some] at h
      exact absurd h (hraise _ _)
  | tlb old =>
    rw [Kernel.task] at h
    cases hp : k.gCurrentProcess with
    | none =>
      rw [hp] at h
      exact absurd h (by simp)
    | some p =>
      rw [hp, Option.elim_some] at h
      exact absurd h (hraise _ _)
  | interrupt old cause =>
    rw [Kernel.task, Machine.interruptTask] at h
    split at h
    · exact absurd h (by simp)
    · split_ifs at h
      split at h
      all_goals exact absurd h (by simp)

theorem sys_of_born {b : Fin n} (h : k.born M e = some b) :
    e.Sys M createProcessNr ∧ k.gProcessCount.toNat < maxProc := by
  rw [Kernel.born] at h
  split at h
  · rename_i htask
    refine ⟨sys_of_task htask, ?_⟩
    by_contra hfull
    rw [if_neg hfull] at h
    exact absurd h (by simp)
  · exact absurd h (by simp)

theorem task_of_tick (he : e.Tick M) : k.task M e = .tick := by
  obtain ⟨old, cause, rfl, hline⟩ := he.exists_old
  rw [Kernel.task, Machine.interruptTask, hline]
  rfl

theorem born_of_tick (he : e.Tick M) : k.born M e = none := by
  rw [Kernel.born, task_of_tick he]

theorem Work.tickOpen (he : e.Tick M) : TickOpen (Work M k e) := by
  refine ⟨fun k' h => ⟨?_, h.current, h.slice⟩, fun k' h => ⟨?_, h.current, h.slice⟩⟩
  · exact ⟨h.flag, h.tods, h.abs, fun ht => absurd he ht, h.pid, h.user, h.oldArea, h.charged⟩
  · exact ⟨h.flag, h.tods, h.abs, h.blk, h.pid, h.user, h.oldArea, h.charged⟩

theorem Work.opens (hp : k.gCurrentProcess = some p) :
    Open M k e p {hdl | e.saves M = some hdl} Set.univ (Work M k e) where
  save _ x h _ := h.save (fun _ => x)
  reset _ h := ⟨⟨rfl, h.tods, h.abs, h.blk, h.pid, h.user, h.oldArea, h.charged⟩, h.current, h.slice⟩
  area _ hh := hh
  install _ _ := trivial
  spare := by
    intro he b hb k' f h
    have hborn : k.born M e = some b := (born_of_sys hp he).trans hb
    refine ⟨h.toKept.setPcb (fun hq => absurd hborn hq), h.current, fun q hq => ?_⟩
    have hne : q ≠ b := by
      rintro rfl
      exact hq hborn
    rw [setPcb_pcb_of_ne _ _ hne]
    exact h.slice q hq
  count he _ h := ⟨⟨h.flag, h.tods, fun hn => absurd he hn, h.blk, h.pid, h.user, h.oldArea, h.charged⟩,
    h.current, h.slice⟩
  clock he _ h := ⟨⟨h.flag, h.tods, h.abs, fun _ hn => absurd he hn, h.pid, h.user, h.oldArea,
    h.charged⟩, h.current, h.slice⟩
  tick he := Work.tickOpen he
  slice := by
    intro he k' h
    rw [h.slice p (by simp [born_of_tick he]), onEnter_pcb, if_pos hp]
  wake _ _ x h := h.save (fun c => { c with a1 := x })

/-- **What an entry does beside the lists**, in any state. -/
theorem passed_handler (hby : k.bySysHdl = false)
    (hrun : e.isInterrupt = false → ∃ p, k.gCurrentProcess = some p) :
    wp (handler M e) (fun _ _ => False) (fun s k' => s.Live → Passed M k e s k') k := by
  have hplain : ∀ s k', s.Plain → s.Live → Passed M k e s k' :=
    fun _ _ hs hlive => absurd hlive hs.not_live
  have hW : Walk M {hdl | e.saves M = some hdl} Set.univ (Work M k e)
      (fun s k' => s.Live → Passed M k e s k') :=
    Work.walk hplain
  rcases Option.eq_none_or_eq_some k.gCurrentProcess with hnone | ⟨p, hp⟩
  · have hleft : ∀ p, k.gCurrentProcess = some p → k.Leaves M p e := fun p hp =>
      absurd (hnone.symm.trans hp) (by simp)
    cases e with
    | interrupt old cause =>
      refine hW.interrupt_none hnone (Work.yields hleft) (Work.start hby rfl (fun _ => rfl)) ?_
        (fun _ _ x h => h.save (fun c => { c with a1 := x }))
      refine fun he => ⟨Work.tickOpen he, fun k' h => ⟨?_, h.current, h.slice⟩, fun _ _ hlive =>
        absurd hlive (not_live_fault _)⟩
      exact ⟨h.flag, h.tods, h.abs, h.blk, h.pid, h.user, h.oldArea, h.charged⟩
    | sysBP _ => exact absurd (hrun rfl) (by simp [hnone])
    | pgmTrap _ => exact absurd (hrun rfl) (by simp [hnone])
    | tlb _ => exact absurd (hrun rfl) (by simp [hnone])
  · refine hW.handler hp hby (fun k' _ => hplain _ k' trivial) (Work.opens hp) ?_
      (fun hstay => Work.backs hp hstay) (fun hleave => Work.yields ?_)
    · cases e with
      | sysBP old =>
        refine Work.start hby rfl (fun q => ?_)
        by_cases hq : q = p
        · rw [hq, setPcb_pcb_self]
        · rw [setPcb_pcb_of_ne _ _ hq]
      | pgmTrap _ => exact Work.start hby rfl (fun _ => rfl)
      | tlb _ => exact Work.start hby rfl (fun _ => rfl)
      | interrupt _ _ => exact Work.start hby rfl (fun _ => rfl)
    · intro q hq
      obtain rfl : p = q := Option.some.inj (hp.symm.trans hq)
      exact hleave

/-! ### Runs -/

/-- What every run keeps up between two entries. -/
structure Ready (M : Machine) (c : Config n) : Prop where
  flag : c.stop.Live → c.k.bySysHdl = false
  handed : c.stop.Live → Handed M c.stop c.k

theorem CanTake.live {c : Config n} {ev : Event} (h : CanTake c ev) : c.stop.Live := by
  rcases h with h | ⟨h, -⟩
  · exact .inl h
  · exact .inr h

theorem Ready.running {c : Config n} {ev : Event} (h : Ready M c) (htake : CanTake c ev) :
    ev.entry.isInterrupt = false → ∃ p, c.k.gCurrentProcess = some p := by
  intro hint
  rcases htake with ⟨s, hs⟩ | ⟨_, hint'⟩
  · exact (h.handed (.inl ⟨s, hs⟩)).running s hs
  · rw [hint] at hint'
    exact absurd hint' (by simp)

/-- **One entry of a run.** -/
theorem Ready.step {c : Config n} {ev : Event} (h : Ready M c) (htake : CanTake c ev)
    (hlive : (step M c ev).stop.Live) :
    Passed M (c.k.atEntry M ev) ev.entry (step M c ev).stop (step M c ev).k :=
  runToStop_of_wp (passed_handler (k := c.k.atEntry M ev) (h.flag htake.live)
    (h.running htake)) hlive

theorem Ready.next {c : Config n} {ev : Event} (h : Ready M c) (htake : CanTake c ev) :
    Ready M (JaeOS.step M c ev) :=
  ⟨fun hlive => (h.step htake hlive).flag, fun hlive => (h.step htake hlive).toHanded⟩

/-- The first state, before the first process is dispatched. -/
structure Boots (k : Kernel n) : Prop where
  flag : k.bySysHdl = false
  current : k.gCurrentProcess = none
  abs : k.absProcessCount = 1
  blk : k.gPseudoClockBlk = 0
  pid : ∀ q, (k.pcb q).pPid = 0 ∨ (k.pcb q).pPid = 1

/-- The state when `main` has started the first process. -/
structure Booted (M : Machine) (s : Stop) (k' : Kernel n) : Prop extends Handed M s k' where
  flag : k'.bySysHdl = false
  abs : k'.absProcessCount = 1
  blk : k'.gPseudoClockBlk = 0
  pid : ∀ q, (k'.pcb q).pPid = 0 ∨ (k'.pcb q).pPid = 1
  fresh : ∀ q, k'.gCurrentProcess = some q → (k'.pcb q).pTimeSlice = schedTimeSlice

theorem booted_boot (hlive : (boot M : Config n).stop.Live) :
    Booted M (boot M : Config n).stop (boot M : Config n).k := by
  let E : Stop → Kernel n → Prop := fun s k' => s.Live → Booted M s k'
  have hwild : ∀ k : Kernel n, E (.fault .wild) k := fun _ hlive => absurd hlive (not_live_fault _)
  have hlift : ∀ {α : Type} (x : Q n α), Keeps Boots E (liftM x : K n α) := by
    intro α x k h
    rw [wp_liftQ]
    split
    · exact ⟨h.flag, h.current, h.abs, h.blk, h.pid⟩
    · exact hwild k
  have hset : ∀ {k : Kernel n} {p : Fin n} {f : Pcb → Pcb}, (∀ c, (f c).pPid = 0 ∨ (f c).pPid = 1) →
      (∀ q, (k.pcb q).pPid = 0 ∨ (k.pcb q).pPid = 1) →
      ∀ q, ((k.setPcb p f).pcb q).pPid = 0 ∨ ((k.setPcb p f).pcb q).pPid = 1 := by
    intro k p f hf h q
    by_cases hq : q = p
    · rw [hq, setPcb_pcb_self]
      exact hf _
    · rw [setPcb_pcb_of_ne _ _ hq]
      exact h q
  have hsched : ∀ k : Kernel n, Boots k → wp (scheduler M) (fun _ _ => False) E k := by
    intro k h
    refine wp_mono wp_scheduler_schedules (fun _ _ h => h) ?_
    intro s k' hs hlive
    obtain ⟨hhanded, hfresh⟩ := hs.handed hlive h.current
    obtain ⟨hflag, habs, hblk⟩ := hs.beside hlive
    refine ⟨hhanded, hflag.trans h.flag, habs.trans h.abs, hblk.trans h.blk, fun q => ?_, hfresh⟩
    rw [hs.pid hlive]
    exact h.pid q
  refine runToStop_of_wp (x := main M) (E := E) ?_ hlive
  have hstatic : Boots (Kernel.static n) := ⟨rfl, rfl, rfl, rfl, fun _ => .inl rfl⟩
  rw [main]
  apply (hlift _).seq hstatic
  intro _ k₁ h₁
  apply (hlift _).seq h₁
  intro _ k₂ h₂
  rw [wp_bind, wp_modify, allocPcb, bind_assoc]
  refine (hlift _).seq ⟨h₂.flag, rfl, h₂.abs, rfl, h₂.pid⟩ ?_
  intro r k₃ h₃
  cases r with
  | none => exact hwild k₃
  | some p =>
    dsimp only
    rw [wp_bind, wp_bind, wp_modify, wp_pure, wp_bind, wp_modify]
    have hpid := hset (p := p) (f := fun c => { c with pPid := 1, pS := { c.pS with
      cpsr := M.statusAllIntEnable M.statusSysMode, sp := M.ramTop - M.frameSize, pc := M.test } })
      (fun _ => .inr rfl) (hset (p := p) (f := fun _ => .zero) (fun _ => .inl rfl) h₃.pid)
    refine (hlift _).seq ⟨h₃.flag, h₃.current, h₃.abs, h₃.blk, hpid⟩ ?_
    intro _ k₄ h₄
    rw [wp_bind, wp_modify]
    exact hsched _ ⟨h₄.flag, h₄.current, h₄.abs, h₄.blk, h₄.pid⟩

theorem ready_boot : Ready M (boot M : Config n) :=
  ⟨fun hlive => (booted_boot hlive).flag, fun hlive => (booted_boot hlive).toHanded⟩

/-- **Every run keeps up** what the next entry relies on. -/
theorem reaches_ready {ok : Kernel maxProc → Entry → Prop} {c : Config maxProc}
    {L : Set (Fin maxProc)} (h : Reaches M ok c L) : Ready M c := by
  induction h with
  | boot => exact ready_boot
  | step _ htake _ ih => exact ih.next htake

/-- A part of a run: the configurations it enters, behind the one it starts from. -/
inductive Path (M : Machine) (ok : Kernel maxProc → Entry → Prop) :
    Config maxProc → List (Config maxProc) → Config maxProc → Prop
  | refl (c : Config maxProc) : Path M ok c [] c
  | snoc {c c' : Config maxProc} {cs : List (Config maxProc)} {ev : Event} (h : Path M ok c cs c')
      (htake : CanTake c' ev) (hok : ok (c'.k.atEntry M ev) ev.entry) :
      Path M ok c (cs ++ [step M c' ev]) (step M c' ev)

namespace Path

variable {ok : Kernel maxProc → Entry → Prop} {c c' : Config maxProc} {cs : List (Config maxProc)}

theorem cons {ev : Event} (h : Path M ok (step M c ev) cs c') (htake : CanTake c ev)
    (hok : ok (c.k.atEntry M ev) ev.entry) : Path M ok c (step M c ev :: cs) c' := by
  induction h with
  | refl => exact (Path.refl c).snoc htake hok
  | snoc _ htake' hok' ih =>
    rw [← List.cons_append]
    exact ih.snoc htake' hok'

theorem ready (h : Path M ok c cs c') (hc : Ready M c) : Ready M c' := by
  induction h with
  | refl => exact hc
  | snoc _ htake _ ih => exact ih.next htake

end Path

end JaeOS
