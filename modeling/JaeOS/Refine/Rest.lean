import JaeOS.Refine.Run

/-!
# Beside the lists

The part of the kernel that the lists, the tree and the semaphores have no share in:
the blocks with their times, the current process, and the variables of the clock.
The two time hooks are written out as functions of the state.
-/

namespace JaeOS

open Function (update)

variable {n : ℕ} {M : Machine} {k k' : Kernel n} {p q : Fin n} {W V : Set Hdl}
  {E : Stop → Kernel n → Prop} {a w : Word}

/-! ### Queue functions in any state -/

theorem run_removeProcQ_head {s s' : Queues n} {l : ProcQ} {r : Option (Fin n)}
    (h : (removeProcQ l).run s = some (r, s')) : (s.procQ l).head = some r := by
  rw [removeProcQ, StateT.run_bind, StateT.run_get] at h
  by_cases he : (s.procQ l).empty = true
  · have htail : (s.procQ l).tail = none := by simpa [Clist.empty] using he
    simp [he] at h
    obtain ⟨rfl, -⟩ := h
    rw [Clist.head, htail]
  · rw [Bool.not_eq_true] at he
    cases hhead : (s.procQ l).head with
    | none => simp [he, hhead] at h
    | some r' =>
      cases hdeq : (s.procQ l).dequeue with
      | none => simp [he, hhead, hdeq] at h
      | some c =>
        simp [he, hhead, hdeq] at h
        rw [h.1]

/-- The block that `allocPcb` hands out to `createProcess`. -/
def Core.spare (c : Core n) : Option (Fin n) :=
  if c.gProcessCount.toNat < maxProc then (c.procQ .pcbFree).head.join else none

/-- The process is the first one that waits at the address. -/
def Kernel.First (k : Kernel n) (a : Word) (q : Fin n) : Prop :=
  ∃ s, (headBlocked a).run k.toQueues = some (some q, s)

/-- A `P` puts its caller to sleep. -/
def Kernel.Sleeps (k : Kernel n) (a w : Word) : Prop :=
  w.toInt < 0 ∧ ((∃ q, k.First a q) ∨ (k.mem a + w).toInt < 0)

theorem run_searchAsl_eq {s s' : Queues n} {r : Bool × Cursor Semd}
    (h : (searchAsl a).run s = some (r, s')) : s' = s := by
  rw [searchAsl, StateT.run_bind, StateT.run_get] at h
  cases hcur : s.asl.foreach (maxProc + 1)
      (fun scan => s.sSemAdd scan == a || decide (a < s.sSemAdd scan)) with
  | none => simp [hcur] at h
  | some cur =>
    simp [hcur] at h
    exact h.2.symm

theorem run_headBlocked_eq {s s' : Queues n} {r : Option (Fin n)}
    (h : (headBlocked a).run s = some (r, s')) : s' = s := by
  rw [headBlocked, StateT.run_bind] at h
  obtain ⟨⟨⟨flag, cur⟩, s₁⟩, hsearch, hrest⟩ := Option.bind_eq_some_iff.mp h
  obtain rfl := run_searchAsl_eq hsearch
  clear h hsearch
  dsimp only at hrest
  rw [StateT.run_bind, StateT.run_get] at hrest
  by_cases hstop : flag = false ∨ Clist.foreachAll cur s₁.asl = true
  · simp [hstop] at hrest
    exact hrest.2.symm
  · cases hscan : cur.scan with
    | none => simp [hstop, hscan] at hrest
    | some scan =>
      by_cases hlink : s₁.sLink scan = none
      · simp [hstop, hscan, hlink] at hrest
        exact hrest.2.symm
      · cases hhead : (s₁.procQ (.sProcq scan)).head with
        | none => simp [hstop, hscan, hlink, hhead] at hrest
        | some r' =>
          simp [hstop, hscan, hlink, hhead] at hrest
          exact hrest.2.symm

/-! ### The rest of the kernel -/

/-- The blocks and the variables beside lists, tree, semaphores, devices, counters of
processes and saved states. -/
structure Rest (n : ℕ) where
  pcb : Fin n → Pcb
  gCurrentProcess : Option (Fin n)
  gPseudoClockBlk : Word
  gLastUpdate : Word
  gLeftTo100 : Word
  absProcessCount : Word
  bySysHdl : Bool
  timer : Word
  tods : ℕ
  nullRead : Bool

def Kernel.rest (k : Kernel n) : Rest n where
  pcb := k.pcb
  gCurrentProcess := k.gCurrentProcess
  gPseudoClockBlk := k.gPseudoClockBlk
  gLastUpdate := k.gLastUpdate
  gLeftTo100 := k.gLeftTo100
  absProcessCount := k.absProcessCount
  bySysHdl := k.bySysHdl
  timer := k.timer
  tods := k.tods
  nullRead := k.nullRead

/-- A new area, but for the registers that a pass-up writes. -/
def ProcState.handler (s : ProcState) : ProcState := { s with a1 := 0, a2 := 0, a3 := 0, a4 := 0 }

/-- Two blocks that differ in their areas only: in the old areas and the `a1` to `a4` of the new
areas of `W`, and in the new areas of `V` without a handler. -/
structure Pcb.Own (W V : Set Hdl) (c c' : Pcb) : Prop where
  pPid : c'.pPid = c.pPid
  pS : c'.pS = c.pS
  pGlobalTime : c'.pGlobalTime = c.pGlobalTime
  pUserTime : c'.pUserTime = c.pUserTime
  pTimeSlice : c'.pTimeSlice = c.pTimeSlice
  oldArea : ∀ h, h ∉ W → (c'.area h).oldArea = (c.area h).oldArea
  newArea : ∀ h, (c'.area h).newArea = (c.area h).newArea ∨
    (h ∈ W ∧ (c'.area h).newArea.handler = (c.area h).newArea.handler) ∨
    (h ∈ V ∧ (c.area h).newArea.pc = 0)

theorem Pcb.area_setArea_self (c : Pcb) (h : Hdl) (x : PcbArea) : (c.setArea h x).area h = x := by
  cases h <;> rfl

theorem Pcb.area_setArea_of_ne (c : Pcb) {h h' : Hdl} (x : PcbArea) (hne : h' ≠ h) :
    (c.setArea h x).area h' = c.area h' := by
  cases h <;> cases h' <;> first | rfl | exact absurd rfl hne

theorem Pcb.own_of_area {h : Hdl} (c : Pcb) (x : PcbArea)
    (hold : h ∉ W → x.oldArea = (c.area h).oldArea)
    (hnew : x.newArea = (c.area h).newArea ∨
      (h ∈ W ∧ x.newArea.handler = (c.area h).newArea.handler) ∨
      (h ∈ V ∧ (c.area h).newArea.pc = 0)) : Pcb.Own W V c (c.setArea h x) := by
  refine ⟨?_, ?_, ?_, ?_, ?_, fun h' hh' => ?_, fun h' => ?_⟩
  case refine_6 =>
    by_cases heq : h' = h
    · subst heq
      rw [Pcb.area_setArea_self]
      exact hold hh'
    · rw [Pcb.area_setArea_of_ne _ _ heq]
  case refine_7 =>
    by_cases heq : h' = h
    · subst heq
      rw [Pcb.area_setArea_self]
      exact hnew
    · rw [Pcb.area_setArea_of_ne _ _ heq]
      exact .inl rfl
  all_goals cases h <;> rfl

theorem Pcb.own_newArea {h : Hdl} (hh : h ∈ V) (c : Pcb) (hpc : (c.area h).newArea.pc = 0)
    (s : ProcState) : Pcb.Own W V c (c.setArea h { c.area h with newArea := s }) :=
  c.own_of_area _ (fun _ => rfl) (.inr (.inr ⟨hh, hpc⟩))

theorem Pcb.own_setArea {h : Hdl} (hh : h ∈ W) (c : Pcb) (x : PcbArea)
    (hx : x.newArea.handler = (c.area h).newArea.handler) : Pcb.Own W V c (c.setArea h x) :=
  c.own_of_area x (fun hn => absurd hh hn) (.inr (.inl ⟨hh, hx⟩))

/-! ### The time hooks -/

/-- The time since the last update, at the next reading of the clock. -/
def Kernel.elapsed (M : Machine) (k : Kernel n) : Word :=
  BitVec.ofNat 32 (M.tod k.tods) - k.gLastUpdate

/-- The state after `onHandlerEnter(getTODLO())`. -/
def Kernel.onEnter (M : Machine) (k : Kernel n) : Kernel n :=
  let k₁ : Kernel n := { k with tods := k.tods + 1 }
  let k₂ := match k.gCurrentProcess with
    | some p => k₁.setPcb p fun c => { c with
        pGlobalTime := c.pGlobalTime + k.elapsed M
        pUserTime := c.pUserTime + k.elapsed M
        pTimeSlice := c.pTimeSlice - k.elapsed M }
    | none => k₁
  k₂.updateTimer (BitVec.ofNat 32 (M.tod k.tods)) (k.elapsed M)

/-- The state after `onHandlerExit(getTODLO(), flag)`. -/
def Kernel.onExit (M : Machine) (k : Kernel n) (flag : Bool) : Kernel n :=
  let k₁ : Kernel n := { k with tods := k.tods + 1 }
  let k₂ := match flag, k.gCurrentProcess with
    | true, some p => k₁.setPcb p fun c => { c with pGlobalTime := c.pGlobalTime + k.elapsed M }
    | _, _ => k₁
  k₂.updateTimer (BitVec.ofNat 32 (M.tod k.tods)) (k.elapsed M)

theorem wp_onEnter {Q : Unit → Kernel n → Prop} :
    wp (getTODLO M >>= onHandlerEnter) Q E k ↔ Q () (k.onEnter M) := Iff.rfl

theorem wp_onExit {Q : Unit → Kernel n → Prop} {flag : Bool} :
    wp (getTODLO M >>= fun t => onHandlerExit t flag) Q E k ↔ Q () (k.onExit M flag) := Iff.rfl

theorem updateTimer_pcb (t x : Word) : (k.updateTimer t x).pcb = k.pcb := rfl

theorem onEnter_none (h : k.gCurrentProcess = none) : k.onEnter M =
    Kernel.updateTimer { k with tods := k.tods + 1 } (BitVec.ofNat 32 (M.tod k.tods))
      (k.elapsed M) := by
  rw [Kernel.onEnter]
  split
  · rename_i q hq
    exact absurd (h.symm.trans hq) (by simp)
  · rfl

theorem onEnter_some (h : k.gCurrentProcess = some p) : k.onEnter M =
    (Kernel.setPcb { k with tods := k.tods + 1 } p fun c => { c with
      pGlobalTime := c.pGlobalTime + k.elapsed M
      pUserTime := c.pUserTime + k.elapsed M
      pTimeSlice := c.pTimeSlice - k.elapsed M }).updateTimer (BitVec.ofNat 32 (M.tod k.tods))
        (k.elapsed M) := by
  rw [Kernel.onEnter]
  split
  · rename_i q hq
    obtain rfl : p = q := Option.some.inj (h.symm.trans hq)
    rfl
  · rename_i hnone
    exact absurd (h.symm.trans hnone) (by simp)

theorem onExit_free {flag : Bool} (h : flag = false ∨ k.gCurrentProcess = none) : k.onExit M flag =
    Kernel.updateTimer { k with tods := k.tods + 1 } (BitVec.ofNat 32 (M.tod k.tods))
      (k.elapsed M) := by
  rw [Kernel.onExit]
  rintro q rfl hq
  rcases h with h | h
  · exact absurd h (by simp)
  · exact absurd (h.symm.trans hq) (by simp)

theorem onExit_some (h : k.gCurrentProcess = some p) : k.onExit M true =
    (Kernel.setPcb { k with tods := k.tods + 1 } p fun c => { c with
      pGlobalTime := c.pGlobalTime + k.elapsed M }).updateTimer (BitVec.ofNat 32 (M.tod k.tods))
        (k.elapsed M) := by
  rw [Kernel.onExit]
  exact h

theorem onEnter_core : (k.onEnter M).core = k.core := by
  rcases Option.eq_none_or_eq_some k.gCurrentProcess with h | ⟨p, h⟩
  · rw [onEnter_none h]
    rfl
  · rw [onEnter_some h]
    rfl

theorem onEnter_current : (k.onEnter M).gCurrentProcess = k.gCurrentProcess :=
  congrArg Core.gCurrentProcess onEnter_core

theorem onExit_cases (k : Kernel n) (flag : Bool) :
    (flag = false ∨ k.gCurrentProcess = none) ∨ flag = true ∧ ∃ p, k.gCurrentProcess = some p := by
  cases flag with
  | false => exact .inl (.inl rfl)
  | true =>
    rcases Option.eq_none_or_eq_some k.gCurrentProcess with h | ⟨p, h⟩
    · exact .inl (.inr h)
    · exact .inr ⟨rfl, p, h⟩

theorem onExit_core (flag : Bool) : (k.onExit M flag).core = k.core := by
  rcases onExit_cases k flag with h | ⟨rfl, p, h⟩
  · rw [onExit_free h]
    rfl
  · rw [onExit_some h]
    rfl

theorem onExit_current (flag : Bool) : (k.onExit M flag).gCurrentProcess = k.gCurrentProcess :=
  congrArg Core.gCurrentProcess (onExit_core flag)

theorem beside_onEnter : Beside k (k.onEnter M) := by
  have htod : Beside k { k with tods := k.tods + 1 } :=
    ⟨⟨fun _ => .refl _, rfl, rfl, rfl, rfl, rfl, rfl, rfl, rfl, rfl⟩, rfl⟩
  rcases Option.eq_none_or_eq_some k.gCurrentProcess with h | ⟨p, h⟩
  · rw [onEnter_none h]
    exact htod.trans (beside_updateTimer ..)
  · rw [onEnter_some h]
    refine htod.trans (Beside.trans (beside_setPcb (fun c => ?_) _ p) (beside_updateTimer ..))
    exact ⟨rfl, rfl, rfl, rfl, rfl⟩

theorem beside_onExit (flag : Bool) : Beside k (k.onExit M flag) := by
  have htod : Beside k { k with tods := k.tods + 1 } :=
    ⟨⟨fun _ => .refl _, rfl, rfl, rfl, rfl, rfl, rfl, rfl, rfl, rfl⟩, rfl⟩
  rcases onExit_cases k flag with h | ⟨rfl, p, h⟩
  · rw [onExit_free h]
    exact htod.trans (beside_updateTimer ..)
  · rw [onExit_some h]
    refine htod.trans (Beside.trans (beside_setPcb (fun c => ?_) _ p) (beside_updateTimer ..))
    exact ⟨rfl, rfl, rfl, rfl, rfl⟩

theorem Beside.romArea (h : Beside k k') (check : Hdl) : k'.romArea check = k.romArea check := by
  cases check with
  | sbk => exact h.sysbold
  | tlb => exact h.tlbold
  | pgm => exact h.pgmold

theorem onEnter_romArea (check : Hdl) : (k.onEnter M).romArea check = k.romArea check :=
  beside_onEnter.romArea check

theorem onExit_romArea (flag : Bool) (check : Hdl) :
    (k.onExit M flag).romArea check = k.romArea check := (beside_onExit flag).romArea check

theorem onEnter_mStateLoaded : (k.onEnter M).mStateLoaded = k.mStateLoaded :=
  beside_onEnter.mStateLoaded

theorem onExit_mStateLoaded (flag : Bool) : (k.onExit M flag).mStateLoaded = k.mStateLoaded :=
  (beside_onExit flag).mStateLoaded

theorem onEnter_pcb (q : Fin n) : (k.onEnter M).pcb q =
    if k.gCurrentProcess = some q then { k.pcb q with
      pGlobalTime := (k.pcb q).pGlobalTime + k.elapsed M
      pUserTime := (k.pcb q).pUserTime + k.elapsed M
      pTimeSlice := (k.pcb q).pTimeSlice - k.elapsed M }
    else k.pcb q := by
  rcases Option.eq_none_or_eq_some k.gCurrentProcess with h | ⟨p, h⟩
  · rw [if_neg (by simp [h]), onEnter_none h]
    rfl
  · rw [onEnter_some h, updateTimer_pcb]
    by_cases hq : p = q
    · subst hq
      rw [if_pos h, setPcb_pcb_self]
    · rw [if_neg (by simp [h, hq]), setPcb_pcb_of_ne _ _ (Ne.symm hq)]

theorem onExit_pcb (flag : Bool) (q : Fin n) : (k.onExit M flag).pcb q =
    if flag = true ∧ k.gCurrentProcess = some q then
      { k.pcb q with pGlobalTime := (k.pcb q).pGlobalTime + k.elapsed M }
    else k.pcb q := by
  rcases onExit_cases k flag with h | ⟨rfl, p, h⟩
  · rw [onExit_free h, if_neg]
    · rfl
    · rintro ⟨rfl, hq⟩
      rcases h with h | h
      · exact absurd h (by simp)
      · exact absurd (h.symm.trans hq) (by simp)
  · rw [onExit_some h, updateTimer_pcb]
    by_cases hq : p = q
    · subst hq
      rw [if_pos ⟨rfl, h⟩, setPcb_pcb_self]
    · rw [if_neg (by simp [h, hq]), setPcb_pcb_of_ne _ _ (Ne.symm hq)]

theorem onEnter_area {h : Hdl} : ((k.onEnter M).pcb q).area h = (k.pcb q).area h := by
  rw [onEnter_pcb]
  split_ifs
  all_goals cases h <;> rfl

theorem onExit_area {h : Hdl} (flag : Bool) :
    ((k.onExit M flag).pcb q).area h = (k.pcb q).area h := by
  rw [onExit_pcb]
  split_ifs
  all_goals cases h <;> rfl

theorem onEnter_handles (q : Fin n) (h : Hdl) : (k.onEnter M).Handles q h ↔ k.Handles q h := by
  rw [Kernel.Handles, Kernel.Handles, onEnter_area]

theorem onExit_handles (flag : Bool) (q : Fin n) (h : Hdl) :
    (k.onExit M flag).Handles q h ↔ k.Handles q h := by
  rw [Kernel.Handles, Kernel.Handles, onExit_area]

theorem onExit_bySysHdl (v flag : Bool) :
    Kernel.onExit M { k with bySysHdl := v } flag = { k.onExit M flag with bySysHdl := v } := by
  rcases onExit_cases k flag with h | ⟨rfl, p, h⟩
  · rw [onExit_free h, onExit_free (k := { k with bySysHdl := v }) h]
    rfl
  · rw [onExit_some h, onExit_some (k := { k with bySysHdl := v }) h]
    rfl

/-! ### The scheduler -/

/-- The ends that need no look at the state. -/
def Stop.Plain : Stop → Prop
  | .panic _ => True
  | .fault .wild => True
  | .fault .stray => True
  | _ => False

/-- The state in which the scheduler loads the process it has picked. -/
def Kernel.loads (M : Machine) (k : Kernel n) (p : Fin n) : Kernel n :=
  Kernel.onExit M (Kernel.setPcb { k with gCurrentProcess := some p } p
    fun c => { c with pTimeSlice := schedTimeSlice }) false

/-- What the scheduler does beside the lists, in any state. -/
inductive Schedules (M : Machine) (k : Kernel n) : Stop → Kernel n → Prop
  | stop {s : Stop} {k' : Kernel n} (hs : s.Plain)
      (h : k'.rest = k.rest ∨ ∃ p, k'.rest = (k.loads M p).rest) : Schedules M k s k'
  | halt : Schedules M k .halt k
  | wait {k' : Kernel n} (h : k'.rest = (k.onExit M false).rest) : Schedules M k .wait k'
  | load {k' : Kernel n} (p : Fin n) (h : k'.rest = (k.loads M p).rest) :
      Schedules M k (.ldst (k'.pcb p).pS) k'

/-- **The scheduler**, in any state. -/
theorem wp_scheduler_schedules : wp (scheduler M) (fun _ _ => False) (Schedules M k) k := by
  rw [scheduler, wp_bind, wp_liftQ, headProcQ, StateT.run_bind, StateT.run_get]
  cases hhead : (k.procQ .gReadyQueue).head with
  | none =>
    simp only [hhead, Option.bind_eq_bind, Option.pure_def, Option.bind_some]
    exact .stop trivial (.inl rfl)
  | some r =>
    simp only [hhead, Option.bind_eq_bind, Option.pure_def, Option.bind_some, StateT.run_monadLift,
      monadLift_self]
    cases r with
    | none =>
      rw [wp_bind, wp_get]
      refine wp_if (fun _ => .halt) (fun _ => wp_if (fun _ => ?_) (fun _ => ?_))
      · rw [← bind_assoc, wp_bind, wp_onExit, wp_throw]
        exact .wait rfl
      · exact .stop trivial (.inl rfl)
    | some p =>
      rw [wp_bind, wp_liftQ]
      cases hrem : (removeProcQ .gReadyQueue).run k.toQueues with
      | none => exact .stop trivial (.inl rfl)
      | some r =>
        obtain ⟨r, s⟩ := r
        have hr : r = some p :=
          Option.some.inj ((run_removeProcQ_head hrem).symm.trans hhead)
        subst hr
        dsimp only
        rw [wp_bind, wp_modify, wp_bind]
        refine (wp_current (p := p) rfl).mpr ?_
        rw [wp_bind, wp_modify, ← bind_assoc, wp_bind, wp_onExit, wp_bind, wp_get, debugBKtwo,
          writeWord]
        let k₁ : Kernel n := { k with toQueues := s }
        have hrest : (k₁.loads M p).rest = (k.loads M p).rest := rfl
        rw [wp_bind]
        refine wp_if (fun _ => .stop trivial (.inr ⟨p, hrest⟩)) (fun _ => ?_)
        rw [wp_modify, wp_bind, wp_get, wp_throw]
        exact .load p hrest

end JaeOS
