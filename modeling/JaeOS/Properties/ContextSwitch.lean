import JaeOS.Refine.Passage
import JaeOS.Properties.Uarm

/-!
# Context switches

A process that is not current keeps its block through every entry, whatever state
the lists are in: only its time slice is given out again, and `handleDevices`
leaves a status word in the `a1` of the process it wakes up.  So a process finds
its registers again when the scheduler loads it.
-/

namespace JaeOS

open Function (update)

variable {n : ℕ} {M : Machine} {k k' : Kernel n} {p q : Fin n} {e : Entry}
  {c : Config n} {x : ProcState} {W : Set Word}

/-! ### One entry -/

/-- The two states agree, but for a status word in `a1`. -/
def ProcState.SameBut (x s : ProcState) (W : Set Word) : Prop :=
  s = x ∨ ∃ st ∈ W, s = { x with a1 := st }

/-- The two blocks agree but for their time slices, and a status word in `a1`. -/
def Pcb.SameBut (b c : Pcb) (W : Set Word) : Prop :=
  c.context = b.context ∨ ∃ st ∈ W, c.context = { b with pS := { b.pS with a1 := st } }.context

/-- The status words with which an entry may wake up a process. -/
def Kernel.delivered (k : Kernel n) (M : Machine) (e : Entry) (p : Fin n) : Set Word :=
  {st | k.Awakened M e st p}

/-- The state `s` has been loaded by the scheduler. -/
def Config.Dispatched (c : Config n) (M : Machine) (s : ProcState) : Prop :=
  c.stop = .ldst s ∧ ∃ k₁, scheduler M k₁ = .error (.ldst s) c.k

/-- The frame of one entry for a process that is not current: its block, and who
loads it. -/
structure Framed (M : Machine) (k : Kernel n) (e : Entry) (p : Fin n) : Prop where
  block : (k.pcb p).SameBut ((runToStop (handler M e) k).k.pcb p) (k.delivered M e p)
  load : ∀ s, (runToStop (handler M e) k).stop = .ldst s →
    (runToStop (handler M e) k).k.gCurrentProcess = some p →
    (runToStop (handler M e) k).Dispatched M s

theorem Pcb.SameBut.congr {b c c' : Pcb} (h : b.SameBut c W) (hc : c'.context = c.context) :
    b.SameBut c' W := by
  rcases h with h | ⟨st, hst, h⟩
  · exact .inl (hc.trans h)
  · exact .inr ⟨st, hst, hc.trans h⟩

theorem Pcb.SameBut.pS {b c : Pcb} (h : b.SameBut c W) : b.pS.SameBut c.pS W := by
  rcases h with h | ⟨st, hst, h⟩
  · have hs := congrArg Pcb.pS h
    exact .inl hs
  · have hs := congrArg Pcb.pS h
    exact .inr ⟨st, hst, hs⟩

theorem ProcState.SameBut.trans {x s s' : ProcState} {W W' : Set Word} (h : x.SameBut s W)
    (h' : s.SameBut s' W') : x.SameBut s' (W ∪ W') := by
  rcases h' with rfl | ⟨st, hst, rfl⟩
  · rcases h with h | ⟨st, hst, h⟩
    · exact .inl h
    · exact .inr ⟨st, .inl hst, h⟩
  · refine .inr ⟨st, .inr hst, ?_⟩
    rcases h with rfl | ⟨_, _, rfl⟩ <;> rfl

theorem Pcb.SameBut.deliver {b c : Pcb} {st : Word} (h : b.SameBut c W) (hst : st ∈ W) :
    b.SameBut { c with pS := { c.pS with a1 := st } } W := by
  refine .inr ⟨st, hst, ?_⟩
  rcases h with h | ⟨_, _, h⟩
  · exact congrArg (fun d : Pcb => { d with pS := { d.pS with a1 := st } }) h
  · exact congrArg (fun d : Pcb => { d with pS := { d.pS with a1 := st } }) h

/-- What holds inside a handler, for a process that is not current. -/
structure Resting (p : Fin n) (b : Pcb) (W : Set Word) (k : Kernel n) : Prop where
  block : b.SameBut (k.pcb p) W
  notCurrent : k.gCurrentProcess ≠ some p

/-- What holds on the way out. -/
structure Left (M : Machine) (p : Fin n) (b : Pcb) (W : Set Word) (s : Stop) (k : Kernel n) :
    Prop where
  block : b.SameBut (k.pcb p) W
  load : ∀ x, s = .ldst x → k.gCurrentProcess = some p →
    ∃ k₁, scheduler M k₁ = .error (.ldst x) k

theorem Resting.setPcb_of_ne {b : Pcb} {f : Pcb → Pcb} (h : Resting p b W k) (hq : p ≠ q) :
    Resting p b W (k.setPcb q f) := by
  refine ⟨?_, h.notCurrent⟩
  rw [setPcb_pcb_of_ne k f hq]
  exact h.block

theorem Resting.setPcb {b : Pcb} {f : Pcb → Pcb} (h : Resting p b W k)
    (hq : k.gCurrentProcess = some q) : Resting p b W (k.setPcb q f) := by
  apply h.setPcb_of_ne
  rintro rfl
  exact h.notCurrent hq

theorem footprint_resting {b : Pcb} : Footprint M (Resting p b W) (Left M p b W) where
  face := by
    intro k k' h hf
    refine ⟨?_, ?_⟩
    · rw [hf.pcb]
      exact h.block
    · rw [hf.current]
      exact h.notCurrent
  own h hq _ := h.setPcb hq
  idle h := ⟨h.block, by simp⟩
  stop := by
    intro k s h hs
    refine ⟨h.block, ?_⟩
    rintro x rfl
    exact hs.elim
  back h hq := ⟨h.block, fun _ _ hp => absurd hp h.notCurrent⟩
  leave := by
    intro k h _
    refine wp_mono (wp_run wp_scheduler_scheduled) (fun _ _ h => h.1) ?_
    rintro s k' ⟨hs, hrun⟩
    refine ⟨h.block.congr (hs.context p), ?_⟩
    rintro x rfl _
    exact ⟨k, hrun⟩

theorem passage_resting (hp : k.gCurrentProcess ≠ some p) (hborn : k.born M e ≠ some p) :
    Passage M k e (Resting p (k.pcb p) (k.delivered M e p))
      (Resting p (k.pcb p) (k.delivered M e p)) (Left M p (k.pcb p) (k.delivered M e p)) where
  before := (footprint_resting (M := M)).toStable
  after := footprint_resting
  start := ⟨.inl rfl, hp⟩
  idle _ h _ := h
  save _ _ h hq := h.setPcb hq
  user _ _ _ _ h hq := h.setPcb hq
  lost _ _ h _ := ⟨h.block, fun _ hs => nomatch hs⟩
  tick _ _ := ⟨fun _ h => ⟨h.block, h.notCurrent⟩, fun _ h => ⟨h.block, fun _ hs => nomatch hs⟩⟩
  born := by
    intro b hb k' f h
    apply h.setPcb_of_ne
    rintro rfl
    exact hborn hb
  wake := by
    intro st q hq k' h
    by_cases hpq : p = q
    · subst hpq
      refine ⟨?_, h.notCurrent⟩
      rw [setPcb_pcb_self]
      exact h.block.deliver hq
    · exact h.setPcb_of_ne hpq

/-- **A process that is not current keeps its block**, and only the scheduler loads
it. -/
theorem Kernel.framed (hp : k.gCurrentProcess ≠ some p) (hborn : k.born M e ≠ some p) :
    Framed M k e p := by
  have h := runToStop_of_wp (passage_resting hp hborn).handler
  exact ⟨h.block, fun s hs hq => ⟨hs, h.load s hs hq⟩⟩

/-! ### The process that enters the kernel -/

/-- The entry may take the processor away from the current process: the end of its
time slice, or a semaphore. -/
def Kernel.Parks (k : Kernel n) (M : Machine) (e : Entry) : Prop :=
  k.task M e = .tick ∨ ∃ a w, k.task M e = .semop a w

theorem Kernel.Parks.not_userSys (h : k.Parks M e) (hp : k.gCurrentProcess = some p) :
    ¬ e.UserSys M := by
  intro hu
  cases e with
  | sysBP old =>
    obtain ⟨hsys, hrange, hmode⟩ := hu
    have htask : k.task M (.sysBP old) = k.raise p .pgm := by
      rw [Kernel.task, hp, Option.elim_some, Kernel.sysBPTask, if_pos hsys, if_pos hrange,
        if_neg (by simp [hmode])]
    rw [Kernel.Parks, htask, Kernel.raise] at h
    split_ifs at h <;> rcases h with h | ⟨_, _, h⟩ <;> cases h
  | _ => exact hu

/-- What holds inside a handler for the process that has entered the kernel: it is
current or nobody is, and its state is saved. -/
structure Entered (p : Fin n) (x : ProcState) (W : Set Word) (k : Kernel n) : Prop where
  state : x.SameBut (k.pcb p).pS W
  current : ∀ q, k.gCurrentProcess = some q → q = p

theorem footprint_entered :
    Footprint M (Entered p x W) (fun _ k => x.SameBut (k.pcb p).pS W) where
  face := by
    intro k k' h hf
    refine ⟨?_, ?_⟩
    · rw [hf.pcb]
      exact h.state
    · rw [hf.current]
      exact h.current
  own := by
    intro k q f h hq hf
    refine ⟨?_, h.current⟩
    obtain rfl := h.current q hq
    rw [setPcb_pcb_self, hf]
    exact h.state
  idle h := ⟨h.state, fun _ hq => nomatch hq⟩
  stop h _ := h.state
  back h _ := h.state
  leave := by
    intro k h _
    refine wp_mono wp_scheduler_scheduled (fun _ _ h => h) ?_
    intro s k' hs
    have hpS : (k'.pcb p).pS = (k.pcb p).pS := by
      have := congrArg Pcb.pS (hs.context p)
      exact this
    rw [hpS]
    exact h.state

theorem passage_entered (hp : k.gCurrentProcess = some p) (hparks : k.Parks M e)
    (hborn : k.born M e ≠ some p) :
    Passage M k e (fun k' => k'.gCurrentProcess = some p)
      (Entered p e.saved (k.delivered M e p))
      (fun _ k' => e.saved.SameBut (k'.pcb p).pS (k.delivered M e p)) where
  before := ⟨fun h hf => hf.current.trans h, fun h _ _ => h⟩
  after := footprint_entered
  start := hp
  idle _ h hnone := nomatch h.symm.trans hnone
  save := by
    intro k' q h hq
    obtain rfl : p = q := Option.some.inj (h.symm.trans hq)
    refine ⟨?_, fun r hr => Option.some.inj (hr.symm.trans hq)⟩
    rw [setPcb_pcb_self]
    exact .inl rfl
  user hu := absurd hu (hparks.not_userSys hp)
  lost _ _ h hnone := nomatch h.symm.trans hnone
  tick _ hnone := nomatch hp.symm.trans hnone
  born := by
    intro b hb k' f h
    have hpb : p ≠ b := by
      rintro rfl
      exact hborn hb
    refine ⟨?_, h.current⟩
    rw [setPcb_pcb_of_ne _ _ hpb]
    exact h.state
  wake := by
    intro st q hq k' h
    refine ⟨?_, h.current⟩
    by_cases hpq : p = q
    · subst hpq
      rw [setPcb_pcb_self]
      refine .inr ⟨st, hq, ?_⟩
      rcases h.state with hs | ⟨_, _, hs⟩ <;> rw [hs]
    · rw [setPcb_pcb_of_ne _ _ hpq]
      exact h.state

theorem Kernel.entered (hp : k.gCurrentProcess = some p) (hparks : k.Parks M e)
    (hborn : k.born M e ≠ some p) :
    e.saved.SameBut ((runToStop (handler M e) k).k.pcb p).pS (k.delivered M e p) :=
  runToStop_of_wp (passage_entered hp hparks hborn).handler

/-! ### Runs -/

/-- A process off the processor: it has entered the kernel with the registers `x`,
by an interrupt at the end of its slice or for a semaphore, and since then only
others have been running.  `W` are the status words of the interrupts that have
woken it up. -/
inductive Away (M : Machine) (p : Fin n) : ProcState → Config n → Set Word → Prop
  | enter {c : Config n} {ev : Event} (htake : CanTake c ev)
      (hp : c.k.gCurrentProcess = some p) (hparks : (c.k.atEntry M ev).Parks M ev.entry)
      (hborn : (c.k.atEntry M ev).born M ev.entry ≠ some p) :
      Away M p ev.entry.saved (step M c ev) ((c.k.atEntry M ev).delivered M ev.entry p)
  | other {x : ProcState} {c : Config n} {W : Set Word} {ev : Event} (h : Away M p x c W)
      (htake : CanTake c ev) (hp : c.k.gCurrentProcess ≠ some p)
      (hborn : (c.k.atEntry M ev).born M ev.entry ≠ some p) :
      Away M p x (step M c ev) (W ∪ (c.k.atEntry M ev).delivered M ev.entry p)

theorem Away.sameBut (h : Away M p x c W) : x.SameBut (c.k.pcb p).pS W := by
  induction h with
  | enter _ hp hparks hborn => exact Kernel.entered hp hparks hborn
  | @other x c W ev _ _ hp hborn ih =>
    have hframe := (Kernel.framed (k := c.k.atEntry M ev) hp hborn).block
    exact ih.trans hframe.pS

theorem Config.Dispatched.eq_pS {s : ProcState} (h : c.Dispatched M s)
    (hp : c.k.gCurrentProcess = some p) : s = (c.k.pcb p).pS := by
  obtain ⟨_, k₁, hrun⟩ := h
  have hs := wp_scheduler_scheduled (M := M) (k := k₁)
  rw [wp, hrun] at hs
  obtain ⟨q, hq, hx⟩ := hs.loaded s rfl
  obtain rfl : p = q := Option.some.inj (hp.symm.trans hq)
  exact hx

end JaeOS
