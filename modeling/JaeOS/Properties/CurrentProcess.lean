import JaeOS.Refine.Passage
import JaeOS.Properties.Uarm

/-!
# The missing current process

`g_current_process` is `NULL` after a process has blocked, ended or lost the
processor, until the scheduler finds another one, and all the time the processor
waits.  Every handler looks at it before it follows it, apart from the one of the
interval timer.
-/

namespace JaeOS

variable {n : ℕ} {M : Machine} {k : Kernel n} {e : Entry}
  {c : Config maxProc} {L : Set (Fin maxProc)}

/-! ### The property -/

/-- No handler has followed a missing current process, or queued it, or read its
time slice. -/
structure NoneMissing (c : Config n) : Prop where
  followed : c.stop ≠ .fault .noCurrent
  queued : c.stop ≠ .fault .nullQueued
  read : c.k.nullRead = false

/-- An entry at which `handleTimer` finds a current process. -/
def Kernel.Ticks (k : Kernel n) (M : Machine) (e : Entry) : Prop :=
  k.task M e = .tick → k.gCurrentProcess ≠ none

/-! ### Entries -/

/-- The way out of a handler that has read nothing through `NULL`: a process that is loaded
is there. -/
structure Settled (b : Bool) (s : Stop) (k : Kernel n) : Prop where
  followed : s ≠ .fault .noCurrent
  queued : s ≠ .fault .nullQueued
  read : k.nullRead = b
  running : ∀ x, s = .ldst x → k.gCurrentProcess ≠ none

variable {b : Bool}

theorem footprint_settled : Footprint M (fun k : Kernel n => k.nullRead = b) (Settled b) where
  face h hf := hf.nullRead.trans h
  own h _ _ := h
  idle h := h
  stop := by
    intro k s h hs
    refine ⟨?_, ?_, h, ?_⟩
    · rintro rfl
      exact hs
    · rintro rfl
      exact hs
    · rintro x rfl
      exact hs.elim
  back := by
    intro k p s h hp
    refine ⟨by simp, by simp, h, ?_⟩
    intro _ _ hnone
    exact nomatch hp.symm.trans hnone
  leave := by
    intro k h _
    refine wp_mono wp_scheduler_scheduled (fun _ _ h => h) ?_
    intro s k' hs
    refine ⟨hs.found.1, hs.found.2, hs.nullRead.trans h, ?_⟩
    rintro x rfl hnone
    obtain ⟨q, hq, -⟩ := hs.loaded x rfl
    exact nomatch hq.symm.trans hnone

theorem passage_settled (hk : k.nullRead = b)
    (hrun : e.isInterrupt = false → k.gCurrentProcess ≠ none) (hok : k.Ticks M e) :
    Passage M k e (fun k' => k'.nullRead = b ∧ k'.gCurrentProcess = k.gCurrentProcess)
      (fun k' => k'.nullRead = b) (Settled b) where
  before := ⟨fun h hf => ⟨hf.nullRead.trans h.1, hf.current.trans h.2⟩, fun h _ _ => h⟩
  after := footprint_settled
  start := ⟨hk, rfl⟩
  idle _ h _ := h.1
  save _ _ h _ := h.1
  user _ _ _ _ h _ := h
  lost he _ h hnone := absurd (h.2.symm.trans hnone) (hrun he)
  tick ht hnone := absurd hnone (hok ht)
  born _ _ _ _ h := h
  wake _ _ _ _ h := h

/-! ### Runs -/

theorem settled_boot : Settled false (boot M : Config maxProc).stop (boot M : Config maxProc).k := by
  have hF : Footprint M (fun k : Kernel maxProc => k.nullRead = false) (Settled false) :=
    footprint_settled
  have hW := hF.walk
  refine runToStop_of_wp (x := main M) ?_
  have hstatic : With (fun k : Kernel maxProc => k.nullRead = false) none (Kernel.static maxProc) :=
    ⟨rfl, rfl⟩
  rw [main]
  apply (hW.liftQ _).seq hstatic
  intro _ k₁ h₁
  apply (hW.liftQ _).seq h₁
  intro _ k₂ h₂
  rw [wp_bind, wp_modify, wp_bind]
  have hnone : With (fun k : Kernel maxProc => k.nullRead = false) none
      { k₂ with gCurrentProcess := none } := ⟨h₂.1, rfl⟩
  refine wp_mono (hW.allocPcb hnone (fun _ _ _ _ h => h)) ?_ (fun _ _ h => h)
  rintro r k₃ ⟨h₃, -⟩
  cases r with
  | none => exact hF.stop h₃.1 trivial
  | some p =>
    rw [wp_bind, wp_modify]
    refine Keeps.seq (P := With (fun k : Kernel maxProc => k.nullRead = false) none)
      (hW.liftQ _) ?_ ?_
    · exact ⟨h₃.1, h₃.2⟩
    intro _ k₄ h₄
    rw [wp_bind, wp_modify]
    exact hF.leave h₄.1 h₄.2

/-- The first process waits for the pseudo-clock, and the interval timer ticks. -/
def tickWhileIdle : List Event := [sys 9 0 0 0, timerInterrupt]

end JaeOS
