import JaeOS.Refine.System
import JaeOS.Properties.Uarm

/-!
# Who may end a process

A process is ended by itself or by one of its ancestors, and by nobody else: whatever the
other processes, the devices and the timer do, in whatever order, it stays alive below the
same ancestors.
-/

namespace JaeOS

open Forest (Progeny)
open ProcSystem (Act Step Steps)

variable {n : ℕ} {M : Machine} {t : Task n} {s s' s₁ : System n} {acts : List (Act (Fin n) Word)}
  {root x r : Fin n}

/-- Runs from a state, by entries that satisfy `P`. -/
inductive Runs (M : Machine) (P : Config maxProc → Event → Prop) (c₀ : Config maxProc)
    (L₀ : Set (Fin maxProc)) : Config maxProc → Set (Fin maxProc) → Prop
  | refl : Runs M P c₀ L₀ c₀ L₀
  | step {c : Config maxProc} {L : Set (Fin maxProc)} {ev : Event} (h : Runs M P c₀ L₀ c L)
      (htake : CanTake c ev) (hok : (c.k.atEntry M ev).Admits M ev.entry) (hP : P c ev) :
      Runs M P c₀ L₀ (step M c ev)
        {q | (q ∈ L ∨ (c.k.atEntry M ev).born M ev.entry = some q) ∧
          ¬ (c.k.atEntry M ev).Dies M ev.entry q}

theorem Runs.reaches {P : Config maxProc → Event → Prop} {c c₀ : Config maxProc}
    {L L₀ : Set (Fin maxProc)} (h : Runs M P c₀ L₀ c L)
    (h₀ : Reaches M (fun k e => k.Admits M e) c₀ L₀) : Reaches M (fun k e => k.Admits M e) c L := by
  induction h with
  | refl => exact h₀
  | step _ htake hok _ ih => exact ih.step htake hok

/-! ### One entry -/

theorem line_of_gentle (hs : Steps s acts s') (hacts : ∀ act ∈ acts, act.Gentle)
    (h : s.Sound root) (hx : x ∈ s.alive) :
    x ∈ s'.alive ∧ (Progeny s'.parent r x ↔ Progeny s.parent r x) := by
  induction hs with
  | nil => exact ⟨hx, Iff.rfl⟩
  | @cons s s₁ s' act acts hstep _ ih =>
    have hx₁ : x ∈ s₁.alive := by
      have hact := hacts act List.mem_cons_self
      cases hstep with
      | spawn => exact Set.mem_insert_of_mem _ hx
      | kill => exact hact.elim
      | _ => exact hx
    obtain ⟨hx', hline⟩ :=
      ih (fun a ha => hacts a (List.mem_cons_of_mem _ ha)) (h.step hstep) hx₁
    exact ⟨hx', hline.trans (h.line hstep hx hx₁)⟩

theorem Settles.line (hs : Settles s s') (h : s.Sound root) (hx : x ∈ s.alive) :
    x ∈ s'.alive ∧ (Progeny s'.parent r x ↔ Progeny s.parent r x) := by
  cases hs with
  | stay => exact ⟨hx, Iff.rfl⟩
  | dispatch hd =>
    have hx' : x ∈ s'.alive := by
      cases hd
      exact hx
    exact ⟨hx', h.line hd hx hx'⟩

/-- **A process outlives an entry** that is no call for its end from its line. -/
theorem Moves.line (h : Moves M t s s') (hs : s.Sound root) (hx : x ∈ s.alive)
    (hkill : ∀ p q, Progeny s.parent p x → Progeny s.parent q x → s.running = some p →
      t ≠ .kill q) : x ∈ s'.alive ∧ ∀ r, Progeny s'.parent r x ↔ Progeny s.parent r x := by
  obtain ⟨acts, s₁, hacts, hsteps, hsettles⟩ := h
  have hsound := hs.steps hsteps
  have hfirst : x ∈ s₁.alive ∧ ∀ r, Progeny s₁.parent r x ↔ Progeny s.parent r x := by
    rcases hacts.gentle with ⟨q, rfl, rfl⟩ | hgentle
    · cases hsteps with
      | cons hstep hrest =>
        cases hrest
        have hx₁ : x ∈ s₁.alive := by
          by_contra hnot
          obtain ⟨p, r, hact, hp, hpr, hr⟩ := hstep.dies hx hnot
          obtain rfl : q = r := Act.kill.inj hact
          exact hkill p q (hpr.trans hr) hr hp rfl
        exact ⟨hx₁, fun r => hs.line hstep hx hx₁⟩
    · exact ⟨(line_of_gentle (r := x) hsteps hgentle hs hx).1,
        fun r => (line_of_gentle hsteps hgentle hs hx).2⟩
  obtain ⟨hx₁, hline₁⟩ := hfirst
  exact ⟨(hsettles.line (r := x) hsound hx₁).1,
    fun r => (hsettles.line hsound hx₁).2.trans (hline₁ r)⟩

/-! ### Runs -/

/-- The entry is no call of a process at or above `x` for the end of a process at or above
`x`. -/
def Harmless (par : Fin maxProc → Option (Fin maxProc)) (x : Fin maxProc) (M : Machine)
    (c : Config maxProc) (ev : Event) : Prop :=
  ∀ p q, Progeny par p x → Progeny par q x → c.k.gCurrentProcess = some p →
    (c.k.atEntry M ev).task M ev.entry ≠ .kill q

variable {c c₀ : Config maxProc} {L L₀ : Set (Fin maxProc)} {y : Fin maxProc}

/-- **A process is ended by its own line only.**  As long as neither a live process nor one
of its ancestors calls for the end of one of them, the process lives, and below the same
ancestors, whatever else happens. -/
theorem survives (hL : Layout M) (h₀ : Reaches M (fun k e => k.Admits M e) c₀ L₀) (hy : y ∈ L₀)
    (h : Runs M (Harmless c₀.k.pParent y M) c₀ L₀ c L) :
    y ∈ L ∧ ∀ r, Progeny c.k.pParent r y ↔ Progeny c₀.k.pParent r y := by
  induction h with
  | refl => exact ⟨hy, fun _ => Iff.rfl⟩
  | @step c L ev hrest htake hok hP ih =>
    obtain ⟨hyL, hline⟩ := ih
    have hreach := hrest.reaches h₀
    obtain ⟨s, hs, hsound⟩ := hreach.represents hL
    obtain ⟨s', hmoves, hs'⟩ := hreach.moves hL hs htake hok
    have hys : y ∈ s.alive := by
      rw [hs.alive]
      exact hyL
    obtain ⟨hy', hline'⟩ := hmoves.line hsound hys (fun p q hp hq hrun => by
      rw [hs.parent, hline] at hp hq
      rw [hs.running] at hrun
      exact hP p q hp hq hrun)
    rw [hs'.alive] at hy'
    refine ⟨hy', fun r => ?_⟩
    rw [← hs'.parent, hline' r, hs.parent]
    exact hline r

/-- The first process creates another one, which gets its turn and ends itself: the first
one is still there. -/
theorem survives_child : ∃ (c : Config maxProc) (L : Set (Fin maxProc)),
    c.k.gProcessCount = 1 ∧ proc0 ∈ L := by
  let c₁ : Config maxProc := step uarm (boot uarm) (sys 1 0 0 0)
  let c₂ : Config maxProc := step uarm c₁ timerInterrupt
  let c₃ : Config maxProc := step uarm c₂ (sys 2 0 0 0)
  have horphan : (boot uarm : Config maxProc).k.pParent proc0 = none := by decide +kernel
  have hself : ∀ p, Progeny (boot uarm : Config maxProc).k.pParent p proc0 → p = proc0 := by
    intro p hp
    rcases hp.cases with heq | ⟨r, -, hr⟩
    · exact heq.symm
    · rw [horphan] at hr
      cases hr
  -- only the last entry is a call for an end, and the second process makes it
  have hfirst : Runs uarm (Harmless (boot uarm).k.pParent proc0 uarm) (boot uarm) {proc0} c₁ _ :=
    Runs.refl.step (Config.canTake_iff.mp (by decide +kernel))
      (.of_tame (by decide +kernel)) (by
        intro p q _ _ _
        rw [show ((boot uarm).k.atEntry uarm (sys 1 0 0 0) : Kernel maxProc).task uarm
          (sys 1 0 0 0).entry = .create by decide +kernel]
        simp)
  have hsecond : Runs uarm (Harmless (boot uarm).k.pParent proc0 uarm) (boot uarm) {proc0} c₂ _ :=
    hfirst.step (Config.canTake_iff.mp (by decide +kernel))
      (.of_tame (by decide +kernel)) (by
        intro p q _ _ _
        rw [show (c₁.k.atEntry uarm timerInterrupt).task uarm timerInterrupt.entry = .tick by
          decide +kernel]
        simp)
  have hthird : Runs uarm (Harmless (boot uarm).k.pParent proc0 uarm) (boot uarm) {proc0} c₃ _ :=
    hsecond.step (Config.canTake_iff.mp (by decide +kernel))
      (.of_tame (by decide +kernel)) (by
        intro p q hp _ hrun
        rw [hself p hp, show c₂.k.gCurrentProcess = some ⟨1, by decide⟩ by decide +kernel] at hrun
        exact absurd hrun (by decide))
  exact ⟨c₃, _, by decide +kernel, (survives layout_uarm .boot rfl hthird).1⟩

end JaeOS
