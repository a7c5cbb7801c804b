import JaeOS.Refine.System
import JaeOS.Properties.Uarm

/-!
# Who gets the processor

The ready queue is served in turn, whatever the processes, the devices and the timer do:
nobody gets the processor in front of a ready process but those that were in front of it
when it became ready, each at most once.
-/

namespace JaeOS

open Forest (Progeny)
open ProcSystem (Act Step Steps)

variable {n : ℕ} {M : Machine} {t : Task n} {s s' s₁ : System n} {acts : List (Act (Fin n) Word)}
  {x q : Fin n}

/-! ### One entry -/

theorem Performs.running (h : Performs M t acts) (hs : Steps s acts s₁) :
    s₁.running = s.running ∨ s₁.running = none := by
  have hgentle : ∀ {acts : List (Act (Fin n) Word)} {s s₁ : System n}, Steps s acts s₁ →
      (∀ act ∈ acts, act.Gentle) → s₁.running = s.running ∨ s₁.running = none := by
    intro acts s s₁ hs
    induction hs with
    | nil => exact fun _ => .inl rfl
    | @cons s s₂ s₁ act acts hstep _ ih =>
      intro hacts
      have hact := hacts act List.mem_cons_self
      have hfirst : s₂.running = s.running ∨ s₂.running = none := by
        cases hstep with
        | spawn => exact .inl rfl
        | kill => exact hact.elim
        | wake => exact .inl rfl
        | block => exact .inr rfl
        | yield => exact .inr rfl
        | dispatch => exact hact.elim
      rcases ih (fun a ha => hacts a (List.mem_cons_of_mem _ ha)) with heq | hnone
      · rw [heq]
        exact hfirst
      · exact .inr hnone
  rcases h.gentle with ⟨root, -, rfl⟩ | hacts
  · cases hs with
    | cons hstep hrest =>
      cases hrest
      cases hstep with
      | @kill _ r hp _ =>
        change s.running.filter _ = s.running ∨ s.running.filter _ = none
        rw [hp, Option.filter_some]
        split_ifs
        · exact .inl rfl
        · exact .inr rfl
  · exact hgentle hs hacts

/-- The process that has got the processor. -/
def switched (o o' : Option (Fin n)) : List (Fin n) := if o' = o then [] else o'.toList

theorem switched_self (o : Option (Fin n)) : switched o o = [] := if_pos rfl

theorem switched_none (o : Option (Fin n)) : switched o none = [] := by
  rw [switched]
  split_ifs <;> rfl

theorem switched_sublist (o : Option (Fin n)) (p : Fin n) : (switched o (some p)).Sublist [p] := by
  rw [switched]
  split_ifs
  · exact List.nil_sublist _
  · exact List.Sublist.refl _

theorem Performs.path (h : Performs M t acts) (hs : Steps s acts s₁) (hx : x ∈ s.ready)
    (hx₁ : x ∈ s₁.ready) : ProcSystem.Path .ready x s acts s₁ := by
  rcases h.gentle with ⟨root, -, rfl⟩ | hacts
  · cases hs with
    | cons hstep hrest =>
      cases hrest
      exact .cons hx hstep (.nil hx₁)
  · exact hs.path hacts hx

/-- **One entry overtakes nobody.** -/
theorem Moves.overtake {before after : List (Fin n)} (h : Moves M t s s') (hs : s.Placed)
    (hready : s.ready = before ++ x :: after) (hx : x ∈ s'.ready) :
    ∃ before' after', s'.ready = before' ++ x :: after' ∧
      (switched s.running s'.running ++ before').Sublist before := by
  obtain ⟨acts, s₁, hacts, hsteps, hsettles⟩ := h
  have hxs : x ∈ s.ready := by simp [hready]
  cases hsettles with
  | stay =>
    have hpath := hacts.path hsteps hxs hx
    obtain ⟨before', after', hs', hsub⟩ := hpath.overtake hs (by simp) hready
    have hnobody : switched s.running s'.running = [] := by
      rcases hacts.running hsteps with heq | hnone
      · rw [heq, switched_self]
      · rw [hnone, switched_none]
    refine ⟨before', after', hs', ?_⟩
    rw [hnobody]
    exact (List.sublist_append_right _ _).trans hsub
  | @dispatch _ p hdispatch =>
    have hx₁ : x ∈ s₁.ready := by
      cases hdispatch with
      | dispatch _ hl =>
        rw [hl]
        exact List.mem_cons_of_mem _ hx
    have hpath := (hacts.path hsteps hxs hx₁).trans (.cons hx₁ hdispatch (.nil hx))
    obtain ⟨before', after', hs', hsub⟩ := hpath.overtake hs (by simp) hready
    refine ⟨before', after', hs', ?_⟩
    rw [List.flatMap_append, List.append_assoc] at hsub
    have hrun : s'.running = some p := by
      cases hdispatch
      rfl
    rw [hrun]
    have hserved : [(Act.dispatch p : Act (Fin n) Word)].flatMap (·.served .ready) = [p] := rfl
    rw [hserved] at hsub
    exact (((switched_sublist _ p).append_right _).trans (List.sublist_append_right _ _)).trans hsub

/-- **A process leaves the ready queue for the processor**, or because it ends. -/
theorem Moves.departs (h : Moves M t s s') (hx : x ∈ s.ready) (hx' : x ∉ s'.ready) :
    x ∉ s'.alive ∨ s'.running = some x := by
  obtain ⟨acts, s₁, hacts, hsteps, hsettles⟩ := h
  have hsettled : x ∈ s₁.ready → s'.running = some x := by
    intro hx₁
    cases hsettles with
    | stay => exact absurd hx₁ hx'
    | dispatch hd =>
      cases hd with
      | @dispatch p ps _ hl =>
        rw [hl] at hx₁
        exact congrArg some ((List.mem_cons.mp hx₁).resolve_right hx').symm
  rcases hacts.gentle with ⟨root, -, rfl⟩ | hgentle
  · cases hsteps with
    | cons hstep hrest =>
      cases hrest
      cases hstep with
      | kill hp hroot =>
        by_cases hdead : Progeny s.parent root x
        · refine .inl (fun hm => ?_)
          have hm₁ : x ∈ (s.without root).alive := by
            cases hsettles with
            | stay => exact hm
            | dispatch hd =>
              cases hd
              exact hm
          exact hm₁.2 hdead
        · exact .inr (hsettled (List.mem_filter.mpr ⟨hx, by simpa using hdead⟩))
  · exact .inr (hsettled (hsteps.path hgentle hx).mem_end)

/-! ### Runs -/

/-- The block is on the ready queue. -/
def Kernel.IsReady (k : Kernel n) (q : Fin n) : Prop := ∃ ps, k.Queue .gReadyQueue ps ∧ q ∈ ps

/-- Runs from a state, with the processes that get the processor, as long as a process is
ready. -/
inductive Passing (M : Machine) (x : Fin maxProc) (c₀ : Config maxProc) (L₀ : Set (Fin maxProc)) :
    Config maxProc → Set (Fin maxProc) → List (Fin maxProc) → Prop
  | refl : Passing M x c₀ L₀ c₀ L₀ []
  | step {c : Config maxProc} {L : Set (Fin maxProc)} {ps : List (Fin maxProc)} {ev : Event}
      (h : Passing M x c₀ L₀ c L ps) (htake : CanTake c ev)
      (hok : (c.k.atEntry M ev).Admits M ev.entry) (hx : (step M c ev).k.IsReady x) :
      Passing M x c₀ L₀ (step M c ev)
        {q | (q ∈ L ∨ (c.k.atEntry M ev).born M ev.entry = some q) ∧
          ¬ (c.k.atEntry M ev).Dies M ev.entry q}
        (ps ++ switched c.k.gCurrentProcess (step M c ev).k.gCurrentProcess)

variable {c c₀ : Config maxProc} {L L₀ : Set (Fin maxProc)} {ps before after : List (Fin maxProc)}
  {y : Fin maxProc} {ev : Event}

theorem Passing.reaches (h : Passing M y c₀ L₀ c L ps)
    (h₀ : Reaches M (fun k e => k.Admits M e) c₀ L₀) :
    Reaches M (fun k e => k.Admits M e) c L := by
  induction h with
  | refl => exact h₀
  | step _ htake hok _ ih => exact ih.step htake hok

theorem Reaches.stays_ready (hL : Layout M) (h : Reaches M (fun k e => k.Admits M e) c L)
    (hq : c.k.Queue .gReadyQueue (before ++ y :: after)) (htake : CanTake c ev)
    (hok : (c.k.atEntry M ev).Admits M ev.entry) (hy : (JaeOS.step M c ev).k.IsReady y) :
    ∃ before' after', (JaeOS.step M c ev).k.Queue .gReadyQueue (before' ++ y :: after') ∧
      (switched c.k.gCurrentProcess (JaeOS.step M c ev).k.gCurrentProcess ++ before').Sublist before := by
  obtain ⟨s, hs, hsound⟩ := h.represents hL
  obtain ⟨s', hmoves, hs'⟩ := h.moves hL hs htake hok
  obtain ⟨qs, hqs, hyqs⟩ := hy
  have hy' : y ∈ s'.ready := by
    rw [hs'.ready.unique hqs]
    exact hyqs
  obtain ⟨before', after', hready', hsub⟩ :=
    hmoves.overtake hsound.toPlaced (hs.ready.unique hq) hy'
  refine ⟨before', after', hready' ▸ hs'.ready, ?_⟩
  rw [hs.running, hs'.running] at hsub
  exact hsub

theorem Reaches.leaves_ready (hL : Layout M) (h : Reaches M (fun k e => k.Admits M e) c L)
    (hq : c.k.Queue .gReadyQueue (before ++ y :: after)) (htake : CanTake c ev)
    (hok : (c.k.atEntry M ev).Admits M ev.entry) (hnot : ¬ (JaeOS.step M c ev).k.IsReady y) :
    (c.k.atEntry M ev).Dies M ev.entry y ∨ (JaeOS.step M c ev).k.gCurrentProcess = some y := by
  obtain ⟨s, hs, hsound⟩ := h.represents hL
  obtain ⟨s', hmoves, hs'⟩ := h.moves hL hs htake hok
  have hy : y ∈ s.ready := by
    rw [hs.ready.unique hq]
    simp
  rcases hmoves.departs hy (fun hm => hnot ⟨_, hs'.ready, hm⟩) with hdead | hrun
  · rw [hs'.alive] at hdead
    have hlive : y ∈ L := by
      rw [← hs.alive]
      exact (hsound.alive y).mpr ⟨.ready, hy⟩
    by_contra hno
    rw [not_or] at hno
    exact hdead ⟨.inl hlive, hno.1⟩
  · rw [hs'.running] at hrun
    exact .inr hrun

/-- **The ready queue is served in turn**, by entries the kernel is ready for.  While a process
is ready, the processor goes to those that were in front of it when this began, in their order
and to each at most once, and behind them stand those that are still in front of it.  It leaves
the queue only for the processor, unless it is ended. -/
theorem ready_in_turn (hL : Layout M) (h₀ : Reaches M (fun k e => k.Admits M e) c₀ L₀)
    (hready : c₀.k.Queue .gReadyQueue (before ++ y :: after)) (h : Passing M y c₀ L₀ c L ps) :
    (∃ before' after', c.k.Queue .gReadyQueue (before' ++ y :: after') ∧
      (ps ++ before').Sublist before) ∧
    ∀ ev, CanTake c ev → (c.k.atEntry M ev).Admits M ev.entry → ¬ (step M c ev).k.IsReady y →
      (c.k.atEntry M ev).Dies M ev.entry y ∨ (step M c ev).k.gCurrentProcess = some y := by
  have hqueue : ∃ before' after', c.k.Queue .gReadyQueue (before' ++ y :: after') ∧
      (ps ++ before').Sublist before := by
    induction h with
    | refl => exact ⟨before, after, hready, List.Sublist.refl _⟩
    | @step c L ps ev hrest htake hok hy ih =>
      obtain ⟨before₁, after₁, hq₁, hsub₁⟩ := ih
      obtain ⟨before', after', hq', hsub⟩ := (hrest.reaches h₀).stays_ready hL hq₁ htake hok hy
      refine ⟨before', after', hq', ?_⟩
      rw [List.append_assoc]
      exact (hsub.append_left ps).trans hsub₁
  refine ⟨hqueue, fun ev htake hok hnot => ?_⟩
  obtain ⟨before', after', hq, -⟩ := hqueue
  exact (h.reaches h₀).leaves_ready hL hq htake hok hnot

/-- The first process has created two others, which are ready, when its time slice ends:
the processor goes to the elder one, and the younger one is next. -/
theorem ready_in_turn_two : ∃ (c : Config maxProc) (before after : List (Fin maxProc)),
    c.k.gCurrentProcess = some ⟨1, by decide⟩ ∧
    c.k.Queue .gReadyQueue (before ++ ⟨2, by decide⟩ :: after) ∧ before = [] := by
  let ev : Event := sys 1 0 0 0
  let c₁ : Config maxProc := step uarm (boot uarm) ev
  let c₂ : Config maxProc := step uarm c₁ ev
  let c₃ : Config maxProc := step uarm c₂ timerInterrupt
  have hfirst : Reaches uarm (fun k e => k.Admits uarm e) c₁ _ :=
    .step .boot (Config.canTake_iff.mp (by decide +kernel)) (.of_tame (by decide +kernel))
  have hsecond : Reaches uarm (fun k e => k.Admits uarm e) c₂ _ :=
    .step hfirst (Config.canTake_iff.mp (by decide +kernel)) (.of_tame (by decide +kernel))
  have hqueue : c₂.k.Queue .gReadyQueue ([⟨1, by decide⟩] ++ ⟨2, by decide⟩ :: []) :=
    queue_pair (by decide +kernel) (by decide +kernel) (by decide +kernel) (by decide)
  have hready : c₃.k.IsReady ⟨2, by decide⟩ :=
    ⟨[⟨2, by decide⟩, ⟨0, by decide⟩], queue_pair (by decide +kernel) (by decide +kernel)
      (by decide +kernel) (by decide), by simp⟩
  have htake : CanTake c₂ timerInterrupt := Config.canTake_iff.mp (by decide +kernel)
  have hok : (c₂.k.atEntry uarm timerInterrupt).Admits uarm timerInterrupt.entry :=
    .of_tame (by decide +kernel)
  obtain ⟨⟨before, after, hq, hsub⟩, -⟩ :=
    ready_in_turn layout_uarm hsecond hqueue (.step .refl htake hok hready)
  have hrun : c₃.k.gCurrentProcess = some ⟨1, by decide⟩ := by decide +kernel
  have hsw : switched c₂.k.gCurrentProcess c₃.k.gCurrentProcess = [⟨1, by decide⟩] := by
    decide +kernel
  refine ⟨c₃, before, after, hrun, hq, ?_⟩
  rw [List.nil_append, hsw] at hsub
  have hlen := hsub.length_le
  rw [List.length_append, List.length_singleton] at hlen
  exact List.eq_nil_of_length_eq_zero (by omega)

end JaeOS
