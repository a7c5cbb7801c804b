import JaeOS.Properties.Rotation

/-!
# Who wakes up

The queues of the semaphores are served in turn over whole runs, whatever the weights are
and whoever is ended in between: a waiter that is woken up leaves nobody in front of it
behind, and nobody behind a waiter is woken up before it.
-/

namespace JaeOS

open Forest (Progeny)
open ProcSystem (Act Step Steps)

variable {n : ℕ} {M : Machine} {t : Task n} {s s' s₁ : System n} {acts : List (Act (Fin n) Word)}
  {x y q : Fin n} {a : Word} {before after : List (Fin n)}

/-! ### One entry -/

theorem Settles.waiting (h : Settles s s') : s'.waiting a = s.waiting a := by
  cases h with
  | stay => rfl
  | dispatch hd =>
    cases hd
    rfl

theorem Settles.alive (h : Settles s s') : s'.alive = s.alive := by
  cases h with
  | stay => rfl
  | dispatch hd =>
    cases hd
    rfl

theorem Settles.ready (h : Settles s s') (hx : x ∈ s.ready) :
    x ∈ s'.ready ∨ s'.running = some x := by
  cases h with
  | stay => exact .inl hx
  | dispatch hd =>
    cases hd with
    | @dispatch p ps _ hready =>
      rw [hready] at hx
      rcases List.mem_cons.mp hx with rfl | hm
      · exact .inr rfl
      · exact .inl hm

/-- The waiters of `ws` are woken up on the way from `s` to `s'`. -/
structure Woken (s s' : System n) (a : Word) (ws : List (Fin n)) : Prop where
  waited : ws.Sublist (s.waiting a)
  gone : ∀ q ∈ ws, q ∉ s'.waiting a
  alive : ∀ q ∈ ws, q ∈ s'.alive

/-- **One entry wakes up nobody behind a waiter.** -/
theorem Moves.wake {ws : List (Fin n)} (h : Moves M t s s') (hs : s.Placed)
    (hw : s.waiting a = before ++ x :: after) (hx : x ∈ s'.waiting a) (hws : Woken s s' a ws) :
    ∃ before' after', s'.waiting a = before' ++ x :: after' ∧ (ws ++ before').Sublist before := by
  obtain ⟨acts, s₁, hacts, hsteps, hsettles⟩ := h
  obtain ⟨hwaited, hgone, halive⟩ := hws
  have hxs : x ∈ s.waiting a := by simp [hw]
  rw [hsettles.waiting] at hx ⊢
  rw [hsettles.waiting] at hgone
  rw [hsettles.alive] at halive
  rcases hacts.gentle with ⟨root, -, rfl⟩ | hgentle
  · cases hsteps with
    | cons hstep hrest =>
      cases hrest
      obtain ⟨before', after', hw', hsub⟩ := (ProcSystem.Path.cons (x := .waiting a) hxs hstep
        (.nil hx)).overtake hs (by simp) hw
      cases hstep with
      | kill =>
        have hnil : ws = [] := by
          refine List.eq_nil_iff_forall_not_mem.mpr (fun q hq => hgone q hq ?_)
          exact List.mem_filter.mpr ⟨hwaited.subset hq, by simpa using (halive q hq).2⟩
        rw [hnil]
        exact ⟨before', after', hw', (List.sublist_append_right _ _).trans hsub⟩
  · obtain ⟨before', after', hw', hsub⟩ :=
      (hsteps.sleep hgentle hs hxs hx).overtake hs (by simp) hw
    exact ⟨before', after', hw',
      ((hsteps.gone hgentle hwaited hgone).append (List.Sublist.refl _)).trans hsub⟩

/-- **A waiter that is woken up** is ready or runs, and leaves nobody in front of it behind. -/
theorem Moves.wakes (h : Moves M t s s') (hs : s.Placed)
    (hw : s.waiting a = before ++ x :: after) (hx : x ∉ s'.waiting a) (halive : x ∈ s'.alive) :
    (x ∈ s'.ready ∨ s'.running = some x) ∧ ∀ q ∈ before, q ∉ s'.waiting a := by
  obtain ⟨acts, s₁, hacts, hsteps, hsettles⟩ := h
  have hxs : x ∈ s.waiting a := by simp [hw]
  rw [hsettles.waiting] at hx
  rw [hsettles.alive] at halive
  rcases hacts.gentle with ⟨root, -, rfl⟩ | hgentle
  · cases hsteps with
    | cons hstep hrest =>
      cases hrest
      cases hstep with
      | kill => exact absurd (List.mem_filter.mpr ⟨hxs, by simpa using halive.2⟩) hx
  · refine ⟨hsettles.ready (hsteps.awake hgentle hxs hx), fun q hq hq' => hx ?_⟩
    rw [hsettles.waiting] at hq'
    obtain ⟨l, r, rfl⟩ := List.append_of_mem hq
    have hqs : q ∈ s.waiting a := by simp [hw]
    rw [List.append_assoc, List.cons_append] at hw
    exact (hsteps.sleep hgentle hs hqs hq').behind hgentle hs hw (by simp)

/-! ### Runs -/

/-- Runs from a state, with those that are woken up at an address, as long as a process waits
there. -/
inductive Sleeping (M : Machine) (a : Word) (x : Fin maxProc) (c₀ : Config maxProc)
    (L₀ : Set (Fin maxProc)) : Config maxProc → Set (Fin maxProc) → List (Fin maxProc) → Prop
  | refl : Sleeping M a x c₀ L₀ c₀ L₀ []
  | step {c : Config maxProc} {L : Set (Fin maxProc)} {ps ws qs qs' : List (Fin maxProc)}
      {ev : Event} (h : Sleeping M a x c₀ L₀ c L ps) (htake : CanTake c ev)
      (hok : (c.k.atEntry M ev).Admits M ev.entry) (hqs : c.k.Waiting a qs)
      (hqs' : (step M c ev).k.Waiting a qs') (hx : x ∈ qs') (hws : ws.Sublist qs)
      (hwoken : ∀ q, q ∈ ws ↔ q ∈ qs ∧ q ∉ qs' ∧ ¬ (c.k.atEntry M ev).Dies M ev.entry q) :
      Sleeping M a x c₀ L₀ (step M c ev)
        {q | (q ∈ L ∨ (c.k.atEntry M ev).born M ev.entry = some q) ∧
          ¬ (c.k.atEntry M ev).Dies M ev.entry q} (ps ++ ws)

variable {c c₀ : Config maxProc} {L L₀ : Set (Fin maxProc)} {ps ahead behind : List (Fin maxProc)}
  {z : Fin maxProc} {qs : List (Fin maxProc)} {ev : Event}

theorem Sleeping.reaches (h : Sleeping M a z c₀ L₀ c L ps)
    (h₀ : Reaches M (fun k e => k.Admits M e) c₀ L₀) :
    Reaches M (fun k e => k.Admits M e) c L := by
  induction h with
  | refl => exact h₀
  | step _ htake hok _ _ _ _ _ ih => exact ih.step htake hok

theorem Reaches.wakes (hL : Layout M) (h : Reaches M (fun k e => k.Admits M e) c L)
    (hw : c.k.Waiting a (ahead ++ z :: behind)) (htake : CanTake c ev)
    (hok : (c.k.atEntry M ev).Admits M ev.entry) (hqs : (JaeOS.step M c ev).k.Waiting a qs)
    (hz : z ∉ qs) (hlives : ¬ (c.k.atEntry M ev).Dies M ev.entry z) :
    ((JaeOS.step M c ev).k.IsReady z ∨ (JaeOS.step M c ev).k.gCurrentProcess = some z) ∧
      ∀ q ∈ ahead, q ∉ qs := by
  obtain ⟨s, hs, hsound⟩ := h.represents hL
  obtain ⟨s', hmoves, hs'⟩ := h.moves hL hs htake hok
  have hwait := h.waiting_unique hL hs hw
  have hwait' := (h.step htake hok).waiting_unique hL hs' hqs
  have halive : z ∈ s'.alive := by
    rw [hs'.alive]
    refine ⟨.inl ?_, hlives⟩
    rw [← hs.alive]
    exact (hsound.alive z).mpr ⟨.waiting a, by rw [ProcSystem.spot, hwait]; simp⟩
  obtain ⟨hawake, hfront⟩ := hmoves.wakes hsound.toPlaced hwait (hwait' ▸ hz) halive
  rw [hwait'] at hfront
  rw [hs'.running] at hawake
  exact ⟨hawake.imp_left (fun hm => ⟨_, hs'.ready, hm⟩), hfront⟩

/-- **The waiters at a semaphore are woken up in turn**, by entries the kernel is ready for.
While a process waits, those that are woken up were in front of it when this began, in their
order and each at most once, and behind them stand those that are still in front of it.  When
it is woken up itself, nobody in front of it is left. -/
theorem woken_in_turn (hL : Layout M) (h₀ : Reaches M (fun k e => k.Admits M e) c₀ L₀)
    (hw : c₀.k.Waiting a (ahead ++ z :: behind)) (h : Sleeping M a z c₀ L₀ c L ps) :
    ∃ ahead' behind', c.k.Waiting a (ahead' ++ z :: behind') ∧ (ps ++ ahead').Sublist ahead ∧
      ∀ ev qs, CanTake c ev → (c.k.atEntry M ev).Admits M ev.entry →
        (step M c ev).k.Waiting a qs → z ∉ qs → ¬ (c.k.atEntry M ev).Dies M ev.entry z →
        ((step M c ev).k.IsReady z ∨ (step M c ev).k.gCurrentProcess = some z) ∧
          ∀ q ∈ ahead', q ∉ qs := by
  have hqueue : ∃ ahead' behind', c.k.Waiting a (ahead' ++ z :: behind') ∧
      (ps ++ ahead').Sublist ahead := by
    induction h with
    | refl => exact ⟨ahead, behind, hw, List.Sublist.refl _⟩
    | @step c L ps ws qs qs' ev hrest htake hok hqs hqs' hz hws hwoken ih =>
      obtain ⟨ahead₁, behind₁, hw₁, hsub₁⟩ := ih
      have hreach := hrest.reaches h₀
      obtain ⟨s, hs, hsound⟩ := hreach.represents hL
      obtain ⟨s', hmoves, hs'⟩ := hreach.moves hL hs htake hok
      have hwait := hreach.waiting_unique hL hs hqs
      have hwait' := (hreach.step htake hok).waiting_unique hL hs' hqs'
      have hwait₁ := hreach.waiting_unique hL hs hw₁
      have hall : Woken s s' a ws := by
        refine ⟨hwait ▸ hws, fun q hq => ?_, fun q hq => ?_⟩
        · rw [hwait']
          exact ((hwoken q).mp hq).2.1
        · rw [hs'.alive]
          refine ⟨.inl ?_, ((hwoken q).mp hq).2.2⟩
          rw [← hs.alive]
          refine (hsound.alive q).mpr ⟨.waiting a, ?_⟩
          rw [ProcSystem.spot, hwait]
          exact hws.subset hq
      obtain ⟨ahead', behind', hw', hsub⟩ := hmoves.wake hsound.toPlaced hwait₁ (hwait' ▸ hz) hall
      refine ⟨ahead', behind', hw' ▸ hs'.waiting a, ?_⟩
      rw [List.append_assoc]
      exact (hsub.append_left ps).trans hsub₁
  obtain ⟨ahead', behind', hw', hsub⟩ := hqueue
  exact ⟨ahead', behind', hw', hsub, fun ev qs htake hok hqs hz hlives =>
    (h.reaches h₀).wakes hL hw' htake hok hqs hz hlives⟩

/-- The waiters at the address of the only active descriptor. -/
theorem waiting_of_only {k : Kernel n} {d : Semd} {qs : List (Fin n)} (hd : k.aslh = some d)
    (hlink : k.sLink d = some d) (hadd : k.sSemAdd d = a) (hq : k.Queue (.sProcq d) qs) :
    k.Waiting a qs :=
  ⟨[d], Clist.holds_singleton hd hlink, .inl ⟨d, List.mem_singleton_self d, hadd, hq⟩⟩

/-- Three processes: the first two wait at a semaphore when the third one makes a `V`, and
the first of them is woken up. -/
theorem woken_in_turn_two : ∃ (c : Config maxProc) (ahead behind : List (Fin maxProc)),
    c.k.Waiting 0x2000 (ahead ++ ⟨1, by decide⟩ :: behind) ∧ ahead = [] := by
  let wait : Event := sys 3 0x2000 (-1) 0
  let signal : Event := sys 3 0x2000 1 0
  let c₁ : Config maxProc := step uarm (boot uarm) (sys 1 0 0 0)
  let c₂ : Config maxProc := step uarm c₁ (sys 1 0 0 0)
  let c₃ : Config maxProc := step uarm c₂ wait
  let c₄ : Config maxProc := step uarm c₃ wait
  let c₅ : Config maxProc := step uarm c₄ signal
  have h₁ : Reaches uarm (fun k e => k.Admits uarm e) c₁ _ :=
    .step .boot (Config.canTake_iff.mp (by decide +kernel)) (.of_tame (by decide +kernel))
  have h₂ : Reaches uarm (fun k e => k.Admits uarm e) c₂ _ :=
    .step h₁ (Config.canTake_iff.mp (by decide +kernel)) (.of_tame (by decide +kernel))
  have h₃ : Reaches uarm (fun k e => k.Admits uarm e) c₃ _ :=
    .step h₂ (Config.canTake_iff.mp (by decide +kernel)) (.of_tame (by decide +kernel))
  obtain ⟨L, h₄⟩ : ∃ L, Reaches uarm (fun k e => k.Admits uarm e) c₄ L := by
    refine ⟨_, .step h₃ (Config.canTake_iff.mp (by decide +kernel)) (.of_tame (by decide +kernel))⟩
  let d : Semd := ⟨0, by decide⟩
  have hw : c₄.k.Waiting 0x2000 ([⟨0, by decide⟩] ++ ⟨1, by decide⟩ :: []) :=
    waiting_of_only (d := d) (by decide +kernel) (by decide +kernel) (by decide +kernel)
      (queue_pair (by decide +kernel) (by decide +kernel) (by decide +kernel) (by decide))
  have hw' : c₅.k.Waiting 0x2000 [⟨1, by decide⟩] :=
    waiting_of_only (d := d) (by decide +kernel) (by decide +kernel) (by decide +kernel)
      (queue_singleton (by decide +kernel) (by decide +kernel))
  have htask : ∀ root, (c₄.k.atEntry uarm signal).task uarm signal.entry ≠ .kill root := by
    intro root
    rw [show (c₄.k.atEntry uarm signal).task uarm signal.entry = .semop 0x2000 1 by decide +kernel]
    simp
  have hset : ∀ q : Fin maxProc, q ∈ [(⟨0, by decide⟩ : Fin maxProc)] ↔
      q ∈ [(⟨0, by decide⟩ : Fin maxProc)] ++ ⟨1, by decide⟩ :: [] ∧
        q ∉ [(⟨1, by decide⟩ : Fin maxProc)] := by decide
  have hsleep : Sleeping uarm 0x2000 ⟨1, by decide⟩ c₄ L c₅ _ ([] ++ [⟨0, by decide⟩]) :=
    Sleeping.refl.step (Config.canTake_iff.mp (by decide +kernel))
      (.of_tame (by decide +kernel)) hw hw' (by simp) (by simp) (by
        intro q
        have hdies : ¬ (c₄.k.atEntry uarm signal).Dies uarm signal.entry q :=
          fun ⟨root, ht, _⟩ => htask root ht
        rw [and_iff_left hdies]
        exact hset q)
  obtain ⟨ahead, behind, hw'', hsub, -⟩ := woken_in_turn layout_uarm h₄ hw hsleep
  refine ⟨c₅, ahead, behind, hw'', ?_⟩
  have hlen := hsub.length_le
  rw [List.length_append, List.nil_append, List.length_singleton] at hlen
  exact List.eq_nil_of_length_eq_zero (by omega)

end JaeOS
