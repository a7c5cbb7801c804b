import JaeOS.Refine.Effect
import JaeOS.Refine.Passage
import JaeOS.Properties.PidFreshness

/-!
# The handlers of a process

SYS4, SYS5 and SYS6 share one routine, which takes a new area with `pc` 0 for one without a
handler.  Nothing else writes more of a new area than `a1` to `a4`, so a handler stays until
the block is handed out again.
-/

namespace JaeOS

open Forest (Progeny)
open Function (update)

variable {n : ℕ} {M : Machine} {k k' k₀ : Kernel n} {σ σ' : Snap n} {p q : Fin n} {t : Hdl}
  {e : Entry} {E : Stop → Kernel n → Prop}

/-! ### One entry -/

/-- The entry installs a handler: the new area has none. -/
def Kernel.Installs (k : Kernel n) (M : Machine) (e : Entry) (q : Fin n) (t : Hdl) : Prop :=
  k.gCurrentProcess = some q ∧ e.Sys M t.nr ∧ ((k.pcb q).area t).newArea.pc = 0

/-- The entry may write the area in other ways: SYS7, or an exception that is passed up. -/
def Kernel.Passes (k : Kernel n) (M : Machine) (e : Entry) (q : Fin n) (t : Hdl) : Prop :=
  k.gCurrentProcess = some q ∧ e.saves M = some t

/-- What an entry does with the areas of all blocks but the one it hands out. -/
structure Areas (M : Machine) (k : Kernel n) (e : Entry) (k' : Kernel n) : Prop where
  handler : ∀ q t, k.born M e ≠ some q → ¬ k.Installs M e q t →
    ((k'.pcb q).area t).newArea.handler = ((k.pcb q).area t).newArea.handler
  area : ∀ q t, k.born M e ≠ some q → ¬ k.Installs M e q t → ¬ k.Passes M e q t →
    (k'.pcb q).area t = (k.pcb q).area t

theorem Scheduled.area {s : Stop} (h : Scheduled k s k') : (k'.pcb q).area t = (k.pcb q).area t := by
  have hcontext := congrArg (fun c => Pcb.area c t) (h.context q)
  rw [Pcb.context, Pcb.context] at hcontext
  cases t <;> exact hcontext

theorem Pcb.Own.mono {W V V' : Set Hdl} {c c' : Pcb} (h : Pcb.Own W V c c') (hV : V ⊆ V') :
    Pcb.Own W V' c c' :=
  ⟨h.pPid, h.pS, h.pGlobalTime, h.pUserTime, h.pTimeSlice, h.oldArea, fun t =>
    (h.newArea t).imp_right (Or.imp_right (And.imp_left fun ht => hV ht))⟩

namespace Areas

theorem congr (h : Areas M k e k₀) (ha : ∀ q t, (k'.pcb q).area t = (k₀.pcb q).area t) :
    Areas M k e k' := by
  refine ⟨fun q t hq ht => ?_, fun q t hq ht hs => ?_⟩
  · rw [ha]
    exact h.handler q t hq ht
  · rw [ha]
    exact h.area q t hq ht hs

theorem refl (k : Kernel n) : Areas M k e k := ⟨fun _ _ _ _ => rfl, fun _ _ _ _ _ => rfl⟩

theorem setPcb (h : Areas M k e k₀) {f : Pcb → Pcb} (hf : ∀ c t, (f c).area t = c.area t) :
    Areas M k e (k₀.setPcb p f) := by
  refine h.congr fun q t => ?_
  by_cases hq : q = p
  · rw [hq, setPcb_pcb_self, hf]
  · rw [setPcb_pcb_of_ne _ _ hq]

theorem onExit (h : Areas M k e k₀) (flag : Bool) : Areas M k e (k₀.onExit M flag) := by
  refine h.congr fun q t => ?_
  rw [onExit_pcb]
  split_ifs <;> cases t <;> rfl

theorem own (h : Areas M k e k₀) {f : Pcb → Pcb} (hp : k.gCurrentProcess = some p)
    (hf : Pcb.Own {t | e.saves M = some t} {t | e.Sys M t.nr} (k₀.pcb p) (f (k₀.pcb p))) :
    Areas M k e (k₀.setPcb p f) := by
  refine ⟨fun q t hq ht => ?_, fun q t hq ht hs => ?_⟩
  · by_cases hqp : q = p
    · subst hqp
      rw [setPcb_pcb_self, ← h.handler q t hq ht]
      rcases hf.newArea t with heq | ⟨-, heq⟩ | ⟨hV, hpc⟩
      · rw [heq]
      · exact heq
      · -- an area with a handler is not taken for one without
        have hpc' := congrArg ProcState.pc (h.handler q t hq ht)
        exact absurd ⟨hp, hV, hpc'.symm.trans hpc⟩ ht
    · rw [setPcb_pcb_of_ne _ _ hqp]
      exact h.handler q t hq ht
  · by_cases hqp : q = p
    · subst hqp
      have hW : e.saves M ≠ some t := fun hs' => hs ⟨hp, hs'⟩
      rw [setPcb_pcb_self, ← h.area q t hq ht hs]
      have hnew : ((f (k₀.pcb q)).area t).newArea = ((k₀.pcb q).area t).newArea := by
        rcases hf.newArea t with heq | ⟨hs', -⟩ | ⟨hV, hpc⟩
        · exact heq
        · exact absurd hs' hW
        · have hpc' := congrArg (fun a => a.newArea.pc) (h.area q t hq ht hs)
          exact absurd ⟨hp, hV, hpc'.symm.trans hpc⟩ ht
      have hold := hf.oldArea t hW
      generalize (f (k₀.pcb q)).area t = x at hnew hold ⊢
      generalize (k₀.pcb q).area t = y at hnew hold ⊢
      cases x
      cases y
      cases hnew
      cases hold
      rfl
    · rw [setPcb_pcb_of_ne _ _ hqp]
      exact h.area q t hq ht hs

/-- **The areas during an entry** are a walk. -/
theorem walk : Walk M {t | e.saves M = some t} {t | e.Sys M t.nr}
    (fun k' : Kernel n => Work M k e k' ∧ Areas M k e k') (fun _ => Areas M k e) where
  rest h hr := ⟨(Work.walk (E := fun _ _ => True) fun _ _ _ => trivial).rest h.1 hr,
    h.2.congr fun q t => congrArg (fun b => (b q : Pcb).area t) (congrArg Rest.pcb hr)⟩
  read h := ⟨(Work.walk (E := fun _ _ => True) fun _ _ _ => trivial).read h.1,
    h.2.congr fun _ _ => rfl⟩
  exit flag h := ⟨(Work.walk (E := fun _ _ => True) fun _ _ _ => trivial).exit flag h.1,
    h.2.onExit flag⟩
  own h hp hf := ⟨(Work.walk (E := fun _ _ => True) fun _ _ _ => trivial).own h.1 hp
    (hf.mono fun _ _ => trivial), h.2.own (h.1.current_of_some hp) hf⟩
  idle h := ⟨(Work.walk (E := fun _ _ => True) fun _ _ _ => trivial).idle h.1,
    h.2.congr fun _ _ => rfl⟩
  stop h _ := h.2

theorem beside (h : Areas M k e k₀) (hpcb : k'.pcb = k₀.pcb) : Areas M k e k' :=
  h.congr fun q t => congrArg (fun b => (b q : Pcb).area t) hpcb

theorem setBorn (h : Areas M k e k₀) {b : Fin n} {f : Pcb → Pcb} (hb : k.born M e = some b) :
    Areas M k e (k₀.setPcb b f) := by
  refine ⟨fun q t hq ht => ?_, fun q t hq ht hs => ?_⟩
  all_goals
    have hne : q ≠ b := by
      rintro rfl
      exact hq hb
    rw [setPcb_pcb_of_ne _ _ hne]
  · exact h.handler q t hq ht
  · exact h.area q t hq ht hs

theorem opens (hp : k.gCurrentProcess = some p) :
    Open M k e p {t | e.saves M = some t} {t | e.Sys M t.nr}
      (fun k' => Work M k e k' ∧ Areas M k e k') where
  save k' x h hq := ⟨(Work.opens hp).save k' x h.1 hq, h.2.setPcb fun _ t => by cases t <;> rfl⟩
  reset k' h := ⟨(Work.opens hp).reset k' h.1, h.2.beside rfl⟩
  area _ hh := hh
  install _ hh := hh
  spare he b hb k' f h :=
    ⟨(Work.opens hp).spare he b hb k' f h.1, h.2.setBorn ((born_of_sys hp he).trans hb)⟩
  count he k' h := ⟨(Work.opens hp).count he k' h.1, h.2.beside rfl⟩
  clock he k' h := ⟨(Work.opens hp).clock he k' h.1, h.2.beside rfl⟩
  tick he := ⟨fun k' h => ⟨(Work.tickOpen he).blk k' h.1, h.2.beside rfl⟩,
    fun k' h => ⟨(Work.tickOpen he).clock k' h.1, h.2.beside rfl⟩⟩
  slice he k' h := (Work.opens hp).slice he k' h.1
  wake k' q x h := ⟨(Work.opens hp).wake k' q x h.1, h.2.setPcb fun _ t => by cases t <;> rfl⟩

theorem yields : Yields M (fun k' => Work M k e k' ∧ Areas M k e k') (fun _ => Areas M k e) := by
  intro k₁ h _
  exact wp_mono wp_scheduler_scheduled (fun _ _ h => h) (fun s k' hs => h.2.congr fun _ _ => hs.area)

theorem saved (h : ∀ q, ∃ x, k'.pcb q = { k.pcb q with pS := x }) : Areas M k e k' := by
  refine (refl k).congr fun q t => ?_
  obtain ⟨x, hx⟩ := h q
  rw [hx]
  cases t <;> rfl

theorem onEnter (h : Areas M k e k₀) : Areas M k e (k₀.onEnter M) :=
  h.congr fun _ _ => onEnter_area

theorem start (hby : k.bySysHdl = false) :
    Work M k e (k.start M p e) ∧ Areas M k e (k.start M p e) := by
  have hold : ∀ k₁ : Kernel n, k₁.pcb = k.pcb → Areas M k e (k₁.onEnter M) :=
    fun k₁ hpcb => ((refl k).beside hpcb).onEnter
  cases e with
  | sysBP old =>
    have hpcb : ∀ q, (Kernel.setPcb { k with sysbold := old, mStateLoaded := some .sysbold } p
        fun c => { c with pS := old }).pcb q = { k.pcb q with pS := ((Kernel.setPcb
          { k with sysbold := old, mStateLoaded := some .sysbold } p
            fun c => { c with pS := old }).pcb q).pS } := by
      intro q
      by_cases hq : q = p
      · rw [hq, setPcb_pcb_self]
      · rw [setPcb_pcb_of_ne _ _ hq]
    exact ⟨Work.start hby rfl hpcb, (saved fun q => ⟨_, hpcb q⟩).onEnter⟩
  | pgmTrap _ => exact ⟨Work.start hby rfl fun _ => rfl, hold _ rfl⟩
  | tlb _ => exact ⟨Work.start hby rfl fun _ => rfl, hold _ rfl⟩
  | interrupt _ _ => exact ⟨Work.start hby rfl fun _ => rfl, hold _ rfl⟩

end Areas

/-- **What an entry does with the areas**, in any state. -/
theorem areas_handler (hby : k.bySysHdl = false)
    (hrun : e.isInterrupt = false → ∃ p, k.gCurrentProcess = some p) :
    wp (handler M e) (fun _ _ => False) (fun _ => Areas M k e) k := by
  rcases Option.eq_none_or_eq_some k.gCurrentProcess with hnone | ⟨p, hp⟩
  · cases e with
    | interrupt old cause =>
      refine Areas.walk.interrupt_none hnone Areas.yields
        ⟨Work.start hby rfl fun _ => rfl, Areas.onEnter ((Areas.refl k).beside rfl)⟩
        (fun hline => ?_) (fun k' q x h => ?_)
      · have he : (Entry.interrupt old cause).Tick M := hline
        exact ⟨⟨fun k' h => ⟨(Work.tickOpen he).blk k' h.1, h.2.beside rfl⟩,
          fun k' h => ⟨(Work.tickOpen he).clock k' h.1, h.2.beside rfl⟩⟩,
          fun k' h => ⟨⟨⟨h.1.flag, h.1.tods, h.1.abs, h.1.blk, h.1.pid, h.1.user, h.1.oldArea,
            h.1.charged⟩, h.1.current, h.1.slice⟩, h.2.beside rfl⟩, fun k' h => h.2⟩
      · exact ⟨h.1.save fun c => { c with a1 := x }, h.2.setPcb fun _ t => by cases t <;> rfl⟩
    | sysBP _ => exact absurd (hrun rfl) (by simp [hnone])
    | pgmTrap _ => exact absurd (hrun rfl) (by simp [hnone])
    | tlb _ => exact absurd (hrun rfl) (by simp [hnone])
  · refine Areas.walk.handler hp hby (fun k' h => Areas.saved h) (Areas.opens hp) (Areas.start hby)
      (fun _ k' s flag h _ => h.2.onExit flag) (fun _ => Areas.yields)

/-! ### The calls -/

theorem wp_handler_specify {old : ProcState} {Q : Unit → Kernel n → Prop}
    (hp : k.gCurrentProcess = some p) (he : (Entry.sysBP old).Sys M t.nr) :
    wp (handler M (.sysBP old)) Q E k ↔ wp (commonSys M t old.a2 old.a3 old.a4)
      (fun _ k' => wp (leaveHandler M) Q E (k'.onExit M true)) E (k.start M p (.sysBP old)) := by
  obtain ⟨hsys, hmode, hnr⟩ := he
  have hrange : createProcessNr ≤ old.a1 ∧ old.a1 ≤ getPidNr := by
    rw [hnr]
    cases t <;> decide
  rw [wp_handler_call hp hsys, if_pos hrange, if_pos hmode, defSys, wp_bind, wp_get,
    Kernel.start_sysbold]
  dsimp only
  rw [hnr]
  cases t <;> exact Iff.rfl

theorem task_of_specify {old : ProcState} (hp : k.gCurrentProcess = some p)
    (he : (Entry.sysBP old).Sys M t.nr) : k.task M (.sysBP old) = k.specify p t := by
  have hnr : old.a1 = t.nr := he.2.2
  rw [task_of_sys hp he (by cases t <;> decide), Kernel.sysTask, hnr]
  cases t <;> rfl

theorem born_of_specify (hp : k.gCurrentProcess = some p) (he : e.Sys M t.nr) :
    k.born M e = none := by
  obtain ⟨old, rfl, -⟩ := he.exists_old
  rw [Kernel.born, task_of_specify hp he, Kernel.specify]
  split_ifs <;> rfl

theorem saves_of_specify (he : e.Sys M t.nr) : e.saves M = none := by
  obtain ⟨old, rfl, hsys, hmode, hnr⟩ := he.exists_old
  rw [Entry.saves, hnr, hmode, if_pos ⟨hsys, by cases t <;> decide⟩]
  cases t <;> rfl

theorem wp_leaveHandler_stays {Q : Unit → Kernel n → Prop} (hp : k.gCurrentProcess = some p)
    (hE : ∀ s, E s k) : wp (leaveHandler M) Q E k := by
  rw [leaveHandler, wp_bind, wp_get, hp]
  simp only [ldstStateLoaded, wp_bind, wp_get]
  cases k.mStateLoaded with
  | none => exact hE _
  | some x => exact hE _

/-- **A handler is installed**: the new area has its address. -/
theorem installs_handler {old : ProcState} (he : k.Installs M (.sysBP old) p t) :
    wp (handler M (.sysBP old)) (fun _ _ => False)
      (fun _ k' => ((k'.pcb p).area t).newArea.pc = old.a2) k := by
  obtain ⟨hp, hcall, hpc⟩ := he
  have hcur := Kernel.start_current (M := M) (e := .sysBP old) hp
  have hpc₁ : ¬ (k.start M p (.sysBP old)).Handles p t :=
    fun h => Kernel.start_handles.mp h hpc
  rw [wp_handler_specify hp hcall, commonSys, wp_bind, wp_current hcur, wp_bind, wp_get]
  generalize k.start M p (.sysBP old) = k₁ at hcur hpc₁ ⊢
  rw [if_pos (not_not.mp hpc₁), wp_modify]
  refine wp_leaveHandler_stays ((onExit_current true).trans hcur) (fun _ => ?_)
  rw [onExit_area, setPcb_pcb_self, Pcb.area_setArea_self]

/-- **Another call of the type** ends the process. -/
theorem handler_specify_again {old : ProcState} (hp : k.gCurrentProcess = some p)
    (hcall : (Entry.sysBP old).Sys M t.nr) (hpc : k.Handles p t) :
    handler M (.sysBP old) k = (terminateProcess M 0 >>= fun _ => getTODLO M >>= fun x =>
      onHandlerExit x true >>= fun _ => leaveHandler M) (k.start M p (.sysBP old)) := by
  have hcur := Kernel.start_current (M := M) (e := .sysBP old) hp
  have hpc₁ : (k.start M p (.sysBP old)).Handles p t := Kernel.start_handles.mpr hpc
  generalize hr : handler M (.sysBP old) k = r
  have h := wp_iff_eq.mpr hr.symm
  rw [wp_handler_specify hp hcall, commonSys, wp_bind, wp_current hcur, wp_bind, wp_get] at h
  generalize k.start M p (.sysBP old) = k₁ at hcur hpc₁ h ⊢
  rw [if_neg hpc₁] at h
  refine wp_iff_eq.mp ?_
  rw [wp_bind]
  refine wp_mono h (fun _ k' hk' => ?_) (fun _ _ h => h)
  rw [← bind_assoc, wp_bind, wp_onExit]
  exact hk'

/-! ### The first state -/

theorem boot_area : ((boot M : Config n).k.pcb q).area t = .zero := by
  let Bare : Kernel n → Prop := fun k => ∀ q t, (k.pcb q).area t = .zero
  have hlift : ∀ {α : Type} (x : Q n α), Keeps Bare (fun _ => Bare) (liftM x : K n α) := by
    intro α x k h
    rw [wp_liftQ]
    split <;> exact h
  have hset : ∀ {k : Kernel n} {p : Fin n} {f : Pcb → Pcb},
      (∀ t, (f (k.pcb p)).area t = .zero) → Bare k → Bare (k.setPcb p f) := by
    intro k p f hf h q t
    by_cases hq : q = p
    · rw [hq, setPcb_pcb_self]
      exact hf t
    · rw [setPcb_pcb_of_ne _ _ hq]
      exact h q t
  have hmain : wp (main M) (fun _ _ => False) (fun _ => Bare) (Kernel.static n) := by
    rw [main]
    apply (hlift _).seq (fun _ t => by cases t <;> rfl)
    intro _ k₁ h₁
    apply (hlift _).seq h₁
    intro _ k₂ h₂
    rw [wp_bind, wp_modify, allocPcb, bind_assoc]
    refine (hlift _).seq h₂ ?_
    intro r k₃ h₃
    cases r with
    | none => exact h₃
    | some p =>
      dsimp only
      rw [wp_bind, wp_bind, wp_modify, wp_pure, wp_bind, wp_modify]
      have hzero := hset (p := p) (f := fun _ => .zero) (fun t => by cases t <;> rfl) h₃
      have hstart := hset (p := p) (f := fun c => { c with pPid := 1, pS := { c.pS with
        cpsr := M.statusAllIntEnable M.statusSysMode, sp := M.ramTop - M.frameSize, pc := M.test } })
        (fun t => by cases t with
          | sbk => exact hzero p .sbk
          | tlb => exact hzero p .tlb
          | pgm => exact hzero p .pgm) hzero
      refine (hlift _).seq hstart ?_
      intro _ k₄ h₄
      rw [wp_bind, wp_modify]
      refine wp_mono wp_scheduler_scheduled (fun _ _ h => h) (fun s k' hs q t => ?_)
      exact hs.area.trans (h₄ q t)
  exact runToStop_of_wp hmain q t

/-! ### Runs -/

variable {c : Config maxProc} {ins : Fin maxProc → Hdl → Option ProcState} {ev : Event}
  {ok : Kernel maxProc → Entry → Prop}

/-- **The runs of the kernel**, with the new area that the first call of a type with an address
has stored, for each block and each type.  A block that is handed out starts again. -/
inductive Installed (M : Machine) (ok : Kernel maxProc → Entry → Prop) :
    Config maxProc → (Fin maxProc → Hdl → Option ProcState) → Prop
  | boot : Installed M ok (boot M) fun _ _ => none
  | born {c : Config maxProc} {ins : Fin maxProc → Hdl → Option ProcState} {ev : Event}
      {b : Fin maxProc} (h : Installed M ok c ins) (htake : CanTake c ev)
      (hok : ok (c.k.atEntry M ev) ev.entry)
      (hborn : (c.k.atEntry M ev).born M ev.entry = some b) :
      Installed M ok (step M c ev) (update ins b fun _ => none)
  | first {c : Config maxProc} {ins : Fin maxProc → Hdl → Option ProcState} {ev : Event}
      {p : Fin maxProc} {t : Hdl} (h : Installed M ok c ins) (htake : CanTake c ev)
      (hok : ok (c.k.atEntry M ev) ev.entry) (hp : c.k.gCurrentProcess = some p)
      (hcall : ev.entry.Sys M t.nr) (haddr : ev.entry.saved.a2 ≠ 0) (hfirst : ins p t = none) :
      Installed M ok (step M c ev)
        (update ins p (update (ins p) t (some (((step M c ev).k.pcb p).area t).newArea)))
  | other {c : Config maxProc} {ins : Fin maxProc → Hdl → Option ProcState} {ev : Event}
      (h : Installed M ok c ins) (htake : CanTake c ev) (hok : ok (c.k.atEntry M ev) ev.entry)
      (hborn : (c.k.atEntry M ev).born M ev.entry = none)
      (hother : ∀ p t, c.k.gCurrentProcess = some p → ev.entry.Sys M t.nr →
        ev.entry.saved.a2 ≠ 0 → ins p t ≠ none) :
      Installed M ok (step M c ev) ins

theorem Installed.next (h : Installed M ok c ins) (htake : CanTake c ev)
    (hok : ok (c.k.atEntry M ev) ev.entry) : ∃ ins', Installed M ok (JaeOS.step M c ev) ins' := by
  cases hborn : (c.k.atEntry M ev).born M ev.entry with
  | some b => exact ⟨_, h.born htake hok hborn⟩
  | none =>
    by_cases hfirst : ∃ p t, c.k.gCurrentProcess = some p ∧ ev.entry.Sys M t.nr ∧
        ev.entry.saved.a2 ≠ 0 ∧ ins p t = none
    · obtain ⟨p, t, hp, hcall, haddr, hnone⟩ := hfirst
      exact ⟨_, h.first htake hok hp hcall haddr hnone⟩
    · refine ⟨ins, h.other htake hok hborn fun p t hp hcall haddr hnone => ?_⟩
      exact hfirst ⟨p, t, hp, hcall, haddr, hnone⟩

theorem Reaches.installed {L : Set (Fin maxProc)} (h : Reaches M ok c L) :
    ∃ ins, Installed M ok c ins := by
  induction h with
  | boot => exact ⟨_, .boot⟩
  | step _ htake hok ih =>
    obtain ⟨ins, hins⟩ := ih
    exact hins.next htake hok

theorem Installed.reaches (h : Installed M ok c ins) : ∃ L, Reaches M ok c L := by
  induction h with
  | boot => exact ⟨_, .boot⟩
  | born _ htake hok _ ih =>
    obtain ⟨L, hL⟩ := ih
    exact ⟨_, hL.step htake hok⟩
  | first _ htake hok _ _ _ _ ih =>
    obtain ⟨L, hL⟩ := ih
    exact ⟨_, hL.step htake hok⟩
  | other _ htake hok _ _ ih =>
    obtain ⟨L, hL⟩ := ih
    exact ⟨_, hL.step htake hok⟩

/-- The areas between two entries: a type without a first call has no handler, and the others
have the one that was stored. -/
structure Ledger (M : Machine) (c : Config maxProc)
    (ins : Fin maxProc → Hdl → Option ProcState) : Prop where
  ready : Ready M c
  bare : c.stop.Live → ∀ q t, ins q t = none → ((c.k.pcb q).area t).newArea.pc = 0
  stored : ∀ q t v, ins q t = some v →
    v.pc ≠ 0 ∧ ((c.k.pcb q).area t).newArea.handler = v.handler

theorem Hdl.nr_injective {t t' : Hdl} (h : e.Sys M t.nr) (h' : e.Sys M t'.nr) : t = t' := by
  obtain ⟨old, rfl, -, -, hnr⟩ := h.exists_old
  have heq : t.nr = t'.nr := hnr.symm.trans h'.2.2
  cases t <;> cases t' <;> first | rfl | exact absurd heq (by decide)

theorem Ready.areas (h : Ready M c) (htake : CanTake c ev) :
    Areas M (c.k.atEntry M ev) ev.entry (JaeOS.step M c ev).k :=
  runToStop_of_wp (areas_handler (k := c.k.atEntry M ev) (h.flag htake.live) (h.running htake))

theorem Ledger.handles {p : Fin maxProc} {v : ProcState} (h : Ledger M c ins) (hv : ins p t = some v) :
    c.k.Handles p t := by
  obtain ⟨hpc, hsame⟩ := h.stored p t v hv
  have hsame' := congrArg ProcState.pc hsame
  exact fun hzero => hpc (hsame'.symm.trans hzero)

theorem Ledger.keeps {q : Fin maxProc} (h : Ledger M c ins) (htake : CanTake c ev)
    (hborn : (c.k.atEntry M ev).born M ev.entry ≠ some q)
    (hinst : ¬ (c.k.atEntry M ev).Installs M ev.entry q t) :
    (ins q t = none → (((step M c ev).k.pcb q).area t).newArea.pc = 0) ∧
      ∀ v, ins q t = some v →
        v.pc ≠ 0 ∧ (((step M c ev).k.pcb q).area t).newArea.handler = v.handler := by
  have hsame := (h.ready.areas htake).handler q t hborn hinst
  have hpc := congrArg ProcState.pc hsame
  refine ⟨fun hnone => hpc.trans (h.bare htake.live q t hnone), fun v hv => ?_⟩
  obtain ⟨hne, hstored⟩ := h.stored q t v hv
  exact ⟨hne, hsame.trans hstored⟩

theorem ledger_boot : Ledger M (boot M) fun _ _ => none where
  ready := ready_boot
  bare _ q t _ := by rw [boot_area]; rfl
  stored q t v h := absurd h (by simp)

/-- **A block that is handed out** has no handlers. -/
theorem Ledger.born {b : Fin maxProc} (h : Ledger M c ins) (htake : CanTake c ev)
    (hborn : (c.k.atEntry M ev).born M ev.entry = some b) :
    Ledger M (step M c ev) (update ins b fun _ => none) := by
  obtain ⟨hcall, hroom⟩ := sys_of_born hborn
  obtain ⟨p, hp⟩ := h.ready.caller htake hcall
  have hinst : ∀ q t, ¬ (c.k.atEntry M ev).Installs M ev.entry q t := by
    rintro q t ⟨-, hcall', -⟩
    obtain ⟨old, hold, -, -, hnr⟩ := hcall.exists_old
    rw [hold] at hcall'
    have heq : createProcessNr = t.nr := hnr.symm.trans hcall'.2.2
    cases t <;> exact absurd heq (by decide)
  have hkeeps : ∀ q t, q ≠ b → _ := fun q t hq =>
    h.keeps (q := q) (t := t) htake (by simp [hborn, Ne.symm hq]) (hinst q t)
  refine ⟨h.ready.next htake, fun hlive q t hnone => ?_, fun q t v hv => ?_⟩
  · by_cases hq : q = b
    · obtain ⟨b', -, hb', -, -, -, -, hzero⟩ :=
        runToStop_of_wp (wp_handler_create (k := c.k.atEntry M ev) hp hcall hroom) hlive
      rw [born_of_sys (k := c.k.atEntry M ev) hp hcall] at hborn
      obtain rfl : b = b' := Option.some.inj (hborn.symm.trans hb')
      rw [hq]
      exact congrArg (fun a => a.newArea.pc) (hzero t)
    · rw [Function.update_of_ne hq] at hnone
      exact (hkeeps q t hq).1 hnone
  · by_cases hq : q = b
    · rw [hq, Function.update_self] at hv
      exact absurd hv (by simp)
    · rw [Function.update_of_ne hq] at hv
      exact (hkeeps q t hq).2 v hv

/-- **The first call** of a type with an address stores a handler. -/
theorem Ledger.first {p : Fin maxProc} (h : Ledger M c ins) (htake : CanTake c ev)
    (hp : c.k.gCurrentProcess = some p) (hcall : ev.entry.Sys M t.nr)
    (haddr : ev.entry.saved.a2 ≠ 0) (hfirst : ins p t = none) :
    Ledger M (step M c ev)
      (update ins p (update (ins p) t (some (((step M c ev).k.pcb p).area t).newArea))) := by
  have hborn : (c.k.atEntry M ev).born M ev.entry = none := born_of_specify hp hcall
  have hkeeps : ∀ q t', (q = p → t' ≠ t) → _ := fun q t' hne =>
    h.keeps (q := q) (t := t') htake (by simp [hborn]) (by
      rintro ⟨hq, hcall', -⟩
      exact hne (Option.some.inj (hq.symm.trans hp)) (Hdl.nr_injective hcall' hcall))
  have hpc : (((step M c ev).k.pcb p).area t).newArea.pc ≠ 0 := by
    obtain ⟨old, hold, -⟩ := hcall.exists_old
    have hinst : (c.k.atEntry M ev).Installs M (.sysBP old) p t :=
      ⟨hp, hold ▸ hcall, h.bare htake.live p t hfirst⟩
    have hstep : (step M c ev).k = (runToStop (handler M (.sysBP old)) (c.k.atEntry M ev)).k := by
      rw [step, hold]
    rw [hstep, runToStop_of_wp (installs_handler hinst)]
    rw [hold] at haddr
    exact haddr
  refine ⟨h.ready.next htake, fun _ q t' hnone => ?_, fun q t' v hv => ?_⟩
  · by_cases hq : q = p
    · subst hq
      rw [Function.update_self] at hnone
      by_cases ht : t' = t
      · rw [ht, Function.update_self] at hnone
        exact absurd hnone (by simp)
      · rw [Function.update_of_ne ht] at hnone
        exact (hkeeps q t' fun _ => ht).1 hnone
    · rw [Function.update_of_ne hq] at hnone
      exact (hkeeps q t' fun heq => absurd heq hq).1 hnone
  · by_cases hq : q = p
    · subst hq
      rw [Function.update_self] at hv
      by_cases ht : t' = t
      · subst ht
        rw [Function.update_self] at hv
        obtain rfl := Option.some.inj hv
        exact ⟨hpc, rfl⟩
      · rw [Function.update_of_ne ht] at hv
        exact (hkeeps q t' fun _ => ht).2 v hv
    · rw [Function.update_of_ne hq] at hv
      exact (hkeeps q t' fun heq => absurd heq hq).2 v hv

/-- **Any other entry** leaves the handlers as they are. -/
theorem Ledger.other (h : Ledger M c ins) (htake : CanTake c ev)
    (hborn : (c.k.atEntry M ev).born M ev.entry = none)
    (hother : ∀ p t, c.k.gCurrentProcess = some p → ev.entry.Sys M t.nr →
      ev.entry.saved.a2 ≠ 0 → ins p t ≠ none) : Ledger M (step M c ev) ins := by
  have hkeeps : ∀ q t, (ins q t = none → (((step M c ev).k.pcb q).area t).newArea.pc = 0) ∧
      ∀ v, ins q t = some v →
        v.pc ≠ 0 ∧ (((step M c ev).k.pcb q).area t).newArea.handler = v.handler := by
    intro q t
    by_cases hinst : (c.k.atEntry M ev).Installs M ev.entry q t
    · obtain ⟨hq, hcall, hpc⟩ := hinst
      have hnone : ins q t = none := by
        by_contra hsome
        obtain ⟨v, hv⟩ := Option.ne_none_iff_exists'.mp hsome
        exact h.handles hv hpc
      -- a call without an address leaves the area without a handler
      have haddr : ev.entry.saved.a2 = 0 := by
        by_contra hne
        exact hother q t hq hcall hne hnone
      refine ⟨fun _ => ?_, fun v hv => absurd (hnone.symm.trans hv) (by simp)⟩
      obtain ⟨old, hold, -⟩ := hcall.exists_old
      have hstep : (step M c ev).k = (runToStop (handler M (.sysBP old)) (c.k.atEntry M ev)).k := by
        rw [step, hold]
      rw [hstep, runToStop_of_wp (installs_handler ⟨hq, hold ▸ hcall, hpc⟩)]
      rw [hold] at haddr
      exact haddr
    · exact h.keeps htake (by simp [hborn]) hinst
  exact ⟨h.ready.next htake, fun _ q t hnone => (hkeeps q t).1 hnone,
    fun q t v hv => (hkeeps q t).2 v hv⟩

theorem Installed.ledger (h : Installed M ok c ins) : Ledger M c ins := by
  induction h with
  | boot => exact ledger_boot
  | born _ htake _ hborn ih => exact ih.born htake hborn
  | first _ htake _ hp hcall haddr hfirst ih => exact ih.first htake hp hcall haddr hfirst
  | other _ htake _ hborn hother ih => exact ih.other htake hborn hother

/-! ### Handlers are installed once -/

/-- What becomes of the areas. -/
structure HandlersStay (M : Machine) (c : Config maxProc)
    (ins : Fin maxProc → Hdl → Option ProcState) : Prop where
  /-- A handler stays as it was stored, but for `a1` to `a4`. -/
  kept : ∀ q t v, ins q t = some v → ((c.k.pcb q).area t).newArea.handler = v.handler
  /-- A call of one type does not touch the areas of another. -/
  others : ∀ ev, CanTake c ev → ∀ t t', t' ≠ t → ev.entry.Sys M t.nr →
    ∀ q, ((step M c ev).k.pcb q).area t' = (c.k.pcb q).area t'
  /-- Another call of the type is a call for the end of the process, and writes no area. -/
  again : ∀ ev, CanTake c ev → ∀ p t v, c.k.gCurrentProcess = some p → ins p t = some v →
    ev.entry.Sys M t.nr → (∀ q t', ((step M c ev).k.pcb q).area t' = (c.k.pcb q).area t') ∧
      handler M ev.entry (c.k.atEntry M ev) = (terminateProcess M 0 >>= fun _ => getTODLO M >>=
        fun x => onHandlerExit x true >>= fun _ => leaveHandler M)
          ((c.k.atEntry M ev).start M p ev.entry)

/-- What the handlers of a run keep to, at the entries that satisfy `ok`: besides, another call
of the type ends, and the process and its whole progeny are free after it. -/
structure HandlersOnce (M : Machine) (ok : Kernel maxProc → Entry → Prop) (c : Config maxProc)
    (ins : Fin maxProc → Hdl → Option ProcState) : Prop extends HandlersStay M c ins where
  ends : ∀ ev, CanTake c ev → ok (c.k.atEntry M ev) ev.entry → ∀ p t v,
    c.k.gCurrentProcess = some p → ins p t = some v → ev.entry.Sys M t.nr →
      (∀ f, (step M c ev).stop ≠ .fault f) ∧
        ∃ xs, (step M c ev).k.Queue .pcbFree xs ∧ ∀ q, Progeny c.k.pParent p q → q ∈ xs

/-- **The handlers stay**, in every run. -/
theorem handlers_stay (h : Installed M ok c ins) : HandlersStay M c ins where
  kept q t v hv := (h.ledger.stored q t v hv).2
  others ev htake t t' hne hcall q := by
    obtain ⟨p, hp⟩ := h.ledger.ready.caller htake hcall
    have hborn : (c.k.atEntry M ev).born M ev.entry = none := born_of_specify hp hcall
    refine (h.ledger.ready.areas htake).area q t' (by simp [hborn]) ?_ ?_
    · rintro ⟨-, hcall', -⟩
      exact hne (Hdl.nr_injective hcall' hcall)
    · rintro ⟨-, hsaves⟩
      rw [saves_of_specify hcall] at hsaves
      exact absurd hsaves (by simp)
  again ev htake p t v hp hv hcall := by
    have hborn : (c.k.atEntry M ev).born M ev.entry = none := born_of_specify hp hcall
    have hhandles : (c.k.atEntry M ev).Handles p t := h.ledger.handles hv
    refine ⟨fun q t' => (h.ledger.ready.areas htake).area q t' (by simp [hborn]) ?_ ?_, ?_⟩
    · rintro ⟨hq, hcall', hpc⟩
      obtain rfl := Hdl.nr_injective hcall' hcall
      obtain rfl : p = q := Option.some.inj (hp.symm.trans hq)
      exact hhandles hpc
    · rintro ⟨-, hsaves⟩
      rw [saves_of_specify hcall] at hsaves
      exact absurd hsaves (by simp)
    · obtain ⟨old, hold, -⟩ := hcall.exists_old
      rw [hold] at hcall ⊢
      exact handler_specify_again hp hcall hhandles

/-- A second call of a type, where the queues are intact. -/
theorem Ledger.ends {L : Set (Fin maxProc)} {p : Fin maxProc} {v : ProcState}
    (h : Ledger M c ins) (hL : Layout M) (hreach : Reaches M (fun k e => k.Admits M e) c L)
    (htake : CanTake c ev) (hok : (c.k.atEntry M ev).Admits M ev.entry)
    (hp : c.k.gCurrentProcess = some p) (hv : ins p t = some v) (hcall : ev.entry.Sys M t.nr) :
    (∀ f, (step M c ev).stop ≠ .fault f) ∧
      ∃ xs, (step M c ev).k.Queue .pcbFree xs ∧ ∀ q, Progeny c.k.pParent p q → q ∈ xs := by
  obtain ⟨σ, hb⟩ := hreach.exists_between hL
  obtain ⟨σ', hb', -, -⟩ := hb.step hL htake hok
  have hfree := (Snap.owned_of_core hb'.core).listed .free .pcbFree rfl
  refine ⟨hb'.sound, σ'.view.list .free, hfree, fun q hq => ?_⟩
  have htask : (c.k.atEntry M ev).task M ev.entry = .kill p := by
    obtain ⟨old, hold, -⟩ := hcall.exists_old
    rw [hold] at hcall ⊢
    have hhandles : (c.k.atEntry M ev).Handles p t := h.handles hv
    rw [task_of_specify (k := c.k.atEntry M ev) hp hcall, Kernel.specify, if_pos hhandles]
  have hdies : (c.k.atEntry M ev).Dies M ev.entry q := ⟨p, htask, hq⟩
  rw [σ'.view.mem]
  by_contra hne
  exact ((hb'.live q).mp hne).2 hdies

/-- **Handlers are installed once.**  In every run in which no process is terminated on the ready
queue with a `p_cursem` from an earlier wait, the handler that the first call of a type with an
address has stored stays until the block is handed out again, and every further call of the
type by the process ends it and its progeny. -/
theorem handlers_once (hL : Layout M) (h : Installed M (fun k e => k.Admits M e) c ins) :
    HandlersOnce M (fun k e => k.Admits M e) c ins where
  toHandlersStay := handlers_stay h
  ends ev htake hok p t v hp hv hcall := by
    obtain ⟨L, hreach⟩ := h.reaches
    exact h.ledger.ends hL hreach htake hok hp hv hcall

/-- The first process creates another one and installs a handler of program traps; a trap is
passed up, and a second call ends both processes. -/
theorem handlers_once_twice : ∃ (c : Config maxProc) (v : ProcState), v.pc = 0x5000 ∧
    ((c.k.pcb proc0).area .pgm).newArea.a1 ≠ v.a1 ∧
    ((c.k.pcb proc0).area .pgm).newArea.handler = v.handler ∧
    ∃ xs, (step uarm c (sys specPgmTHdlNr 0x6000 0 0)).k.Queue .pcbFree xs ∧
      ∀ q, Progeny c.k.pParent proc0 q → q ∈ xs := by
  let create : Event := sys createProcessNr 0 0 0
  let specify : Event := sys specPgmTHdlNr 0x5000 0x9000 0
  let trap : Event := (Entry.pgmTrap { ProcState.zero with cp15Cause := 20 }).event
  let again : Event := sys specPgmTHdlNr 0x6000 0 0
  let c₁ : Config maxProc := step uarm (boot uarm) create
  let c₂ : Config maxProc := step uarm c₁ specify
  let c₃ : Config maxProc := step uarm c₂ trap
  let v : ProcState := ((c₂.k.pcb proc0).area .pgm).newArea
  have hcreate : Installed uarm (fun k e => k.Admits uarm e) c₁ _ :=
    .born .boot (Config.canTake_iff.mp (by decide +kernel)) (.of_tame (by decide +kernel))
      (b := ⟨1, by decide⟩) (by decide +kernel)
  have hfirst : Installed uarm (fun k e => k.Admits uarm e) c₂ _ :=
    .first (t := .pgm) hcreate (Config.canTake_iff.mp (by decide +kernel))
      (.of_tame (by decide +kernel)) (p := proc0) (by decide +kernel)
      (by decide : specify.entry.Sys uarm Hdl.pgm.nr) (by decide) rfl
  have hins : Installed uarm (fun k e => k.Admits uarm e) c₃ _ :=
    hfirst.other (Config.canTake_iff.mp (by decide +kernel)) (.of_tame (by decide +kernel))
      (by decide +kernel) (fun _ _ _ h => h.elim)
  have honce := handlers_once layout_uarm hins
  have hv : update (update (fun _ _ => none) ⟨1, by decide⟩ fun _ => none) proc0
      (update (fun _ => none) Hdl.pgm (some v)) proc0 .pgm = some v := by
    rw [Function.update_self, Function.update_self]
  refine ⟨c₃, v, by decide +kernel, by decide +kernel, honce.kept proc0 .pgm v hv, ?_⟩
  exact (honce.ends again (Config.canTake_iff.mp (by decide +kernel)) (.of_tame (by decide +kernel))
    proc0 .pgm v (by decide +kernel) hv (by decide : again.entry.Sys uarm Hdl.pgm.nr)).2

/-- A child waits for a unit, and another child releases it: the first one is ready. -/
def wakeSibling : List Event :=
  [sys 1 0 0 0, sys 1 0 0 0, timerInterrupt, sys 3 0x20000 (-1) 0, sys 3 0x20000 1 0, timerInterrupt]

/-- Their parent installs a handler of program traps, ends the first child and installs a handler
again: the kernel does not find the second child on the ready queue, and nobody is ended. -/
theorem not_handlersOnce_of_legal :
    ¬ ∀ c ins, Installed uarm (fun k e => k.Legal uarm e) c ins →
      HandlersOnce uarm (fun k e => k.Legal uarm e) c ins := by
  intro hall
  let specify : Event := sys specPgmTHdlNr 0x5000 0x9000 0
  let kill : Event := sys terminateProcessNr 66 0 0
  have hlegal : ∀ (k : Kernel maxProc) e, k.legal uarm e = true → k.Legal uarm e :=
    fun _ _ => Kernel.legal_iff.mp
  obtain ⟨c, L, hreach, hc⟩ := reaches_legal wakeSibling
    (fun c => c.canTake specify && (c.k.atEntry uarm specify).legal uarm specify.entry &&
      c.k.gCurrentProcess == some proc0 &&
      (let c₁ := step uarm c specify
      c₁.canTake kill && (c₁.k.atEntry uarm kill).legal uarm kill.entry &&
        (c₁.k.atEntry uarm kill).born uarm kill.entry == none &&
        (let c₂ := step uarm c₁ kill
        c₂.canTake specify && (c₂.k.atEntry uarm specify).legal uarm specify.entry &&
          c₂.k.gCurrentProcess == some proc0 && (step uarm c₂ specify).stop == .fault .wild)))
    (by decide +kernel)
  simp only [Bool.and_eq_true, beq_iff_eq] at hc
  obtain ⟨⟨⟨htake, hok⟩, hp⟩, ⟨⟨htake₁, hok₁⟩, hborn₁⟩, ⟨⟨htake₂, hok₂⟩, hp₂⟩, hwild⟩ := hc
  obtain ⟨ins, hins⟩ := hreach.installed
  have hcall : specify.entry.Sys uarm Hdl.pgm.nr := ⟨by decide, by decide, rfl⟩
  obtain ⟨ins₁, v, hins₁, hv⟩ : ∃ ins₁ v,
      Installed uarm (fun k e => k.Legal uarm e) (step uarm c specify) ins₁ ∧
        ins₁ proc0 .pgm = some v := by
    have htake := Config.canTake_iff.mp htake
    cases hnone : ins proc0 .pgm with
    | none =>
      refine ⟨_, (((step uarm c specify).k.pcb proc0).area .pgm).newArea,
        hins.first htake (hlegal _ _ hok) hp hcall (by decide) hnone, ?_⟩
      rw [Function.update_self, Function.update_self]
    | some v =>
      refine ⟨ins, v, hins.other htake (hlegal _ _ hok) (born_of_specify hp hcall) ?_, hnone⟩
      intro p t hp' hcall' _
      obtain rfl := Hdl.nr_injective hcall hcall'
      obtain rfl := Option.some.inj (hp.symm.trans hp')
      simp [hnone]
  have hins₂ := hins₁.other (Config.canTake_iff.mp htake₁) (hlegal _ _ hok₁) hborn₁
    (fun p t _ hcall' => absurd hcall'.2.2 (by cases t <;> decide))
  obtain ⟨hsound, -⟩ := (hall _ _ hins₂).ends specify (Config.canTake_iff.mp htake₂)
    (hlegal _ _ hok₂) proc0 .pgm v hp₂ hv hcall
  exact hsound .wild hwild

end JaeOS
