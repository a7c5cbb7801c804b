import JaeOS.Properties.ContextSwitch
import JaeOS.Properties.Preemption
import JaeOS.Properties.Resume
import JaeOS.Properties.Rotation

/-!
# New processes

A process starts with the registers its creator has passed, in a block with nothing left of
an earlier owner, whatever happens between its creation and its first turn; and GETPID
tells it for ever the pid that SYS1 has returned to the creator.
-/

namespace JaeOS

open Function (update)

variable {n : ℕ} {M : Machine} {k k' : Kernel n} {p b : Fin n} {e : Entry} {old x y z : ProcState}
  {E : Stop → Kernel n → Prop}

/-- The block of a process that has not run yet. -/
def Pcb.newborn (pid : Word) (x : ProcState) : Pcb := { Pcb.zero with pPid := pid, pS := x }

/-- The registers that SYS1 is passed. -/
def Kernel.passed (k : Kernel n) (M : Machine) : Entry → ProcState
  | .sysBP old => M.readState k.mem old.a2
  | _ => .zero

/-! ### The creation -/

/-- The block `b` has been filled in. -/
structure Cradled (k : Kernel n) (p b : Fin n) (c : Pcb) (k' : Kernel n) : Prop where
  current : k'.gCurrentProcess = some p
  loaded : k'.mStateLoaded = k.mStateLoaded
  block : k'.pcb b = c

theorem cradled_liftQ {c : Pcb} {α : Type} (hE : ∀ k', E (.fault .wild) k') (m : Q n α) :
    Keeps (Cradled k p b c) E (liftM m : K n α) := by
  intro k' h
  rw [wp_liftQ]
  split
  · exact ⟨h.current, h.loaded, h.block⟩
  · exact hE k'

theorem cradled_liftT {c : Pcb} {α : Type} (hE : ∀ k', E (.fault .wild) k') (m : T n α) :
    Keeps (Cradled k p b c) E (liftM m : K n α) := by
  intro k' h
  rw [wp_liftT]
  split
  · exact ⟨h.current, h.loaded, h.block⟩
  · exact hE k'

/-- **`createProcess`** leaves nothing in the block of what was there before. -/
theorem wp_createProcess_cradled (hE : ∀ k', E (.fault .wild) k')
    (hp : k.gCurrentProcess = some p) (hroom : k.gProcessCount.toNat < maxProc) :
    wp (createProcess x) (fun _ k' => ∃ b, k.core.spare = some b ∧
      Cradled k p b (.newborn k.nextPid x) k' ∧ k'.sysbold.a1 = k.nextPid) E k := by
  rw [createProcess, wp_bind, wp_get, if_pos hroom, allocPcb, bind_assoc, wp_bind, wp_liftQ]
  cases hrem : (removeProcQ .pcbFree).run k.toQueues with
  | none => exact hE k
  | some r =>
    obtain ⟨r, s⟩ := r
    cases r with
    | none => exact hE _
    | some b =>
      have hspare : k.core.spare = some b := by
        have hhead : (k.procQ .pcbFree).head.join = some b := by
          rw [run_removeProcQ_head hrem, Option.join_some]
        exact (if_pos hroom).trans hhead
      dsimp only
      rw [wp_bind, wp_bind, wp_modify, wp_pure, wp_bind, wp_modify, pidSelector, wp_bind, wp_bind,
        wp_modify, wp_bind, wp_get, wp_pure, wp_bind, wp_modify]
      have hcurrent : Keeps (Cradled k p b (.newborn k.nextPid x)) E (current : K n (Fin n)) :=
        fun _ h => (wp_current h.current).mpr h
      have hzero : update k.pcb b Pcb.zero b = .zero := Function.update_self ..
      refine hcurrent.seq ⟨hp, rfl, ?_⟩ ?_
      · rw [setPcb_pcb_self]
        exact congrArg (fun c : Pcb => { c with pPid := k.nextPid, pS := x }) hzero
      intro _ k₀ h₀
      apply (cradled_liftT hE _).seq h₀
      intro _ k₁ h₁
      apply (cradled_liftQ hE _).seq h₁
      intro _ k₂ h₂
      rw [wp_modify]
      exact ⟨b, hspare, ⟨h₂.current, h₂.loaded, h₂.block⟩, congrArg Pcb.pPid h₂.block⟩

/-- **SYS1**, when there is room. -/
theorem wp_handler_cradled (hp : k.gCurrentProcess = some p) (he : e.Sys M createProcessNr)
    (hroom : k.gProcessCount.toNat < maxProc) (hne : k.core.spare ≠ some p) :
    wp (handler M e) (fun _ _ => False) (fun s k' => s.Live → ∃ b y, k.core.spare = some b ∧
      s = .ldst y ∧ k'.gCurrentProcess = some p ∧ k'.pcb b = .newborn y.a1 (k.passed M e)) k := by
  obtain ⟨old, rfl, hsys, hmode, hnr⟩ := he.exists_old
  let k₁ : Kernel n := k.start M p (.sysBP old)
  have hp₁ : k₁.gCurrentProcess = some p := Kernel.start_current hp
  have hold : k₁.sysbold = old := Kernel.start_sysbold
  have hload : k₁.mStateLoaded = some .sysbold := onEnter_mStateLoaded
  have hmem : k₁.mem = k.mem :=
    congrArg Core.mem (Kernel.start_core (k := k) (M := M) (p := p) (e := .sysBP old))
  obtain ⟨-, hcount, -⟩ := Kernel.start_counts (k := k) (M := M) (p := p) (e := .sysBP old)
  have hspare : k₁.core.spare = k.core.spare := congrArg Core.spare Kernel.start_core
  rw [wp_handler_call hp hsys, if_pos (by rw [hnr]; decide), if_pos hmode, defSys, wp_bind, wp_get]
  change wp (if k₁.sysbold.a1 = createProcessNr then _ else _) _ _ k₁
  rw [hold, if_pos hnr, wp_bind, wp_get]
  refine wp_mono (wp_createProcess_cradled (fun _ hlive => absurd hlive (not_live_fault _)) hp₁
    (hcount.symm ▸ hroom)) ?_ (fun _ _ h => h)
  rintro _ k₂ ⟨b, hb, h₂, ha1⟩
  refine wp_leave_sysbold h₂.current (h₂.loaded.trans hload) (fun _ => ?_)
  have hb' : k.core.spare = some b := hspare.symm.trans hb
  have hpb : p ≠ b := by
    rintro rfl
    exact hne hb'
  refine ⟨b, k₂.sysbold, hb', rfl, (onExit_current true).trans h₂.current, ?_⟩
  rw [onExit_pcb, if_neg (fun hc => hpb (Option.some.inj (h₂.current.symm.trans hc.2))), h₂.block,
    ha1, Kernel.passed, ← hmem]

theorem Does.created {σ σ' : Snap n} (hσ : σ.core = k.core) (hborn : k.born M e = some b)
    (h : Does M (k.task M e) σ σ') :
    σ'.view.place b = .ready ∧ ∃ p, σ'.core.gCurrentProcess = some p := by
  have htask : k.task M e = .create := by
    rw [Kernel.born] at hborn
    split at hborn
    · assumption
    · cases hborn
  have hroom := (sys_of_born hborn).2
  rw [htask] at h
  cases h with
  | full hfull =>
    rw [hσ] at hfull
    exact absurd hroom hfull
  | @create p c _ _ h =>
    have hhead := Clist.Holds.head_eq ((Snap.owned_of_core hσ).listed .free _ rfl)
    have hspare : (k.procQ .pcbFree).head.join = some b := by
      rw [Kernel.born, htask] at hborn
      exact (if_pos hroom).symm.trans hborn
    rw [hhead, h.first, Option.join_some] at hspare
    obtain rfl := Option.some.inj hspare
    rw [h.view, Placement.move_place_self]
    exact ⟨rfl, p, h.current.trans h.parent⟩

theorem Ends.created {σ σ' : Snap n} {stop : Stop} (hσ : σ.core = k.core)
    (hborn : k.born M e = some b) (h : Ends M (k.task M e) σ stop σ') (hlive : stop.Live) :
    σ'.view.place b = .ready := by
  have hgoes : ∀ {σ₁ : Snap n}, Does M (k.task M e) σ σ₁ → σ₁.core.gCurrentProcess ≠ none := by
    intro σ₁ hd hidle
    obtain ⟨p, hp⟩ := (hd.created hσ hborn).2
    exact absurd (hidle.symm.trans hp) (by simp)
  cases h with
  | fail => exact absurd hlive (Stop.Plain.not_live trivial)
  | back hd _ => exact (hd.created hσ hborn).1
  | dispatch hd hidle _ => exact absurd hidle (hgoes hd)
  | idle hd hidle _ => exact absurd hidle (hgoes hd)

/-! ### Until the first turn -/

section Runs

variable {c c' : Config maxProc} {L L' : Set (Fin maxProc)} {σ : Snap maxProc} {ev ev' : Event}
  {b : Fin maxProc} {ps : List (Fin maxProc)} {cs : List (Config maxProc)}

theorem Between.delivered_ready (h : Between c L σ) (hb : σ.view.place b = .ready) :
    (c.k.atEntry M ev).delivered M ev.entry b = ∅ := by
  refine Set.eq_empty_of_forall_notMem ?_
  rintro st ⟨a, k₁, k₂, -, hcore, -, ⟨s, hfirst⟩, -⟩
  have hqueues : k₁.toQueues = c.k.toQueues := congrArg Core.toQueues hcore
  rw [hqueues, (Snap.owned_of_core h.core).run_headBlocked a] at hfirst
  have hhead : (σ.view.list (.sem a)).head? = some b :=
    congrArg Prod.fst (Option.some.inj hfirst)
  have hsem : σ.view.place b = .sem a := Snap.place_of_head hhead
  exact absurd (hsem.symm.trans hb) (by simp)

/-- **An entry of another process** leaves the block of a ready process alone. -/
theorem Between.ready_block (h : Between c L σ) (hb : σ.view.place b = .ready) (ev : Event) :
    ((JaeOS.step M c ev).k.pcb b).context = (c.k.pcb b).context ∧ c.k.gCurrentProcess ≠ some b ∧
      (c.k.atEntry M ev).born M ev.entry ≠ some b := by
  have hcur : c.k.gCurrentProcess ≠ some b := by
    intro hcur
    have hheld := (h.consistent.current b).mpr (by rw [h.core]; exact hcur)
    exact absurd (hheld.symm.trans hb) (by simp)
  have hborn : (c.k.atEntry M ev).born M ev.entry ≠ some b := by
    intro hborn
    have hfree := Snap.place_born (Snap.atEntry_core h.core) hborn
    exact absurd (hfree.symm.trans hb) (by simp)
  have hblock := (Kernel.framed (M := M) (k := c.k.atEntry M ev) (e := ev.entry) hcur hborn).block
  rw [h.delivered_ready hb] at hblock
  exact ⟨hblock.resolve_right (fun ⟨_, hst, _⟩ => hst), hcur, hborn⟩

theorem Between.ready_place (h : Between c L σ) (hb : c.k.IsReady b) :
    σ.view.place b = .ready := by
  obtain ⟨ps, hps, hmem⟩ := hb
  have hready : c.k.Queue .gReadyQueue (σ.view.list .ready) :=
    (Snap.owned_of_core h.core).listed .ready _ rfl
  rw [hps.unique hready] at hmem
  exact (σ.view.mem _ b).mp hmem

/-- **While a process is ready**, its block keeps what it holds. -/
theorem Passing.block {c₀ : Config maxProc} {L₀ : Set (Fin maxProc)} (hL : Layout M)
    (h₀ : Reaches M (fun k e => k.Admits M e) c₀ L₀) (hready : c₀.k.IsReady b)
    (h : Passing M b c₀ L₀ c L ps) :
    (c.k.pcb b).context = (c₀.k.pcb b).context ∧ c.k.IsReady b := by
  induction h with
  | refl => exact ⟨rfl, hready⟩
  | step hrest _ _ hx ih =>
    obtain ⟨σ, hb⟩ := (hrest.reaches h₀).exists_between hL
    exact ⟨(hb.ready_block (hb.ready_place ih.2) _).1.trans ih.1, hx⟩

theorem Between.ready_of_place (h : Between c L σ) (hb : σ.view.place b = .ready) :
    c.k.IsReady b :=
  ⟨_, (Snap.owned_of_core h.core).listed .ready _ rfl, (σ.view.mem _ b).mpr hb⟩

theorem Path.pid (hc : Ready M c) (h : Path M (fun k e => k.born M e ≠ some b) c cs c')
    (hlive : c'.stop.Live) : (c'.k.pcb b).pPid = (c.k.pcb b).pPid := by
  induction h with
  | refl => rfl
  | snoc h htake hok ih =>
    exact (((h.ready hc).step htake hlive).pid b hok).trans (ih htake.live)

theorem Pcb.eq_of_context {d d' : Pcb} {w : Word} (h : d.context = d'.context)
    (hw : d.pTimeSlice = w) : d = { d' with pTimeSlice := w } := by
  subst hw
  exact congrArg (fun c : Pcb => { c with pTimeSlice := d.pTimeSlice }) h

theorem Reaches.newborn_block (hL : Layout M) (h : Reaches M (fun k e => k.Admits M e) c L)
    (htake : CanTake c ev) (hok : (c.k.atEntry M ev).Admits M ev.entry)
    (hborn : (c.k.atEntry M ev).born M ev.entry = some b) (hy : (JaeOS.step M c ev).stop = .ldst y) :
    (JaeOS.step M c ev).k.pcb b = .newborn y.a1 ((c.k.atEntry M ev).passed M ev.entry) ∧
      (JaeOS.step M c ev).k.IsReady b := by
  obtain ⟨σ, hb⟩ := h.exists_between hL
  have hcore : (σ.atEntry M ev.mem).core = (c.k.atEntry M ev).core := Snap.atEntry_core hb.core
  have hlive : (JaeOS.step M c ev).stop.Live := .inl ⟨y, hy⟩
  obtain ⟨hcall, hroom⟩ := sys_of_born hborn
  obtain ⟨p, hp⟩ : ∃ p, (c.k.atEntry M ev).gCurrentProcess = some p :=
    (reaches_ready h).caller htake hcall
  have hspare : (c.k.atEntry M ev).core.spare = some b := (born_of_sys hp hcall).symm.trans hborn
  have hpb : (c.k.atEntry M ev).core.spare ≠ some p := by
    intro hp'
    obtain rfl := Option.some.inj (hp'.symm.trans hspare)
    have hfree := Snap.place_born hcore hborn
    have hheld := ((hb.consistent.atEntry M ev.mem).current p).mpr (by rw [hcore]; exact hp)
    exact absurd (hfree.symm.trans hheld) (by simp)
  refine ⟨?_, ?_⟩
  · obtain ⟨b', y', hb', hy', -, hblk⟩ :=
      runToStop_of_wp (wp_handler_cradled hp hcall hroom hpb) hlive
    obtain rfl := Option.some.inj (hspare.symm.trans hb')
    obtain rfl := Stop.ldst.inj (hy.symm.trans hy')
    exact hblk
  · obtain ⟨σ', hb', hends, -⟩ := hb.step hL htake hok
    exact hb'.ready_of_place (hends.created hcore hborn hlive)

theorem Reaches.first_turn (hL : Layout M) (h : Reaches M (fun k e => k.Admits M e) c L)
    (htake : CanTake c ev) (hready : c.k.IsReady b)
    (hrun : (JaeOS.step M c ev).k.gCurrentProcess = some b)
    (hz : (JaeOS.step M c ev).stop = .ldst z) :
    (JaeOS.step M c ev).k.pcb b = { c.k.pcb b with pTimeSlice := schedTimeSlice } ∧
      z = (c.k.pcb b).pS := by
  obtain ⟨σ, hb⟩ := h.exists_between hL
  obtain ⟨hctx, hcur, hborn⟩ := hb.ready_block (M := M) (hb.ready_place hready) ev
  have hpassed := (reaches_ready h).step htake (.inl ⟨z, hz⟩)
  have hslice : ((JaeOS.step M c ev).k.pcb b).pTimeSlice = schedTimeSlice := by
    refine hpassed.fresh (fun q hq => ?_) b hrun
    by_contra hstay
    obtain rfl := Option.some.inj ((hpassed.stays q hq hstay).1.symm.trans hrun)
    exact hcur hq
  have hload := ((Kernel.framed (k := c.k.atEntry M ev) hcur hborn).load z hz hrun).eq_pS hrun
  have hpS : ((JaeOS.step M c ev).k.pcb b).pS = (c.k.pcb b).pS := by
    have hs := congrArg Pcb.pS hctx
    exact hs
  exact ⟨Pcb.eq_of_context hctx hslice, hload.trans hpS⟩

/-- **A process starts with what its creator has passed.**  When SYS1 has created it, and
until it gets the processor for the first time, whatever entries the kernel is ready for come
in between, it keeps these registers; it starts with no handlers, no times and a whole time slice; and as
long as it lives GETPID gives it the pid that the creator was given. -/
theorem newborn_starts (hL : Layout M) (h : Reaches M (fun k e => k.Admits M e) c L)
    (htake : CanTake c ev) (hok : (c.k.atEntry M ev).Admits M ev.entry)
    (hborn : (c.k.atEntry M ev).born M ev.entry = some b) (hy : (step M c ev).stop = .ldst y)
    (hpass : Passing M b (step M c ev) {q | (q ∈ L ∨ (c.k.atEntry M ev).born M ev.entry = some q) ∧
      ¬ (c.k.atEntry M ev).Dies M ev.entry q} c' L' ps) (htake' : CanTake c' ev')
    (hrun : (step M c' ev').k.gCurrentProcess = some b) (hz : (step M c' ev').stop = .ldst z) :
    z = (c.k.atEntry M ev).passed M ev.entry ∧
    (step M c' ev').k.pcb b = { Pcb.newborn y.a1 z with pTimeSlice := schedTimeSlice } ∧
    ∀ cs c'' ev'' old, Path M (fun k e => k.born M e ≠ some b) (step M c' ev') cs c'' →
      CanTake c'' ev'' → c''.k.gCurrentProcess = some b → ev''.entry = .sysBP old →
      ev''.entry.Sys M getPidNr → (step M c'' ev'').stop = .ldst { old with a1 := y.a1 } := by
  have h₁ := h.step htake hok
  obtain ⟨hblock, hready⟩ := h.newborn_block hL htake hok hborn hy
  obtain ⟨hctx, hready'⟩ := hpass.block hL h₁ hready
  have h₂ := hpass.reaches h₁
  obtain ⟨hfirst, hload⟩ := h₂.first_turn hL htake' hready' hrun hz
  rw [Pcb.eq_of_context hctx rfl, hblock] at hfirst hload
  have hz' : z = (c.k.atEntry M ev).passed M ev.entry := hload
  refine ⟨hz', ?_, fun cs c'' ev'' old hpath htake'' hcur hold hcall => ?_⟩
  · rw [hz']
    exact hfirst
  · have hpid : (c''.k.pcb b).pPid = y.a1 := by
      rw [hpath.pid ((reaches_ready h₂).next htake') htake''.live, hfirst]
      rfl
    rw [hold] at hcall
    have hstop := runToStop_of_wp (wp_getPid_loaded (k := c''.k.atEntry M ev'') hcur hcall.1
      hcall.2.1 hcall.2.2)
    rw [← hold] at hstop
    refine hstop.trans ?_
    rw [← hpid]
    rfl

end Runs

/-- The first process creates another one and goes to sleep: the new process starts with the
registers it was passed, and asks for its pid. -/
theorem newborn_starts_second : ∃ (c : Config maxProc) (y : ProcState),
    (c.k.pcb ⟨1, by decide⟩).pS.a1 = 7 ∧
    (step uarm (boot uarm : Config maxProc)
      { sys createProcessNr 0x3000 0 0 with mem := fun _ => 7 }).stop = .ldst y ∧
    (step uarm c (sys getPidNr 0 0 0)).stop =
      .ldst { (sys getPidNr 0 0 0).entry.saved with a1 := y.a1 } := by
  let create : Event := { sys createProcessNr 0x3000 0 0 with mem := fun _ => 7 }
  let wait : Event := sys semopNr 0x2000 (-1) 0
  let c₁ : Config maxProc := step uarm (boot uarm) create
  let c₂ : Config maxProc := step uarm c₁ wait
  have htake : CanTake (boot uarm : Config maxProc) create :=
    Config.canTake_iff.mp (by decide +kernel)
  have htake₁ : CanTake c₁ wait := Config.canTake_iff.mp (by decide +kernel)
  have htake₂ : CanTake c₂ (sys getPidNr 0 0 0) := Config.canTake_iff.mp (by decide +kernel)
  obtain ⟨y, hy⟩ := htake₁.exists_ldst rfl
  obtain ⟨z, hz⟩ := htake₂.exists_ldst rfl
  have hrun : c₂.k.gCurrentProcess = some ⟨1, by decide⟩ := by decide +kernel
  obtain ⟨hstate, hblock, hpid⟩ := newborn_starts layout_uarm .boot htake (.of_tame (by decide +kernel))
    (b := ⟨1, by decide⟩) (by decide +kernel) hy .refl htake₁ hrun hz
  refine ⟨c₂, y, ?_, hy, hpid [] c₂ _ _ (.refl c₂) htake₂ hrun rfl ⟨by decide, by decide, rfl⟩⟩
  rw [hblock, hstate]
  rfl

end JaeOS
