import JaeOS.Lib.LeadsTo
import JaeOS.Properties.Endings
import JaeOS.Properties.Preemption
import JaeOS.Properties.Resume
import JaeOS.Properties.Supply

/-!
# Nobody starves

Endless runs of the kernel.  If the processes that run give up the processor again and again,
every ready process gets it, and if a semaphore is released again and again, every process
that waits there becomes ready, unless it is ended.
-/

namespace JaeOS

open Filter (atTop)
open Forest (Progeny)

variable {n : ℕ} {M : Machine} {k : Kernel n} {σ σ' : Snap n} {a : Word} {p q : Fin n} {e : Entry}
  {old : ProcState}

/-! ### Giving way -/

theorem Kernel.sysTask_of_leaves (h : k.SysLeaves M p old) :
    k.sysTask M p old = .kill p ∨ ∃ a w, (k.sysTask M p old).Operates a w ∧ k.Sleeps a w := by
  rw [Kernel.SysLeaves] at h
  rw [Kernel.sysTask]
  by_cases h1 : old.a1 = createProcessNr
  · rw [if_pos h1] at h
    exact h.elim
  rw [if_neg h1] at h ⊢
  by_cases h2 : old.a1 = terminateProcessNr
  · rw [if_pos h2] at h ⊢
    rw [Kernel.killTask, Kernel.target, if_pos h]
    exact .inl rfl
  rw [if_neg h2] at h ⊢
  by_cases h3 : old.a1 = semopNr
  · rw [if_pos h3] at h ⊢
    exact .inr ⟨_, _, ⟨rfl, rfl⟩, h⟩
  rw [if_neg h3] at h ⊢
  by_cases h4 : old.a1 = specSysHdlNr
  · rw [if_pos h4] at h ⊢
    exact .inl (if_pos h)
  rw [if_neg h4] at h ⊢
  by_cases h5 : old.a1 = specTLBHdlNr
  · rw [if_pos h5] at h ⊢
    exact .inl (if_pos h)
  rw [if_neg h5] at h ⊢
  by_cases h6 : old.a1 = specPgmTHdlNr
  · rw [if_pos h6] at h ⊢
    exact .inl (if_pos h)
  rw [if_neg h6] at h ⊢
  by_cases h7 : old.a1 = exitTrapNr
  · rw [if_pos h7] at h
    exact h.elim
  rw [if_neg h7] at h ⊢
  by_cases h8 : old.a1 = getCpuTimeNr
  · rw [if_pos h8] at h
    exact h.elim
  rw [if_neg h8] at h ⊢
  by_cases h9 : old.a1 = waitClockNr
  · rw [if_pos h9] at h ⊢
    exact .inr ⟨_, _, ⟨rfl, rfl⟩, h⟩
  rw [if_neg h9] at h ⊢
  by_cases h10 : old.a1 = ioDevopNr
  · rw [if_pos h10] at h ⊢
    refine .inr ⟨_, _, ?_, h⟩
    split_ifs <;> exact ⟨rfl, rfl⟩
  rw [if_neg h10] at h
  exact h.elim

theorem Kernel.task_of_leaves (hp : k.gCurrentProcess = some p) (h : k.Leaves M p e) :
    e.Tick M ∨ k.task M e = .fail .badException ∨ k.task M e = .kill p ∨
      ∃ a w, (k.task M e).Operates a w ∧ k.Sleeps a w := by
  cases e with
  | interrupt old cause => exact .inl h.1
  | pgmTrap old =>
    rw [Kernel.task, hp]
    exact .inr (.inr (.inl (if_neg h)))
  | tlb old =>
    rw [Kernel.task, hp]
    exact .inr (.inr (.inl (if_neg h)))
  | sysBP old =>
    right
    rw [Kernel.task, hp, Option.elim_some, Kernel.sysBPTask]
    rw [Kernel.Leaves] at h
    by_cases hsys : M.causeExcCodeGet old.cp15Cause = M.excSyscall
    · right
      rw [if_pos hsys]
      by_cases hrange : createProcessNr ≤ old.a1 ∧ old.a1 ≤ getPidNr
      · rw [if_pos ⟨hsys, hrange⟩] at h
        rw [if_pos hrange]
        by_cases hmode : M.kernelMode old.cpsr = true
        · rw [if_pos hmode] at h ⊢
          exact Kernel.sysTask_of_leaves h
        · rw [if_neg hmode] at h ⊢
          exact .inl (if_neg h)
      · rw [if_neg (fun hs => hrange hs.2)] at h
        rw [if_neg hrange]
        exact .inl (if_neg h)
    · rw [if_neg (fun hs => hsys hs.1)] at h
      rw [if_neg hsys]
      by_cases hbrk : M.causeExcCodeGet old.cp15Cause = M.excBreakpoint
      · rw [if_pos hbrk]
        exact .inr (.inl (if_neg h))
      · rw [if_neg hbrk]
        exact .inl rfl

theorem Does.sleeps {w : Word} (hσ : σ.core = k.core) (hp : k.gCurrentProcess = some p)
    (hs : k.Sleeps a w) (h : Does M (.semop a w) σ σ') :
    σ'.core.gCurrentProcess = none ∧ σ'.view.place p ≠ .ready := by
  obtain ⟨hneg, hshort⟩ := hs
  cases h with
  | signal hpos => omega
  | grant _ hg =>
    rcases hshort with ⟨q, s, hq⟩ | hlt
    · have hhead := (Snap.owned_of_core hσ).run_headBlocked a
      have hnobody : σ.view.list (.sem a) = [] := hg.nobody
      rw [hq, hnobody] at hhead
      exact absurd hhead (by simp)
    · have henough := hg.enough
      rw [hσ] at henough
      exact absurd henough (not_le.mpr hlt)
  | block _ hb =>
    have hcur := hb.current
    rw [hσ] at hcur
    obtain rfl := Option.some.inj (hcur.symm.trans hp)
    refine ⟨hb.idle, ?_⟩
    rw [hb.view, Placement.move_place_self]
    simp

theorem Does.yields {t : Task n} (hσ : σ.core = k.core) (hp : k.gCurrentProcess = some p)
    (ht : t = .kill p ∨ ∃ a w, t.Operates a w ∧ k.Sleeps a w) (h : Does M t σ σ') :
    σ'.core.gCurrentProcess = none ∧ σ'.view.place p ≠ .ready := by
  have hcur : σ.core.gCurrentProcess = some p := by
    rw [hσ]
    exact hp
  rcases ht with rfl | ⟨a, w, hop, hsleeps⟩
  · cases h with
    | kill hterm =>
      obtain ⟨ds, -, hds, hrel⟩ := hterm.releases
      refine ⟨hterm.current.trans (if_pos hcur), ?_⟩
      rw [hrel.place, if_pos ((hds p).mpr .refl)]
      simp
  · cases t with
    | semop b v =>
      obtain ⟨rfl, rfl⟩ := hop
      exact h.sleeps hσ hp hsleeps
    | command b r =>
      obtain ⟨rfl, rfl⟩ := hop
      cases h with
      | command h hs =>
        obtain ⟨x, y, hcore⟩ := hs.core
        rw [hs.view, hcore]
        exact h.sleeps hσ hp hsleeps
    | _ => exact hop.elim

theorem Signals.place_ready (h : Signals M a σ σ') (hq : σ.view.place q = .ready) :
    σ'.view.place q = .ready := by
  induction h with
  | refl => exact hq
  | head _ h _ ih =>
    refine ih ?_
    rw [h.view, View.wake_place]
    split_ifs
    · rfl
    · exact hq

theorem wp_tick_yields (hL : Layout M) (hσ : σ.core = k.core) (hc : Consistent σ)
    (hp : k.gCurrentProcess = some p) (he : e.Tick M) (hl : k.Leaves M p e)
    (hq : σ.view.place q = .ready) :
    wp (handler M e) (fun _ _ => False) (fun _ k' => k'.gCurrentProcess ≠ some p) k := by
  obtain ⟨old, cause, rfl, hline⟩ := he.exists_old
  rw [wp_handler_timer hp hline]
  have hσ₁ : σ.core = (k.atTimer M p (Entry.interrupt old cause).saved).core :=
    hσ.trans atTimer_core.symm
  have hp₁ : (k.atTimer M p (Entry.interrupt old cause).saved).gCurrentProcess = some p :=
    (congrArg Core.gCurrentProcess (atTimer_core (p := p))).trans hp
  have hlate : schedTimeSlice <
      ((k.atTimer M p (Entry.interrupt old cause).saved).pcb p).pTimeSlice := by
    rw [atTimer_slice hp, onEnter_pcb, if_pos hp]
    exact hl.2
  generalize k.atTimer M p (Entry.interrupt old cause).saved = k₁ at hσ₁ hp₁ hlate ⊢
  obtain ⟨⟨⟩, k', hrun, σ', hσ', hc', hdoes, -⟩ := wp_false (wp_handleTimer (E := fun _ _ => False)
    (Q := fun _ k' => Done M .tick σ k') hL hσ₁ hc
    (fun hnone => absurd (hnone.symm.trans hp₁) (by simp)) (fun _ hd _ => hd))
  have hwalk := walk_slice (M := M) p (k₁.pcb p).pS (k₁.pcb p).pTimeSlice
  have hgone := ((wp_of_ok hrun).mp (hwalk.handleTimer ⟨fun _ h => h, fun _ h => h⟩
    ⟨⟨rfl, rfl⟩, hp₁⟩ fun _ h => h.2)).gone hlate
  rw [wp_of_ok hrun, hgone]
  change wp (scheduler M) _ _ (k'.onExit M false)
  have hidle : (k'.onExit M false).gCurrentProcess = none := (onExit_current false).trans hgone
  have hcur : σ.core.gCurrentProcess = some p := by
    rw [hσ₁]
    exact hp₁
  cases hdoes with
  | tick hs =>
    have hstays := hs.current.trans hcur
    rw [hσ'] at hstays
    exact absurd (hgone.symm.trans hstays) (by simp)
  | @preempt r _ σ₁ _ hs hpre =>
    obtain rfl : p = r := Option.some.inj ((hs.current.trans hcur).symm.trans hpre.current)
    have hheld : σ₁.view.place p = .held := ((hs.consistent hc).current p).mpr hpre.current
    have hready : σ'.view.list .ready = σ₁.view.list .ready ++ [p] := by
      rw [hpre.view, Placement.move_list_self (by rw [hheld]; decide)]
    have hmem : q ∈ σ₁.view.list .ready := (σ₁.view.mem _ q).mpr (hs.place_ready hq)
    have hnd := σ'.view.nodup .ready
    rw [hready] at hnd
    have hnone : (k'.onExit M false).gCurrentProcess ≠ some p := by simp [hidle]
    refine wp_scheduler (hσ'.trans (onExit_core (M := M) false).symm) hL.pid ?_
      (fun _ _ => hnone) (fun _ _ _ k'' hk'' _ => ?_) (fun _ _ _ => hnone)
    · rintro r k'' σ'' hσ'' - hdis hrun
      have hrun' : σ''.core.gCurrentProcess = some p := by
        rw [hσ'']
        exact hrun
      have hfirst := hdis.first
      rw [hready, Option.some.inj (hdis.current.symm.trans hrun')] at hfirst
      cases hl : σ₁.view.list .ready with
      | nil =>
        rw [hl] at hmem
        exact absurd hmem List.not_mem_nil
      | cons x xs =>
        rw [hl, List.cons_append, List.head?_cons] at hfirst
        rw [hl, List.cons_append, Option.some.inj hfirst] at hnd
        exact absurd (by simp) (List.nodup_cons.mp hnd).1
    · have hcur'' : k''.gCurrentProcess = (k'.onExit M false).gCurrentProcess :=
        congrArg Core.gCurrentProcess hk''
      rw [hcur'']
      exact hnone

theorem Ends.yields {stop : Stop} (hσ : σ.core = k.core) (hp : k.gCurrentProcess = some p)
    (ht : k.task M e = .kill p ∨ ∃ a w, (k.task M e).Operates a w ∧ k.Sleeps a w)
    (h : Ends M (k.task M e) σ stop σ') (hlive : stop.Live) : σ'.core.gCurrentProcess ≠ some p := by
  cases h with
  | fail => exact absurd hlive (by rintro (⟨x, hx⟩ | hx) <;> cases hx)
  | back hd hback =>
    rw [(hd.yields hσ hp ht).1] at hback
    cases hback
  | @dispatch r _ σ₁ _ hd _ hdis =>
    intro hcur
    have hfirst := hdis.first
    rw [Option.some.inj (hdis.current.symm.trans hcur)] at hfirst
    exact (hd.yields hσ hp ht).2 (Snap.place_of_head hfirst)
  | idle _ hidle _ =>
    rw [hidle]
    simp

/-! ### One entry -/

variable {c : Config maxProc} {L : Set (Fin maxProc)} {ev : Event} {y z : Fin maxProc}
  {before after : List (Fin maxProc)}

/-- **Whoever has to give way does so**, while another process is ready. -/
theorem Reaches.gives_way (hL : Layout M) (h : Reaches M (fun k e => k.Admits M e) c L)
    (htake : CanTake c ev) (hok : (c.k.atEntry M ev).Admits M ev.entry)
    (hlive : (JaeOS.step M c ev).stop.Live) (hz : c.k.gCurrentProcess = some z)
    (hl : (c.k.atEntry M ev).Leaves M z ev.entry) (hy : c.k.IsReady y) :
    (JaeOS.step M c ev).k.gCurrentProcess ≠ some z := by
  obtain ⟨σ, hb⟩ := h.exists_between hL
  have hcore : (σ.atEntry M ev.mem).core = (c.k.atEntry M ev).core := Snap.atEntry_core hb.core
  have hz' : (c.k.atEntry M ev).gCurrentProcess = some z := hz
  have hcons := hb.consistent.atEntry M ev.mem
  rcases Kernel.task_of_leaves hz' hl with htick | hfail | ht
  · obtain ⟨qs, hqs, hyqs⟩ := hy
    have hplace : (σ.atEntry M ev.mem).view.place y = .ready := by
      refine (σ.view.mem _ y).mp ?_
      have hready : σ.view.list .ready = qs := hb.represents.ready.unique hqs
      rw [hready]
      exact hyqs
    exact runToStop_of_wp (wp_tick_yields hL hcore hcons hz' htick hl hplace)
  · obtain ⟨σ', -, hends, -⟩ := hb.step hL htake hok
    generalize (JaeOS.step M c ev).stop = stop at hends hlive
    rw [hfail] at hends
    cases hends with
    | fail => exact absurd hlive (by rintro (⟨x, hx⟩ | hx) <;> cases hx)
    | back hd _ => cases hd
    | dispatch hd _ _ => cases hd
    | idle hd _ _ => cases hd
  · obtain ⟨σ', hb', hends, -⟩ := hb.step hL htake hok
    have hcur := hends.yields hcore hz' ht hlive
    rw [hb'.core] at hcur
    exact hcur

theorem Reaches.ready_running (hL : Layout M) (h : Reaches M (fun k e => k.Admits M e) c L)
    (hlive : c.stop.Live) (hy : c.k.IsReady y) : ∃ z, c.k.gCurrentProcess = some z := by
  rcases hlive with ⟨x, hx⟩ | hwait
  · exact ((reaches_ready h).handed (.inl ⟨x, hx⟩)).running x hx
  · cases h with
    | boot =>
      obtain ⟨σ, s, -, hs, -⟩ := between_boot hL
      exact absurd (hwait.symm.trans hs) (by simp)
    | step h htake hok =>
      obtain ⟨σ, hb⟩ := h.exists_between hL
      obtain ⟨σ', hb', hends, -⟩ := hb.step hL htake hok
      obtain ⟨qs, hqs, hyqs⟩ := hy
      have hready : σ'.view.list .ready = qs := hb'.represents.ready.unique hqs
      rw [← hready, (hends.rests (.inr (.inl hwait))).2] at hyqs
      exact absurd hyqs List.not_mem_nil

/-- **A ready process comes closer** to the processor when the current one gives way. -/
theorem Reaches.comes_closer (hL : Layout M) (h : Reaches M (fun k e => k.Admits M e) c L)
    (htake : CanTake c ev) (hok : (c.k.atEntry M ev).Admits M ev.entry)
    (hlive : (JaeOS.step M c ev).stop.Live) (hq : c.k.Queue .gReadyQueue (before ++ y :: after))
    (hy : (JaeOS.step M c ev).k.IsReady y) :
    ∃ before' after', (JaeOS.step M c ev).k.Queue .gReadyQueue (before' ++ y :: after') ∧
      before'.length ≤ before.length ∧
      ((∀ z, c.k.gCurrentProcess = some z → (c.k.atEntry M ev).Leaves M z ev.entry) →
        before'.length < before.length) := by
  obtain ⟨before', after', hq', hsub⟩ := h.stays_ready hL hq htake hok hy
  have hlen := hsub.length_le
  rw [List.length_append] at hlen
  refine ⟨before', after', hq', by omega, fun hleaves => ?_⟩
  have hready : c.k.IsReady y := ⟨_, hq, by simp⟩
  obtain ⟨z, hz⟩ := h.ready_running hL htake.live hready
  obtain ⟨z', hz'⟩ := (h.step htake hok).ready_running hL hlive hy
  have hother := h.gives_way hL htake hok hlive hz (hleaves z hz) hready
  rw [hz, switched, if_neg (fun heq => hother heq), hz', Option.toList_some,
    List.length_singleton] at hlen
  omega

theorem Reaches.exists_waiting (hL : Layout M) (h : Reaches M (fun k e => k.Admits M e) c L)
    (hy : c.k.WaitsAt a y) : ∃ before after, c.k.Waiting a (before ++ y :: after) := by
  obtain ⟨σ, hb⟩ := h.exists_between hL
  obtain ⟨before, after, hw⟩ := List.append_of_mem ((Snap.mem_waiting hb.core).mpr hy)
  exact ⟨before, after, hw ▸ hb.represents.waiting a⟩

/-- A waiter that waits no longer is ready or runs, unless it is ended. -/
theorem Reaches.waits_no_longer (hL : Layout M) (h : Reaches M (fun k e => k.Admits M e) c L)
    (htake : CanTake c ev) (hok : (c.k.atEntry M ev).Admits M ev.entry) (hy : c.k.WaitsAt a y)
    (hnot : ¬ (JaeOS.step M c ev).k.WaitsAt a y) :
    (c.k.atEntry M ev).Dies M ev.entry y ∨ (JaeOS.step M c ev).k.IsReady y ∨
      (JaeOS.step M c ev).k.gCurrentProcess = some y := by
  by_cases hdies : (c.k.atEntry M ev).Dies M ev.entry y
  · exact .inl hdies
  · obtain ⟨before, after, hw⟩ := h.exists_waiting hL hy
    obtain ⟨σ', hb'⟩ := (h.step htake hok).exists_between hL
    have hgone : y ∉ σ'.waiting a := fun hm => hnot ((Snap.mem_waiting hb'.core).mp hm)
    exact .inr (h.wakes hL hw htake hok (hb'.represents.waiting a) hgone hdies).1

/-! ### Endless runs -/

/-- A run that never ends. -/
structure Endless (M : Machine) where
  config : ℕ → Config maxProc
  event : ℕ → Event
  start : ∃ L, Reaches M (fun k e => k.Admits M e) (config 0) L
  take : ∀ i, CanTake (config i) (event i)
  admits : ∀ i, ((config i).k.atEntry M (event i)).Admits M (event i).entry
  next : ∀ i, config (i + 1) = step M (config i) (event i)

namespace Endless

variable (r : Endless M)

def Runs (q : Fin maxProc) (i : ℕ) : Prop := (r.config i).k.gCurrentProcess = some q

def Dies (q : Fin maxProc) (i : ℕ) : Prop :=
  ((r.config i).k.atEntry M (r.event i)).Dies M (r.event i).entry q

/-- The current process is ended or put to sleep, or has used up its time slice. -/
def Yields (i : ℕ) : Prop := ∀ q, r.Runs q i →
  ((r.config i).k.atEntry M (r.event i)).Leaves M q (r.event i).entry

/-- Units are released at the address. -/
def Releases (a : Word) (i : ℕ) : Prop :=
  0 < (((r.config i).k.atEntry M (r.event i)).task M (r.event i).entry).returned a

variable {r}

theorem reached (i : ℕ) : ∃ L, Reaches M (fun k e => k.Admits M e) (r.config i) L := by
  induction i with
  | zero => exact r.start
  | succ i ih =>
    obtain ⟨L, h⟩ := ih
    rw [r.next]
    exact ⟨_, h.step (r.take i) (r.admits i)⟩

theorem live (i : ℕ) : (step M (r.config i) (r.event i)).stop.Live := by
  rw [← r.next]
  exact (r.take (i + 1)).live

/-- **A ready process gets the processor**, unless it is ended. -/
theorem ready_runs (hL : Layout M)
    (hyields : ∃ᶠ i in atTop, (r.config i).k.IsReady y → r.Yields i) :
    LeadsTo (fun i => (r.config i).k.IsReady y) (fun i => r.Runs y i ∨ r.Dies y i) := by
  let T : ℕ → ℕ → Prop := fun m i => ∃ before after,
    (r.config i).k.Queue .gReadyQueue (before ++ y :: after) ∧ before.length = m
  have hrank : LeadsTo (fun i => ∃ m, T m i) (fun i => r.Runs y i ∨ r.Dies y i) := by
    refine LeadsTo.of_rank ?_ hyields
    rintro m i ⟨before, after, hq, rfl⟩
    obtain ⟨L, h⟩ := r.reached i
    by_cases hy : (r.config (i + 1)).k.IsReady y
    · rw [r.next] at hy
      obtain ⟨before', after', hq', hle, hlt⟩ :=
        h.comes_closer hL (r.take i) (r.admits i) (r.live i) hq hy
      refine .inr (.inr ⟨_, ⟨before', after', ?_, rfl⟩, hle, fun hgives => hlt ?_⟩)
      · rw [r.next]
        exact hq'
      · exact hgives ⟨_, hq, by simp⟩
    · rw [r.next] at hy
      rcases h.leaves_ready hL hq (r.take i) (r.admits i) hy with hdies | hruns
      · exact .inl (.inr hdies)
      · rw [← r.next] at hruns
        exact .inr (.inl (.inl hruns))
  refine LeadsTo.trans (LeadsTo.of_imp (fun i hi => ?_)) hrank
  obtain ⟨qs, hqs, hy⟩ := hi
  obtain ⟨before, after, rfl⟩ := List.append_of_mem hy
  exact ⟨_, before, after, hqs, rfl⟩

/-- **A waiter becomes ready**, unless it is ended. -/
theorem waiter_ready (hL : Layout M) (hpid : a ≠ 0x00011114)
    (huse : ∀ i, (r.config i).k.WaitsAt a y → SemopOnly M a (r.config i).k (r.event i))
    (hreleases : ∃ᶠ i in atTop, (r.config i).k.WaitsAt a y → r.Releases a i) :
    LeadsTo (fun i => (r.config i).k.WaitsAt a y ∧ 0 ≤ ((r.config i).k.mem a).toInt)
      (fun i => (r.config i).k.IsReady y ∨ r.Runs y i ∨ r.Dies y i) := by
  let T : ℕ → ℕ → Prop := fun m i => (r.config i).k.WaitsAt a y ∧
    0 ≤ ((r.config i).k.mem a).toInt ∧ ∃ before after,
    (r.config i).k.Waiting a (before ++ y :: after) ∧
    demand (r.config i).k.resRequested (before ++ [y]) - ((r.config i).k.mem a).toNat = m
  have hrank : LeadsTo (fun i => ∃ m, T m i)
      (fun i => (r.config i).k.IsReady y ∨ r.Runs y i ∨ r.Dies y i) := by
    refine LeadsTo.of_rank ?_ hreleases
    rintro m i ⟨hwaits, hv, before, after, hw, rfl⟩
    obtain ⟨L, h⟩ := r.reached i
    by_cases hy : (r.config (i + 1)).k.WaitsAt a y
    · have hy' : (step M (r.config i) (r.event i)).k.WaitsAt a y := r.next i ▸ hy
      obtain ⟨before', after', hw', hsup⟩ :=
        h.supplies hL hpid (r.take i) (r.admits i) (huse i hwaits) hv hw hy'
      have hmissing := hsup.missing
      have hshort := hsup.short
      refine .inr (.inr ⟨_, ⟨hy, ?_, before', after', ?_, rfl⟩, ?_, fun hgiven => ?_⟩)
      · rw [r.next]
        exact hsup.nonneg
      · rw [r.next]
        exact hw'
      · rw [r.next]
        change demand (step M (r.config i) (r.event i)).k.core.resRequested (before' ++ [y]) -
          ((step M (r.config i) (r.event i)).k.core.mem a).toNat ≤
          demand (r.config i).k.core.resRequested (before ++ [y]) - ((r.config i).k.core.mem a).toNat
        omega
      · have hpos := hgiven hwaits
        have hlt := hshort hpos
        rw [Endless.Releases] at hpos
        rw [r.next]
        change demand (step M (r.config i) (r.event i)).k.core.resRequested (before' ++ [y]) -
          ((step M (r.config i) (r.event i)).k.core.mem a).toNat <
          demand (r.config i).k.core.resRequested (before ++ [y]) - ((r.config i).k.core.mem a).toNat
        omega
    · rw [r.next] at hy
      rcases h.waits_no_longer hL (r.take i) (r.admits i) hwaits hy with hdies | hready | hruns
      · exact .inl (.inr (.inr hdies))
      · rw [← r.next] at hready
        exact .inr (.inl (.inl hready))
      · rw [← r.next] at hruns
        exact .inr (.inl (.inr (.inl hruns)))
  refine LeadsTo.trans (LeadsTo.of_imp (fun i hi => ?_)) hrank
  obtain ⟨hwaits, hv⟩ := hi
  obtain ⟨L, h⟩ := r.reached i
  obtain ⟨before, after, hw⟩ := h.exists_waiting hL hwaits
  exact ⟨_, hwaits, hv, before, after, hw, rfl⟩

end Endless

/-- **Nobody starves.**  In an endless run in which the processes give up the processor again
and again while `y` is ready, `y` gets the processor sooner or later, unless it is ended.  If
besides a semaphore is released again and again while `y` waits there, by SYS3 alone, this
holds of `y` as a waiter, too. -/
theorem nobody_starves (hL : Layout M) (r : Endless M)
    (hyields : ∃ᶠ i in atTop, (r.config i).k.IsReady y → r.Yields i) :
    LeadsTo (fun i => (r.config i).k.IsReady y) (fun i => r.Runs y i ∨ r.Dies y i) ∧
      ∀ a, a ≠ 0x00011114 →
        (∀ i, (r.config i).k.WaitsAt a y → SemopOnly M a (r.config i).k (r.event i)) →
        (∃ᶠ i in atTop, (r.config i).k.WaitsAt a y → r.Releases a i) →
        LeadsTo (fun i => (r.config i).k.WaitsAt a y ∧ 0 ≤ ((r.config i).k.mem a).toInt)
          (fun i => r.Runs y i ∨ r.Dies y i) := by
  have hready := Endless.ready_runs hL hyields
  refine ⟨hready, fun a hpid huse hreleases => ?_⟩
  refine (Endless.waiter_ready hL hpid huse hreleases).trans ?_
  exact hready.or (.of_imp fun _ h => h)

/-! ### A run -/

/-- One more entry in front. -/
def Endless.cons (r : Endless M) (c : Config maxProc) (ev : Event)
    (hstart : ∃ L, Reaches M (fun k e => k.Admits M e) c L) (htake : CanTake c ev)
    (hok : (c.k.atEntry M ev).Admits M ev.entry) (hnext : r.config 0 = step M c ev) : Endless M where
  config | 0 => c | i + 1 => r.config i
  event | 0 => ev | i + 1 => r.event i
  start := hstart
  take | 0 => htake | i + 1 => r.take i
  admits | 0 => hok | i + 1 => r.admits i
  next | 0 => hnext | i + 1 => r.next i

/-- A process that asks for its pid keeps the processor. -/
theorem Reaches.getPid_again (h : Reaches uarm (fun k e => k.Admits uarm e) c L)
    (hlive : c.stop.Live) (hy : c.k.gCurrentProcess = some y) :
    CanTake c (sys getPidNr 0 0 0) ∧
      (c.k.atEntry uarm (sys getPidNr 0 0 0)).Admits uarm (sys getPidNr 0 0 0).entry ∧
      (JaeOS.step uarm c (sys getPidNr 0 0 0)).stop.Live ∧
      (JaeOS.step uarm c (sys getPidNr 0 0 0)).k.gCurrentProcess = some y := by
  let old : ProcState := { ProcState.zero with
    a1 := getPidNr, a2 := 0, a3 := 0, a4 := 0, cpsr := 0x1F, cp15Cause := 8 }
  have hy' : (c.k.atEntry uarm (sys getPidNr 0 0 0)).gCurrentProcess = some y := hy
  have htake : CanTake c (sys getPidNr 0 0 0) := by
    rcases hlive with hldst | hwait
    · exact .inl hldst
    · have hidle := ((reaches_ready h).handed (.inr hwait)).idle hwait
      exact absurd (hy.symm.trans hidle) (by simp)
  have htask : (c.k.atEntry uarm (sys getPidNr 0 0 0)).task uarm (.sysBP old) = .nothing :=
    task_of_sys hy' (show (Entry.sysBP old).Sys uarm getPidNr by decide) (by decide)
  have hok : (c.k.atEntry uarm (sys getPidNr 0 0 0)).Admits uarm (.sysBP old) := by
    refine ⟨⟨fun b hb => ?_, fun hint => ?_⟩, fun ht => ?_, fun root ht => ?_⟩
    · have hnone : (c.k.atEntry uarm (sys getPidNr 0 0 0)).addresses uarm (.sysBP old) = [] :=
        if_pos (by decide)
      rw [hnone] at hb
      exact absurd hb List.not_mem_nil
    · exact absurd hint (by simp [Entry.isInterrupt])
    · rw [htask] at ht
      cases ht
    · rw [htask] at ht
      cases ht
  have hwp : wp (handler uarm (.sysBP old)) (fun _ _ => False)
      (fun s _ => s = .ldst { old with a1 := ((c.k.atEntry uarm (sys getPidNr 0 0 0)).pcb y).pPid })
      (c.k.atEntry uarm (sys getPidNr 0 0 0)) :=
    wp_getPid_loaded hy' (by decide) (by decide) rfl
  have hlive' : (JaeOS.step uarm c (sys getPidNr 0 0 0)).stop.Live := .inl ⟨_, runToStop_of_wp hwp⟩
  exact ⟨htake, hok, hlive', (((reaches_ready h).step htake hlive').stays y hy' not_leaves_getPid).1⟩

/-- The states of a process that asks for its pid for ever. -/
def pids (c : Config maxProc) : ℕ → Config maxProc
  | 0 => c
  | i + 1 => step uarm (pids c i) (sys getPidNr 0 0 0)

theorem Reaches.pids (h : Reaches uarm (fun k e => k.Admits uarm e) c L) (hlive : c.stop.Live)
    (hy : c.k.gCurrentProcess = some y) (i : ℕ) :
    (∃ L, Reaches uarm (fun k e => k.Admits uarm e) (JaeOS.pids c i) L) ∧
      (JaeOS.pids c i).stop.Live ∧ (JaeOS.pids c i).k.gCurrentProcess = some y := by
  induction i with
  | zero => exact ⟨⟨L, h⟩, hlive, hy⟩
  | succ i ih =>
    obtain ⟨⟨L, h⟩, hlive, hy⟩ := ih
    obtain ⟨htake, hok, hlive', hy'⟩ := h.getPid_again hlive hy
    exact ⟨⟨_, h.step htake hok⟩, hlive', hy'⟩

theorem Reaches.current_not_ready (hL : Layout M) (h : Reaches M (fun k e => k.Admits M e) c L)
    (hy : c.k.gCurrentProcess = some y) : ¬ c.k.IsReady y := by
  rintro ⟨qs, hqs, hyqs⟩
  obtain ⟨σ, hb⟩ := h.exists_between hL
  have hready : σ.view.list .ready = qs := hb.represents.ready.unique hqs
  have hheld : σ.view.place y = .held := by
    refine (hb.consistent.current y).mpr ?_
    rw [hb.core]
    exact hy
  rw [← hready, σ.view.mem, hheld] at hyqs
  exact absurd hyqs (by simp)

/-- The first process waits when the second one releases a unit and is preempted. -/
theorem nobody_starves_first : ∃ r : Endless uarm, (r.config 0).k.WaitsAt 0x2000 proc0 ∧
    ∃ j, r.Runs proc0 j ∨ r.Dies proc0 j := by
  let c₁ : Config maxProc := step uarm (boot uarm) (sys createProcessNr 0 0 0)
  let c₂ : Config maxProc := step uarm c₁ (sys semopNr 0x2000 (-1) 0)
  let c₃ : Config maxProc := step uarm c₂ (sys semopNr 0x2000 1 0)
  let c₄ : Config maxProc := step uarm c₃ timerInterrupt
  have h₁ : Reaches uarm (fun k e => k.Admits uarm e) c₁ _ :=
    .step .boot (Config.canTake_iff.mp (by decide +kernel)) (.of_tame (by decide +kernel))
  have h₂ : Reaches uarm (fun k e => k.Admits uarm e) c₂ _ :=
    .step h₁ (Config.canTake_iff.mp (by decide +kernel)) (.of_tame (by decide +kernel))
  have htake₂ : CanTake c₂ (sys semopNr 0x2000 1 0) := Config.canTake_iff.mp (by decide +kernel)
  have hok₂ : (c₂.k.atEntry uarm (sys semopNr 0x2000 1 0)).Admits uarm (sys semopNr 0x2000 1 0).entry :=
    .of_tame (by decide +kernel)
  have htake₃ : CanTake c₃ timerInterrupt := Config.canTake_iff.mp (by decide +kernel)
  have hok₃ : (c₃.k.atEntry uarm timerInterrupt).Admits uarm timerInterrupt.entry :=
    .of_tame (by decide +kernel)
  have hrun₄ : c₄.k.gCurrentProcess = some proc0 := by decide +kernel
  have htake₄ : CanTake c₄ timerInterrupt := Config.canTake_iff.mp (by decide +kernel)
  have hw : c₂.k.Waiting 0x2000 ([] ++ proc0 :: []) :=
    waiting_of_only (d := ⟨0, by decide⟩) (by decide +kernel) (by decide +kernel) (by decide +kernel)
      (queue_singleton (by decide +kernel) (by decide +kernel))
  have hv : c₂.k.mem 0x2000 = 0 := by decide +kernel
  have huse₂ : SemopOnly uarm 0x2000 c₂.k (sys semopNr 0x2000 1 0) := by
    refine ⟨by decide +kernel, fun _ => ⟨1, ?_⟩⟩
    decide +kernel
  have huse₃ : SemopOnly uarm 0x2000 c₃.k timerInterrupt := by
    refine ⟨by decide +kernel, fun hn => absurd hn ?_⟩
    decide +kernel
  have hc₃ : c₃ = step uarm c₂ (sys semopNr 0x2000 1 0) := rfl
  have hc₄ : c₄ = step uarm c₃ timerInterrupt := rfl
  clear_value c₄ c₃ c₂
  have h₃ := h₂.step htake₂ hok₂
  rw [← hc₃] at h₃
  have h₄ := h₃.step htake₃ hok₃
  rw [← hc₄] at h₄
  have hpids := h₄.pids htake₄.live hrun₄
  have hagain : ∀ i, CanTake (pids c₄ i) (sys getPidNr 0 0 0) ∧
      ((pids c₄ i).k.atEntry uarm (sys getPidNr 0 0 0)).Admits uarm (sys getPidNr 0 0 0).entry := by
    intro i
    obtain ⟨⟨L, h⟩, hlive, hy⟩ := hpids i
    obtain ⟨htake, hok, -⟩ := h.getPid_again hlive hy
    exact ⟨htake, hok⟩
  let r₄ : Endless uarm := ⟨pids c₄, fun _ => sys getPidNr 0 0 0, (hpids 0).1, fun i => (hagain i).1,
    fun i => (hagain i).2, fun _ => rfl⟩
  let r : Endless uarm := (r₄.cons c₃ timerInterrupt ⟨_, h₃⟩ htake₃ hok₃ hc₄).cons c₂
    (sys semopNr 0x2000 1 0) ⟨_, h₂⟩ htake₂ hok₂ hc₃
  have hwaits : (r.config 0).k.WaitsAt 0x2000 proc0 :=
    (h₂.waitsAt_iff layout_uarm hw).mpr (by simp)
  have hready : ∀ i, ¬ (r.config (i + 2)).k.IsReady proc0 := fun i =>
    (hpids i).1.elim fun _ h => h.current_not_ready layout_uarm (hpids i).2.2
  have hwaiting : ∀ i, ¬ (r.config (i + 2)).k.WaitsAt 0x2000 proc0 := fun i =>
    (hpids i).1.elim fun _ h => h.current_not_waiting layout_uarm (hpids i).2.2
  have huse : ∀ i, (r.config i).k.WaitsAt 0x2000 proc0 →
      SemopOnly uarm 0x2000 (r.config i).k (r.event i) := by
    intro i hi
    cases i with
    | zero => exact huse₂
    | succ i =>
      cases i with
      | zero => exact huse₃
      | succ i => exact absurd hi (hwaiting i)
  obtain ⟨-, hwaiter⟩ := nobody_starves layout_uarm r
    (Filter.frequently_atTop.mpr fun i => ⟨i + 2, by omega, fun hy => absurd hy (hready i)⟩)
  have hruns := hwaiter 0x2000 (by decide) huse
    (Filter.frequently_atTop.mpr fun i => ⟨i + 2, by omega, fun hy => absurd hy (hwaiting i)⟩)
  have hnonneg : 0 ≤ ((r.config 0).k.mem 0x2000).toInt := by
    change 0 ≤ (c₂.k.mem 0x2000).toInt
    rw [hv]
    decide
  obtain ⟨j, -, hj⟩ := hruns 0 ⟨hwaits, hnonneg⟩
  exact ⟨r, hwaits, j, hj⟩

end JaeOS
