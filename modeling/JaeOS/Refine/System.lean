import JaeOS.Refine.Bystander
import JaeOS.Refine.Lineage

/-!
# The kernel is a system of processes

The pointers, the lists and the parent links together are the state of a `ProcSystem`.
Every entry the kernel admits makes the moves its task asks for, and then the first
ready process gets the processor if no process has it.
-/

namespace JaeOS

open Function (update)
open Forest (Progeny)
open ProcSystem (Act Step Steps)

variable {n : ℕ} {M : Machine} {k : Kernel n} {σ σ' σ₁ : Snap n} {p q root : Fin n} {a w : Word}
  {t : Task n} {c : Config maxProc} {L : Set (Fin maxProc)} {ev : Event}

/-- A system of blocks that wait at addresses. -/
abbrev System (n : ℕ) := ProcSystem (Fin n) Word

/-! ### What the state represents -/

/-- The blocks that wait at an address, in order: the queue of the active descriptor of
the address, if there is one. -/
def Kernel.Waiting (k : Kernel n) (a : Word) (ps : List (Fin n)) : Prop :=
  ∃ asl, k.asl.Holds asl ∧
    ((∃ d ∈ asl, k.sSemAdd d = a ∧ k.Queue (.sProcq d) ps) ∨
      (∀ d ∈ asl, k.sSemAdd d ≠ a) ∧ ps = [])

/-- **The state of the kernel is that of the system** `s`, in which the blocks of `live`
are alive. -/
structure Kernel.Represents (k : Kernel n) (live : Set (Fin n)) (s : System n) : Prop where
  alive : s.alive = live
  parent : s.parent = k.pParent
  running : s.running = k.gCurrentProcess
  ready : k.Queue .gReadyQueue s.ready
  waiting : ∀ a, k.Waiting a (s.waiting a)
  free : ∃ ps, k.Queue .pcbFree ps ∧ ∀ q, q ∈ ps ↔ q ∉ s.alive

def Snap.system (σ : Snap n) : System n where
  alive := {q | σ.view.place q ≠ .free}
  parent := σ.core.pParent
  running := σ.core.gCurrentProcess
  ready := σ.view.list .ready
  waiting := σ.waiting

theorem Between.represents {σ : Snap maxProc} (h : Between c L σ) : c.k.Represents L σ.system := by
  have howned := Snap.owned_of_core h.core
  refine ⟨Set.ext h.live, ?_, ?_, howned.listed .ready _ rfl, fun a => ?_,
    σ.view.list .free, howned.listed .free _ rfl, fun q => ?_⟩
  · exact Snap.pParent_eq h.core
  · exact congrArg Core.gCurrentProcess h.core
  · refine ⟨σ.asl, howned.blocked.aslh, ?_⟩
    by_cases hd : ∃ d ∈ σ.asl, c.k.sSemAdd d = a
    · obtain ⟨d, hd, rfl⟩ := hd
      exact .inl ⟨d, hd, rfl, howned.blocked.procq d hd⟩
    · refine .inr ⟨fun d hm heq => hd ⟨d, hm, heq⟩, ?_⟩
      by_contra hne
      exact hd ((howned.blocked.active a).mp hne)
  · rw [σ.view.mem]
    exact not_not.symm

/-! ### What a task does to the system -/

/-- The moves that a task may ask for, without the choice of the next process. -/
inductive Performs (M : Machine) : Task n → List (Act (Fin n) Word) → Prop
  | nothing : Performs M .nothing []
  | full : Performs M .create []
  | create (c : Fin n) : Performs M .create [.spawn c]
  | kill (root : Fin n) : Performs M (.kill root) [.kill root]
  | signal {a w : Word} (ps : List (Fin n)) (hw : 0 < w.toInt) : Performs M (.semop a w) [.wake a ps]
  | grant {a w : Word} (hw : w.toInt < 0) : Performs M (.semop a w) []
  | block {a w : Word} (hw : w.toInt < 0) : Performs M (.semop a w) [.block a]
  | store (a b : Word) : Performs M (.store a b) []
  | tick (pss : List (List (Fin n))) : Performs M .tick (pss.map (.wake M.gPcTimerS))
  | preempt (pss : List (List (Fin n))) :
      Performs M .tick (pss.map (.wake M.gPcTimerS) ++ [.yield])
  | busy (a st : Word) : Performs M (.device a st) []
  | device {a st : Word} (ps : List (Fin n)) : Performs M (.device a st) [.wake a ps]
  | panic {site : PanicSite} : Performs M (.fail site) []
  | zero {a w : Word} (hw : w.toInt = 0) : Performs M (.semop a w) []
  | command {a r : Word} {acts : List (Act (Fin n) Word)} (h : Performs M (.semop a (-1)) acts) :
      Performs M (.command a r) acts

theorem Performs.gentle {acts : List (Act (Fin n) Word)} (h : Performs M t acts) :
    (∃ root, t = .kill root ∧ acts = [.kill root]) ∨ ∀ act ∈ acts, act.Gentle := by
  induction h with
  | command _ ih =>
    obtain ⟨root, ht, -⟩ | hgentle := ih
    · cases ht
    · exact .inr hgentle
  | kill root => exact .inl ⟨root, rfl, rfl⟩
  | tick pss =>
    refine .inr (fun act hact => ?_)
    obtain ⟨ps, -, rfl⟩ := List.mem_map.mp hact
    trivial
  | preempt pss =>
    refine .inr (fun act hact => ?_)
    rcases List.mem_append.mp hact with hact | hact
    · obtain ⟨ps, -, rfl⟩ := List.mem_map.mp hact
      trivial
    · rw [List.mem_singleton.mp hact]
      trivial
  | nothing | full | grant _ | store _ _ | busy _ _ | panic | zero _ =>
    exact .inr (fun _ hact => nomatch hact)
  | create _ | signal _ _ | block _ | device _ =>
    refine .inr (fun act hact => ?_)
    rw [List.mem_singleton.mp hact]
    trivial

theorem Snap.system_congr (hview : σ'.view = σ.view) (hpar : σ'.core.pParent = σ.core.pParent)
    (hcur : σ'.core.gCurrentProcess = σ.core.gCurrentProcess) : σ'.system = σ.system := by
  rw [Snap.system, Snap.system, hpar, hcur, show σ'.waiting = σ.waiting by
    funext a
    rw [Snap.waiting, Snap.waiting, hview], hview]

theorem Signal.step (h : Signal M a w σ σ') :
    Step σ.system (.wake a (σ.service a w).woken) σ'.system := by
  have happ : σ.waiting a = (σ.service a w).woken ++ (σ.service a w).rest :=
    (serve_append σ.core.resRequested (w + σ.core.mem a) (σ.waiting a)).symm
  have hsys : σ'.system = { σ.system with
      ready := σ.system.ready ++ (σ.service a w).woken
      waiting := σ.system.requeue a (σ.service a w).rest } := by
    ext1
    · ext q
      exact not_congr h.place_free
    · exact congrArg Tree.pParent h.tree
    · exact h.current
    · exact h.ready
    · funext b
      by_cases hb : b = a
      · subst hb
        exact (h.waiting_eq_drop.trans (serve_rest_eq_drop _ _ _).symm).trans
          (ProcSystem.Placed.requeue_self ..).symm
      · exact (h.waiting_of_ne hb).trans (ProcSystem.Placed.requeue_of_ne σ.system _ hb).symm
  rw [hsys]
  exact .wake happ

theorem Signals.steps (h : Signals M a σ σ') :
    ∃ pss : List (List (Fin n)), Steps σ.system (pss.map (.wake a)) σ'.system := by
  induction h with
  | refl => exact ⟨[], .nil _⟩
  | head _ h _ ih =>
    obtain ⟨pss, hs⟩ := ih
    exact ⟨_ :: pss, .cons h.step hs⟩

theorem Create.step {c : Fin n} (h : Create p c σ σ')
    (hpar : σ'.core.pParent = update σ.core.pParent c (some p)) :
    Step σ.system (.spawn c) σ'.system := by
  classical
  have hfree := Snap.place_of_head h.first
  have hdead : c ∉ σ.system.alive := not_not.mpr hfree
  have hsys : σ'.system = { σ.system with
      alive := insert c σ.system.alive
      parent := update σ.system.parent c (some p)
      ready := σ.system.ready ++ [c] } := by
    ext1
    · ext q
      change σ'.view.place q ≠ .free ↔ q = c ∨ σ.view.place q ≠ .free
      rw [h.view]
      by_cases hq : q = c <;> simp [hq]
    · exact hpar
    · exact h.current
    · change σ'.view.list .ready = σ.view.list .ready ++ [c]
      rw [h.view, Placement.move_list_self (by simp [hfree])]
    · funext b
      change σ'.view.list _ = σ.view.list _
      rw [h.view, Placement.move_list_other (by simp) (by simp [hfree])]
  rw [hsys]
  convert Step.spawn h.parent hdead

theorem Terminate.step (h : Terminate M root σ σ') (hrank : Forest.Ranked σ.core.pParent)
    (hp : σ.core.gCurrentProcess = some p) (hroot : Progeny σ.core.pParent p root)
    (hpar : σ'.core.pParent = Forest.prune σ.core.pParent root) :
    Step σ.system (.kill root) σ'.system := by
  classical
  obtain ⟨ds, -, hds, hrel⟩ := h.releases
  have hlist : ∀ pl, pl ≠ .free → σ'.view.list pl =
      (σ.view.list pl).filter fun q => ¬ Progeny σ.core.pParent root q := by
    intro pl hpl
    rw [hrel.list hpl]
    refine List.filter_congr (fun q _ => ?_)
    simp [hds q]
  have hsys : σ'.system = σ.system.without root := by
    ext1
    · ext q
      change σ'.view.place q ≠ .free ↔ σ.view.place q ≠ .free ∧ ¬ Progeny σ.core.pParent root q
      rw [hrel.place, ← hds q]
      by_cases hq : q ∈ ds <;> simp [hq]
    · exact hpar
    · -- the current process is the root, or it is not below it
      change σ'.core.gCurrentProcess = σ.core.gCurrentProcess.filter _
      rw [h.current, hp]
      by_cases hpr : p = root
      · subst hpr
        rw [if_pos rfl, Option.filter_some, if_neg (by simpa using Progeny.refl)]
      · have hkept : ¬ Progeny σ.system.parent root p := by
          intro hq
          rcases hroot.cases with heq | ⟨r, hpr', hr⟩
          · exact hpr heq.symm
          · exact hrank.not_progeny hr (hq.trans hpr')
        rw [if_neg (fun heq => hpr (Option.some.inj heq)), Option.filter_some]
        exact (if_pos (decide_eq_true hkept)).symm
    · exact (hlist .ready (by simp)).trans (by congr!)
    · funext b
      exact (hlist (.sem b) (by simp)).trans (by congr!)
  rw [hsys]
  exact .kill hp hroot

theorem Block.step (h : Block M a w p σ σ') : Step σ.system (.block a) σ'.system := by
  have hsys : σ'.system = { σ.system with
      running := none
      waiting := σ.system.requeue a (σ.system.waiting a ++ [p]) } := by
    ext1
    · ext q
      change σ'.view.place q ≠ .free ↔ σ.view.place q ≠ .free
      rw [h.view]
      exact not_congr (View.move_place_free (by simp [h.held]) (by simp))
    · exact congrArg Tree.pParent h.tree
    · exact h.idle
    · change σ'.view.list .ready = σ.view.list .ready
      rw [h.view, Placement.move_list_other (by simp) (by simp [h.held])]
    · funext b
      by_cases hb : b = a
      · subst hb
        exact h.waiting.trans (ProcSystem.Placed.requeue_self ..).symm
      · refine Eq.trans ?_ (ProcSystem.Placed.requeue_of_ne σ.system _ hb).symm
        change σ'.view.list (.sem b) = σ.view.list (.sem b)
        rw [h.view, Placement.move_list_other (by simpa using hb) (by simp [h.held])]
  rw [hsys]
  exact .block h.current

theorem Preempt.step (h : Preempt p σ σ') (hc : Consistent σ) :
    Step σ.system .yield σ'.system := by
  have hheld : σ.view.place p = .held := (hc.current p).mpr h.current
  have hsys : σ'.system = { σ.system with
      running := none
      ready := σ.system.ready ++ [p] } := by
    ext1
    · ext q
      change σ'.view.place q ≠ .free ↔ σ.view.place q ≠ .free
      rw [h.view]
      exact not_congr (View.move_place_free (by simp [hheld]) (by simp))
    · exact congrArg Tree.pParent h.tree
    · exact h.idle
    · change σ'.view.list .ready = σ.view.list .ready ++ [p]
      rw [h.view, Placement.move_list_self (by simp [hheld])]
    · funext b
      change σ'.view.list (.sem b) = σ.view.list (.sem b)
      rw [h.view, Placement.move_list_other (by simp) (by simp [hheld])]
  rw [hsys]
  exact .yield h.current

theorem Dispatch.step (h : Dispatch p σ σ') (hidle : σ.core.gCurrentProcess = none) :
    Step σ.system (.dispatch p) σ'.system := by
  have hready := Snap.place_of_head h.first
  obtain ⟨ps, hps⟩ := List.head?_eq_some_iff.mp h.first
  have hsys : σ'.system = { σ.system with
      running := some p
      ready := ps } := by
    ext1
    · ext q
      change σ'.view.place q ≠ .free ↔ σ.view.place q ≠ .free
      exact not_congr h.place_free
    · exact congrArg Tree.pParent h.tree
    · exact h.current
    · change σ'.view.list .ready = ps
      rw [h.view, Placement.move_list_of_ne (by simp), hps, List.erase_cons_head]
    · funext b
      exact h.waiting
  rw [hsys]
  exact .dispatch hidle hps

/-! ### A whole entry -/

theorem Kernel.task_kill {e : Entry} (hσ : σ.core = k.core) (hc : Consistent σ)
    (ht : k.task M e = .kill root) :
    ∃ p, k.gCurrentProcess = some p ∧ Progeny k.pParent p root := by
  obtain ⟨kids, htree⟩ := hc.tree
  rw [hσ] at htree
  -- an unhandled exception, or a second handler, is the end of the current process
  have hself : ∀ {p : Fin n} {C : Prop} [Decidable C],
      (if C then Task.nothing else Task.kill p) = Task.kill root ∨
        (if C then Task.kill p else Task.nothing) = Task.kill root → Progeny k.pParent p root := by
    intro p C _ hor
    obtain rfl : p = root := by
      by_cases hC : C
      · rcases hor with h | h
        · rw [if_pos hC] at h
          cases h
        · rw [if_pos hC] at h
          exact Task.kill.inj h
      · rcases hor with h | h
        · rw [if_neg hC] at h
          exact Task.kill.inj h
        · rw [if_neg hC] at h
          cases h
    exact .refl
  have hfind : ∀ {p : Fin n} {pid : Word}, k.killTask p pid = .kill root →
      Progeny k.pParent p root := by
    intro p pid h
    rw [Kernel.killTask] at h
    cases htarget : k.target p pid with
    | none =>
      rw [htarget] at h
      cases h
    | some r =>
      rw [htarget] at h
      obtain rfl := Task.kill.inj h
      rw [Kernel.target] at htarget
      split_ifs at htarget
      · rw [Option.some.inj htarget]
        exact .refl
      · have hsize : Forest.SizeLE k.pParent p (n + 1) := by
          obtain ⟨S, hS, hcard⟩ : Forest.SizeLE k.pParent p _ := Forest.sizeLE_card
          refine ⟨S, hS, hcard.trans ?_⟩
          rw [Fintype.card_fin]
          omega
        obtain ⟨r', hr', hspec⟩ := htree.childByPid_spec pid (n + 1) p hsize
        rw [hr', Option.join_some] at htarget
        obtain ⟨_, d, hd, hdr⟩ := hspec r htarget
        exact hdr.of_child hd
  cases hp : k.gCurrentProcess with
  | none =>
    cases e with
    | interrupt old cause => exact absurd ht interruptTask_ne_kill
    | sysBP old => rw [Kernel.task, hp] at ht; cases ht
    | pgmTrap old => rw [Kernel.task, hp] at ht; cases ht
    | tlb old => rw [Kernel.task, hp] at ht; cases ht
  | some p =>
    refine ⟨p, rfl, ?_⟩
    cases e with
    | interrupt old cause => exact absurd ht interruptTask_ne_kill
    | pgmTrap old =>
      rw [Kernel.task, hp] at ht
      exact hself (.inl ht)
    | tlb old =>
      rw [Kernel.task, hp] at ht
      exact hself (.inl ht)
    | sysBP old =>
      rw [Kernel.task, hp, Option.elim_some, Kernel.sysBPTask] at ht
      split_ifs at ht
      · rw [Kernel.sysTask] at ht
        by_cases h1 : old.a1 = createProcessNr
        · rw [if_pos h1] at ht
          cases ht
        rw [if_neg h1] at ht
        by_cases h2 : old.a1 = terminateProcessNr
        · rw [if_pos h2] at ht
          exact hfind ht
        rw [if_neg h2] at ht
        by_cases h3 : old.a1 = semopNr
        · rw [if_pos h3] at ht
          cases ht
        rw [if_neg h3] at ht
        by_cases h4 : old.a1 = specSysHdlNr
        · rw [if_pos h4] at ht
          exact hself (.inr ht)
        rw [if_neg h4] at ht
        by_cases h5 : old.a1 = specTLBHdlNr
        · rw [if_pos h5] at ht
          exact hself (.inr ht)
        rw [if_neg h5] at ht
        by_cases h6 : old.a1 = specPgmTHdlNr
        · rw [if_pos h6] at ht
          exact hself (.inr ht)
        rw [if_neg h6] at ht
        split_ifs at ht
      · exact hself (.inl ht)
      · exact hself (.inl ht)
      · exact hself (.inl ht)

/-- The parents when the task is done. -/
def Snap.Follows (σ σ' : Snap n) (k : Kernel n) (M : Machine) (e : Entry) : Prop :=
  σ.core = k.core ∧ σ'.core.pParent = k.lineage M e

theorem Snap.steps_nil (hview : σ'.view = σ.view) (hpar : σ'.core.pParent = σ.core.pParent)
    (hcur : σ'.core.gCurrentProcess = σ.core.gCurrentProcess) :
    Steps σ.system [] σ'.system := by
  rw [Snap.system_congr hview hpar hcur]
  exact .nil _

theorem Does.steps_semop (h : Does M (.semop a w) σ σ') :
    ∃ acts, Performs M (.semop a w) acts ∧ Steps σ.system acts σ'.system := by
  cases h with
  | signal hw h => exact ⟨_, .signal _ hw, h.step.steps⟩
  | grant hw h =>
    refine ⟨_, .grant hw, Snap.steps_nil h.view ?_ ?_⟩
    · rw [h.core]
    · rw [h.core]
  | block hw h => exact ⟨_, .block hw, h.step.steps⟩

/-- **What a task makes of the system.** -/
theorem Does.steps {e : Entry} (hc : Consistent σ) (hf : σ.Follows σ' k M e)
    (h : Does M (k.task M e) σ σ') :
    ∃ acts, Performs M (k.task M e) acts ∧ Steps σ.system acts σ'.system := by
  obtain ⟨hσ, hpar⟩ := hf
  obtain ⟨t, ht⟩ : ∃ t, k.task M e = t := ⟨_, rfl⟩
  have hkpar := Snap.pParent_eq hσ
  rw [Kernel.lineage] at hpar
  rw [ht] at h hpar ⊢
  cases h with
  | nothing => exact ⟨[], .nothing, .nil _⟩
  | full => exact ⟨[], .full, .nil _⟩
  | @create p c _ _ h =>
    have hborn : k.born M e = some c := by
      have hroom := h.room
      rw [hσ] at hroom
      rw [Kernel.born, ht]
      refine (if_pos hroom).trans ?_
      have hhead := Clist.Holds.head_eq ((Snap.owned_of_core hσ).listed .free _ rfl)
      rw [hhead, h.first, Option.join_some]
    have hcur : k.gCurrentProcess = some p := by
      rw [← h.parent, hσ]
      rfl
    rw [hborn, hcur, ← hkpar] at hpar
    exact ⟨_, .create c, (h.step hpar).steps⟩
  | @kill root _ _ h =>
    obtain ⟨p, hp, hroot⟩ := Kernel.task_kill hσ hc ht
    obtain ⟨kids, htree⟩ := hc.tree
    rw [← hkpar] at hpar hroot
    have hcur : σ.core.gCurrentProcess = some p := by
      rw [hσ]
      exact hp
    exact ⟨_, .kill root, (h.step htree.ranked hcur hroot hpar).steps⟩
  | signal hw h => exact (Does.signal hw h).steps_semop
  | grant hw h => exact (Does.grant hw h).steps_semop
  | block hw h => exact (Does.block hw h).steps_semop
  | command h hs =>
    obtain ⟨acts, hacts, hsteps⟩ := h.steps_semop
    obtain ⟨x, y, hcore⟩ := hs.core
    have hlast : Steps _ [] σ'.system := Snap.steps_nil hs.view (by rw [hcore]) (by rw [hcore])
    exact ⟨acts, .command hacts, List.append_nil acts ▸ hsteps.trans hlast⟩
  | store h =>
    obtain ⟨x, y, hcore⟩ := h.core
    refine ⟨_, .store _ _, Snap.steps_nil h.view ?_ ?_⟩
    · rw [hcore]
    · rw [hcore]
  | tick h =>
    obtain ⟨pss, hs⟩ := h.steps
    exact ⟨_, .tick pss, hs⟩
  | preempt hs h =>
    obtain ⟨pss, hsteps⟩ := hs.steps
    exact ⟨_, .preempt pss, hsteps.trans (h.step (hs.consistent hc)).steps⟩
  | busy => exact ⟨_, .busy _ _, .nil _⟩
  | device _ h => exact ⟨_, .device _, h.step.steps⟩

/-- Behind the work of a handler, the scheduler gives a free processor to the first ready
process. -/
inductive Settles : System n → System n → Prop
  | stay {s : System n} (h : s.running = none → s.ready = []) : Settles s s
  | dispatch {s s' : System n} {p : Fin n} (h : Step s (.dispatch p) s') : Settles s s'

/-- The moves of one entry. -/
def Moves (M : Machine) (t : Task n) (s s' : System n) : Prop :=
  ∃ acts s₁, Performs M t acts ∧ Steps s acts s₁ ∧ Settles s₁ s'

theorem Fails.current {e : Entry} {site : PanicSite} (h : Fails σ (k.task M e) site) :
    k.gCurrentProcess ≠ none := by
  intro hnone
  obtain ⟨t, ht⟩ : ∃ t, k.task M e = t := ⟨_, rfl⟩
  rw [ht] at h
  have hstuck : ∀ old, e = .sysBP old ∨ e = .pgmTrap old ∨ e = .tlb old → t = .stuck := by
    rintro old (rfl | rfl | rfl) <;> rw [← ht, Kernel.task, hnone] <;> rfl
  cases e with
  | sysBP old => rw [hstuck old (.inl rfl)] at h; cases h
  | pgmTrap old => rw [hstuck old (.inr (.inl rfl))] at h; cases h
  | tlb old => rw [hstuck old (.inr (.inr rfl))] at h; cases h
  | interrupt old cause =>
    rw [Kernel.task, Machine.interruptTask] at ht
    split at ht
    · subst ht
      cases h
    · split_ifs at ht
      · subst ht
        cases h
      · split at ht <;> (subst ht; cases h)

theorem Fails.performs {site : PanicSite} (h : Fails σ t site) : Performs M t [] := by
  cases h with
  | badTrap => exact .panic
  | badException => exact .panic
  | zero hw => exact .zero hw
  | full hw => exact .grant hw
  | command h =>
    cases h with
    | zero hw => exact .command (.zero hw)
    | full hw => exact .command (.grant hw)

/-- **The moves of an entry.** -/
theorem Ends.moves {e : Entry} {stop : Stop} (hc : Consistent σ) (hf : σ.Follows σ' k M e)
    (h : Ends M (k.task M e) σ stop σ') : Moves M (k.task M e) σ.system σ'.system := by
  have hbusy : ∀ {σ : Snap n}, σ.core.gCurrentProcess ≠ none →
      (σ.system.running = none → σ.system.ready = []) := fun hne hnone => absurd hnone hne
  cases h with
  | fail hfail =>
    refine ⟨[], _, hfail.performs, .nil _, .stay (hbusy ?_)⟩
    have hcur := hfail.current
    rw [hf.1]
    exact hcur
  | back hdoes hp =>
    obtain ⟨acts, hacts, hsteps⟩ := hdoes.steps hc hf
    refine ⟨acts, _, hacts, hsteps, .stay (hbusy ?_)⟩
    rw [hp]
    simp
  | @dispatch p _ σ₁ _ hdoes hidle hdis =>
    have hpar : σ₁.core.pParent = k.lineage M e :=
      (congrArg Tree.pParent hdis.tree).symm.trans hf.2
    obtain ⟨acts, hacts, hsteps⟩ := hdoes.steps hc ⟨hf.1, hpar⟩
    exact ⟨acts, _, hacts, hsteps, .dispatch (hdis.step hidle)⟩
  | idle hdoes hidle hready =>
    obtain ⟨acts, hacts, hsteps⟩ := hdoes.steps hc hf
    exact ⟨acts, _, hacts, hsteps, .stay (fun _ => hready)⟩

theorem Between.waiting_unique {σ : Snap maxProc} {ps : List (Fin maxProc)} (h : Between c L σ)
    (hps : c.k.Waiting a ps) : ps = σ.waiting a := by
  have howned := Snap.owned_of_core h.core
  obtain ⟨asl, hasl, hq⟩ := hps
  obtain rfl := hasl.unique howned.blocked.aslh
  rcases hq with ⟨d, hd, rfl, hq⟩ | ⟨hnone, hnil⟩
  · exact hq.unique (howned.blocked.procq d hd)
  · rw [hnil]
    by_contra hne
    obtain ⟨d, hd, hadd⟩ := (howned.blocked.active a).mp (Ne.symm hne)
    exact hnone d hd hadd

theorem Between.system_unique {σ : Snap maxProc} {s : System maxProc} (h : Between c L σ)
    (hs : c.k.Represents L s) : s = σ.system := by
  have hr := h.represents
  ext1
  · exact hs.alive.trans hr.alive.symm
  · exact hs.parent.trans hr.parent.symm
  · exact hs.running.trans hr.running.symm
  · exact hs.ready.unique hr.ready
  · funext a
    exact h.waiting_unique (hs.waiting a)

theorem Between.moves {σ : Snap maxProc} (hL : Layout M) (h : Between c L σ) (htake : CanTake c ev)
    (hok : (c.k.atEntry M ev).Admits M ev.entry) :
    ∃ σ', Between (JaeOS.step M c ev)
        {q | (q ∈ L ∨ (c.k.atEntry M ev).born M ev.entry = some q) ∧
          ¬ (c.k.atEntry M ev).Dies M ev.entry q} σ' ∧
      Moves M ((c.k.atEntry M ev).task M ev.entry) σ.system σ'.system := by
  obtain ⟨σ', hb', hends, -⟩ := h.step hL htake hok
  refine ⟨σ', hb', ?_⟩
  have hcore : (σ.atEntry M ev.mem).core = (c.k.atEntry M ev).core := Snap.atEntry_core h.core
  have hpar : σ'.core.pParent = (c.k.atEntry M ev).lineage M ev.entry :=
    (Snap.pParent_eq hb'.core).trans (h.lineage hL htake hok)
  have hmoves : Moves M _ (σ.atEntry M ev.mem).system σ'.system :=
    hends.moves (h.consistent.atEntry M ev.mem) ⟨hcore, hpar⟩
  exact hmoves

theorem represents_boot (hL : Layout M) :
    (boot M).k.Represents {proc0} (ProcSystem.init proc0) := by
  obtain ⟨σ, s, hb, -, hi⟩ := between_boot hL
  have hplace : ∀ pl q, q ∈ σ.view.list pl ↔ if q = proc0 then pl = .held else pl = .free := by
    intro pl q
    rw [σ.view.mem, hi.place]
    split_ifs <;> exact eq_comm
  have hnil : ∀ pl, pl ≠ .held → pl ≠ .free → σ.view.list pl = [] := by
    intro pl hheld hfree
    refine List.eq_nil_iff_forall_not_mem.mpr (fun q hq => ?_)
    have hpl := (hplace pl q).mp hq
    split_ifs at hpl
    · exact hheld hpl
    · exact hfree hpl
  have horphan : ∀ q, σ.core.pParent q = none := by
    intro q
    by_contra hne
    obtain ⟨r, hr⟩ := Option.ne_none_iff_exists'.mp hne
    obtain ⟨kids, htree⟩ := hb.consistent.tree
    by_cases hroot : r = proc0
    · subst hroot
      by_cases hq : q = proc0
      · exact htree.ranked.ne_parent hr hq
      · have hfree : σ.view.place q = .free := (hi.place q).trans (if_neg hq)
        exact hne (hb.consistent.rooted q hfree).1
    · have hfree : σ.view.place r = .free := (hi.place r).trans (if_neg hroot)
      exact (hb.consistent.rooted r hfree).2 q hr
  have hsys : σ.system = ProcSystem.init proc0 := by
    ext1
    · exact Set.ext hb.live
    · funext q
      exact horphan q
    · exact hi.current
    · exact hnil _ (by simp) (by simp)
    · funext a
      exact hnil _ (by simp) (by simp)
  rw [← hsys]
  exact hb.represents

theorem Reaches.moves {s : System maxProc} (hL : Layout M)
    (h : Reaches M (fun k e => k.Admits M e) c L) (hs : c.k.Represents L s) (htake : CanTake c ev)
    (hok : (c.k.atEntry M ev).Admits M ev.entry) :
    ∃ s', Moves M ((c.k.atEntry M ev).task M ev.entry) s s' ∧
      (JaeOS.step M c ev).k.Represents {q | (q ∈ L ∨ (c.k.atEntry M ev).born M ev.entry = some q) ∧
        ¬ (c.k.atEntry M ev).Dies M ev.entry q} s' := by
  obtain ⟨σ, hb⟩ := h.exists_between hL
  obtain ⟨σ', hb', hmoves⟩ := hb.moves hL htake hok
  rw [hb.system_unique hs]
  exact ⟨σ'.system, hmoves, hb'.represents⟩

/-- **The kernel refines the system of processes.**  The first state represents the system
with one process, and when a state that is reached represents a system, every entry makes
moves of this system that fit its task, and ends in a state that represents the result. -/
theorem kernel_refines_system (hL : Layout M) :
    (boot M).k.Represents {proc0} (ProcSystem.init proc0) ∧
      ∀ (c : Config maxProc) (L : Set (Fin maxProc)) (s : System maxProc) (ev : Event),
        Reaches M (fun k e => k.Admits M e) c L → c.k.Represents L s → CanTake c ev →
        (c.k.atEntry M ev).Admits M ev.entry →
        ∃ s', Moves M ((c.k.atEntry M ev).task M ev.entry) s s' ∧
          (step M c ev).k.Represents {q | (q ∈ L ∨ (c.k.atEntry M ev).born M ev.entry = some q) ∧
            ¬ (c.k.atEntry M ev).Dies M ev.entry q} s' :=
  ⟨represents_boot hL, fun _ _ _ _ h hs htake hok => h.moves hL hs htake hok⟩

/-- The first process creates another one. -/
theorem kernel_refines_system_create : ∃ (s' : System maxProc) (live : Set (Fin maxProc)),
    Moves uarm .create (ProcSystem.init proc0) s' ∧
      (step uarm (boot uarm) (sys 1 0 0 0)).k.Represents live s' := by
  have htake : CanTake (boot uarm : Config maxProc) (sys 1 0 0 0) :=
    Config.canTake_iff.mp (by decide +kernel)
  obtain ⟨hboot, hstep⟩ := kernel_refines_system layout_uarm
  obtain ⟨s', hmoves, hs'⟩ := hstep _ _ _ (sys 1 0 0 0) .boot hboot htake
    (.of_tame (by decide +kernel))
  have htask : ((boot uarm).k.atEntry uarm (sys 1 0 0 0) : Kernel maxProc).task uarm
      (sys 1 0 0 0).entry = .create := by decide +kernel
  rw [htask] at hmoves
  exact ⟨s', _, hmoves, hs'⟩

theorem Reaches.waiting_unique {s : System maxProc} {ps : List (Fin maxProc)} (hL : Layout M)
    (h : Reaches M (fun k e => k.Admits M e) c L) (hs : c.k.Represents L s)
    (hps : c.k.Waiting a ps) : s.waiting a = ps := by
  obtain ⟨σ, hb⟩ := h.exists_between hL
  rw [hb.system_unique hs, hb.waiting_unique hps]
  rfl

/-- **The invariant of the system holds in every state that is reached.** -/
theorem Reaches.represents (hL : Layout M) (h : Reaches M (fun k e => k.Admits M e) c L) :
    ∃ s, c.k.Represents L s ∧ s.Sound proc0 := by
  induction h with
  | boot => exact ⟨_, represents_boot hL, ProcSystem.sound_init⟩
  | @step c L ev h htake hok ih =>
    obtain ⟨s, hs, hsound⟩ := ih
    obtain ⟨s', ⟨acts, s₁, -, hsteps, hsettles⟩, hs'⟩ := h.moves hL hs htake hok
    have hsound₁ := hsound.steps hsteps
    refine ⟨s', hs', ?_⟩
    cases hsettles with
    | stay => exact hsound₁
    | dispatch hd => exact hsound₁.step hd

end JaeOS
