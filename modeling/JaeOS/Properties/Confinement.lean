import JaeOS.Properties.Handlers
import JaeOS.Properties.Isolation

/-!
# What cannot be done without the system calls of the kernel

System calls of the user mode, traps, breakpoints and interrupts may end processes, wake
them up and give the processor to others.  However many of them come, and in whatever
order, they create no process, put none to sleep, and give nobody another parent, another
pid or another handler.
-/

namespace JaeOS

open ProcSystem (Act Step Steps)

variable {n : ℕ} {M : Machine} {k : Kernel n} {e : Entry} {t : Task n} {s s' : System n}
  {acts : List (Act (Fin n) Word)}

/-- The entry is none of the system calls of the kernel mode. -/
def Entry.Unprivileged (M : Machine) (e : Entry) : Prop := ∀ nr, ¬ e.Sys M nr

/-! ### One entry -/

theorem sys_of_operates {a w : Word} (h : (k.task M e).Operates a w) : ∃ nr, e.Sys M nr := by
  have hraise : ∀ p t, ¬ (k.raise p t).Operates a w := by
    intro p t
    rw [Kernel.raise]
    split_ifs <;> exact id
  have hstuck : ∀ {f : Fin n → Task n}, (∀ p, ¬ (f p).Operates a w) →
      ¬ (k.gCurrentProcess.elim .stuck f).Operates a w := by
    intro f hf
    cases k.gCurrentProcess with
    | none => exact id
    | some p => exact hf p
  cases e with
  | sysBP old =>
    by_cases hcall : M.causeExcCodeGet old.cp15Cause = M.excSyscall ∧ M.kernelMode old.cpsr = true
    · exact ⟨old.a1, hcall.1, hcall.2, rfl⟩
    · refine absurd h (hstuck (fun p => ?_))
      rw [Kernel.sysBPTask]
      split_ifs with hsys hrange hmode
      · exact absurd ⟨hsys, hmode⟩ hcall
      · exact hraise _ _
      · exact hraise _ _
      · exact hraise _ _
      · exact id
  | pgmTrap old => exact absurd h (hstuck (fun p => hraise p _))
  | tlb old => exact absurd h (hstuck (fun p => hraise p _))
  | interrupt old cause =>
    rw [Kernel.task, Machine.interruptTask] at h
    split at h
    · exact h.elim
    · split_ifs at h
      · exact h.elim
      · split at h <;> exact h.elim

theorem Performs.passive (h : Performs M t acts) (hcreate : t ≠ .create)
    (hsemop : ∀ a w, ¬ t.Operates a w) : ∀ act ∈ acts, act.Passive := by
  have hwake : ∀ {a : Word} (pss : List (List (Fin n))), ∀ act ∈ pss.map (Act.wake a), act.Passive := by
    intro a pss act hact
    obtain ⟨ps, -, rfl⟩ := List.mem_map.mp hact
    trivial
  cases h with
  | full | create => exact absurd rfl hcreate
  | signal | grant | block | zero => exact absurd ⟨rfl, rfl⟩ (hsemop _ _)
  | command => exact absurd ⟨rfl, rfl⟩ (hsemop _ _)
  | tick pss => exact hwake pss
  | preempt pss =>
    intro act hact
    rcases List.mem_append.mp hact with hact | hact
    · exact hwake pss act hact
    · rw [List.mem_singleton.mp hact]
      trivial
  | kill | device =>
    intro act hact
    rw [List.mem_singleton.mp hact]
    trivial
  | nothing | store | busy | panic => simp

/-- **An entry without a system call of the kernel** makes nothing new. -/
theorem Moves.dwindles (h : Moves M (k.task M e) s s') (he : e.Unprivileged M) : s.Dwindles s' := by
  obtain ⟨acts, s₁, hacts, hsteps, hsettles⟩ := h
  have hcreate : k.task M e ≠ .create := fun ht => he _ (sys_of_task ht)
  have hsemop : ∀ a w, ¬ (k.task M e).Operates a w := by
    intro a w ht
    obtain ⟨nr, hnr⟩ := sys_of_operates ht
    exact he nr hnr
  have hfirst := hsteps.dwindles (hacts.passive hcreate hsemop)
  cases hsettles with
  | stay => exact hfirst
  | dispatch hd => exact hfirst.trans (hd.dwindles trivial)

/-! ### Runs -/

variable {c c₀ : Config maxProc} {L L₀ : Set (Fin maxProc)} {s₀ : System maxProc}

theorem Runs.dwindles (hL : Layout M) (h₀ : Reaches M (fun k e => k.Admits M e) c₀ L₀)
    (hs₀ : c₀.k.Represents L₀ s₀) (h : Runs M (fun _ ev => ev.entry.Unprivileged M) c₀ L₀ c L) :
    ∃ s, c.k.Represents L s ∧ s₀.Dwindles s := by
  induction h with
  | refl => exact ⟨s₀, hs₀, .refl s₀⟩
  | step hrest htake hok he ih =>
    obtain ⟨s, hs, hsub⟩ := ih
    obtain ⟨s', hmoves, hs'⟩ := (hrest.reaches h₀).moves hL hs htake hok
    exact ⟨s', hs', hsub.trans (hmoves.dwindles he)⟩

theorem Runs.keeps (h₀ : Reaches M (fun k e => k.Admits M e) c₀ L₀)
    (h : Runs M (fun _ ev => ev.entry.Unprivileged M) c₀ L₀ c L) :
    (∀ q t, ((c.k.pcb q).area t).newArea.handler = ((c₀.k.pcb q).area t).newArea.handler) ∧
      (c.stop.Live → c.k.absProcessCount = c₀.k.absProcessCount ∧
        ∀ q, (c.k.pcb q).pPid = (c₀.k.pcb q).pPid) := by
  induction h with
  | refl => exact ⟨fun _ _ => rfl, fun _ => ⟨rfl, fun _ => rfl⟩⟩
  | @step c L ev hrest htake hok he ih =>
    have hready := reaches_ready (hrest.reaches h₀)
    have hborn : ∀ q, (c.k.atEntry M ev).born M ev.entry ≠ some q :=
      fun q hq => he _ (sys_of_born hq).1
    refine ⟨fun q t => ?_, fun hlive => ?_⟩
    · have harea := (hready.areas htake).handler q t (hborn q) (fun hi => he _ hi.2.1)
      exact harea.trans (ih.1 q t)
    · have hpassed := hready.step htake hlive
      obtain ⟨habs, hpid⟩ := ih.2 htake.live
      exact ⟨(hpassed.abs (he _)).trans habs, fun q => (hpassed.pid q (hborn q)).trans (hpid q)⟩

/-- **Without the system calls of the kernel** no run, of any length, of entries the kernel is
ready for creates a process, puts one to sleep or ahead of another one in a queue, or gives a
live process another parent, a handler that was not specified before, or another pid. -/
theorem unprivileged_confined (hL : Layout M) (h₀ : Reaches M (fun k e => k.Admits M e) c₀ L₀)
    (h : Runs M (fun _ ev => ev.entry.Unprivileged M) c₀ L₀ c L) :
    L ⊆ L₀ ∧ (∀ q ∈ L, c.k.pParent q = c₀.k.pParent q) ∧
      (∀ a ps ps', c₀.k.Waiting a ps → c.k.Waiting a ps' → ps'.Sublist ps) ∧
      (∀ q t, ((c.k.pcb q).area t).newArea.handler = ((c₀.k.pcb q).area t).newArea.handler) ∧
      (c.stop.Live → c.k.absProcessCount = c₀.k.absProcessCount ∧
        ∀ q, (c.k.pcb q).pPid = (c₀.k.pcb q).pPid) := by
  obtain ⟨s₀, hs₀, -⟩ := h₀.represents hL
  obtain ⟨s, hs, hsub⟩ := h.dwindles hL h₀ hs₀
  have hparent := hsub.parent
  have halive := hsub.alive
  rw [hs.alive, hs.parent, hs₀.parent] at hparent
  rw [hs.alive, hs₀.alive] at halive
  refine ⟨halive, hparent, fun a ps ps' hps hps' => ?_, h.keeps h₀⟩
  have hwaiting := hsub.waiting a
  rw [(h.reaches h₀).waiting_unique hL hs hps', h₀.waiting_unique hL hs₀ hps] at hwaiting
  exact hwaiting

/-- The second process gets its turn and makes a program trap, without a handler for it: the
first one goes on, and the pids are as they were. -/
theorem unprivileged_confined_trap : ∃ (c₀ c : Config maxProc) (L₀ L : Set (Fin maxProc)),
    c₀.k.gProcessCount = 2 ∧ c.k.gProcessCount = 1 ∧ L ⊆ L₀ ∧
      (c.k.pcb proc0).pPid = (c₀.k.pcb proc0).pPid := by
  let trap : Event := (Entry.pgmTrap .zero).event
  let c₁ : Config maxProc := step uarm (boot uarm) (sys createProcessNr 0 0 0)
  let c₂ : Config maxProc := step uarm c₁ timerInterrupt
  let c₃ : Config maxProc := step uarm c₂ trap
  obtain ⟨L₀, hfirst⟩ : ∃ L₀, Reaches uarm (fun k e => k.Admits uarm e) c₁ L₀ :=
    ⟨_, .step .boot (Config.canTake_iff.mp (by decide +kernel)) (.of_tame (by decide +kernel))⟩
  have hstart : Runs uarm (fun _ ev => ev.entry.Unprivileged uarm) c₁ L₀ c₁ L₀ := .refl
  have hsecond : Runs uarm (fun _ ev => ev.entry.Unprivileged uarm) c₁ L₀ c₂ _ :=
    hstart.step (Config.canTake_iff.mp (by decide +kernel)) (.of_tame (by decide +kernel))
      (fun _ h => h)
  have hthird : Runs uarm (fun _ ev => ev.entry.Unprivileged uarm) c₁ L₀ c₃ _ :=
    hsecond.step (Config.canTake_iff.mp (by decide +kernel)) (.of_tame (by decide +kernel))
      (fun _ h => h)
  obtain ⟨hsub, -, -, -, hpids⟩ := unprivileged_confined layout_uarm hfirst hthird
  have hnext : CanTake c₃ timerInterrupt := Config.canTake_iff.mp (by decide +kernel)
  exact ⟨c₁, c₃, L₀, _, by decide +kernel, by decide +kernel, hsub, (hpids hnext.live).2 proc0⟩

end JaeOS
