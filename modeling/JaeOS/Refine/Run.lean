import JaeOS.Refine.Syscall

/-!
# Runs

`wp_handler` puts the handlers together: every entry the kernel admits ends as
its task says.  `Reaches` are the runs from the state `main` builds, with the set
of the processes that have been created and not terminated.
-/

namespace JaeOS

open Forest (Progeny)

variable {n : ℕ} {M : Machine} {k : Kernel n} {σ σ' : Snap n} {p q : Fin n} {e : Entry}
  {Q : Unit → Kernel n → Prop}

/-! ### One entry -/

/-- **Every entry the kernel admits ends as its task says.** -/
theorem wp_handler (hL : Layout M) (hn : maxProc ≤ n) (hσ : σ.core = k.core) (hc : Consistent σ)
    (hrun : e.isInterrupt = false → ∃ p, k.gCurrentProcess = some p) (hok : k.Admits M e) :
    wp (handler M e) Q (Ended M (k.task M e) σ) k := by
  cases e with
  | sysBP old =>
    obtain ⟨p, hp⟩ := hrun rfl
    let k₁ : Kernel n := { k with sysbold := old }
    have halike : Alike k k₁ := ⟨rfl, fun _ => rfl, fun _ _ => rfl⟩
    have htask : k.task M (.sysBP old) = k₁.sysBPTask M p old := by
      rw [Kernel.task, hp]
      simp only [Option.elim_some, Kernel.sysBPTask, halike.sysTask, halike.raise]
    have hf : k₁.Fresh (k₁.sysBPTask M p old) := by
      rw [← htask]
      exact halike.fresh hok.fresh
    rw [htask, handler, wp_bind, wp_modify]
    exact wp_sysBPHandler (k := k₁) hL hn hσ hc hp hok.outside hf
  | pgmTrap old =>
    obtain ⟨p, hp⟩ := hrun rfl
    let k₁ : Kernel n := { k with pgmold := old }
    have halike : Alike k k₁ := ⟨rfl, fun _ => rfl, fun _ _ => rfl⟩
    have htask : k.task M (.pgmTrap old) = k₁.raise p .pgm := by
      rw [Kernel.task, hp, halike.raise]
      rfl
    have hf : k₁.Fresh (k₁.raise p .pgm) := by
      rw [← htask]
      exact halike.fresh hok.fresh
    rw [htask, handler, wp_bind, wp_modify]
    exact wp_pgmTrapHandler (k := k₁) hL hσ hc hp hf
  | tlb old =>
    obtain ⟨p, hp⟩ := hrun rfl
    let k₁ : Kernel n := { k with tlbold := old }
    have halike : Alike k k₁ := ⟨rfl, fun _ => rfl, fun _ _ => rfl⟩
    have htask : k.task M (.tlb old) = k₁.raise p .tlb := by
      rw [Kernel.task, hp, halike.raise]
      rfl
    have hf : k₁.Fresh (k₁.raise p .tlb) := by
      rw [← htask]
      exact halike.fresh hok.fresh
    rw [htask, handler, wp_bind, wp_modify]
    exact wp_tlbHandler (k := k₁) hL hσ hc hp hf
  | interrupt old cause =>
    let k₁ : Kernel n := { k with intold := old }
    obtain ⟨hok₁, htask⟩ :
        k₁.Admits M (.interrupt old cause) ∧
          k₁.task M (.interrupt old cause) = k.task M (.interrupt old cause) :=
      interrupt_congr rfl rfl rfl rfl hok
    rw [← htask, handler, wp_bind, wp_modify]
    exact wp_interruptExceptionHandler (k := k₁) hL hσ hc hok₁

/-! ### Who lives -/

/-- The block `createProcess` takes for the new process. -/
def Kernel.born (k : Kernel n) (M : Machine) (e : Entry) : Option (Fin n) :=
  match k.task M e with
  | .create => if k.gProcessCount.toNat < maxProc then (k.procQ .pcbFree).head.join else none
  | _ => none

/-- The entry terminates `q`, or one of its ancestors. -/
def Kernel.Dies (k : Kernel n) (M : Machine) (e : Entry) (q : Fin n) : Prop :=
  ∃ root, k.task M e = .kill root ∧ Progeny k.pParent root q

theorem View.move_place_free {v : View n} {pl : Place} (hp : v.place p ≠ .free) (hpl : pl ≠ .free) :
    (v.move p pl).place q = .free ↔ v.place q = .free := by
  by_cases hq : q = p
  · rw [hq, Placement.move_place_self]
    exact iff_of_false hpl hp
  · rw [Placement.move_place_of_ne hq]

theorem Signal.place_free {a w : Word} (h : Signal M a w σ σ') :
    σ'.view.place q = .free ↔ σ.view.place q = .free := by
  rw [h.view, View.wake_place]
  split_ifs with hq
  · rw [Snap.place_of_woken hq]
    simp
  · rfl

theorem Signals.place_free {a : Word} (h : Signals M a σ σ') :
    σ'.view.place q = .free ↔ σ.view.place q = .free := by
  induction h with
  | refl => rfl
  | head _ h _ ih => exact ih.trans h.place_free

theorem Dispatch.place_free (h : Dispatch p σ σ') :
    σ'.view.place q = .free ↔ σ.view.place q = .free := by
  rw [h.view]
  exact View.move_place_free (by simp [Snap.place_of_head h.first]) (by simp)

/-- Nobody is born or dies at a semaphore. -/
theorem Does.place_free_semop {a w : Word} (h : Does M (.semop a w) σ σ') :
    σ'.view.place q = .free ↔ σ.view.place q = .free := by
  cases h with
  | signal _ h => exact h.place_free
  | grant _ h => rw [h.view]
  | block _ h =>
    rw [h.view]
    exact View.move_place_free (by simp [h.held]) (by simp)

theorem Snap.place_born (hσ : σ.core = k.core) (h : k.born M e = some p) :
    σ.view.place p = .free := by
  have hhead := Clist.Holds.head_eq ((Snap.owned_of_core hσ).listed .free _ rfl)
  rw [Kernel.born] at h
  split at h
  · split_ifs at h
    rw [hhead, Option.join_some] at h
    exact Snap.place_of_head h
  · exact absurd h (by simp)

/-- **Processes are born and die as the task says**, and not otherwise. -/
theorem Does.place_free (hσ : σ.core = k.core) (hc : Consistent σ) (h : Does M (k.task M e) σ σ') :
    σ'.view.place q ≠ .free ↔
      (σ.view.place q ≠ .free ∨ k.born M e = some q) ∧ ¬ k.Dies M e q := by
  obtain ⟨t, ht⟩ : ∃ t, k.task M e = t := ⟨_, rfl⟩
  rw [ht] at h
  -- the tasks that neither create nor kill
  have hsame : t ≠ .create → (∀ root, t ≠ .kill root) →
      (σ'.view.place q = .free ↔ σ.view.place q = .free) →
      (σ'.view.place q ≠ .free ↔
        (σ.view.place q ≠ .free ∨ k.born M e = some q) ∧ ¬ k.Dies M e q) := by
    intro hcreate hkill hplace
    have hborn : k.born M e = none := by
      rw [Kernel.born, ht]
      cases t with
      | create => exact absurd rfl hcreate
      | _ => rfl
    have hdies : ¬ k.Dies M e q := fun ⟨root, hroot, _⟩ => hkill root (ht.symm.trans hroot)
    simp [hborn, hdies, hplace]
  have hdies : t = .create → ¬ k.Dies M e q := fun hcreate ⟨root, hroot, _⟩ => by
    rw [ht, hcreate] at hroot
    exact nomatch hroot
  cases h with
  | nothing => exact hsame (by simp) (by simp) Iff.rfl
  | full hfull =>
    rw [hσ] at hfull
    have hborn : k.born M e = none := by
      rw [Kernel.born, ht]
      exact if_neg hfull
    simp [hborn, hdies rfl]
  | @create p c _ _ h =>
    have hborn : k.born M e = some c := by
      have hroom := h.room
      rw [hσ] at hroom
      rw [Kernel.born, ht]
      refine (if_pos hroom).trans ?_
      have hhead := Clist.Holds.head_eq ((Snap.owned_of_core hσ).listed .free _ rfl)
      rw [hhead, h.first, Option.join_some]
    rw [h.view, hborn]
    by_cases hq : q = c
    · subst hq
      simp [hdies rfl]
    · rw [Placement.move_place_of_ne hq]
      simp [hdies rfl, Ne.symm hq]
  | @kill root _ _ h =>
    obtain ⟨ds, -, hds, hrel⟩ := h.releases
    have hborn : k.born M e = none := by rw [Kernel.born, ht]
    have hdies : k.Dies M e q ↔ q ∈ ds := by
      rw [hds q, Snap.pParent_eq hσ]
      refine ⟨fun ⟨r, hr, hq⟩ => ?_, fun hq => ⟨root, ht, hq⟩⟩
      obtain rfl : root = r := by
        rw [ht] at hr
        exact Task.kill.inj hr
      exact hq
    rw [hrel.place, hborn, hdies]
    by_cases hq : q ∈ ds <;> simp [hq]
  | signal hw h => exact hsame (by simp) (by simp) (Does.signal hw h).place_free_semop
  | grant _ h => exact hsame (by simp) (by simp) (by rw [h.view])
  | block hw h => exact hsame (by simp) (by simp) (Does.block hw h).place_free_semop
  | command h hs =>
    refine hsame (by simp) (by simp) ?_
    rw [hs.view]
    exact h.place_free_semop
  | store h => exact hsame (by simp) (by simp) (by rw [h.view])
  | tick h => exact hsame (by simp) (by simp) h.place_free
  | @preempt p _ σ₁ _ hs h =>
    have hheld : σ₁.view.place p = .held := ((hs.consistent hc).current p).mpr h.current
    refine hsame (by simp) (by simp) (Iff.trans ?_ hs.place_free)
    rw [h.view]
    exact View.move_place_free (by simp [hheld]) (by simp)
  | busy => exact hsame (by simp) (by simp) Iff.rfl
  | device _ h => exact hsame (by simp) (by simp) h.place_free

theorem Ends.place_free {stop : Stop} (hσ : σ.core = k.core) (hc : Consistent σ)
    (h : Ends M (k.task M e) σ stop σ') :
    σ'.view.place q ≠ .free ↔
      (σ.view.place q ≠ .free ∨ k.born M e = some q) ∧ ¬ k.Dies M e q := by
  obtain ⟨t, ht⟩ : ∃ t, k.task M e = t := ⟨_, rfl⟩
  cases h with
  | fail h =>
    rw [ht] at h
    have hborn : k.born M e = none := by
      rw [Kernel.born, ht]
      cases h <;> rfl
    have hdies : ¬ k.Dies M e q := fun ⟨root, hroot, _⟩ => by
      rw [ht] at hroot
      rw [hroot] at h
      exact nomatch h
    simp [hborn, hdies]
  | back hd _ => exact hd.place_free hσ hc
  | dispatch hd _ h =>
    rw [ne_eq, h.place_free]
    exact hd.place_free hσ hc
  | idle hd _ _ => exact hd.place_free hσ hc

/-! ### Runs -/

def Core.atEntry (c : Core n) (M : Machine) (mem : Word → Word) : Core n :=
  { c with mem := fun a => if M.nucleus a then c.mem a else mem a }

/-- What processes and devices leave in memory has no part in the placement. -/
def Snap.atEntry (σ : Snap n) (M : Machine) (mem : Word → Word) : Snap n :=
  { σ with core := σ.core.atEntry M mem }

theorem Snap.atEntry_core {ev : Event} (hσ : σ.core = k.core) :
    (σ.atEntry M ev.mem).core = (k.atEntry M ev).core :=
  congrArg (fun c => c.atEntry M ev.mem) hσ

theorem Consistent.atEntry (hc : Consistent σ) (M : Machine) (mem : Word → Word) :
    Consistent (σ.atEntry M mem) := ⟨hc.count, hc.tree, hc.rooted, hc.current⟩

theorem runToStop_of_wp {x : K n Unit} {E : Stop → Kernel n → Prop}
    (h : wp x (fun _ _ => False) E k) : E (runToStop x k).stop (runToStop x k).k := by
  rw [wp] at h
  rw [runToStop]
  cases hx : x k with
  | ok a k' =>
    rw [hx] at h
    exact h.elim
  | error stop k' =>
    rw [hx] at h
    exact h

def proc0 : Fin maxProc := ⟨0, by decide⟩

/-- **The runs of the kernel**, with the set of the live processes.  `ok` says
which entries may be taken in which state. -/
inductive Reaches (M : Machine) (ok : Kernel maxProc → Entry → Prop) :
    Config maxProc → Set (Fin maxProc) → Prop
  | boot : Reaches M ok (boot M) {proc0}
  | step {c : Config maxProc} {L : Set (Fin maxProc)} {ev : Event} (h : Reaches M ok c L)
      (htake : CanTake c ev) (hok : ok (c.k.atEntry M ev) ev.entry) :
      Reaches M ok (step M c ev)
        {q | (q ∈ L ∨ (c.k.atEntry M ev).born M ev.entry = some q) ∧
          ¬ (c.k.atEntry M ev).Dies M ev.entry q}

/-- The state between two entries, as a snapshot. -/
structure Between (c : Config maxProc) (L : Set (Fin maxProc)) (σ : Snap maxProc) : Prop where
  core : σ.core = c.k.core
  consistent : Consistent σ
  live : ∀ q, σ.view.place q ≠ .free ↔ q ∈ L
  running : ∀ s, c.stop = .ldst s → ∃ p, c.k.gCurrentProcess = some p
  sound : ∀ f, c.stop ≠ .fault f

theorem Snap.verdict_cases (σ : Snap n) :
    σ.verdict = .halt ∨ σ.verdict = .wait ∨ σ.verdict = .panic .deadlock := by
  rw [Snap.verdict]
  split_ifs <;> simp

theorem Ends.current {t : Task n} {stop : Stop} (h : Ends M t σ stop σ') {s : ProcState}
    (hs : stop = .ldst s) : ∃ p, σ'.core.gCurrentProcess = some p := by
  cases h with
  | fail => exact nomatch hs
  | back _ hp => exact ⟨_, hp⟩
  | dispatch _ _ h => exact ⟨_, h.current⟩
  | idle => rcases σ'.verdict_cases with hv | hv | hv <;> exact nomatch hv.symm.trans hs

theorem Ends.sound {t : Task n} {stop : Stop} (h : Ends M t σ stop σ') (f : Fault) :
    stop ≠ .fault f := by
  rintro rfl
  generalize hstop : Stop.fault f = stop at h
  cases h with
  | idle => rcases σ'.verdict_cases with hv | hv | hv <;> exact nomatch hstop.trans hv
  | _ => exact nomatch hstop

/-- **One entry between two states.** -/
theorem Between.step {c : Config maxProc} {L : Set (Fin maxProc)} {σ : Snap maxProc} {ev : Event}
    (hL : Layout M) (h : Between c L σ) (htake : CanTake c ev)
    (hok : (c.k.atEntry M ev).Admits M ev.entry) :
    ∃ σ', Between (step M c ev)
        {q | (q ∈ L ∨ (c.k.atEntry M ev).born M ev.entry = some q) ∧
          ¬ (c.k.atEntry M ev).Dies M ev.entry q} σ' ∧
      Ends M ((c.k.atEntry M ev).task M ev.entry) (σ.atEntry M ev.mem) (JaeOS.step M c ev).stop σ' ∧
      Delivered ((c.k.atEntry M ev).task M ev.entry) (σ.atEntry M ev.mem) σ' (JaeOS.step M c ev).k := by
  have hcore : (σ.atEntry M ev.mem).core = (c.k.atEntry M ev).core := Snap.atEntry_core h.core
  have hc := h.consistent.atEntry M ev.mem
  have hrun : ev.entry.isInterrupt = false → ∃ p, (c.k.atEntry M ev).gCurrentProcess = some p := by
    intro hint
    rcases htake with ⟨s, hs⟩ | ⟨_, hint'⟩
    · exact h.running s hs
    · rw [hint] at hint'
      exact nomatch hint'
  obtain ⟨σ', hσ', hc', hends, hdel⟩ := runToStop_of_wp (wp_handler hL le_rfl hcore hc hrun hok)
  refine ⟨σ', ⟨hσ', hc', fun q => ?_, fun s hs => ?_, fun f hf => ?_⟩, hends, hdel⟩
  · rw [hends.place_free hcore hc]
    show _ ↔ (q ∈ L ∨ _) ∧ _
    rw [← h.live q]
    exact Iff.rfl
  · obtain ⟨p, hp⟩ := hends.current hs
    rw [hσ'] at hp
    exact ⟨p, hp⟩
  · exact hends.sound f hf

theorem between_boot (hL : Layout M) : ∃ σ s, Between (boot M) {proc0} σ ∧
    (boot M : Config maxProc).stop = .ldst s ∧ Initial M proc0 σ := by
  have hn : List.finRange maxProc = proc0 :: (List.finRange 19).map Fin.succ :=
    List.finRange_succ
  let E : Stop → Kernel maxProc → Prop := fun stop k' =>
    ∃ σ, σ.core = k'.core ∧ Consistent σ ∧ Initial M proc0 σ ∧ ∃ s, stop = .ldst s
  have hE : E (boot M).stop (boot M).k := runToStop_of_wp (wp_main hn hL.pid
    (fun k' σ' hσ' hc hi => ⟨σ', hσ', hc, hi, _, rfl⟩))
  obtain ⟨σ, hσ, hc, hi, s, hs⟩ := hE
  refine ⟨σ, s, ⟨hσ, hc, fun q => ?_, fun _ _ => ⟨proc0, ?_⟩, fun f hf => ?_⟩, hs, hi⟩
  · rw [hi.place, Set.mem_singleton_iff]
    split_ifs with hq <;> simp [hq]
  · have := hi.current
    rw [hσ] at this
    exact this
  · exact nomatch hs.symm.trans hf

/-- **Runs keep invariants.**  What holds after `main`, and is kept by every entry
that is allowed, holds in every state reached. -/
theorem Reaches.between {ok : Kernel maxProc → Entry → Prop} {c : Config maxProc}
    {L : Set (Fin maxProc)} {I : Stop → Snap maxProc → Prop} (hL : Layout M)
    (hadmits : ∀ k e, ok k e → k.Admits M e)
    (hboot : ∀ s σ, Initial M proc0 σ → I (.ldst s) σ)
    (hstep : ∀ (k : Kernel maxProc) (ev : Event) (stop₀ stop : Stop) (σ σ' : Snap maxProc),
      σ.core = k.core → Consistent σ → I stop₀ σ → ok (k.atEntry M ev) ev.entry →
      Ends M ((k.atEntry M ev).task M ev.entry) (σ.atEntry M ev.mem) stop σ' → I stop σ')
    (h : Reaches M ok c L) : ∃ σ, Between c L σ ∧ I c.stop σ := by
  induction h with
  | boot =>
    obtain ⟨σ, s, hb, hs, hi⟩ := between_boot hL
    exact ⟨σ, hb, hs ▸ hboot s σ hi⟩
  | @step c L ev h htake hok ih =>
    obtain ⟨σ, hb, hI⟩ := ih
    obtain ⟨σ', hb', hends, _⟩ := hb.step hL htake (hadmits _ _ hok)
    exact ⟨σ', hb', hstep _ _ _ _ _ _ hb.core hb.consistent hI hok hends⟩

theorem Reaches.exists_between {c : Config maxProc} {L : Set (Fin maxProc)} (hL : Layout M)
    (h : Reaches M (fun k e => k.Admits M e) c L) : ∃ σ, Between c L σ := by
  obtain ⟨σ, hb, -⟩ := h.between (I := fun _ _ => True) hL (fun _ _ h => h) (fun _ _ _ => trivial)
    (fun _ _ _ _ _ _ _ _ _ _ _ => trivial)
  exact ⟨σ, hb⟩

end JaeOS
