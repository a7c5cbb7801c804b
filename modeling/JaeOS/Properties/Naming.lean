import JaeOS.Properties.Descendants
import JaeOS.Properties.Family
import JaeOS.Properties.PidFreshness

/-!
# What a pid names

As long as fewer than `2 ^ 27` processes are created, a pid names one process for ever: no
later process gets it, also in the block of one that has ended.  So TERMINATEPROCESS with a
pid from SYS1 ends the process that has been created then, with its progeny, or nobody.
-/

namespace JaeOS

open Forest (Progeny)

variable {n : ℕ} {M : Machine} {k : Kernel n} {p b : Fin n} {e : Entry} {old : ProcState}
  {kids : Fin n → List (Fin n)}

/-- The creation that a pid is from, counted as `pid_selector` counts. -/
def pidBirth (pid : Word) : ℕ := pid.toNat / 32

/-- The next creation gets a number that no one before it had. -/
def Kernel.PidsLeft (k : Kernel n) : Prop := k.absProcessCount.toNat + 1 < 2 ^ 27

instance : Decidable k.PidsLeft := inferInstanceAs (Decidable (_ < _))

/-! ### One entry -/

theorem Kernel.nextPid_birth (h : k.PidsLeft) (hroom : k.gProcessCount.toNat < maxProc) :
    pidBirth k.nextPid = k.absProcessCount.toNat + 1 := by
  have hmax : maxProc = 20 := rfl
  have hleft : k.absProcessCount.toNat + 1 < 2 ^ 27 := h
  have hone : (1 : Word).toNat = 1 := rfl
  have hcount : (k.gProcessCount + 1).toNat = k.gProcessCount.toNat + 1 := by
    rw [BitVec.toNat_add, hone]
    omega
  have habs : (k.absProcessCount + 1).toNat = k.absProcessCount.toNat + 1 := by
    rw [BitVec.toNat_add, hone]
    omega
  rw [pidBirth, Kernel.nextPid, toNat_shift_or (by omega), hcount, habs]
  omega

/-- **The numbers an entry gives**: SYS1 gives the next one to the new block, and nothing else
counts. -/
theorem Ready.numbers {c : Config maxProc} {ev : Event} (h : Ready M c) (htake : CanTake c ev)
    (hlive : (JaeOS.step M c ev).stop.Live) :
    ((c.k.atEntry M ev).born M ev.entry = none ∧
      (JaeOS.step M c ev).k.absProcessCount = c.k.absProcessCount) ∨
    ∃ b x, (c.k.atEntry M ev).born M ev.entry = some b ∧ (JaeOS.step M c ev).stop = .ldst x ∧
      x.a1 = c.k.nextPid ∧ ((JaeOS.step M c ev).k.pcb b).pPid = c.k.nextPid ∧
      (JaeOS.step M c ev).k.absProcessCount = c.k.absProcessCount + 1 := by
  cases hborn : (c.k.atEntry M ev).born M ev.entry with
  | none =>
    refine .inl ⟨rfl, ?_⟩
    by_cases hcall : ev.entry.Sys M createProcessNr
    · obtain ⟨p, hp⟩ := h.caller htake hcall
      have hp' : (c.k.atEntry M ev).gCurrentProcess = some p := hp
      by_cases hroom : (c.k.atEntry M ev).gProcessCount.toNat < maxProc
      · obtain ⟨b, x, hb, -⟩ := runToStop_of_wp (wp_handler_create hp' hcall hroom) hlive
        rw [born_of_sys hp' hcall, hb] at hborn
        cases hborn
      · exact runToStop_of_wp (wp_handler_create_full hp' hcall hroom)
    · exact (h.step htake hlive).abs hcall
  | some b =>
    obtain ⟨hcall, hroom⟩ := sys_of_born hborn
    obtain ⟨p, hp⟩ := h.caller htake hcall
    have hp' : (c.k.atEntry M ev).gCurrentProcess = some p := hp
    obtain ⟨b', x, hb', hx, ha1, habs, hpid, -⟩ :=
      runToStop_of_wp (wp_handler_create hp' hcall hroom) hlive
    obtain rfl : b = b' := by
      rw [born_of_sys hp' hcall] at hborn
      exact Option.some.inj (hborn.symm.trans hb')
    exact .inr ⟨b, x, rfl, hx, ha1, hpid, habs⟩

theorem Kernel.not_dies_of_born {q : Fin n} (h : k.born M e = some b) : ¬ k.Dies M e q := by
  rintro ⟨root, hroot, -⟩
  rw [Kernel.born, hroot] at h
  cases h

/-- SYS2 with a pid asks for the end of what the search finds. -/
theorem task_of_terminate (hp : k.gCurrentProcess = some p)
    (he : (Entry.sysBP old).Sys M terminateProcessNr) :
    k.task M (.sysBP old) = k.killTask p old.a2 := by
  rw [task_of_sys hp he (by decide), Kernel.sysTask, if_neg (by rw [he.2.2]; decide),
    if_pos he.2.2]

/-- **SYS2 ends the progeny of the one process with the pid**, if the search gets there. -/
theorem dies_of_terminate (ht : TreeRep k.toTree kids) (hp : k.gCurrentProcess = some p)
    (he : (Entry.sysBP old).Sys M terminateProcessNr) (hpid : old.a2 ≠ 0)
    (hb : ∀ d, k.Below p d → (k.pcb d).pPid = old.a2 → d = b) (q : Fin n) :
    k.Dies M (.sysBP old) q ↔
      ((k.pcb b).pPid = old.a2 ∧ Searched kids p b) ∧ Progeny k.pParent b q := by
  obtain ⟨r, hr, hfound, hnone⟩ := ht.childByPid_search old.a2 (n + 1) p (by
    obtain ⟨S, hS, hcard⟩ : Forest.SizeLE k.pParent p _ := Forest.sizeLE_card
    rw [Fintype.card_fin] at hcard
    exact ⟨S, hS, by omega⟩)
  have htarget : k.target p old.a2 = r := by
    rw [Kernel.target, if_neg hpid, hr, Option.join_some]
    split_ifs with hempty
    · cases r with
      | none => rfl
      | some d => exact absurd ((hfound d rfl).2.below ht) (ht.not_below hempty)
    · rfl
  rw [Kernel.Dies, task_of_terminate hp he, Kernel.killTask, htarget]
  cases r with
  | none =>
    refine iff_of_false ?_ ?_
    · rintro ⟨root, hroot, -⟩
      cases hroot
    · rintro ⟨⟨hbpid, hbs⟩, -⟩
      exact hnone rfl b hbs hbpid
  | some d =>
    obtain ⟨hdpid, hds⟩ := hfound d rfl
    obtain rfl : d = b := hb d (hds.below ht) hdpid
    refine ⟨?_, fun hq => ⟨d, rfl, hq.2⟩⟩
    rintro ⟨root, hroot, hq⟩
    obtain rfl := Task.kill.inj hroot
    exact ⟨⟨hdpid, hds⟩, hq⟩

/-! ### Runs -/

/-- A run in which the numbers last, with those of the processes of its beginning that have
lived all the time. -/
inductive Elders (M : Machine) (c₀ : Config maxProc) (L₀ : Set (Fin maxProc)) :
    Config maxProc → Set (Fin maxProc) → Set (Fin maxProc) → Prop
  | refl : Elders M c₀ L₀ c₀ L₀ L₀
  | step {c : Config maxProc} {L elder : Set (Fin maxProc)} {ev : Event}
      (h : Elders M c₀ L₀ c L elder) (htake : CanTake c ev)
      (hok : (c.k.atEntry M ev).Admits M ev.entry ∧ (c.k.atEntry M ev).PidsLeft) :
      Elders M c₀ L₀ (step M c ev)
        {q | (q ∈ L ∨ (c.k.atEntry M ev).born M ev.entry = some q) ∧
          ¬ (c.k.atEntry M ev).Dies M ev.entry q}
        {q | q ∈ elder ∧ ¬ (c.k.atEntry M ev).Dies M ev.entry q}

variable {c c₀ c' : Config maxProc} {L L₀ L' elder : Set (Fin maxProc)} {ev : Event} {y : ProcState}
  {b : Fin maxProc}

theorem Reaches.admits (h : Reaches M (fun k e => k.Admits M e ∧ k.PidsLeft) c L) :
    Reaches M (fun k e => k.Admits M e) c L := by
  induction h with
  | boot => exact .boot
  | step _ htake hok ih => exact ih.step htake hok.1

theorem Elders.reaches (h : Elders M c₀ L₀ c L elder)
    (h₀ : Reaches M (fun k e => k.Admits M e ∧ k.PidsLeft) c₀ L₀) :
    Reaches M (fun k e => k.Admits M e ∧ k.PidsLeft) c L := by
  induction h with
  | refl => exact h₀
  | step _ htake hok ih => exact ih.step htake hok

/-- The pids of the live processes: from different creations that have been counted. -/
structure Named (c : Config maxProc) (live : Set (Fin maxProc)) : Prop where
  counted : ∀ q ∈ live, pidBirth (c.k.pcb q).pPid ≤ c.k.absProcessCount.toNat
  once : ∀ q ∈ live, ∀ r ∈ live, pidBirth (c.k.pcb q).pPid = pidBirth (c.k.pcb r).pPid → q = r

/-- The pids behind an entry: those that live keep theirs, and a new process gets the next. -/
structure Renames (c c' : Config maxProc) (live : Set (Fin maxProc)) (born : Option (Fin maxProc)) :
    Prop where
  keep : ∀ q ∈ live, (c'.k.pcb q).pPid = (c.k.pcb q).pPid
  next : ∀ b, born = some b →
    pidBirth (c'.k.pcb b).pPid = c.k.absProcessCount.toNat + 1 ∧
    c'.k.absProcessCount.toNat = c.k.absProcessCount.toNat + 1
  count : c.k.absProcessCount.toNat ≤ c'.k.absProcessCount.toNat

/-- **The pids behind an entry.** -/
theorem Reaches.renames (hL : Layout M)
    (h : Reaches M (fun k e => k.Admits M e ∧ k.PidsLeft) c L) (htake : CanTake c ev)
    (hleft : (c.k.atEntry M ev).PidsLeft) (hlive : (JaeOS.step M c ev).stop.Live) :
    Renames c (JaeOS.step M c ev) L ((c.k.atEntry M ev).born M ev.entry) := by
  obtain ⟨σ, hb⟩ := h.admits.exists_between hL
  have hkeep : ∀ q ∈ L, ((JaeOS.step M c ev).k.pcb q).pPid = (c.k.pcb q).pPid := fun q hq =>
    ((reaches_ready h).step htake hlive).pid q (fun hborn => hb.born_free hborn hq)
  rcases (reaches_ready h).numbers htake hlive with ⟨hborn, habs⟩ | ⟨b, x, hborn, -, -, hpid, habs⟩
  · refine ⟨hkeep, fun b hsome => ?_, by rw [habs]⟩
    rw [hborn] at hsome
    cases hsome
  · have hless : c.k.absProcessCount.toNat + 1 < 2 ^ 27 := hleft
    have hnext : (JaeOS.step M c ev).k.absProcessCount.toNat = c.k.absProcessCount.toNat + 1 := by
      have hone : (1 : Word).toNat = 1 := rfl
      rw [habs, BitVec.toNat_add, hone]
      omega
    refine ⟨hkeep, fun b' hsome => ?_, by omega⟩
    obtain rfl := Option.some.inj (hsome.symm.trans hborn)
    refine ⟨?_, hnext⟩
    rw [hpid]
    exact Kernel.nextPid_birth (k := c.k.atEntry M ev) hleft (sys_of_born hborn).2

/-- **One entry keeps the names.** -/
theorem Named.step {live' : Set (Fin maxProc)} {born : Option (Fin maxProc)} (h : Named c L)
    (hr : Renames c c' L born) (hlive : ∀ q ∈ live', q ∈ L ∨ born = some q) : Named c' live' := by
  have hold : ∀ q ∈ L, pidBirth (c'.k.pcb q).pPid = pidBirth (c.k.pcb q).pPid ∧
      pidBirth (c'.k.pcb q).pPid ≤ c.k.absProcessCount.toNat := by
    intro q hq
    rw [hr.keep q hq]
    exact ⟨rfl, h.counted q hq⟩
  refine ⟨fun q hq => ?_, fun q hq r hr' heq => ?_⟩
  · rcases hlive q hq with hqL | hborn
    · exact (hold q hqL).2.trans hr.count
    · obtain ⟨hbirth, hcount⟩ := hr.next q hborn
      omega
  · -- an old pid is not the new one
    rcases hlive q hq with hqL | hqb
    · obtain ⟨hq', hqle⟩ := hold q hqL
      rcases hlive r hr' with hrL | hrb
      · obtain ⟨hr'', -⟩ := hold r hrL
        exact h.once q hqL r hrL (hq'.symm.trans (heq.trans hr''))
      · obtain ⟨hbirth, -⟩ := hr.next r hrb
        omega
    · obtain ⟨hbirth, -⟩ := hr.next q hqb
      rcases hlive r hr' with hrL | hrb
      · obtain ⟨-, hrle⟩ := hold r hrL
        omega
      · exact Option.some.inj (hqb.symm.trans hrb)

/-- **Live processes have different pids.** -/
theorem Reaches.named (hL : Layout M) (h : Reaches M (fun k e => k.Admits M e ∧ k.PidsLeft) c L)
    (hlive : c.stop.Live) : Named c L := by
  induction h with
  | boot =>
    refine ⟨fun q _ => ?_, fun q hq r hr _ => hq.trans hr.symm⟩
    rcases (booted_boot hlive).pid q with hpid | hpid
    all_goals
      rw [hpid]
      exact Nat.zero_le _
  | step h htake hok ih =>
    exact (ih htake.live).step (h.renames hL htake hok.2 hlive) (fun q hq => hq.1)

theorem Elders.subset (h : Elders M c₀ L₀ c L elder) : elder ⊆ L₀ ∧ elder ⊆ L := by
  induction h with
  | refl => exact ⟨subset_rfl, subset_rfl⟩
  | step _ _ _ ih => exact ⟨fun q hq => ih.1 hq.1, fun q hq => ⟨.inl (ih.2 hq.1), hq.2⟩⟩

/-- The elders keep their pids, and everybody else is from a later creation. -/
structure Aged (c₀ c : Config maxProc) (live elder : Set (Fin maxProc)) : Prop where
  pid : ∀ q ∈ elder, (c.k.pcb q).pPid = (c₀.k.pcb q).pPid
  later : ∀ q ∈ live, q ∉ elder → c₀.k.absProcessCount.toNat < pidBirth (c.k.pcb q).pPid
  count : c₀.k.absProcessCount.toNat ≤ c.k.absProcessCount.toNat

theorem Elders.aged (hL : Layout M) (h₀ : Reaches M (fun k e => k.Admits M e ∧ k.PidsLeft) c₀ L₀)
    (h : Elders M c₀ L₀ c L elder) (hlive : c.stop.Live) : Aged c₀ c L elder := by
  induction h with
  | refl => exact ⟨fun _ _ => rfl, fun q hq hnot => absurd hq hnot, le_rfl⟩
  | @step c L elder ev hrest htake hok ih =>
    have ih := ih htake.live
    have hr := (hrest.reaches h₀).renames hL htake hok.2 hlive
    refine ⟨fun q hq => ?_, fun q hq hnot => ?_, ih.count.trans hr.count⟩
    · exact (hr.keep q (hrest.subset.2 hq.1)).trans (ih.pid q hq.1)
    · rcases hq.1 with hqL | hborn
      · rw [hr.keep q hqL]
        exact ih.later q hqL (fun helder => hnot ⟨helder, hq.2⟩)
      · obtain ⟨hbirth, -⟩ := hr.next q hborn
        rw [hbirth]
        exact Nat.lt_succ_of_le ih.count

/-- **A pid names one process for ever.**  When SYS1 has created a process and returned a pid,
then at any later time the live processes have different pids, and the one that has this
pid, if there is one, is the process created then, which has lived all the time; and
TERMINATEPROCESS with this pid ends this process, if it still lives and the search from the
caller gets to it, with its progeny, and nobody else. -/
theorem pid_names (hL : Layout M) (h : Reaches M (fun k e => k.Admits M e ∧ k.PidsLeft) c L)
    (htake : CanTake c ev)
    (hok : (c.k.atEntry M ev).Admits M ev.entry ∧ (c.k.atEntry M ev).PidsLeft)
    (hborn : (c.k.atEntry M ev).born M ev.entry = some b) (hy : (step M c ev).stop = .ldst y)
    (hrun : Elders M (step M c ev) {q | (q ∈ L ∨ (c.k.atEntry M ev).born M ev.entry = some q) ∧
      ¬ (c.k.atEntry M ev).Dies M ev.entry q} c' L' elder) (hlive : c'.stop.Live) :
    (∀ q ∈ L', ∀ r ∈ L', (c'.k.pcb q).pPid = (c'.k.pcb r).pPid → q = r) ∧
    (∀ q, q ∈ L' ∧ (c'.k.pcb q).pPid = y.a1 ↔ q = b ∧ b ∈ elder) ∧
    ∀ ev' old p kids, CanTake c' ev' → c'.k.gCurrentProcess = some p → ev'.entry = .sysBP old →
      ev'.entry.Sys M terminateProcessNr → old.a2 = y.a1 → TreeRep c'.k.toTree kids →
      ∀ q, (c'.k.atEntry M ev').Dies M ev'.entry q ↔
        (b ∈ elder ∧ Searched kids p b) ∧ Progeny c'.k.pParent b q := by
  have h₁ := h.step htake hok
  have h' := hrun.reaches h₁
  have hnamed := h'.named hL hlive
  have haged := hrun.aged hL h₁ hlive
  have hlive₁ : (step M c ev).stop.Live := .inl ⟨y, hy⟩
  have hpid : ((step M c ev).k.pcb b).pPid = y.a1 := by
    rcases (reaches_ready h).numbers htake hlive₁ with ⟨hnone, -⟩ | ⟨b', x, hb', hx, ha1, hpid, -⟩
    · rw [hborn] at hnone
      cases hnone
    · obtain rfl := Option.some.inj (hborn.symm.trans hb')
      obtain rfl := Stop.ldst.inj (hy.symm.trans hx)
      exact hpid.trans ha1.symm
  obtain ⟨hbirth, hcount⟩ := (h.renames hL htake hok.2 hlive₁).next b hborn
  rw [hpid] at hbirth
  have hnamed₁ := h₁.named hL hlive₁
  have hmine : ∀ q, q ∈ L' ∧ (c'.k.pcb q).pPid = y.a1 ↔ q = b ∧ b ∈ elder := by
    intro q
    constructor
    · rintro ⟨hq, hqpid⟩
      have helder : q ∈ elder := by
        by_contra hnot
        have hlater := haged.later q hq hnot
        rw [hqpid] at hlater
        omega
      have hqb : q = b := by
        refine hnamed₁.once q (hrun.subset.1 helder) b ⟨.inr hborn, Kernel.not_dies_of_born hborn⟩ ?_
        rw [← haged.pid q helder, hqpid, hpid]
      subst hqb
      exact ⟨rfl, helder⟩
    · rintro ⟨rfl, helder⟩
      exact ⟨hrun.subset.2 helder, (haged.pid q helder).trans hpid⟩
  refine ⟨fun q hq r hr heq => hnamed.once q hq r hr (by rw [heq]), hmine, ?_⟩
  intro ev' old p kids htake' hp hold hcall ha2 ht q
  have hbelow : ∀ d, c'.k.Below p d → d ∈ L' := by
    intro d hd
    obtain ⟨σ, hb⟩ := h'.admits.exists_between hL
    by_contra hnot
    have hfree : σ.view.place d = .free := by
      by_contra hne
      exact hnot ((hb.live d).mp hne)
    have horphan := (hb.consistent.rooted d hfree).1
    rw [hb.core] at horphan
    exact hd.pParent_ne_none horphan
  rw [hold] at hcall ⊢
  have hne : old.a2 ≠ 0 := by
    intro hzero
    have hz : pidBirth 0 = 0 := rfl
    rw [← ha2, hzero] at hbirth
    omega
  rw [dies_of_terminate (k := c'.k.atEntry M ev') (b := b) ht hp hcall hne (fun d hd hdpid =>
    ((hmine d).mp ⟨hbelow d hd, hdpid.trans ha2⟩).1)]
  refine and_congr_left (fun _ => and_congr_left (fun hs => ?_))
  rw [ha2]
  refine ⟨fun hbpid => ((hmine b).mp ⟨hbelow b (hs.below ht), hbpid⟩).2, fun helder => ?_⟩
  exact ((hmine b).mpr ⟨rfl, helder⟩).2

/-- The first process creates another one, ends it and creates a third one: the pid of the
second one is good for the end of it, and then for nothing. -/
theorem pid_names_twice : ∃ (c₁ c₃ : Config maxProc) (ev : Event) (b : Fin maxProc),
    CanTake c₁ ev ∧ CanTake c₃ ev ∧ (c₁.k.atEntry uarm ev).Dies uarm ev.entry b ∧
      c₃.k.gProcessCount = 2 ∧ ∀ q, ¬ (c₃.k.atEntry uarm ev).Dies uarm ev.entry q := by
  let b : Fin maxProc := ⟨1, by decide⟩
  let create : Event := sys createProcessNr 0 0 0
  let kill : Event := sys terminateProcessNr 66 0 0
  let c₁ : Config maxProc := step uarm (boot uarm) create
  let c₂ : Config maxProc := step uarm c₁ kill
  let c₃ : Config maxProc := step uarm c₂ create
  have htake₀ : CanTake (boot uarm : Config maxProc) create :=
    Config.canTake_iff.mp (by decide +kernel)
  have htake₁ : CanTake c₁ kill := Config.canTake_iff.mp (by decide +kernel)
  have htake₂ : CanTake c₂ create := Config.canTake_iff.mp (by decide +kernel)
  have htake₃ : CanTake c₃ kill := Config.canTake_iff.mp (by decide +kernel)
  have hok₀ : ((boot uarm : Config maxProc).k.atEntry uarm create).Admits uarm create.entry ∧
      ((boot uarm : Config maxProc).k.atEntry uarm create).PidsLeft :=
    ⟨.of_tame (by decide +kernel), by decide +kernel⟩
  have hok₁ : (c₁.k.atEntry uarm kill).Admits uarm kill.entry ∧ (c₁.k.atEntry uarm kill).PidsLeft :=
    ⟨.of_tame (by decide +kernel), by decide +kernel⟩
  have hok₂ : (c₂.k.atEntry uarm create).Admits uarm create.entry ∧
      (c₂.k.atEntry uarm create).PidsLeft := ⟨.of_tame (by decide +kernel), by decide +kernel⟩
  have hborn : ((boot uarm : Config maxProc).k.atEntry uarm create).born uarm create.entry =
      some b := by decide +kernel
  obtain ⟨y, hy, hpid⟩ : ∃ y, c₁.stop = .ldst y ∧ y.a1 = 66 := by
    obtain ⟨y, hy⟩ := htake₁.resolve_right (fun h => absurd h.2 (by decide))
    refine ⟨y, hy, ?_⟩
    have hread : (match c₁.stop with | .ldst y => y.a1 | _ => 0) = 66 := by decide +kernel
    rw [hy] at hread
    exact hread
  have hcall : kill.entry.Sys uarm terminateProcessNr := ⟨by decide, by decide, rfl⟩
  have hcur₁ : c₁.k.gCurrentProcess = some proc0 := by decide +kernel
  have hcur₃ : c₃.k.gCurrentProcess = some proc0 := by decide +kernel
  have hcount : c₃.k.gProcessCount = 2 := by decide +kernel
  have hchildren : c₁.k.pChildren proc0 = some b := by decide +kernel
  have hsiblings : c₁.k.pSiblings b = some b := by decide +kernel
  have h₁ : Reaches uarm (fun k e => k.Admits uarm e ∧ k.PidsLeft) c₁ _ :=
    .step .boot htake₀ hok₀
  obtain ⟨-, -, hends₁⟩ := pid_names layout_uarm .boot htake₀ hok₀ hborn hy .refl htake₁.live
  have hdies : (c₁.k.atEntry uarm kill).Dies uarm kill.entry b := by
    obtain ⟨σ, hb⟩ := h₁.admits.exists_between layout_uarm
    obtain ⟨kids, ht⟩ := hb.consistent.tree
    rw [hb.core] at ht
    have hkids : kids proc0 = [b] := ht.only_child hchildren hsiblings
    have hparent : c₁.k.pParent b = some proc0 := (ht.parent proc0 b).mp (by simp [hkids])
    refine (hends₁ kill _ proc0 kids htake₁ hcur₁ rfl hcall hpid.symm ht b).mpr ⟨⟨?_, ?_⟩, .refl⟩
    · exact ⟨.inr hborn, Kernel.not_dies_of_born hborn⟩
    · exact .single ⟨[], [], hkids, by simp⟩
  have h₃ := (h₁.step htake₁ hok₁).step htake₂ hok₂
  obtain ⟨-, -, hends₃⟩ := pid_names layout_uarm .boot htake₀ hok₀ hborn hy
    ((Elders.refl.step htake₁ hok₁).step htake₂ hok₂) htake₃.live
  refine ⟨c₁, c₃, kill, b, htake₁, htake₃, hdies, hcount, fun q hq => ?_⟩
  obtain ⟨σ, hb⟩ := h₃.admits.exists_between layout_uarm
  obtain ⟨kids, ht⟩ := hb.consistent.tree
  rw [hb.core] at ht
  obtain ⟨⟨helder, -⟩, -⟩ :=
    (hends₃ kill _ proc0 kids htake₃ hcur₃ rfl hcall hpid.symm ht q).mp hq
  exact helder.1.2 hdies

end JaeOS
