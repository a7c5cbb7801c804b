import JaeOS.Properties.SemopRuns
import JaeOS.Refine.Rest

/-!
# The first waiter of a queue

Between two operations the first waiter of a semaphore asks for more than there is: a `P` joins the
queue behind it, and a `V` serves the queue until this holds.  When a waiter is terminated nobody
looks at the queue, so that a smaller request behind it can be left waiting for units that are
there.
-/

namespace JaeOS

open Forest (Progeny)

variable {n : ℕ} {M : Machine} {A : Set Word} {k k' k₀ : Kernel maxProc} {σ σ' σ₀ : Snap maxProc}
  {a b w : Word} {p q root : Fin maxProc}

/-! ### The property -/

/-- The first waiter asks for more than there is. -/
def NoneStranded (A : Set Word) (k : Kernel n) : Prop :=
  ∀ a ∈ A, ∀ q, k.First a q → (k.mem a).toInt < (k.resRequested q).toNat

/-- The runs of calls and terminations from `k₀`, while no value overflows and the terminations
are `ok`. -/
inductive SemKills (M : Machine) (A : Set Word) (ok : Kernel maxProc → Task maxProc → Prop)
    (k₀ : Kernel maxProc) : Kernel maxProc → Prop
  | start : SemKills M A ok k₀ k₀
  | turn {k k' : Kernel maxProc} (h : SemKills M A ok k₀ k) (hs : Switch k k') :
      SemKills M A ok k₀ k'
  | call {k k' : Kernel maxProc} {a w : Word} {p : Fin maxProc} (h : SemKills M A ok k₀ k)
      (ha : a ∈ A) (hp : k.gCurrentProcess = some p)
      (hmax : 0 < w.toInt → (k.mem a).toInt + w.toInt ≤ 2147483647)
      (hrun : semop M a w k = .ok () k') : SemKills M A ok k₀ k'
  | kill {k k' : Kernel maxProc} {pid : Word} {p : Fin maxProc} (h : SemKills M A ok k₀ k)
      (hp : k.gCurrentProcess = some p) (hok : ok k (k.killTask p pid))
      (hrun : terminateProcess M pid k = .ok () k') : SemKills M A ok k₀ k'

/-- When the first waiters of a queue are terminated, the next one asks for more than there is. -/
def Kernel.StrandsNobody (k : Kernel n) (A : Set Word) (t : Task n) : Prop :=
  ∀ root, t = .kill root → ∀ a ∈ A, ∀ d xs q ys, k.sSemAdd d = a →
    k.Queue (.sProcq d) (xs ++ q :: ys) → xs ≠ [] → (∀ x ∈ xs, Progeny k.pParent root x) →
    ¬ Progeny k.pParent root q → (k.mem a).toInt < (k.resRequested q).toNat

/-! ### The invariant -/

/-- The semaphores of `A` between two operations. -/
structure Standing (A : Set Word) (k : Kernel maxProc) (σ : Snap maxProc) : Prop where
  paused : Paused k σ
  nonneg : ∀ a ∈ A, 0 ≤ (k.mem a).toInt
  blocked : ∀ a ∈ A, (σ.fifo .none a).Blocked

namespace Standing

theorem mem (h : Standing A k σ) (a : Word) : σ.core.mem a = k.mem a := by
  rw [h.paused.core]
  rfl

/-- **The property** follows from the invariant. -/
theorem noneStranded (h : Standing A k σ) : NoneStranded A k := by
  intro a ha q hq
  obtain ⟨s, hs⟩ := hq
  rw [(Snap.owned_of_core h.paused.core).run_headBlocked a] at hs
  have hfirst : (σ.waiting a).head? = some q := congrArg Prod.fst (Option.some.inj hs)
  have hlt := h.blocked a ha (σ.core.request q) (by
    rw [Snap.fifo, List.head?_map, hfirst]
    rfl)
  have hlt' : (σ.core.mem a).toNat < (σ.core.resRequested q).toNat := hlt
  rw [h.paused.core] at hlt'
  obtain ⟨hv, -⟩ := toInt_of_nonneg (h.nonneg a ha)
  rw [hv]
  exact_mod_cast hlt'

theorem same (h : Standing A k σ) (hs : Paused k' σ') (hsame : σ.SameAt σ' a) (ha : a ∈ A) :
    0 ≤ (k'.mem a).toInt ∧ (σ'.fifo .none a).Blocked := by
  refine ⟨?_, ?_⟩
  · have hv := hsame.value
    rw [hs.core, h.mem] at hv
    rw [show k'.mem a = k.mem a from hv]
    exact h.nonneg a ha
  · rw [hsame.fifo]
    exact h.blocked a ha

theorem quiet (h : Standing A k σ) (hs : Paused k' σ') (hsame : ∀ a, σ.SameAt σ' a) :
    Standing A k' σ' :=
  ⟨hs, fun a ha => (h.same hs (hsame a) ha).1, fun a ha => (h.same hs (hsame a) ha).2⟩

theorem signal (h : Standing A k σ) (ha : a ∈ A) (hs : Paused k' σ') (hd : Signal M a w σ σ')
    (hw : 0 < w.toInt) (hmax : (k.mem a).toInt + w.toInt ≤ 2147483647) :
    0 ≤ (k'.mem a).toInt ∧ (σ'.fifo .none a).Blocked := by
  obtain ⟨hvint, -⟩ := toInt_of_nonneg (h.nonneg a ha)
  obtain ⟨hwint, -⟩ := toInt_of_nonneg hw.le
  have hfifo := hd.fifo (h := .none) (by rw [h.mem]; omega)
  refine ⟨?_, ?_⟩
  · have hle := FifoSem.value_signal_le (σ.fifo .none a) w.toNat
    rw [← hfifo] at hle
    change (σ'.core.mem a).toNat ≤ (σ.core.mem a).toNat + w.toNat at hle
    rw [hs.core, h.mem] at hle
    have hle' : (k'.mem a).toNat ≤ (k.mem a).toNat + w.toNat := hle
    have hint : (k'.mem a).toInt = (k'.mem a).toNat := BitVec.toInt_eq_toNat_of_lt (by omega)
    omega
  · have hblocked := FifoSem.blocked_signal (σ.fifo .none a) w.toNat
    rw [← hfifo] at hblocked
    exact hblocked

theorem grant (p : Fin maxProc) (h : Standing A k σ) (ha : a ∈ A) (hs : Paused k' σ')
    (hd : Grant a w σ σ') (hw : w.toInt < 0) :
    0 ≤ (k'.mem a).toInt ∧ (σ'.fifo .none a).Blocked := by
  refine ⟨?_, ?_⟩
  · have hmem : σ'.core.mem a = σ.core.mem a + w := by
      rw [hd.core]
      dsimp only
      rw [Function.update_self, BitVec.sub_neg]
    have henough := hd.enough
    rw [← hmem, hs.core] at henough
    exact henough
  · have hblocked := (h.blocked a ha).wait p (-w).toNat
    rw [← hd.fifo (by rw [h.mem]; exact h.nonneg a ha) hw] at hblocked
    exact hblocked

theorem block (h : Standing A k σ) (ha : a ∈ A) (hs : Paused k' σ') (hd : Block M a w p σ σ')
    (hw : w.toInt < 0) : 0 ≤ (k'.mem a).toInt ∧ (σ'.fifo .none a).Blocked := by
  refine ⟨?_, ?_⟩
  · have hmem := hd.mem
    rw [hs.core, h.paused.core] at hmem
    rw [show k'.mem a = k.mem a from congrFun hmem a]
    exact h.nonneg a ha
  · have hblocked := (h.blocked a ha).wait p (-w).toNat
    rw [← hd.fifo (by rw [h.mem]; exact h.nonneg a ha) hw] at hblocked
    exact hblocked

theorem call (p : Fin maxProc) (h : Standing A k σ) (ha : a ∈ A) (hs : Paused k' σ')
    (hd : Does M (.semop a w) σ σ')
    (hmax : 0 < w.toInt → (k.mem a).toInt + w.toInt ≤ 2147483647) : Standing A k' σ' := by
  have hall : ∀ b ∈ A, 0 ≤ (k'.mem b).toInt ∧ (σ'.fifo .none b).Blocked := by
    intro b hb
    by_cases hba : b = a
    · subst hba
      cases hd with
      | signal hw hd => exact h.signal ha hs hd hw (hmax hw)
      | grant hw hd => exact h.grant p ha hs hd hw
      | block hw hd => exact h.block ha hs hd hw
    · exact h.same hs (hd.semop_sameAt h.paused.consistent hba) hb
  exact ⟨hs, fun b hb => (hall b hb).1, fun b hb => (hall b hb).2⟩

end Standing

/-! ### Terminations -/

/-- The first survivor of a queue, with those before him. -/
theorem Releases.exists_first {ds : List (Fin maxProc)} (h : Releases M ds σ σ')
    (hq : (σ'.waiting a).head? = some q) : ∃ xs ys, σ.waiting a = xs ++ q :: ys ∧
      (∀ x ∈ xs, x ∈ ds) ∧ q ∉ ds := by
  have hwaiting : σ'.waiting a = (σ.waiting a).filter (· ∉ ds) := h.list (by simp)
  rw [hwaiting, List.head?_filter] at hq
  obtain ⟨hstays, xs, ys, hlist, hgone⟩ := List.find?_eq_some_iff_append.mp hq
  exact ⟨xs, ys, hlist, fun x hx => by simpa using hgone x hx, by simpa using hstays⟩

theorem Paused.exists_queue (h : Paused k σ) (hq : q ∈ σ.waiting a) :
    ∃ d, k.sSemAdd d = a ∧ k.Queue (.sProcq d) (σ.waiting a) := by
  have howned := Snap.owned_of_core h.core
  obtain ⟨d, hd, hadd, -⟩ := howned.blocked.exists_cursem hq
  have hqueue := howned.blocked.procq d hd
  rw [hadd] at hqueue
  exact ⟨d, hadd, hqueue⟩

theorem Paused.first {d : Semd} {xs : List (Fin maxProc)} (h : Paused k σ)
    (hxs : k.Queue (.sProcq d) (q :: xs)) : k.First (k.sSemAdd d) q := by
  have howned := Snap.owned_of_core h.core
  obtain ⟨hplace, hcs⟩ := (Snap.queued_iff h.core).mp ⟨_, hxs, List.mem_cons_self⟩
  obtain ⟨d', hd', -, hcs'⟩ := howned.blocked.exists_cursem ((σ.view.mem _ q).mpr hplace)
  obtain rfl : d' = d := Option.some.inj (hcs'.symm.trans hcs)
  have hlist : q :: xs = σ.view.list (.sem (k.sSemAdd d')) :=
    hxs.unique (howned.blocked.procq d' hd')
  refine ⟨k.toQueues, ?_⟩
  rw [howned.run_headBlocked, ← hlist]
  rfl

/-- **A termination** keeps the invariant if nobody is stranded. -/
theorem Standing.kill (h : Standing A k σ) (hs : Paused k' σ') (hd : Terminate M root σ σ')
    (hnobody : k.StrandsNobody A (.kill root)) : Standing A k' σ' := by
  obtain ⟨ds, -, hds, hrel⟩ := hd.releases
  rw [Snap.pParent_eq h.paused.core] at hds
  have hmem : k'.mem = k.mem := by
    have := hrel.mem
    rw [hs.core, h.paused.core] at this
    exact this
  refine ⟨hs, fun a ha => ?_, fun a ha x hx => ?_⟩
  · rw [hmem]
    exact h.nonneg a ha
  rw [Snap.fifo, List.head?_map, Option.mem_map] at hx
  obtain ⟨q, hq, rfl⟩ := hx
  change (σ'.core.mem a).toNat < (σ'.core.resRequested q).toNat
  rw [hrel.resRequested, hrel.mem]
  obtain ⟨xs, ys, hlist, hgone, hstays⟩ := hrel.exists_first hq
  cases xs with
  | nil =>
    refine h.blocked a ha (σ.core.request q) ?_
    rw [Snap.fifo, hlist]
    rfl
  | cons x xs =>
    have hwaits : q ∈ σ.waiting a := by simp [hlist]
    obtain ⟨d, hadd, hqueue⟩ := h.paused.exists_queue hwaits
    rw [hlist] at hqueue
    have hlt := hnobody root rfl a ha d (x :: xs) q ys hadd hqueue (by simp)
      (fun y hy => (hds y).mp (hgone y hy)) (fun hq' => hstays ((hds q).mpr hq'))
    obtain ⟨hv, -⟩ := toInt_of_nonneg (h.nonneg a ha)
    rw [hv] at hlt
    rw [h.paused.core]
    exact_mod_cast hlt

/-! ### Runs -/

/-- **A termination that returns** has done what it is for. -/
theorem Paused.terminateProcess {pid : Word} (h : Paused k σ) (hp : k.gCurrentProcess = some p)
    (hf : k.Fresh (k.killTask p pid)) (hrun : JaeOS.terminateProcess M pid k = .ok () k') :
    ∃ σ', Paused k' σ' ∧ Does M (k.killTask p pid) σ σ' := by
  have hwp : wp (JaeOS.terminateProcess M pid)
      (fun _ k' => ∃ σ', Paused k' σ' ∧ Does M (k.killTask p pid) σ σ') (fun _ _ => True) k := by
    refine wp_terminateProcess_done h.core h.consistent hp hf (fun k' hd _ => ?_)
    obtain ⟨σ', hσ', hc', hdoes, -⟩ := hd
    exact ⟨σ', ⟨hσ', hc'⟩, hdoes⟩
  rw [wp, hrun] at hwp
  exact hwp

/-- The terminations that break no queue and leave nobody behind. -/
def Kernel.KillsRight (A : Set Word) (k : Kernel n) (t : Task n) : Prop :=
  k.Fresh t ∧ k.StrandsNobody A t

/-- **The invariant of the runs.** -/
theorem SemKills.standing (h : SemKills M A (Kernel.KillsRight A) k₀ k) (hs : Paused k₀ σ₀)
    (hA : ∀ a ∈ A, M.kernelData a = false ∧ 0 ≤ (k₀.mem a).toInt ∧ σ₀.waiting a = []) :
    ∃ σ, Standing A k σ := by
  induction h with
  | start =>
    refine ⟨σ₀, hs, fun a ha => (hA a ha).2.1, fun a ha x hx => ?_⟩
    rw [Snap.fifo, (hA a ha).2.2] at hx
    exact absurd hx (by simp)
  | turn _ hturn ih =>
    obtain ⟨σ, h⟩ := ih
    obtain ⟨σ', hs', -, hsame⟩ := hturn.paused h.paused
    exact ⟨σ', h.quiet hs' hsame⟩
  | @call k k' a w p _ ha hp hmax hrun ih =>
    obtain ⟨σ, h⟩ := ih
    obtain ⟨σ', hs', hdoes⟩ := h.paused.semop hp (hA a ha).1 hrun
    exact ⟨σ', h.call p ha hs' hdoes hmax⟩
  | @kill k k' pid p _ hp hok hrun ih =>
    obtain ⟨σ, h⟩ := ih
    obtain ⟨σ', hs', hdoes⟩ := h.paused.terminateProcess hp hok.1 hrun
    have hnobody := hok.2
    rw [Kernel.killTask] at hdoes hnobody
    cases htarget : k.target p pid with
    | none =>
      rw [htarget] at hdoes
      cases hdoes with
      | nothing => exact ⟨σ, h.quiet hs' (.refl σ)⟩
    | some root =>
      rw [htarget] at hdoes hnobody
      cases hdoes with
      | kill hd => exact ⟨σ', h.kill hs' hd hnobody⟩

/-- **No waiter is stranded** in a run in which no termination takes the first waiters of a queue
away from somebody who asks for no more than there is. -/
theorem semKills_noneStranded (hs : Paused k₀ σ₀)
    (hA : ∀ a ∈ A, M.kernelData a = false ∧ 0 ≤ (k₀.mem a).toInt ∧ σ₀.waiting a = [])
    (h : SemKills M A (Kernel.KillsRight A) k₀ k) : NoneStranded A k := by
  obtain ⟨σ, h⟩ := h.standing hs hA
  exact h.noneStranded

theorem first_of_run {k : Kernel n} {q : Fin n}
    (h : ((headBlocked a).run k.toQueues).map Prod.fst = some (some q)) : k.First a q := by
  obtain ⟨⟨_, s⟩, hs, rfl⟩ := Option.map_eq_some_iff.mp h
  exact ⟨s, hs⟩

/-! ### A stranded waiter -/

def Kernel.yielded (k : Kernel n) (p : Fin n) : Kernel n :=
  match (insertProcQ .gReadyQueue p).run k.toQueues with
  | some (_, s) => { k with toQueues := s, gCurrentProcess := none }
  | none => k

def Kernel.picked (k : Kernel n) (q : Fin n) : Kernel n :=
  match (outProcQ .gReadyQueue q).run k.toQueues with
  | some (_, s) => { k with toQueues := s, gCurrentProcess := some q }
  | none => k

theorem switch_yielded {k : Kernel n} {p : Fin n} (hp : k.gCurrentProcess = some p) :
    Switch k (k.yielded p) := .yield hp (run_insertProcQ ..) rfl

theorem switch_picked {k : Kernel n} {q : Fin n} (hidle : k.gCurrentProcess = none)
    (hq : ((outProcQ .gReadyQueue q).run k.toQueues).map Prod.fst = some (some q)) :
    Switch k (k.picked q) := by
  cases hrun : (outProcQ .gReadyQueue q).run k.toQueues with
  | none => simp [hrun] at hq
  | some x =>
    obtain ⟨r, s⟩ := x
    have hr : r = some q := by simpa [hrun] using hq
    subst hr
    refine .pick hidle hrun ?_
    rw [Kernel.picked, hrun]

/-- The first process with two children, which are ready. -/
def twoChildren : Kernel maxProc :=
  (step uarm (step uarm (boot uarm) (sys 1 0 0 0)) (sys 1 0 0 0)).k

theorem paused_twoChildren : ∃ σ, Paused twoChildren σ ∧ σ.waiting 0x20000 = [] := by
  have hfirst : Reaches uarm (fun k e => k.Admits uarm e) (step uarm (boot uarm) (sys 1 0 0 0)) _ :=
    .step .boot (Config.canTake_iff.mp (by decide +kernel))
      (Kernel.Admits.of_calm (by decide +kernel)).1
  have hsecond : Reaches uarm (fun k e => k.Admits uarm e)
      (step uarm (step uarm (boot uarm) (sys 1 0 0 0)) (sys 1 0 0 0)) _ :=
    hfirst.step (Config.canTake_iff.mp (by decide +kernel))
      (Kernel.Admits.of_calm (by decide +kernel)).1
  obtain ⟨σ, hb⟩ := hsecond.exists_between layout_uarm
  refine ⟨σ, ⟨hb.core, hb.consistent⟩, ?_⟩
  have hnone : ((headBlocked 0x20000).run twoChildren.toQueues).map Prod.fst = some none := by
    decide +kernel
  rw [twoChildren, (Snap.owned_of_core hb.core).run_headBlocked] at hnone
  exact List.head?_eq_none_iff.mp (Option.some.inj hnone)

theorem two_lt_maxProc : 2 < maxProc := by decide

/-- The children of the first process. -/
def firstChild : Fin maxProc := ⟨1, Nat.lt_of_succ_lt two_lt_maxProc⟩

def secondChild : Fin maxProc := ⟨2, two_lt_maxProc⟩

/-- The parent has signalled a semaphore once.  Its first child waits there for two units, the
second for one behind it. -/
def contended : Kernel maxProc :=
  let k₁ := after (semop uarm 0x20000 1) twoChildren
  let k₂ := (k₁.yielded proc0).picked firstChild
  let k₃ := (after (semop uarm 0x20000 (-2)) k₂).picked secondChild
  (after (semop uarm 0x20000 (-1)) k₃).picked proc0

theorem semKills_contended (ok : Kernel maxProc → Task maxProc → Prop) :
    SemKills uarm {0x20000} ok twoChildren contended := by
  have hstart : SemKills uarm {0x20000} ok twoChildren twoChildren := .start
  have hsignal := hstart.call (w := 1) (p := proc0) rfl (by decide +kernel)
    (fun _ => by decide +kernel) (run_after (by decide +kernel))
  have hfirst := (hsignal.turn (switch_yielded (p := proc0) (by decide +kernel))).turn
    (switch_picked (q := firstChild) (by decide +kernel) (by decide +kernel))
  have hwaits := (hfirst.call (w := -2) (p := firstChild) rfl (by decide +kernel)
    (fun hpos => absurd hpos (by decide)) (run_after (by decide +kernel))).turn
    (switch_picked (q := secondChild) (by decide +kernel) (by decide +kernel))
  have hlast := (hwaits.call (w := -1) (p := secondChild) rfl (by decide +kernel)
    (fun hpos => absurd hpos (by decide)) (run_after (by decide +kernel))).turn
    (switch_picked (q := proc0) (by decide +kernel) (by decide +kernel))
  exact hlast

theorem fresh_contended (t : Task maxProc) : contended.Fresh t := by
  rintro root - q - ⟨⟨xs, hxs, hq⟩, -⟩
  have hnil : contended.Queue .gReadyQueue [] := Clist.holds_nil (by decide +kernel)
  rw [hxs.unique hnil] at hq
  exact absurd hq (by simp)

/-- The parent terminates its first child, and the second waits for the unit that is there. -/
theorem not_noneStranded : ¬ ∀ (M : Machine) (A : Set Word) (k₀ k : Kernel maxProc)
    (σ₀ : Snap maxProc), Paused k₀ σ₀ →
    (∀ a ∈ A, M.kernelData a = false ∧ 0 ≤ (k₀.mem a).toInt ∧ σ₀.waiting a = []) →
    SemKills M A Kernel.Fresh k₀ k → NoneStranded A k := by
  intro hall
  obtain ⟨σ₀, hs, hwait⟩ := paused_twoChildren
  have hrun : SemKills uarm {0x20000} Kernel.Fresh twoChildren
      (after (terminateProcess uarm 66) contended) :=
    (semKills_contended _).kill (p := proc0) (by decide +kernel) (fresh_contended _)
      (run_after (by decide +kernel))
  have hlt := hall uarm {0x20000} _ _ σ₀ hs (by
    rintro a rfl
    exact ⟨by decide, by decide +kernel, hwait⟩) hrun 0x20000 rfl secondChild
    (first_of_run (by decide +kernel))
  exact absurd hlt (by decide +kernel)

/-- The parent terminates its second child instead, and the first asks for more than there is. -/
theorem semKills_noneStranded_contended : ∃ k : Kernel maxProc, k.First 0x20000 firstChild ∧
    k.mem 0x20000 = 1 ∧ NoneStranded {0x20000} k := by
  obtain ⟨σ₀, hs, hwait⟩ := paused_twoChildren
  have hA : ∀ a ∈ ({0x20000} : Set Word), uarm.kernelData a = false ∧
      0 ≤ (twoChildren.mem a).toInt ∧ σ₀.waiting a = [] := by
    rintro a rfl
    exact ⟨by decide, by decide +kernel, hwait⟩
  have hnobody : contended.StrandsNobody {0x20000} (contended.killTask proc0 99) := by
    intro root hroot a ha d xs q ys hadd hqueue hne hgone _
    have htarget : contended.target proc0 99 = some secondChild := by decide +kernel
    rw [Kernel.killTask, htarget] at hroot
    obtain rfl : secondChild = root := Task.kill.inj hroot
    obtain ⟨σ, h⟩ := (semKills_contended (Kernel.KillsRight {0x20000})).standing hs hA
    obtain ⟨x, xs, rfl⟩ := List.exists_cons_of_ne_nil hne
    have hx : contended.First a x := hadd ▸ h.paused.first hqueue
    obtain rfl : a = 0x20000 := ha
    obtain ⟨s, hs⟩ := hx
    have hchild : ((headBlocked 0x20000).run contended.toQueues).map Prod.fst =
        some (some firstChild) := by decide +kernel
    rw [hs] at hchild
    obtain rfl : x = firstChild := Option.some.inj (Option.some.inj hchild)
    refine absurd (hgone firstChild List.mem_cons_self) (Forest.not_progeny_of_leaf ?_ (by decide))
    decide +kernel
  have hrun : SemKills uarm {0x20000} (Kernel.KillsRight {0x20000}) twoChildren
      (after (terminateProcess uarm 99) contended) :=
    (semKills_contended _).kill (by decide +kernel) ⟨fresh_contended _, hnobody⟩
      (run_after (by decide +kernel))
  refine ⟨_, ?_, ?_, semKills_noneStranded hs hA hrun⟩
  · exact first_of_run (by decide +kernel)
  · decide +kernel

end JaeOS
