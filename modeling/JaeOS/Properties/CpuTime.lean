import JaeOS.Properties.TimeSlice
import Mathlib.Algebra.BigOperators.Group.Finset.Basic
import Mathlib.Algebra.Order.BigOperators.Group.Finset

/-!
# CPU time

The first time hook of an entry charges the time since the last one to the process that
was running, the hooks after it charge the time in the kernel to the same process or to
nobody.  So the total of what is charged is never more than the time that passes.
-/

namespace JaeOS

variable {n : ℕ} {M : Machine} {ok : Kernel maxProc → Entry → Prop} {c c' : Config maxProc}
  {cs : List (Config maxProc)} {S : Finset (Fin maxProc)} {p q : Fin maxProc}

/-! ### What SYS8 reads -/

/-- The CPU times of a process at the next entry, behind the first time hook. -/
def Kernel.globalTime (M : Machine) (k : Kernel n) (q : Fin n) : Word :=
  ((k.onEnter M).pcb q).pGlobalTime

def Kernel.userTime (M : Machine) (k : Kernel n) (q : Fin n) : Word :=
  ((k.onEnter M).pcb q).pUserTime

/-- The next entry is a SYS8 of `p`: it stores the two times in two different words. -/
structure Config.Reads (c : Config maxProc) (M : Machine) (ev : Event) (p : Fin maxProc) (g u : Word) :
    Prop where
  take : CanTake c ev
  current : c.k.gCurrentProcess = some p
  call : ev.entry.Sys M getCpuTimeNr
  live : (step M c ev).stop.Live
  stored : ∀ old, ev.entry = .sysBP old → old.a2 ≠ old.a3 ∧
    (step M c ev).k.mem old.a2 = g ∧ (step M c ev).k.mem old.a3 = u

theorem globalTime_eq (k : Kernel n) (q : Fin n) : k.globalTime M q =
    (k.pcb q).pGlobalTime + if k.gCurrentProcess = some q then k.elapsed M else 0 := by
  rw [Kernel.globalTime, onEnter_pcb]
  split_ifs
  · rfl
  · exact (BitVec.add_zero _).symm

theorem userTime_eq (k : Kernel n) (q : Fin n) : k.userTime M q =
    (k.pcb q).pUserTime + if k.gCurrentProcess = some q then k.elapsed M else 0 := by
  rw [Kernel.userTime, onEnter_pcb]
  split_ifs
  · rfl
  · exact (BitVec.add_zero _).symm

theorem onExit_mem {k : Kernel n} (flag : Bool) : (k.onExit M flag).mem = k.mem := by
  rcases onExit_cases k flag with h | ⟨rfl, p, h⟩
  · rw [onExit_free h]
    rfl
  · rw [onExit_some h]
    rfl

theorem wp_writeInt_mem {k : Kernel n} {a w : Word} {Q : Unit → Kernel n → Prop}
    {E : Stop → Kernel n → Prop} (hE : E (.fault .stray) k)
    (hQ : Q () { k with mem := Function.update k.mem a w, reg := M.regStore k.reg a w }) :
    wp (writeInt M a w) Q E k := by
  rw [writeInt]
  exact wp_if (fun _ => hE) (fun _ => hQ)

/-- **SYS8 stores the times behind the first time hook.** -/
theorem wp_getCpuTime_stored {k : Kernel n} {p : Fin n} {old : ProcState}
    (hp : k.gCurrentProcess = some p) (hcall : (Entry.sysBP old).Sys M getCpuTimeNr)
    (hne : old.a2 ≠ old.a3) :
    wp (handler M (.sysBP old)) (fun _ _ => False) (fun s k' => s.Live →
      k'.mem old.a2 = k.globalTime M p ∧ k'.mem old.a3 = k.userTime M p) k := by
  obtain ⟨hsys, hmode, hnr⟩ := hcall
  let k₁ : Kernel n := k.start M p (.sysBP old)
  have hold : k₁.sysbold = old := Kernel.start_sysbold
  have hp₁ : k₁.gCurrentProcess = some p := Kernel.start_current hp
  have htimes : (k₁.pcb p).pGlobalTime = k.globalTime M p ∧ (k₁.pcb p).pUserTime = k.userTime M p := by
    rw [Kernel.globalTime, Kernel.userTime, onEnter_pcb, if_pos hp]
    change ((Kernel.onEnter M _).pcb p).pGlobalTime = _ ∧ ((Kernel.onEnter M _).pcb p).pUserTime = _
    rw [onEnter_pcb, if_pos, setPcb_pcb_self]
    · exact ⟨rfl, rfl⟩
    · exact hp
  have hstray : ∀ k' : Kernel n, (Stop.fault .stray).Live →
      k'.mem old.a2 = k.globalTime M p ∧ k'.mem old.a3 = k.userTime M p :=
    fun _ hlive => absurd hlive (not_live_fault _)
  rw [wp_handler_call hp hsys, if_pos (by rw [hnr]; decide), if_pos hmode, defSys, wp_bind, wp_get]
  change wp (if k₁.sysbold.a1 = createProcessNr then _ else _) _ _ k₁
  rw [hold, hnr]
  change wp (getCpuTime M old.a2 old.a3) _ _ k₁
  rw [getCpuTime, wp_bind, wp_current hp₁, wp_bind, wp_get, wp_bind]
  refine wp_writeInt_mem (hstray _) ?_
  rw [wp_bind, wp_get]
  refine wp_writeInt_mem (hstray _) ?_
  rw [wp_leaveHandler_some (p := p) (x := .sysbold)]
  · intro _
    rw [onExit_mem, ← htimes.1, ← htimes.2]
    exact ⟨(Function.update_of_ne hne _ _).trans (Function.update_self ..), Function.update_self ..⟩
  · rw [onExit_current]
    exact hp₁
  · rw [onExit_mStateLoaded]
    exact onEnter_mStateLoaded

theorem born_of_getCpuTime {k : Kernel n} {p : Fin n} {e : Entry} (hp : k.gCurrentProcess = some p)
    (he : e.Sys M getCpuTimeNr) : k.born M e = none := by
  obtain ⟨old, rfl, hsys, hmode, hnr⟩ := he.exists_old
  have htask : k.task M (.sysBP old) = .store old.a2 old.a3 := by
    rw [Kernel.task, hp, Option.elim_some, Kernel.sysBPTask, if_pos hsys, hnr, if_pos (by decide),
      if_pos hmode, Kernel.sysTask, hnr]
    rfl
  rw [Kernel.born, htask]

theorem Config.Reads.times {ev : Event} {g u : Word} (h : c.Reads M ev p g u) :
    g = c.k.globalTime M p ∧ u = c.k.userTime M p := by
  obtain ⟨old, hev, -⟩ := h.call.exists_old
  obtain ⟨hne, hg, hu⟩ := h.stored old hev
  have hcall := h.call
  rw [hev] at hcall
  have hp : (c.k.atEntry M ev).gCurrentProcess = some p := h.current
  have hwp := wp_getCpuTime_stored hp hcall hne
  rw [← hev] at hwp
  obtain ⟨hg', hu'⟩ := runToStop_of_wp hwp h.live
  refine ⟨hg.symm.trans (hg'.trans ?_), hu.symm.trans (hu'.trans ?_)⟩
  · rw [globalTime_eq, globalTime_eq]
    rfl
  · rw [userTime_eq, userTime_eq]
    rfl

/-! ### What an entry charges -/

/-- The time that a process has been running, in a list of configurations. -/
def runTime (M : Machine) (q : Fin n) (cs : List (Config n)) : ℕ :=
  (cs.map fun x => if x.k.gCurrentProcess = some q then x.k.ran M else 0).sum

theorem runTime_snoc (q : Fin n) (cs : List (Config n)) (x : Config n) : runTime M q (cs ++ [x]) =
    runTime M q cs + if x.k.gCurrentProcess = some q then x.k.ran M else 0 := by
  simp [runTime]

theorem sum_current_le (S : Finset (Fin n)) (cur : Option (Fin n)) (x : ℕ) :
    ∑ q ∈ S, (if cur = some q then x else 0) ≤ x := by
  cases cur with
  | none => simp
  | some p =>
    simp only [Option.some.injEq, Finset.sum_ite_eq]
    split_ifs
    · exact le_rfl
    · exact Nat.zero_le x

/-- What one entry, from `c` to `c'`, charges to the processes in `S`: of the time in the kernel,
between the first reading of the clock and the last one, `x` to the process that was current at
the entry, and then the time until the next first reading to the process that is current now.
Nothing is charged to anybody else, nor to anybody where no process is current. -/
def Config.Charges (M : Machine) (S : Set (Fin maxProc)) (c c' : Config maxProc) : Prop :=
  ∃ x, x + M.tod c.k.tods ≤ M.tod (c'.k.tods - 1) ∧ ∀ q ∈ S,
    c'.k.userTime M q = c.k.userTime M q +
      BitVec.ofNat 32 (if c'.k.gCurrentProcess = some q then c'.k.ran M else 0) ∧
    c'.k.globalTime M q = c.k.globalTime M q +
      BitVec.ofNat 32 (if c.k.gCurrentProcess = some q then x else 0) +
      BitVec.ofNat 32 (if c'.k.gCurrentProcess = some q then c'.k.ran M else 0)

/-- **One entry charges** the time in the kernel, at most, and then the time that the next
process runs. -/
theorem step_charges {ev : Event} (hmono : Monotone M.tod) (hr : Ready M c) (htake : CanTake c ev)
    (hlive : (step M c ev).stop.Live) :
    Config.Charges M {q | (c.k.atEntry M ev).born M ev.entry ≠ some q} c (step M c ev) := by
  have hpass := hr.step htake hlive
  obtain ⟨i, x, -, hi, hx, -, hglobal⟩ := hpass.charged hmono
  have hle : M.tod i ≤ M.tod ((step M c ev).k.tods - 1) := hmono (Nat.le_sub_one_of_lt hi)
  have helapsed := hpass.toHanded.elapsed hmono
  have hnext : ∀ q, (if (step M c ev).k.gCurrentProcess = some q then (step M c ev).k.elapsed M
      else 0) = BitVec.ofNat 32
        (if (step M c ev).k.gCurrentProcess = some q then (step M c ev).k.ran M else 0) := by
    intro q
    split_ifs
    · exact helapsed
    · rfl
  have hkernel : ∀ q, (if c.k.gCurrentProcess = some q then BitVec.ofNat 32 x else 0) =
      BitVec.ofNat 32 (if c.k.gCurrentProcess = some q then x else 0) := by
    intro q
    split_ifs <;> rfl
  refine ⟨x, hx.trans hle, fun q hq => ⟨?_, ?_⟩⟩
  · have hentered : ((Kernel.onEnter M (c.k.atEntry M ev)).pcb q).pUserTime = c.k.userTime M q := by
      change (c.k.atEntry M ev).userTime M q = _
      rw [userTime_eq, userTime_eq]
      rfl
    rw [userTime_eq, hpass.user q hq, hnext, hentered]
  · have hentered : ((Kernel.onEnter M (c.k.atEntry M ev)).pcb q).pGlobalTime = c.k.globalTime M q := by
      change (c.k.atEntry M ev).globalTime M q = _
      rw [globalTime_eq, globalTime_eq]
      rfl
    rw [globalTime_eq, hglobal q hq, hnext, hentered, ← hkernel]
    rfl

/-! ### Runs -/

theorem Path.last_mem (h : Path M ok c cs c') : c' ∈ c :: cs := by
  induction h with
  | refl => exact List.mem_cons_self
  | snoc => simp

theorem Path.getLast (h : Path M ok c cs c') : (c :: cs).getLast? = some c' := by
  induction h with
  | refl => rfl
  | snoc => rw [← List.cons_append, List.getLast?_concat]

theorem Path.charges (hmono : Monotone M.tod) (hc : Ready M c)
    (h : Path M (fun k e => ∀ q ∈ S, k.born M e ≠ some q) c cs c') (hlive : c'.stop.Live) :
    List.IsChain (Config.Charges M S) (c :: cs) := by
  induction h with
  | refl => exact .singleton c
  | @snoc c' cs ev h htake hok ih =>
    obtain ⟨x, hx, hcharge⟩ := step_charges hmono (h.ready hc) htake hlive
    rw [← List.cons_append]
    refine (ih htake.live).append (.singleton _) (fun y hy z hz => ?_)
    obtain rfl : c' = y := Option.some.inj (h.getLast.symm.trans hy)
    obtain rfl : step M c' ev = z := Option.some.inj hz
    exact ⟨x, hx, fun q hq => hcharge q (hok q hq)⟩

/-- **What a run charges.**  `g` is the time charged to each process. -/
theorem Path.charged (hmono : Monotone M.tod) (hc : Ready M c)
    (h : Path M (fun k e => ∀ q ∈ S, k.born M e ≠ some q) c cs c') (hlive : c'.stop.Live) :
    ∃ g : Fin maxProc → ℕ, ∑ q ∈ S, g q + M.tod c.k.tods ≤ M.tod c'.k.tods ∧ ∀ q ∈ S,
      runTime M q cs ≤ g q ∧ ((∀ x ∈ c :: cs, x.k.gCurrentProcess ≠ some q) → g q = 0) ∧
      c'.k.userTime M q = c.k.userTime M q + BitVec.ofNat 32 (runTime M q cs) ∧
      c'.k.globalTime M q = c.k.globalTime M q + BitVec.ofNat 32 (g q) := by
  induction h with
  | refl => exact ⟨fun _ => 0, by simp, fun q _ => ⟨le_rfl, fun _ => rfl, by simp [runTime], by simp⟩⟩
  | @snoc c' cs ev h htake hok ih =>
    obtain ⟨g, hsum, hg⟩ := ih htake.live
    obtain ⟨x, hx, hcharge⟩ := step_charges hmono (h.ready hc) htake hlive
    let inKernel : Fin maxProc → ℕ := fun q => if c'.k.gCurrentProcess = some q then x else 0
    let inUser : Fin maxProc → ℕ := fun q =>
      if (step M c' ev).k.gCurrentProcess = some q then (step M c' ev).k.ran M else 0
    have hkernel : ∑ q ∈ S, inKernel q ≤ x := sum_current_le S _ x
    have huser : ∑ q ∈ S, inUser q ≤ (step M c' ev).k.ran M := sum_current_le S _ _
    have hlast : M.tod ((step M c' ev).k.tods - 1) ≤ M.tod (step M c' ev).k.tods :=
      hmono (Nat.sub_le _ 1)
    refine ⟨fun q => g q + inKernel q + inUser q, ?_, fun q hq => ?_⟩
    · rw [Finset.sum_add_distrib, Finset.sum_add_distrib]
      rw [Kernel.ran] at huser
      omega
    · obtain ⟨hle, hidle, hu, hgl⟩ := hg q hq
      obtain ⟨hu', hgl'⟩ := hcharge q (hok q hq)
      refine ⟨?_, ?_, ?_, ?_⟩
      · rw [runTime_snoc]
        have : runTime M q cs ≤ g q + inKernel q := Nat.le_add_right_of_le hle
        exact Nat.add_le_add_right this _
      · intro hnever
        have hzero : g q = 0 := hidle (fun y hy => hnever y (by
          rw [← List.cons_append]
          exact List.mem_append_left _ hy))
        have hnot : c'.k.gCurrentProcess ≠ some q := hnever c' (by
          rw [← List.cons_append]
          exact List.mem_append_left _ h.last_mem)
        have hnot' : (step M c' ev).k.gCurrentProcess ≠ some q := hnever (step M c' ev) (by simp)
        simp [hzero, inKernel, inUser, hnot, hnot']
      · rw [hu', hu, runTime_snoc, BitVec.ofNat_add, BitVec.add_assoc]
      · rw [hgl', hgl, BitVec.ofNat_add, BitVec.ofNat_add, ← BitVec.add_assoc, ← BitVec.add_assoc]

/-- **CPU time accounting.**  Between two SYS8 of a process its user time grows by the time
it has been running, its global time by no less and by no more than the time that has
passed, and the global times of all processes together by no more.  Every entry in between
charges its time in the kernel to the process that was current at it, and the time after it to
the process it leaves current; a process that was never running is not charged. -/
theorem cpuTime_accounted {L : Set (Fin maxProc)} {ev ev' : Event} {g u g' u' : Word}
    (hmono : Monotone M.tod) (hreach : Reaches M ok c L) (hread : c.Reads M ev p g u)
    (hpath : Path M (fun k e => ∀ q ∈ S, k.born M e ≠ some q) (step M c ev) cs c') (hp : p ∈ S)
    (hread' : c'.Reads M ev' p g' u') (hless : M.tod c'.k.tods - M.tod c.k.tods < 2 ^ 32) :
    (u' - u).toNat = runTime M p (step M c ev :: cs) ∧
      (u' - u).toNat ≤ (g' - g).toNat ∧ (g' - g).toNat ≤ M.tod c'.k.tods - M.tod c.k.tods ∧
      ∑ q ∈ S, (c'.k.globalTime M q - c.k.globalTime M q).toNat ≤
        M.tod c'.k.tods - M.tod c.k.tods ∧
      List.IsChain (Config.Charges M S) (c :: step M c ev :: cs) ∧
      ∀ q ∈ S, (∀ x ∈ c :: step M c ev :: cs, x.k.gCurrentProcess ≠ some q) →
        c'.k.globalTime M q = c.k.globalTime M q ∧ c'.k.userTime M q = c.k.userTime M q := by
  obtain ⟨rfl, rfl⟩ := hread.times
  obtain ⟨rfl, rfl⟩ := hread'.times
  have hborn : (c.k.atEntry M ev).born M ev.entry = none := born_of_getCpuTime hread.current hread.call
  have hwhole := hpath.cons hread.take (fun q _ => by simp [hborn])
  obtain ⟨t, hsum, ht⟩ := hwhole.charged hmono (reaches_ready hreach) hread'.take.live
  have hdiff : ∀ {x y : Word} {d : ℕ}, y = x + BitVec.ofNat 32 d → y - x = BitVec.ofNat 32 d := by
    rintro x _ d rfl
    rw [BitVec.add_comm, BitVec.add_sub_cancel]
  have hglobal : ∀ q ∈ S, (c'.k.globalTime M q - c.k.globalTime M q).toNat ≤ t q := by
    intro q hq
    rw [hdiff (ht q hq).2.2.2]
    exact Nat.mod_le _ _
  have hone : t p ≤ ∑ q ∈ S, t q := Finset.single_le_sum (fun _ _ => Nat.zero_le _) hp
  obtain ⟨hle, -, hu, hg⟩ := ht p hp
  have hu' : (c'.k.userTime M p - c.k.userTime M p).toNat = runTime M p (step M c ev :: cs) := by
    rw [hdiff hu, BitVec.toNat_ofNat, Nat.mod_eq_of_lt (by omega)]
  have hg' : (c'.k.globalTime M p - c.k.globalTime M p).toNat = t p := by
    rw [hdiff hg, BitVec.toNat_ofNat, Nat.mod_eq_of_lt (by omega)]
  refine ⟨hu', by omega, by omega, ?_, hwhole.charges hmono (reaches_ready hreach) hread'.take.live,
    fun q hq hnever => ?_⟩
  · have := Finset.sum_le_sum hglobal
    omega
  · obtain ⟨hle, hidle, hu, hg⟩ := ht q hq
    have hzero : t q = 0 := hidle hnever
    have hrun : runTime M q (step M c ev :: cs) = 0 := Nat.le_zero.mp (hle.trans (le_of_eq hzero))
    rw [hg, hu, hzero, hrun]
    simp

/-- The first process reads its times, twice. -/
theorem cpuTime_accounted_twice : ∃ c c' c'' : Config maxProc,
    c''.k.mem 0x24 - c'.k.mem 0x24 = 100 ∧ c'.k.gCurrentProcess = some proc0 ∧
      (c''.k.mem 0x24 - c'.k.mem 0x24).toNat = runTime (uarmEvery 100) proc0 [c'] ∧
      c'.k.globalTime (uarmEvery 100) proc0 - c.k.globalTime (uarmEvery 100) proc0 =
        c''.k.mem 0x20 - c'.k.mem 0x20 ∧
      (c''.k.mem 0x20 - c'.k.mem 0x20).toNat ≤
        (uarmEvery 100).tod c'.k.tods - (uarmEvery 100).tod c.k.tods := by
  let ev : Event := sys getCpuTimeNr 0x20 0x24 0
  let c : Config maxProc := boot (uarmEvery 100)
  let c' : Config maxProc := step (uarmEvery 100) c ev
  have hstored : ∀ {x : Config maxProc} old, ev.entry = .sysBP old → old.a2 ≠ old.a3 ∧
      x.k.mem old.a2 = x.k.mem 0x20 ∧ x.k.mem old.a3 = x.k.mem 0x24 := by
    rintro x old ⟨rfl⟩
    exact ⟨by decide, rfl, rfl⟩
  have htake : CanTake c ev := Config.canTake_iff.mp (by decide +kernel)
  have htake' : CanTake c' ev := Config.canTake_iff.mp (by decide +kernel)
  have htake'' : CanTake (step (uarmEvery 100) c' ev) ev := Config.canTake_iff.mp (by decide +kernel)
  have hcall : ev.entry.Sys (uarmEvery 100) getCpuTimeNr := ⟨by decide, by decide, rfl⟩
  have hcur : c'.k.gCurrentProcess = some proc0 := by decide +kernel
  have hread : c.Reads (uarmEvery 100) ev proc0 (c'.k.mem 0x20) (c'.k.mem 0x24) :=
    ⟨htake, by decide +kernel, hcall, htake'.live, hstored⟩
  have hread' : c'.Reads (uarmEvery 100) ev proc0 _ _ := ⟨htake', hcur, hcall, htake''.live, hstored⟩
  have hboot : Reaches (uarmEvery 100) (fun _ _ => True) c {proc0} := .boot
  have hall := cpuTime_accounted (S := {proc0}) (fun _ _ h => Nat.mul_le_mul_left 100 h) hboot hread
    (.refl c') (Finset.mem_singleton_self _) hread' (by decide +kernel)
  obtain ⟨huser, -, hglobal, -⟩ := hall
  exact ⟨c, c', step (uarmEvery 100) c' ev, by decide +kernel, hcur, huser, by decide +kernel, hglobal⟩

end JaeOS
