import JaeOS.Properties.Descriptors

/-!
# The effect of one `semop`

A `V` serves the queue of its semaphore for as long as the resources last; a `P`
takes its units or blocks its caller.  `Served` and `Stalled` say what becomes of
every list, counter and word.  The one thing that can go wrong is the counter
`g_soft_block_count`: `isDev` also accepts the addresses of one more row behind
`g_dev_s`, so a `V` there takes waiters off the counter that are not waiting for the
nucleus.
-/

namespace JaeOS

open Function (update)

variable {n : ℕ} {M : Machine} {k k' k₁ k₂ : Kernel n} {σ σ' σ₁ σ₂ : Snap n} {a w : Word} {p q : Fin n}
  {d : Semd} {dev : Bool} {j : ℕ}

/-! ### The property -/

/-- The units the first `i` waiters of `a` ask for. -/
def Kernel.asked (k : Kernel n) (σ : Snap n) (a : Word) (i : ℕ) : ℕ :=
  (((σ.waiting a).take i).map fun q => (k.resRequested q).toNat).sum

/-- The numbers of waiters that `r` units are enough for: all of the first `i`
requests together, for every `i` up to the number. -/
def Kernel.Affordable (k : Kernel n) (σ : Snap n) (a : Word) (r : ℕ) : Set ℕ :=
  {j | j ≤ (σ.waiting a).length ∧ ∀ i ≤ j, k.asked σ a i ≤ r}

/-- A `V` of weight `w` has served the first `j` waiters of `a`; `dev` says that
they count as waiting for the nucleus. -/
structure Served (M : Machine) (dev : Bool) (a w : Word) (j : ℕ) (k k' : Kernel n)
    (σ σ' : Snap n) : Prop where
  core : σ'.core = k'.core
  most : IsGreatest (k.Affordable σ a ((k.mem a).toNat + w.toNat)) j
  waiting : σ'.waiting a = (σ.waiting a).drop j
  ready : σ'.view.list .ready = σ.view.list .ready ++ (σ.waiting a).take j
  others : ∀ b, b ≠ a → σ'.waiting b = σ.waiting b
  pcbFree : σ'.view.list .free = σ.view.list .free
  requests : ∀ q, k'.resRequested q = if q ∈ (σ.waiting a).take j then 0 else k.resRequested q
  value : (k'.mem a).toNat + k.asked σ a j = (k.mem a).toNat + w.toNat
  mem : ∀ b, b ≠ a → k'.mem b = k.mem b
  soft : k'.gSoftBlockCount =
    if dev then k.gSoftBlockCount - BitVec.ofNat 32 j else k.gSoftBlockCount
  semd : ∀ d ∈ σ.asl, k.sSemAdd d = a → (d ∈ σ'.free ↔ σ'.waiting a = [])
  semds : (∀ d ∈ σ.asl, k.sSemAdd d ≠ a → d ∈ σ'.asl) ∧ ∀ d ∈ σ.free, d ∈ σ'.free
  count : k'.gProcessCount = k.gProcessCount
  current : k'.gCurrentProcess = k.gCurrentProcess
  tree : k'.toTree = k.toTree
  beside : BesideAt M a k k'

/-- A `P` of weight `w` has put its caller `p` at the end of the queue of `a`. -/
structure Stalled (M : Machine) (a w : Word) (p : Fin n) (k k' : Kernel n) (σ σ' : Snap n) : Prop where
  core : σ'.core = k'.core
  waiting : σ'.waiting a = σ.waiting a ++ [p]
  idle : k'.gCurrentProcess = none
  requests : k'.resRequested = update k.resRequested p (-w)
  ready : σ'.view.list .ready = σ.view.list .ready
  others : ∀ b, b ≠ a → σ'.waiting b = σ.waiting b
  pcbFree : σ'.view.list .free = σ.view.list .free
  mem : k'.mem = k.mem
  soft : k'.gSoftBlockCount = if M.isDev a then k.gSoftBlockCount + 1 else k.gSoftBlockCount
  count : k'.gProcessCount = k.gProcessCount
  tree : k'.toTree = k.toTree
  beside : Beside k k'

/-- A `P` of weight `w` cannot be granted at once. -/
def Kernel.Blocks (k : Kernel n) (σ : Snap n) (a w : Word) : Prop :=
  σ.waiting a ≠ [] ∨ (k.mem a).toInt + w.toInt < 0

/-- The word at `a` is `v`, also where it is a register. -/
def Kernel.put (k : Kernel n) (M : Machine) (a v : Word) : Kernel n :=
  { k with mem := update k.mem a v, reg := M.regStore k.reg a v }

theorem Kernel.put_of_nucleus {v : Word} (ha : M.nucleus a = true) :
    k.put M a v = { k with mem := update k.mem a v } := by
  rw [Kernel.put, M.regStore_of_nucleus ha]

/-- What `semop(a, w)` is to do: serve the waiters, or grant the request at once
and change nothing else, or block the caller. -/
structure SemopRight (M : Machine) (k : Kernel n) (σ : Snap n) (a w : Word) : Prop where
  signal : 0 < w.toInt → (k.mem a).toInt + w.toInt ≤ 2147483647 →
    ∃ k' σ' j, semop M a w k = .ok () k' ∧ Served M (M.nucleus a) a w j k k' σ σ'
  block : w.toInt < 0 → ∀ p, k.gCurrentProcess = some p → σ.view.place p = .held →
    k.Blocks σ a w → ∃ k' σ', semop M a w k = .ok () k' ∧ Stalled M a w p k k' σ σ'
  grant : w.toInt < 0 → ∀ p, k.gCurrentProcess = some p → σ.view.place p = .held →
    ¬ k.Blocks σ a w → semop M a w k = .ok () (k.put M a (k.mem a + w))

/-! ### Amounts -/

theorem toInt_of_nonneg {x : Word} (h : 0 ≤ x.toInt) : x.toInt = x.toNat ∧ x.toNat < 2 ^ 31 := by
  have hx := x.isLt
  rw [BitVec.toInt_eq_toNat_cond] at h ⊢
  split_ifs at h ⊢ <;> omega

/-- Without overflow, words are served like numbers. -/
theorem Snap.service_spec (hσ : σ.core = k.core) (hr : (k.mem a).toNat + w.toNat < 2 ^ 32) :
    IsGreatest (k.Affordable σ a ((k.mem a).toNat + w.toNat)) (σ.service a w).woken.length ∧
      (σ.service a w).left.toNat + k.asked σ a (σ.service a w).woken.length =
        (k.mem a).toNat + w.toNat := by
  have hadd : (w + k.mem a).toNat = (k.mem a).toNat + w.toNat := by
    rw [BitVec.toNat_add, Nat.mod_eq_of_lt (by omega), Nat.add_comm]
  have hmap : serve (fun p => (k.resRequested p).toNat) (w + k.mem a).toNat (σ.waiting a) = _ :=
    serve_map (fun x : Word => x.toNat) (fun _ _ => Iff.rfl) (fun _ _ h => BitVec.toNat_sub_of_le h)
  have hserve : σ.service a w = serve k.resRequested (w + k.mem a) (σ.waiting a) := by
    rw [Snap.service, hσ]
    rfl
  rw [← hserve, hadd] at hmap
  have hmost := serve_isGreatest (fun q => (k.resRequested q).toNat) ((k.mem a).toNat + w.toNat)
    (σ.waiting a)
  have hsum := serve_sum (fun q => (k.resRequested q).toNat) ((k.mem a).toNat + w.toNat)
    (σ.waiting a)
  rw [hmap] at hmost hsum
  refine ⟨hmost, ?_⟩
  have htake : (σ.service a w).woken = (σ.waiting a).take (σ.service a w).woken.length := by
    rw [hserve]
    exact serve_woken_eq_take _ _ _
  rw [Kernel.asked, ← htake]
  exact hsum

/-! ### The three outcomes -/

theorem Snap.service_woken (σ : Snap n) (a w : Word) :
    (σ.service a w).woken = (σ.waiting a).take (σ.service a w).woken.length :=
  serve_woken_eq_take _ _ _

theorem Signal.waiting_eq_drop (h : Signal M a w σ σ') :
    σ'.waiting a = (σ.waiting a).drop (σ.service a w).woken.length := by
  rw [h.waiting]
  exact serve_rest_eq_drop _ _ _

theorem Signal.waiting_of_ne {b : Word} (h : Signal M a w σ σ') (hb : b ≠ a) :
    σ'.waiting b = σ.waiting b := by
  rw [Snap.waiting, h.view]
  refine View.wake_list_of_disjoint _ _ (by simp) ?_
  intro q hq
  rw [Snap.place_of_woken hq]
  simpa using Ne.symm hb

theorem Signal.ready (h : Signal M a w σ σ') :
    σ'.view.list .ready = σ.view.list .ready ++ (σ.service a w).woken := by
  rw [h.view]
  refine View.wake_list_ready _ _ ?_ ?_
  · rw [Snap.service_woken]
    exact (σ.view.nodup _).sublist (List.take_sublist _ _)
  · intro q hq
    rw [Snap.place_of_woken hq]
    simp

theorem Signal.shrinks (h : Signal M a w σ σ') : σ.Shrinks σ' := by
  refine ⟨?_, h.sameSemd, h.conserves⟩
  intro b q hq
  by_cases hb : b = a
  · subst hb
    rw [h.waiting_eq_drop] at hq
    exact List.mem_of_mem_drop hq
  · rwa [h.waiting_of_ne hb] at hq

/-- **A `V` serves its waiters.**  They count as `isDev` says. -/
theorem Signal.served (h : Signal M a w σ σ') (hσ : σ.core = k.core) (hσ' : σ'.core = k'.core)
    (hb : BesideAt M a k k') (hr : (k.mem a).toNat + w.toNat < 2 ^ 32) :
    Served M (M.isDev a) a w (σ.service a w).woken.length k k' σ σ' := by
  obtain ⟨hmost, hleft⟩ := Snap.service_spec hσ hr
  have hmem : k'.mem = update k.mem a (σ.service a w).left := by
    have := h.mem
    rw [hσ, hσ'] at this
    exact this
  have hsemd : ∀ d, σ.core.sSemAdd d = k.sSemAdd d := fun d => by rw [hσ]; rfl
  refine ⟨hσ', hmost, h.waiting_eq_drop, ?_, fun b => h.waiting_of_ne, ?_, ?_, ?_, ?_, ?_, ?_, ⟨?_, ?_⟩,
    ?_, ?_, ?_, hb⟩
  · rw [h.ready, ← Snap.service_woken]
  · rw [h.view]
    exact View.wake_list_of_disjoint _ _ (by simp) (fun q hq => by simp [Snap.place_of_woken hq])
  · intro q
    have := congrFun h.resRequested q
    rw [hσ, hσ', clearRequests_apply, Snap.service_woken] at this
    exact this
  · rw [hmem, Function.update_self]
    exact hleft
  · intro b hne
    rw [hmem, Function.update_of_ne hne]
  · have := h.soft
    rw [hσ, hσ'] at this
    exact this
  · intro d hd hadd
    have := h.shrinks.mem_free_iff hd
    rwa [hsemd, hadd] at this
  · intro d hd hadd
    rw [h.shrinks.mem_asl_iff hd, hsemd, h.waiting_of_ne hadd, ← hsemd]
    exact σ.owned.blocked.queue_ne_nil hd
  · intro d hd
    exact h.shrinks.mem_free hd
  · have := h.count
    rw [hσ, hσ'] at this
    exact this
  · have := h.current
    rw [hσ, hσ'] at this
    exact this
  · have := h.tree
    rw [hσ, hσ'] at this
    exact this

/-- **A `P` that blocks** puts its caller at the end of the queue. -/
theorem Block.stalled (h : Block M a w p σ σ') (hσ : σ.core = k.core) (hσ' : σ'.core = k'.core)
    (hb : Beside k k') : Stalled M a w p k k' σ σ' := by
  have hne : ∀ pl, pl ≠ .sem a → pl ≠ .held → σ'.view.list pl = σ.view.list pl := by
    intro pl hpl hheld
    rw [h.view]
    refine Placement.move_list_other hpl ?_
    rw [h.held]
    exact hheld.symm
  refine ⟨hσ', ?_, ?_, ?_, hne _ (by simp) (by simp), ?_, hne _ (by simp) (by simp), ?_, ?_, ?_, ?_,
    hb⟩
  · rw [Snap.waiting, h.view, Placement.move_list_self (by simp [h.held])]
    rfl
  · have := h.idle
    rw [hσ'] at this
    exact this
  · have := h.resRequested
    rw [hσ, hσ'] at this
    exact this
  · intro b hba
    exact hne _ (by simpa using hba) (by simp)
  · have := h.mem
    rw [hσ, hσ'] at this
    exact this
  · have := h.soft
    rw [hσ, hσ'] at this
    exact this
  · have := h.count
    rw [hσ, hσ'] at this
    exact this
  · have := h.tree
    rw [hσ, hσ'] at this
    exact this

/-! ### When `semop` does what it is to do -/

/-- The first waiter of `a` asks for more than a `V` of weight `w` makes available,
or nobody waits. -/
def Kernel.NoneServed (k : Kernel n) (σ : Snap n) (a w : Word) : Prop :=
  ∀ q ∈ (σ.waiting a).head?, (k.mem a).toNat + w.toNat < (k.resRequested q).toNat

theorem Served.soft_iff (hn : n ≤ maxProc) (h : Served M dev a w j k k' σ σ') {b : Bool} :
    k'.gSoftBlockCount = (if b then k.gSoftBlockCount - BitVec.ofNat 32 j else k.gSoftBlockCount) ↔
      j = 0 ∨ dev = b := by
  have hj : j ≤ maxProc := h.most.1.1.trans ((length_list_le σ.view (.sem a)).trans hn)
  have hj' : j < 2 ^ 32 := hj.trans_lt (by decide)
  have hsub : k.gSoftBlockCount - BitVec.ofNat 32 j = k.gSoftBlockCount ↔ j = 0 := by
    constructor
    · intro heq
      have := congrArg BitVec.toNat heq
      have hlt := k.gSoftBlockCount.isLt
      rw [BitVec.toNat_sub, BitVec.toNat_ofNat, Nat.mod_eq_of_lt hj'] at this
      omega
    · rintro rfl
      simp
  rw [h.soft]
  cases dev <;> cases b <;> simp [hsub, eq_comm (a := k.gSoftBlockCount)]

theorem Served.eq_zero_iff (h : Served M dev a w j k k' σ σ') :
    j = 0 ↔ k.NoneServed σ a w := by
  obtain ⟨⟨hlen, hall⟩, hmax⟩ := h.most
  cases hq : σ.waiting a with
  | nil =>
    rw [hq] at hlen
    simp [Kernel.NoneServed, hq, Nat.le_zero.mp hlen]
  | cons q qs =>
    have hone : k.asked σ a 1 = (k.resRequested q).toNat := by simp [Kernel.asked, hq]
    simp only [Kernel.NoneServed, hq, List.head?_cons, Option.mem_some_iff, forall_eq', ← hone]
    constructor
    · rintro rfl
      by_contra hle
      have hmem : 1 ∈ k.Affordable σ a ((k.mem a).toNat + w.toNat) := by
        refine ⟨by simp [hq], ?_⟩
        intro i hi
        have hi' : i = 0 ∨ i = 1 := by omega
        rcases hi' with rfl | rfl
        · simp [Kernel.asked]
        · exact Nat.le_of_not_lt hle
      exact absurd (hmax hmem) (by omega)
    · intro hlt
      by_contra hne
      exact absurd (hall 1 (Nat.pos_of_ne_zero hne)) (Nat.not_le_of_lt hlt)

theorem toInt_add_of_signs {x y : Word} (hx : 0 ≤ x.toInt) (hy : y.toInt < 0) :
    (x + y).toInt = x.toInt + y.toInt := by
  have h₁ := x.toInt_lt
  have h₂ := y.le_toInt
  rw [BitVec.toInt_add]
  exact Int.bmod_eq_of_le (by omega) (by omega)

/-- A `P` that is granted at once changes the value, and nothing else. -/
theorem semop_grant (hσ : σ.core = k.core) (ha : M.kernelData a = false)
    (hw : w.toInt < 0) (hq : σ.waiting a = []) (henough : ¬ (k.mem a + w).toInt < 0) :
    semop M a w k = .ok () (k.put M a (k.mem a + w)) := by
  have h := Snap.owned_of_core hσ
  have hhead : (headBlocked a).run k.toQueues = some (none, k.toQueues) := by
    have := h.run_headBlocked a
    rwa [show σ.view.list (.sem a) = [] from hq] at this
  have hwp : wp (semop M a w) (fun _ k' => k' = k.put M a (k.mem a + w)) (fun _ _ => False) k := by
    rw [semop, if_neg (by omega), if_pos hw]
    simp only [semopP, wp_bind, wp_liftQ, hhead, wp_readInt ha, wp_ite]
    rw [if_neg (by simpa using henough), wp_writeInt ha, BitVec.sub_neg]
    rfl
  obtain ⟨_, _, hrun, rfl⟩ := wp_false hwp
  exact hrun

/-- **SYS3 with a positive weight serves its waiters**, as long as the sum is a word. -/
theorem semop_served (hσ : σ.core = k.core) (ha : M.kernelData a = false) (hw : 0 < w.toInt)
    (hr : (k.mem a).toNat + w.toNat < 2 ^ 32) :
    ∃ k' σ' j, semop M a w k = .ok () k' ∧ Served M (M.isDev a) a w j k k' σ σ' := by
  have hwp : wp (semop M a w) (fun _ k' => ∃ σ' j, Served M (M.isDev a) a w j k k' σ σ')
      (fun _ _ => False) k := by
    refine wp_semop hσ ha (fun hneg => by omega) (fun _ k' σ' hσ' hb h => ?_)
      (fun hneg => by omega) (fun hneg => by omega) (fun hzero => by omega) (fun hneg => by omega)
    exact ⟨σ', _, h.served hσ hσ' hb hr⟩
  obtain ⟨_, k', hrun, σ', j, h⟩ := wp_false hwp
  exact ⟨k', σ', j, hrun, h⟩

theorem toNat_add_lt {x y : Word} (hx : 0 ≤ x.toInt) (hy : 0 < y.toInt) :
    x.toNat + y.toNat < 2 ^ 32 := by
  have h₁ := toInt_of_nonneg hx
  have h₂ := toInt_of_nonneg hy.le
  omega

/-- **`semop` does what it is to do if and only if it counts its waiters right**: a
`V` that serves somebody does so at an address that `isDev` takes for a nucleus
semaphore exactly if it is one. -/
theorem semopRight_iff {k : Kernel maxProc} {σ : Snap maxProc} (hσ : σ.core = k.core)
    (hall : σ.Complete) (ha : M.kernelData a = false) (hv : 0 ≤ (k.mem a).toInt) :
    SemopRight M k σ a w ↔
      (0 < w.toInt → (k.mem a).toInt + w.toInt ≤ 2147483647 →
        k.NoneServed σ a w ∨ M.isDev a = M.nucleus a) := by
  have hsignal : 0 < w.toInt → ∃ k' σ' j, semop M a w k = .ok () k' ∧
      Served M (M.isDev a) a w j k k' σ σ' := fun hw =>
    semop_served hσ ha hw (toNat_add_lt hv hw)
  constructor
  · intro h hw hmax
    obtain ⟨k₁, σ₁, i, hrun₁, h₁⟩ := hsignal hw
    obtain ⟨k₂, σ₂, j, hrun₂, h₂⟩ := h.signal hw hmax
    obtain rfl : k₁ = k₂ := by
      rw [hrun₁] at hrun₂
      injection hrun₂
    obtain rfl : i = j := h₁.most.unique h₂.most
    rw [← h₁.eq_zero_iff]
    exact (h₁.soft_iff le_rfl).mp h₂.soft
  · intro h
    have hadd : w.toInt < 0 → (k.mem a + w).toInt = (k.mem a).toInt + w.toInt :=
      toInt_add_of_signs hv
    have hmem : σ.core.mem = k.mem := by rw [hσ]; rfl
    refine ⟨?_, ?_, ?_⟩
    · intro hw hmax
      obtain ⟨k', σ', j, hrun, hserved⟩ := hsignal hw
      have hsoft : j = 0 ∨ M.isDev a = M.nucleus a := by
        rw [hserved.eq_zero_iff]
        exact h hw hmax
      refine ⟨k', σ', j, hrun, ?_⟩
      exact { hserved with soft := (hserved.soft_iff le_rfl).mpr hsoft }
    · intro hw p hp hheld hblocks
      have hwp : wp (semop M a w) (fun _ k' => ∃ σ', Stalled M a w p k k' σ σ')
          (fun _ _ => False) k := by
        refine wp_semop hσ ha (fun _ => ⟨p, hp, hheld⟩) (fun hpos => by omega)
          (fun _ k' σ' _ _ hg => ?_) (fun _ q _ k' σ' hσ' hb hblock => ?_) (fun hzero => by omega)
          (fun _ _ hfree => hall.free_ne_nil_of_held hheld hfree)
        · -- nobody waits and there is enough, so the caller does not block
          have henough := hg.enough
          rw [hmem, hadd hw] at henough
          rcases hblocks with hne | hless
          · exact absurd hg.nobody hne
          · omega
        · obtain rfl : q = p := by
            have := hblock.current
            rw [hσ] at this
            exact Option.some.inj (this.symm.trans hp)
          exact ⟨σ', hblock.stalled hσ hσ' hb⟩
      obtain ⟨_, k', hrun, σ', hst⟩ := wp_false hwp
      exact ⟨k', σ', hrun, hst⟩
    · intro hw p _ _ hblocks
      rw [Kernel.Blocks, not_or, not_not] at hblocks
      refine semop_grant hσ ha hw hblocks.1 ?_
      rw [hadd hw]
      exact hblocks.2

/-- A child waits for a unit at `0x20000`. -/
def childWaits : List Event := [sys 1 0 0 0, timerInterrupt, sys 3 0x20000 (-1) 0]

/-- The parent of the child has left `v` in every word of its memory. -/
def withWaiter (v : Word) : Kernel maxProc :=
  (afterAll uarm childWaits).k.atEntry uarm { timerInterrupt with mem := fun _ => v }

theorem withWaiter_mem (v : Word) : (withWaiter v).mem 0x20000 = v := by
  have hnot : uarm.nucleus 0x20000 = false := by decide
  simp only [withWaiter, Kernel.atEntry, hnot]
  rfl

theorem exists_withWaiter (v : Word) : ∃ (σ : Snap maxProc) (p : Fin maxProc),
    σ.core = (withWaiter v).core ∧ σ.Complete ∧ σ.waiting 0x20000 = [p] ∧
      (withWaiter v).resRequested p = 1 ∧ (withWaiter v).gCurrentProcess = some proc0 ∧
      σ.view.place proc0 = .held := by
  let child : Fin maxProc := ⟨1, by decide⟩
  let d : Semd := ⟨0, by decide⟩
  have htest : ∀ (k : Kernel maxProc) e, k.keepsDescriptors uarm e = true →
      k.KeepsDescriptors uarm e := fun _ _ h => .of_test h
  obtain ⟨L, hreach, hstate⟩ := reaches_afterAll (M := uarm) htest childWaits
    (fun c => decide (c.k.aslh = some d ∧ c.k.sSemAdd d = 0x20000 ∧ c.k.sProcq d = some child ∧
      c.k.pList child = some child ∧ c.k.resRequested child = 1 ∧
      c.k.gCurrentProcess = some proc0)) (by decide +kernel)
  simp only [decide_eq_true_eq] at hstate
  rw [withWaiter]
  generalize afterAll uarm childWaits = c at hreach hstate
  obtain ⟨hasl, hadd, hproc, halone, hreq, hcur⟩ := hstate
  obtain ⟨σ, hb, hcompl, -⟩ := hreach.complete layout_uarm
  have hheld : σ.core.gCurrentProcess = some proc0 := by
    rw [hb.core]
    exact hcur
  refine ⟨σ.atEntry uarm _, child, Snap.atEntry_core hb.core, hcompl, ?_, hreq, hcur,
    (hb.consistent.current proc0).mpr hheld⟩
  have hwait := Snap.waiting_eq hb.core hasl (queue_singleton hproc halone)
  rwa [hadd] at hwait

/-- A `V` that serves the child. -/
theorem semopRight_served : ∃ (σ : Snap maxProc) (p : Fin maxProc),
    σ.core = (withWaiter 0).core ∧ σ.waiting 0x20000 = [p] ∧ (withWaiter 0).resRequested p = 1 ∧
      SemopRight uarm (withWaiter 0) σ 0x20000 1 := by
  obtain ⟨σ, p, hσ, hcompl, hwait, hreq, -⟩ := exists_withWaiter 0
  refine ⟨σ, p, hσ, hwait, hreq, ?_⟩
  exact (semopRight_iff hσ hcompl (by decide) (by rw [withWaiter_mem]; decide)).mpr
    (fun _ _ => .inr (by decide))

/-- A child waits at the address behind the last row of `g_dev_s`. -/
def waitBehindDevS : List Event := [sys 1 0 0 0, timerInterrupt, sys 3 0x100C0 (-1) 0]

/-- A `V` there takes the child off `g_soft_block_count`, though the word is not one
of the nucleus semaphores. -/
theorem not_semopRight : ¬ ∀ (M : Machine) (k : Kernel maxProc) (σ : Snap maxProc) (a w : Word),
    σ.core = k.core → σ.Complete → M.kernelData a = false → 0 ≤ (k.mem a).toInt →
      SemopRight M k σ a w := by
  intro hall
  let child : Fin maxProc := ⟨1, by decide⟩
  obtain ⟨c, L, hreach, hc⟩ := reaches_calm waitBehindDevS
    (fun c => c.k.mem 0x100C0 == 0 && c.k.resRequested child == 1 &&
      ((headBlocked 0x100C0).run c.k.toQueues).map Prod.fst == some (some child))
    (by decide +kernel)
  simp only [Bool.and_eq_true, beq_iff_eq] at hc
  obtain ⟨⟨hv, hreq⟩, hhead⟩ := hc
  obtain ⟨σ, hb, hcompl, -⟩ := hreach.complete layout_uarm
  have hfirst : (σ.waiting 0x100C0).head? = some child := by
    rw [(Snap.owned_of_core hb.core).run_headBlocked] at hhead
    exact Option.some.inj hhead
  have hright := hall uarm c.k σ 0x100C0 1 hb.core hcompl (by decide) (by rw [hv]; decide)
  rw [semopRight_iff hb.core hcompl (by decide) (by rw [hv]; decide)] at hright
  rcases hright (by decide) (by rw [hv]; decide) with hnone | hdev
  · have hless := hnone child hfirst
    rw [hv, hreq] at hless
    exact absurd hless (by decide)
  · exact absurd hdev (by decide)

end JaeOS
