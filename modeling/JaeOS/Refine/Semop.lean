import JaeOS.Refine.Snap
import JaeOS.Model.Exceptions

/-!
# `semop`

A `V` serves the queue of its semaphore from the front and stores what is left;
a `P` takes its units, or puts the calling process at the end of the queue.
-/

namespace JaeOS

open Function (update)

variable {n : ℕ} {M : Machine} {k : Kernel n} {s : Queues n} {v : View n} {asl free : List Semd}
  {a w : Word} {p : Fin n} {d : Semd} {ps xs : List (Fin n)}

/-! ### Queue functions inside the kernel -/

theorem wp_liftQ {α : Type} {x : Q n α} {Q : α → Kernel n → Prop} {E : Stop → Kernel n → Prop} :
    wp (liftM x : K n α) Q E k ↔
      match x.run k.toQueues with
      | some (b, s) => Q b { k with toQueues := s }
      | none => E (.fault .wild) k := by
  simp only [wp, liftM, monadLift, MonadLift.monadLift, StateT.run]
  cases x k.toQueues <;> rfl

/-! ### The loop of `V` -/

/-- The placement after the processes `ps` have been woken up, in order. -/
def View.wake (v : View n) (ps : List (Fin n)) : View n :=
  ps.foldl (fun v p => v.move p .ready) v

def clearRequests (req : Fin n → Word) (ps : List (Fin n)) : Fin n → Word :=
  ps.foldl (fun req p => update req p 0) req

theorem clearRequests_apply (req : Fin n → Word) (ps : List (Fin n)) (x : Fin n) :
    clearRequests req ps x = if x ∈ ps then 0 else req x := by
  induction ps generalizing req with
  | nil => simp [clearRequests]
  | cons p ps ih =>
    rw [clearRequests, List.foldl_cons, ← clearRequests, ih]
    by_cases hx : x ∈ ps <;> by_cases hxp : x = p <;> simp [hx, hxp]

/-- The kernel after the loop of `V`. -/
def Kernel.woken (M : Machine) (k : Kernel n) (a : Word) (ps : List (Fin n)) (s : Queues n) :
    Kernel n :=
  { k with
    toQueues := s
    resRequested := clearRequests k.resRequested ps
    gSoftBlockCount :=
      if M.isDev a then k.gSoftBlockCount - BitVec.ofNat 32 ps.length else k.gSoftBlockCount }

theorem Kernel.woken_nil : k.woken M a [] k.toQueues = k := by
  simp [Kernel.woken, clearRequests]

theorem Kernel.woken_singleton (p : Fin n) (s : Queues n) :
    k.woken M a [p] s = { k with
      toQueues := s
      resRequested := update k.resRequested p 0
      gSoftBlockCount := if M.isDev a then k.gSoftBlockCount - 1 else k.gSoftBlockCount } := rfl

theorem Kernel.woken_cons {s₁ : Queues n} :
    (k.woken M a [p] s₁).woken M a ps s = k.woken M a (p :: ps) s := by
  have hcount : ∀ g : Word, g - 1 - BitVec.ofNat 32 ps.length = g - BitVec.ofNat 32 (ps.length + 1) :=
    fun g => by
      rw [BitVec.ofNat_add, BitVec.sub_sub, BitVec.add_comm]
      rfl
  rw [Kernel.woken_singleton]
  by_cases hdev : M.isDev a
  · simp only [Kernel.woken, hdev, if_true, hcount, List.length_cons, clearRequests, List.foldl_cons]
  · simp only [Kernel.woken, hdev, if_false, Bool.false_eq_true, clearRequests, List.foldl_cons]

/-- **The loop of `V` serves the queue from the front.** -/
theorem wp_semopWake {Q : Word → Kernel n → Prop} {E : Stop → Kernel n → Prop} :
    ∀ {xs : List (Fin n)} {k : Kernel n} {v : View n} {asl free : List Semd} {fuel : ℕ} {r : Word},
      Owned k.toQueues v asl free → v.list (.sem a) = xs → xs.length < fuel →
      (∀ s' asl' free', Owned s' (v.wake (serve k.resRequested r xs).woken) asl' free' →
        (∀ e, e ∈ asl' ∨ e ∈ free' ↔ e ∈ asl ∨ e ∈ free) → k.toQueues.SameSemd s' →
        Q (serve k.resRequested r xs).left
          (k.woken M a (serve k.resRequested r xs).woken s')) →
      wp (semopWake M a fuel r) Q E k := by
  intro xs
  induction xs with
  | nil =>
    intro k v asl free fuel r h hl hf hQ
    obtain ⟨fuel, rfl⟩ : ∃ f, fuel = f + 1 := ⟨fuel - 1, by omega⟩
    have hhead := h.run_headBlocked a
    rw [hl] at hhead
    have hpost := hQ k.toQueues asl free h (fun e => Iff.rfl) ⟨rfl, rfl⟩
    rw [serve, Kernel.woken_nil] at hpost
    simp only [semopWake, wp_bind, wp_liftQ, hhead, List.head?_nil, wp_pure]
    exact hpost
  | cons p xs ih =>
    intro k v asl free fuel r h hl hf hQ
    obtain ⟨fuel, rfl⟩ : ∃ f, fuel = f + 1 := ⟨fuel - 1, by omega⟩
    have hhead := h.run_headBlocked a
    rw [hl] at hhead
    by_cases hr : k.resRequested p ≤ r
    · have hp : v.place p = .sem a := (v.mem _ p).mp (by simp [hl])
      have hpxs : p ∉ xs := (List.nodup_cons.mp (hl ▸ v.nodup (.sem a))).1
      obtain ⟨s₁, d, asl₁, free₁, hrem, hcs, hadd, h₁, hmem₁, hsame₁⟩ := h.run_removeBlocked hl
      have h₂ := h₁.insertProcQ_ready Placement.move_place_self
      rw [Placement.move_move (by simp) (by simp [hp])] at h₂
      rw [serve_cons_of_le hr] at hQ
      simp only [semopWake, wp_bind, wp_liftQ, hhead, List.head?_cons, wp_get, wp_ite, if_pos hr,
        wp_modify, hrem, run_insertProcQ, setProcQ_pCursem, setProcQ_sSemAdd, hsame₁.1, hsame₁.2,
        hcs, hadd, wp_pure]
      set s₂ := s₁.setProcQ .gReadyQueue ((s₁.procQ .gReadyQueue).enqueue p)
      have hreq : ∀ x ∈ xs, k.resRequested x = (k.woken M a [p] s₂).resRequested x := fun x hx =>
        (Function.update_of_ne (ne_of_mem_of_not_mem hx hpxs) _ _).symm
      have hl₂ : (v.move p .ready).list (.sem a) = xs := by
        rw [Placement.move_list_of_ne (by simp), hl, List.erase_cons_head]
      have hrec : wp (semopWake M a fuel (r - k.resRequested p)) Q E (k.woken M a [p] s₂) := by
        refine ih h₂ hl₂ (by simpa using hf) (fun s' asl' free' h' hmem' hsame' => ?_)
        rw [← serve_congr hreq] at h' ⊢
        rw [Kernel.woken_cons]
        exact hQ s' asl' free' h' (fun e => (hmem' e).trans (hmem₁ e))
          ((hsame₁.trans sameSemd_setProcQ).trans hsame')
      rw [Kernel.woken_singleton] at hrec
      by_cases hdev : M.isDev a
      · simpa only [hdev, if_true] using hrec
      · simpa only [hdev, if_false, Bool.false_eq_true] using hrec
    · rw [serve_cons_of_not_le hr] at hQ
      have hpost := hQ k.toQueues asl free h (fun e => Iff.rfl) ⟨rfl, rfl⟩
      rw [Kernel.woken_nil] at hpost
      simp only [semopWake, wp_bind, wp_liftQ, hhead, List.head?_cons, wp_get, wp_ite, if_neg hr,
        wp_pure]
      exact hpost

/-! ### The three outcomes of `semop` -/

/-- What a `V` of weight `w` does to the queue of `a`. -/
def Snap.service (σ : Snap n) (a w : Word) : Service (Fin n) Word :=
  serve σ.core.resRequested (w + σ.core.mem a) (σ.waiting a)

/-- A `V`: some waiters are ready now, and the value is what is left. -/
structure Signal (M : Machine) (a w : Word) (σ σ' : Snap n) : Prop where
  view : σ'.view = σ.view.wake (σ.service a w).woken
  resRequested : σ'.core.resRequested =
    clearRequests σ.core.resRequested (σ.service a w).woken
  mem : σ'.core.mem = update σ.core.mem a (σ.service a w).left
  soft : σ'.core.gSoftBlockCount =
    if M.isDev a then σ.core.gSoftBlockCount - BitVec.ofNat 32 (σ.service a w).woken.length
    else σ.core.gSoftBlockCount
  count : σ'.core.gProcessCount = σ.core.gProcessCount
  current : σ'.core.gCurrentProcess = σ.core.gCurrentProcess
  tree : σ'.core.toTree = σ.core.toTree
  conserves : σ.Conserves σ'
  sameSemd : σ.core.SameSemd σ'.core.toQueues

/-- A `P` that takes its units at once. -/
structure Grant (a w : Word) (σ σ' : Snap n) : Prop where
  nobody : σ.waiting a = []
  enough : 0 ≤ (σ.core.mem a + w).toInt
  view : σ'.view = σ.view
  asl : σ'.asl = σ.asl
  free : σ'.free = σ.free
  core : σ'.core = { σ.core with mem := update σ.core.mem a (σ.core.mem a - -w) }

/-- A `P` that blocks the current process. -/
structure Block (M : Machine) (a w : Word) (p : Fin n) (σ σ' : Snap n) : Prop where
  current : σ.core.gCurrentProcess = some p
  held : σ.view.place p = .held
  short : σ.waiting a ≠ [] ∨ (σ.core.mem a + w).toInt < 0
  view : σ'.view = σ.view.move p (.sem a)
  resRequested : σ'.core.resRequested = update σ.core.resRequested p (-w)
  idle : σ'.core.gCurrentProcess = none
  soft : σ'.core.gSoftBlockCount =
    if M.isDev a then σ.core.gSoftBlockCount + 1 else σ.core.gSoftBlockCount
  mem : σ'.core.mem = σ.core.mem
  count : σ'.core.gProcessCount = σ.core.gProcessCount
  tree : σ'.core.toTree = σ.core.toTree
  conserves : σ.Conserves σ'
  cursem : ∃ d, σ'.core.pCursem = update σ.core.pCursem p (some d)

section Specs

variable {Q : Unit → Kernel n → Prop} {E : Stop → Kernel n → Prop} {σ : Snap n}

theorem wp_readInt {Q : Word → Kernel n → Prop} (ha : M.kernelData a = false) :
    wp (readInt M a) Q E k ↔ Q (k.mem a) k := by
  rw [readInt, if_neg (by simp [ha])]
  exact Iff.rfl

theorem wp_writeInt {x : Word} (ha : M.kernelData a = false) :
    wp (writeInt M a x) Q E k ↔
      Q () { k with mem := update k.mem a x, reg := M.regStore k.reg a x } := by
  rw [writeInt, if_neg (by simp [ha])]
  exact Iff.rfl

theorem wp_writeWord {x : Word} (ha : M.kernelData a = false) :
    wp (writeWord M a x) Q E k ↔ Q () { k with mem := update k.mem a x } := by
  rw [writeWord, if_neg (by simp [ha])]
  exact Iff.rfl

theorem wp_current {Q : Fin n → Kernel n → Prop} (hp : k.gCurrentProcess = some p) :
    wp current Q E k ↔ Q p k := by
  simp only [current, wp_bind, wp_get]
  rw [hp]
  exact Iff.rfl

theorem Snap.owned_of_core (hσ : σ.core = k.core) : Owned k.toQueues σ.view σ.asl σ.free := by
  have h := σ.owned
  rw [hσ] at h
  exact h

theorem wp_semopV (hσ : σ.core = k.core) (ha : M.kernelData a = false)
    (hQ : ∀ k' σ', σ'.core = k'.core → BesideAt M a k k' → Signal M a w σ σ' → Q () k') :
    wp (semopV M a w) Q E k := by
  have h := Snap.owned_of_core hσ
  have hmem : σ.core.mem = k.mem := by rw [hσ]; rfl
  have hreq : σ.core.resRequested = k.resRequested := by rw [hσ]; rfl
  have hservice : σ.service a w = serve k.resRequested (w + k.mem a) (σ.view.list (.sem a)) := by
    rw [Snap.service, hmem, hreq]
    rfl
  rw [semopV, wp_bind, wp_readInt ha, wp_bind]
  refine wp_semopWake h rfl ?_ (fun s' asl' free' h' hmem' hsame' => ?_)
  · exact (h.blocked.nodup a).length_le_card.trans_lt (by simp)
  · rw [← hservice] at h' ⊢
    rw [wp_writeInt ha]
    let k' : Kernel n := { k.woken M a (σ.service a w).woken s' with
      mem := update k.mem a (σ.service a w).left
      reg := M.regStore k.reg a (σ.service a w).left }
    refine hQ k' ⟨k'.core, σ.view.wake (σ.service a w).woken, asl', free', h'⟩ rfl ?_ ?_
    · refine ⟨⟨fun _ => .refl _, rfl, rfl, rfl, rfl, rfl, rfl, rfl, rfl, rfl⟩, ?_⟩
      exact congrArg (M.regStore k.reg a) (Function.update_self a _ k.mem).symm
    · refine ⟨rfl, ?_, ?_, ?_, ?_, ?_, ?_, hmem', ?_⟩
      all_goals rw [hσ]
      all_goals first | rfl | exact hsame'

theorem wp_semopBlock (hσ : σ.core = k.core) (hp : k.gCurrentProcess = some p)
    (hheld : σ.view.place p = .held)
    (hshort : σ.waiting a ≠ [] ∨ (σ.core.mem a + w).toInt < 0)
    (hQ : σ.waiting a ≠ [] ∨ σ.free ≠ [] →
      ∀ k' σ', σ'.core = k'.core → Beside k k' → Block M a w p σ σ' → Q () k')
    (hfull : σ.waiting a = [] → σ.free = [] → E (.panic .noSemaphore) k) :
    wp (semopBlock M a w) Q E k := by
  have h := Snap.owned_of_core hσ
  rw [semopBlock, wp_bind, wp_current hp]
  by_cases hroom : σ.waiting a ≠ [] ∨ σ.free ≠ []
  · obtain ⟨s', d, asl', free', hrun, h', hmem', hcs⟩ := h.run_insertBlocked hheld hroom
    simp only [wp_bind, wp_liftQ, hrun, wp_ite, if_true, wp_modify, wp_pure]
    refine wp_getTODLO (fun t k₁ hc₁ hb₁ => wp_onHandlerExit (fun k₂ hc₂ hb₂ => ?_))
    have hcore : k₂.core = { k.core with
        toQueues := s', resRequested := update k.resRequested p (-w) } := hc₂.trans hc₁
    have hb : Beside k k₂ := (beside_core ..).trans (hb₁.trans hb₂)
    have hq : k₂.toQueues = s' := congrArg Core.toQueues hcore
    have hreq : k₂.resRequested = update k.resRequested p (-w) := congrArg Core.resRequested hcore
    have hmem : k₂.mem = k.mem := congrArg Core.mem hcore
    have hcount : k₂.gProcessCount = k.gProcessCount := congrArg Core.gProcessCount hcore
    have htree : k₂.toTree = k.toTree := congrArg Core.toTree hcore
    have hpost : ∀ soft, soft = (if M.isDev a then k.gSoftBlockCount + 1 else k.gSoftBlockCount) →
        Q () { k₂ with gCurrentProcess := none, gSoftBlockCount := soft } := by
      rintro _ rfl
      refine hQ hroom _ ⟨_, σ.view.move p (.sem a), asl', free', hq ▸ h'⟩ rfl
        (hb.trans (beside_core ..)) ?_
      refine ⟨by rw [hσ]; exact hp, hheld, hshort, rfl, ?_, rfl, ?_, ?_, ?_, ?_, hmem', d, ?_⟩
      all_goals rw [hσ]
      · exact hreq
      · rfl
      · exact hmem
      · exact hcount
      · exact htree
      · show k₂.pCursem = _
        rw [hq]
        exact hcs
    have hsoft : k₂.gSoftBlockCount = k.gSoftBlockCount := congrArg Core.gSoftBlockCount hcore
    by_cases hdev : M.isDev a
    · have := hpost (k₂.gSoftBlockCount + 1) (by rw [if_pos hdev, hsoft])
      simpa only [hdev, if_true] using this
    · have := hpost k₂.gSoftBlockCount (by rw [if_neg hdev, hsoft])
      simpa only [hdev, if_false, Bool.false_eq_true] using this
  · rw [not_or, not_not, not_not] at hroom
    have hrun := run_insertBlocked_full (p := p) (a := a) (hroom.2 ▸ h.blocked) hroom.1
    simp only [wp_bind, wp_liftQ, hrun, wp_ite, Nat.one_ne_zero, if_false, wp_throw]
    exact hfull hroom.1 hroom.2

/-- **The outcomes of `semop`.**  With a positive weight it is a `V`; with a
negative one the current process takes its units or blocks. -/
theorem wp_semop (hσ : σ.core = k.core) (ha : M.kernelData a = false)
    (hcur : w.toInt < 0 → ∃ p, k.gCurrentProcess = some p ∧ σ.view.place p = .held)
    (hsignal : 0 < w.toInt →
      ∀ k' σ', σ'.core = k'.core → BesideAt M a k k' → Signal M a w σ σ' → Q () k')
    (hgrant : w.toInt < 0 →
      ∀ k' σ', σ'.core = k'.core → BesideAt M a k k' → Grant a w σ σ' → Q () k')
    (hblock : w.toInt < 0 → ∀ p, σ.waiting a ≠ [] ∨ σ.free ≠ [] →
      ∀ k' σ', σ'.core = k'.core → Beside k k' → Block M a w p σ σ' → Q () k')
    (hzero : w.toInt = 0 → E (.panic .zeroWeight) k)
    (hfull : w.toInt < 0 → σ.waiting a = [] → σ.free = [] → E (.panic .noSemaphore) k) :
    wp (semop M a w) Q E k := by
  rw [semop]
  by_cases hpos : 0 < w.toInt
  · rw [if_pos hpos]
    exact wp_semopV hσ ha (hsignal hpos)
  by_cases hneg : w.toInt < 0
  · obtain ⟨p, hp, hheld⟩ := hcur hneg
    have h := Snap.owned_of_core hσ
    have hmem : σ.core.mem = k.mem := by rw [hσ]; rfl
    rw [if_neg hpos, if_pos hneg]
    simp only [semopP, wp_bind, wp_liftQ, h.run_headBlocked a, wp_readInt ha, wp_ite]
    by_cases hshort : σ.waiting a ≠ [] ∨ (σ.core.mem a + w).toInt < 0
    · rw [if_pos (by rwa [Option.isSome_iff_ne_none, ne_eq, List.head?_eq_none_iff, ← hmem])]
      exact wp_semopBlock hσ hp hheld hshort (hblock hneg p) (hfull hneg)
    · rw [if_neg (by rwa [Option.isSome_iff_ne_none, ne_eq, List.head?_eq_none_iff, ← hmem]),
        wp_writeInt ha]
      rw [not_or, not_not, not_lt] at hshort
      refine hgrant hneg _ ⟨{ k.core with mem := update k.mem a (k.mem a - -w) }, σ.view, σ.asl,
        σ.free, h⟩ rfl ?_ ⟨hshort.1, hshort.2, rfl, rfl, rfl, ?_⟩
      · refine ⟨⟨fun _ => .refl _, rfl, rfl, rfl, rfl, rfl, rfl, rfl, rfl, rfl⟩, ?_⟩
        exact congrArg (M.regStore k.reg a) (Function.update_self a _ k.mem).symm
      · rw [hσ]
        rfl
  · rw [if_neg hpos, if_neg hneg, wp_throw]
    exact hzero (by omega)

end Specs

end JaeOS
