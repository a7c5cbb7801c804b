import JaeOS.Properties.Uarm

/-!
# Who owns what

In every run the kernel admits, every block is on exactly one list or is the
current process.
-/

namespace JaeOS

open Function (update)
open Forest (Progeny)

variable {n : ℕ} {M : Machine} {k : Kernel n} {σ σ' : Snap n} {p q : Fin n} {e : Entry}
  {c : Config maxProc} {L : Set (Fin maxProc)}

/-! ### Blocks -/

inductive Spot
  | pcbFree
  | gReadyQueue
  | sProcq (d : Semd)
  | gCurrentProcess
deriving DecidableEq

structure Lists (n : ℕ) where
  free : List (Fin n)
  ready : List (Fin n)
  asl : List Semd
  procq : Semd → List (Fin n)

/-- The list heads and links say what the lists say. -/
structure Lists.Holds (l : Lists n) (k : Kernel n) : Prop where
  free : k.Queue .pcbFree l.free
  ready : k.Queue .gReadyQueue l.ready
  asl : k.asl.Holds l.asl
  procq : ∀ d ∈ l.asl, k.Queue (.sProcq d) (l.procq d)

def Spot.Has (l : Lists n) (k : Kernel n) (p : Fin n) : Spot → Prop
  | .pcbFree => p ∈ l.free
  | .gReadyQueue => p ∈ l.ready
  | .sProcq d => d ∈ l.asl ∧ p ∈ l.procq d
  | .gCurrentProcess => k.gCurrentProcess = some p

/-- Every block is in one place, the free ones are not alive, and the counter
counts the others. -/
structure Partitioned (k : Kernel n) (live : Set (Fin n)) (l : Lists n) : Prop where
  lists : l.Holds k
  once : ∀ p, ∃! w : Spot, w.Has l k p
  free : ∀ p, p ∈ l.free ↔ p ∉ live
  count : k.gProcessCount.toNat = live.ncard

/-- The ownership of the blocks in a state between two entries: no handler has
lost its way, the blocks are partitioned, and creation finds a block of no
process. -/
def BlocksOwned (c : Config maxProc) (live : Set (Fin maxProc)) : Prop :=
  (∀ f, c.stop ≠ .fault f) ∧ (∃ l, Partitioned c.k live l) ∧
    (c.k.gProcessCount.toNat < maxProc →
      ∃ p k', allocPcb.run c.k = .ok (some p) k' ∧ p ∉ live)

def Snap.lists (σ : Snap n) : Lists n where
  free := σ.view.list .free
  ready := σ.view.list .ready
  asl := σ.asl
  procq d := σ.waiting (σ.core.sSemAdd d)

theorem Snap.lists_holds (hσ : σ.core = k.core) : σ.lists.Holds k := by
  have h := Snap.owned_of_core hσ
  refine ⟨h.listed .free _ rfl, h.listed .ready _ rfl, h.blocked.aslh, fun d hd => ?_⟩
  have := h.blocked.procq d hd
  rw [Snap.lists, hσ]
  exact this

/-- **A placement puts every block in one spot.** -/
theorem Snap.once (hσ : σ.core = k.core) (hc : Consistent σ) (p : Fin n) :
    ∃! w : Spot, w.Has σ.lists k p := by
  have h := σ.owned
  have hcur : σ.view.place p = .held ↔ k.gCurrentProcess = some p := by
    rw [hc.current p, hσ]
    rfl
  have hhas : ∀ w : Spot, w.Has σ.lists k p ↔ match w with
      | .pcbFree => σ.view.place p = .free
      | .gReadyQueue => σ.view.place p = .ready
      | .sProcq d => d ∈ σ.asl ∧ σ.view.place p = .sem (σ.core.sSemAdd d)
      | .gCurrentProcess => σ.view.place p = .held := by
    intro w
    cases w with
    | pcbFree => exact σ.view.mem _ p
    | gReadyQueue => exact σ.view.mem _ p
    | sProcq d => exact and_congr_right (fun _ => σ.view.mem _ p)
    | gCurrentProcess => exact hcur.symm
  simp only [hhas]
  cases hpl : σ.view.place p with
  | free => exact ⟨.pcbFree, rfl, fun w hw => by cases w <;> simp_all⟩
  | ready => exact ⟨.gReadyQueue, rfl, fun w hw => by cases w <;> simp_all⟩
  | held => exact ⟨.gCurrentProcess, rfl, fun w hw => by cases w <;> simp_all⟩
  | sem a =>
    obtain ⟨d, hd, hadd, -⟩ := h.blocked.exists_cursem ((σ.view.mem _ p).mpr hpl)
    refine ⟨.sProcq d, ⟨hd, by rw [hadd]⟩, fun w hw => ?_⟩
    cases w with
    | sProcq e =>
      obtain ⟨he, heq⟩ := hw
      rw [h.blocked.sSemAdd_injOn he hd ((Place.sem.inj heq).symm.trans hadd.symm)]
    | pcbFree => exact nomatch hw
    | gReadyQueue => exact nomatch hw
    | gCurrentProcess => exact nomatch hw

theorem Between.count {σ : Snap maxProc} (h : Between c L σ) :
    c.k.gProcessCount.toNat = L.ncard := by
  have hcount := h.consistent.count
  have hlive : Lᶜ = ((σ.view.list .free).toFinset : Set (Fin maxProc)) := by
    ext q
    rw [Set.mem_compl_iff, ← h.live q, not_not, Finset.mem_coe, List.mem_toFinset]
    exact (σ.view.mem .free q).symm
  have hcard := Set.ncard_add_ncard_compl L
  rw [hlive, Set.ncard_coe_finset, List.toFinset_card_of_nodup (σ.view.nodup .free),
    Nat.card_eq_fintype_card, Fintype.card_fin] at hcard
  have hcore : σ.core.gProcessCount = c.k.gProcessCount := congrArg Core.gProcessCount h.core
  rw [hcore] at hcount
  omega

theorem Between.partitioned {σ : Snap maxProc} (h : Between c L σ) :
    Partitioned c.k L σ.lists := by
  refine ⟨Snap.lists_holds h.core, Snap.once h.core h.consistent, fun p => ?_, h.count⟩
  rw [← h.live p, not_not]
  exact σ.view.mem .free p

theorem Between.blocksOwned {σ : Snap maxProc} (h : Between c L σ) : BlocksOwned c L := by
  refine ⟨h.sound, ⟨_, h.partitioned⟩, fun hroom => ?_⟩
  obtain ⟨p, ps, hl⟩ : ∃ p ps, σ.view.list .free = p :: ps := by
    have hcount := h.consistent.count
    rw [h.core] at hcount
    refine List.exists_cons_of_ne_nil (fun hnil => ?_)
    rw [hnil] at hcount
    exact absurd hcount (Nat.ne_of_lt hroom)
  have hp : σ.view.place p = .free := (σ.view.mem _ p).mp (by simp [hl])
  obtain ⟨kids, ht⟩ := h.consistent.tree
  rw [h.core] at ht
  obtain ⟨hroot, hleaf⟩ := h.consistent.isolated h.core hp
  obtain ⟨r, k', hrun, rfl⟩ := wp_false (wp_allocPcb (Q := fun r _ => r = some p) h.core hl ht hroot
    hleaf (fun _ _ _ _ _ _ => rfl))
  exact ⟨p, k', hrun, fun hm => (h.live p).mpr hm hp⟩

/-- **Ownership of the blocks.**  In every run in which no process is terminated on
the ready queue with a `p_cursem` from an earlier wait, and no tick without a
current process finds the time slice at `NULL` used up, every block is in one place
between two entries: on the free list, on the ready queue, on the queue of one
active descriptor, or current. -/
theorem reaches_blocksOwned (hL : Layout M) (h : Reaches M (fun k e => k.Admits M e) c L) :
    BlocksOwned c L := by
  obtain ⟨σ, hb⟩ := h.exists_between hL
  exact hb.blocksOwned

/-- Two processes are left, and both wait. -/
theorem reaches_blocksOwned_comeAndGo : ∃ L, L.ncard = 2 ∧
    BlocksOwned (afterAll uarm comeAndGo) L := by
  have htest : ∀ (k : Kernel maxProc) e, k.tame uarm e = true → k.Admits uarm e :=
    fun _ _ h => .of_tame h
  obtain ⟨L, hreach, hcount⟩ := reaches_afterAll (M := uarm) htest comeAndGo
    (fun c => c.k.gProcessCount == 2) (by decide +kernel)
  have howned := reaches_blocksOwned layout_uarm hreach
  refine ⟨L, ?_, howned⟩
  obtain ⟨l, hl⟩ := howned.2.1
  rw [← hl.count, beq_iff_eq.mp hcount]
  rfl

/-- A child waits for a unit at `0x20000`, gets it from its parent, and is
terminated while it is ready: it stays on the ready queue. -/
def killReady : List Event :=
  [sys 1 0 0 0, timerInterrupt, sys 3 0x20000 (-1) 0, sys 3 0x20000 1 0, sys 2 66 0 0]

/-- Legal entries alone do not keep the ownership of the blocks. -/
theorem not_blocksOwned_of_legal :
    ¬ ∀ c L, Reaches uarm (fun k e => k.Legal uarm e) c L → BlocksOwned c L := by
  intro hall
  obtain ⟨c, L, hreach, hc⟩ := reaches_legal killReady
    (fun c => c.k.gReadyQueue == some ⟨1, by decide⟩ && c.k.pcbFree == some ⟨1, by decide⟩)
    (by decide +kernel)
  obtain ⟨-, ⟨l, hl⟩, -⟩ := hall c L hreach
  rw [Bool.and_eq_true, beq_iff_eq, beq_iff_eq] at hc
  have hready : Spot.Has l c.k ⟨1, by decide⟩ .gReadyQueue :=
    List.mem_of_getLast? (hl.lists.ready.tail_eq.symm.trans hc.1)
  have hfree : Spot.Has l c.k ⟨1, by decide⟩ .pcbFree :=
    List.mem_of_getLast? (hl.lists.free.tail_eq.symm.trans hc.2)
  exact nomatch (hl.once _).unique hready hfree

end JaeOS
