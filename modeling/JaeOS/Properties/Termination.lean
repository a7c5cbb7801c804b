import JaeOS.Properties.Descriptors

/-!
# The effect of `terminateProgeny`

When the `p_cursem` of a live process says where it waits, and nothing else,
`terminateProgeny` removes a process with all its descendants and leaves the others
alone: their tree, their order in every queue, and the descriptors they use.
-/

namespace JaeOS

open Forest (Progeny)

variable {n : ℕ} {M : Machine} {k k' : Kernel n} {σ σ' : Snap n} {p q c : Fin n}
  {ds : List (Fin n)} {kids kids' : Fin n → List (Fin n)}

/-! ### The property -/

/-- A live process has a `p_cursem` exactly when it is on the queue of a semaphore. -/
def Snap.CursemRight (σ : Snap n) : Prop :=
  ∀ q, σ.view.place q ≠ .free → (σ.core.pCursem q ≠ none ↔ ∃ a, σ.view.place q = .sem a)

/-- The blocks in the tree are alive. -/
def Snap.TreeAlive (σ : Snap n) : Prop := ∀ q, σ.view.place q = .free → σ.core.pParent q = none

/-- A descriptor with an empty queue. -/
def Snap.Unused (σ : Snap n) (d : Semd) : Bool := (σ.waiting (σ.core.sSemAdd d)).isEmpty

/-- The process `p` and its descendants, the blocks `ds`, are gone, each freed once,
and the others are as they were. -/
structure Removed (p : Fin n) (ds : List (Fin n)) (k k' : Kernel n) (σ σ' : Snap n)
    (kids kids' : Fin n → List (Fin n)) : Prop where
  core : σ'.core = k'.core
  nodup : ds.Nodup
  progeny : ∀ q, q ∈ ds ↔ Progeny k.pParent p q
  freed : σ'.view.list .free = σ.view.list .free ++ ds
  lists : ∀ pl, pl ≠ .free → σ'.view.list pl = (σ.view.list pl).filter (· ∉ ds)
  tree : TreeRep k'.toTree kids'
  parent : ∀ q, k'.pParent q = if q ∈ ds then none else k.pParent q
  children : ∀ q, q ∉ ds → kids' q = (kids q).erase p
  asl : σ'.asl = σ.asl.filter (fun d => !σ'.Unused d)
  semdFree : σ'.free.Perm (σ.free ++ σ.asl.filter σ'.Unused)
  count : k'.gProcessCount = k.gProcessCount - BitVec.ofNat 32 ds.length
  current : k'.gCurrentProcess = k.gCurrentProcess
  requests : k'.resRequested = k.resRequested
  mem : k'.mem = k.mem
  beside : Beside k k'

/-! ### Descriptors -/

/-- **The active list loses the descriptors that are not used any more**, and keeps
its order. -/
theorem Snap.Shrinks.asl_eq (h : σ.Shrinks σ') :
    σ'.asl = σ.asl.filter (fun d => !σ'.Unused d) := by
  have hadd := h.sameSemd.2
  have hused : ∀ d ∈ σ.asl, (!σ'.Unused d) = true ↔ d ∈ σ'.asl := by
    intro d hd
    rw [h.mem_asl_iff hd, Snap.Unused, Bool.not_eq_true', List.isEmpty_eq_false_iff, hadd]
  have hperm : σ'.asl.Perm (σ.asl.filter (fun d => !σ'.Unused d)) := by
    refine (List.perm_ext_iff_of_nodup σ'.owned.blocked.aslh.nodup
      (σ.owned.blocked.aslh.nodup.filter _)).mpr (fun d => ?_)
    rw [List.mem_filter]
    constructor
    · intro hd
      have hd' := h.mem_asl hd
      exact ⟨hd', (hused d hd').mpr hd⟩
    · rintro ⟨hd, hu⟩
      exact (hused d hd).mp hu
  -- both lists ascend by address
  have hanti : ∀ d e, d ∈ σ'.asl → e ∈ σ.asl.filter (fun d => !σ'.Unused d) →
      σ.core.sSemAdd d < σ.core.sSemAdd e → σ.core.sSemAdd e < σ.core.sSemAdd d → d = e := by
    intro d e _ _ hde hed
    exact absurd (BitVec.lt_asymm hde) (not_not.mpr hed)
  refine List.Perm.eq_of_pairwise hanti ?_ ?_ hperm
  · have hsorted := σ'.owned.blocked.sorted
    rw [hadd, List.pairwise_map] at hsorted
    exact hsorted
  · have hsorted := σ.owned.blocked.sorted
    rw [List.pairwise_map] at hsorted
    exact hsorted.filter _

theorem Snap.Shrinks.free_perm (h : σ.Shrinks σ') :
    σ'.free.Perm (σ.free ++ σ.asl.filter σ'.Unused) := by
  have hunused : ∀ d ∈ σ.asl, σ'.Unused d = true ↔ d ∈ σ'.free := by
    intro d hd
    rw [h.mem_free_iff hd, Snap.Unused, List.isEmpty_iff, h.sameSemd.2]
  have hnd : (σ.free ++ σ.asl.filter σ'.Unused).Nodup := by
    refine σ.owned.blocked.semdFree.nodup.append (σ.owned.blocked.aslh.nodup.filter _) ?_
    intro d hd hd'
    exact σ.owned.blocked.disjoint (List.mem_of_mem_filter hd') hd
  refine (List.perm_ext_iff_of_nodup σ'.owned.blocked.semdFree.nodup hnd).mpr (fun d => ?_)
  rw [List.mem_append, List.mem_filter]
  constructor
  · intro hd
    rcases (h.conserves d).mp (.inr hd) with hasl | hfree
    · exact .inr ⟨hasl, (hunused d hasl).mpr hd⟩
    · exact .inl hfree
  · rintro (hfree | ⟨hasl, hu⟩)
    · exact h.mem_free hfree
    · exact (hunused d hasl).mp hu

theorem Releases.shrinks (h : Releases M ds σ σ') (hnd : ds.Nodup)
    (hheld : ∀ q ∈ ds, σ.view.place q = .held → σ.core.pCursem q = none) : σ.Shrinks σ' := by
  refine ⟨?_, h.sameSemd, h.conserves hnd hheld⟩
  intro a q hq
  rw [Snap.waiting, h.list (by simp)] at hq
  exact List.mem_of_mem_filter hq

/-! ### The tree -/

theorem Pruned.children {t t' : Tree n} (h : Pruned t t' kids kids' ds) (ht : TreeRep t kids)
    (hds : ∀ q, q ∈ ds ↔ Progeny t.pParent p q) (hq : q ∉ ds) : kids' q = (kids q).erase p := by
  rw [h.kept q hq, (ht.children q).nodup.erase_eq_filter]
  refine List.filter_congr (fun c hc => ?_)
  have hpar : t.pParent c = some q := (ht.parent q c).mp hc
  by_cases hcp : c = p
  · have hmem : p ∈ ds := (hds p).mpr .refl
    simp [hcp, hmem]
  · -- a child of a survivor survives, unless it is `p`
    have hnot : c ∉ ds := by
      intro hm
      rcases ((hds c).mp hm).cases with heq | ⟨r, hr, hcr⟩
      · exact hcp heq
      · obtain rfl : q = r := Option.some.inj (hpar.symm.trans hcr)
        exact hq ((hds q).mpr hr)
    simp [hcp, hnot]

/-! ### The whole function -/

/-- **`terminateProgeny` removes exactly one subtree.**  For a live process in a
well formed forest, with `p_cursem` set for the waiting processes only, it ends, with
any fuel that is enough for `n` blocks. -/
theorem terminateProgeny_removes (hσ : σ.core = k.core) (ht : TreeRep k.toTree kids)
    (halive : σ.TreeAlive) (hcs : σ.CursemRight) (hp : σ.view.place p ≠ .free) {fuel : ℕ}
    (hfuel : n ≤ fuel) :
    ∃ k' σ' kids' ds, terminateProgeny M fuel p k = .ok () k' ∧
      Removed p ds k k' σ σ' kids kids' := by
  have hpar := Snap.pParent_eq hσ
  have hsize : Forest.SizeLE k.pParent p fuel := by
    obtain ⟨S, hS, hcard⟩ : Forest.SizeLE k.pParent p _ := Forest.sizeLE_card
    rw [Fintype.card_fin] at hcard
    exact ⟨S, hS, hcard.trans hfuel⟩
  have hlive : ∀ q, Progeny k.pParent p q → σ.view.place q ≠ .free := by
    intro q hq hfree
    rcases hq.cases with rfl | ⟨r, -, hr⟩
    · exact hp hfree
    · rw [← hpar, halive q hfree] at hr
      exact nomatch hr
  have hnone : ∀ q, Progeny k.pParent p q → (∀ a, σ.view.place q ≠ .sem a) →
      σ.core.pCursem q = none := by
    intro q hq hsem
    by_contra hne
    obtain ⟨a, ha⟩ := (hcs q (hlive q hq)).mp hne
    exact hsem a ha
  have hwp : wp (terminateProgeny M fuel p) (fun _ k' => ∃ σ' kids' ds,
      Removed p ds k k' σ σ' kids kids') (fun _ _ => False) k := by
    refine wp_terminateProgeny fuel p k σ kids _ hσ ht hsize (fun q hq => ?_)
      (fun k' σ' kids' ds hcl hpds => ?_)
    · exact ⟨hlive q hq, fun hready => hnone q hq (by simp [hready])⟩
    · have hds : ∀ q, q ∈ ds ↔ Progeny k.pParent p q := fun q =>
        ⟨fun hq => hcl.below q hq, fun hq => hcl.mem_of_progeny hpds hq⟩
      have hshrinks := hcl.releases.shrinks hcl.nodup
        (fun q hq hheld => hnone q ((hds q).mp hq) (by simp [hheld]))
      refine ⟨σ', kids', ds, hcl.core, hcl.nodup, hds, hcl.releases.list_free,
        fun pl hpl => hcl.releases.list hpl, hcl.pruned.rep, hcl.pruned.parent,
        fun q hq => hcl.pruned.children ht hds hq, hshrinks.asl_eq, hshrinks.free_perm, ?_,
        hcl.current, ?_, ?_, hcl.beside⟩
      · have := hcl.releases.count
        rw [hσ, hcl.core] at this
        exact this
      · have := hcl.releases.resRequested
        rw [hσ, hcl.core] at this
        exact this
      · have := hcl.releases.mem
        rw [hσ, hcl.core] at this
        exact this
  obtain ⟨_, k', hrun, σ', kids', ds, h⟩ := wp_false hwp
  exact ⟨k', σ', kids', ds, hrun, h⟩

/-- Block 1 is a child of block 0 and has two children, 2 and 3.  Block 2 waits at `0x20000`, 1 and
3 are ready. -/
def waitingChild : List Event :=
  [sys 1 0 0 0, timerInterrupt, sys 1 0 0 0, sys 1 0 0 0, timerInterrupt, timerInterrupt,
    sys 3 0x20000 (-1) 0, timerInterrupt, timerInterrupt]

/-- A subtree of three: its root and one child are ready, the other child waits. -/
theorem terminateProgeny_removes_waitingChild : ∃ (b₁ b₂ b₃ : Fin maxProc)
    (k' : Kernel maxProc) (σ σ' : Snap maxProc) (kids kids' : Fin maxProc → List (Fin maxProc))
    (ds : List (Fin maxProc)),
      σ.view.list .ready = [b₃, b₁] ∧ σ.waiting 0x20000 = [b₂] ∧ b₂ ∈ ds ∧ b₃ ∈ ds ∧
      terminateProgeny uarm maxProc b₁ (afterAll uarm waitingChild).k = .ok () k' ∧
      Removed b₁ ds (afterAll uarm waitingChild).k k' σ σ' kids kids' := by
  let b₁ : Fin maxProc := ⟨1, by decide⟩
  let b₂ : Fin maxProc := ⟨2, by decide⟩
  let b₃ : Fin maxProc := ⟨3, by decide⟩
  let d : Semd := ⟨0, by decide⟩
  have htest : ∀ (k : Kernel maxProc) e, k.tame uarm e = true → k.Admits uarm e :=
    fun _ _ h => .of_tame h
  obtain ⟨L, hreach, hstate⟩ := reaches_afterAll (M := uarm) htest waitingChild
    (fun c => decide (c.k.aslh = some d ∧ c.k.sSemAdd d = 0x20000 ∧ c.k.sProcq d = some b₂ ∧
      c.k.pList b₂ = some b₂ ∧ c.k.gReadyQueue = some b₁ ∧ c.k.pList b₁ = some b₃ ∧
      c.k.pList b₃ = some b₁ ∧ c.k.pParent b₂ = some b₁ ∧ c.k.pParent b₃ = some b₁ ∧
      ∀ q, c.k.pCursem q ≠ none ↔ q = b₂)) (by decide +kernel)
  simp only [decide_eq_true_eq] at hstate
  generalize afterAll uarm waitingChild = c at hreach hstate
  obtain ⟨hasl, hadd, hproc, halone, hready, h₁, h₃, hpar₂, hpar₃, hcs⟩ := hstate
  obtain ⟨σ, hb⟩ := hreach.exists_between layout_uarm
  obtain ⟨kids, ht⟩ := hb.consistent.tree
  rw [hb.core] at ht
  have hwait : σ.waiting 0x20000 = [b₂] := by
    rw [← hadd]
    exact Snap.waiting_eq hb.core hasl (queue_singleton hproc halone)
  have hlist : σ.view.list .ready = [b₃, b₁] :=
    ((Snap.owned_of_core hb.core).listed .ready _ rfl).unique
      (queue_pair hready h₁ h₃ (by decide))
  have hcursem : σ.CursemRight := by
    intro q hq
    rw [hb.core]
    constructor
    · intro hne
      obtain rfl := (hcs q).mp hne
      have hmem : b₂ ∈ σ.waiting 0x20000 := hwait ▸ List.mem_singleton_self b₂
      exact ⟨0x20000, (σ.view.mem _ b₂).mp hmem⟩
    · rintro ⟨a, ha⟩
      obtain ⟨d, -, -, hd⟩ := (Snap.owned_of_core hb.core).blocked.exists_cursem
        (show q ∈ σ.waiting a from (σ.view.mem _ q).mpr ha)
      simp [show c.k.core.pCursem q = some d from hd]
  have hplace : σ.view.place b₁ ≠ .free := by
    rw [(σ.view.mem .ready b₁).mp (by simp [hlist])]
    simp
  obtain ⟨k', σ', kids', ds, hrun, h⟩ := terminateProgeny_removes (M := uarm) (p := b₁) hb.core ht
    (fun q hq => (hb.consistent.rooted q hq).1) hcursem hplace (le_refl maxProc)
  have hroot : Progeny c.k.pParent b₁ b₁ := .refl
  exact ⟨b₁, b₂, b₃, k', σ, σ', kids, kids', ds, hlist, hwait,
    (h.progeny _).mpr (hroot.tail hpar₂), (h.progeny _).mpr (hroot.tail hpar₃), hrun, h⟩

end JaeOS
