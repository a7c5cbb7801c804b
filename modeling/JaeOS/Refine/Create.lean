import JaeOS.Refine.Process
import JaeOS.Model.Init

/-!
# Creation

`allocPcb` takes the first free block and clears it; `createProcess` gives it to
the current process as a child and to the ready queue.  `main` does the same for
the first process, after all blocks and descriptors have been put on their free
lists.
-/

namespace JaeOS

open Function (update)
open Forest (Progeny)

variable {n : ℕ} {M : Machine} {k k' : Kernel n} {σ σ' : Snap n} {p q c : Fin n}
  {s : Queues n} {t : Tree n} {v : View n} {asl free : List Semd} {kids : Fin n → List (Fin n)}

/-! ### A cleared block -/

theorem Owned.memset (h : Owned s v asl free) (hp : v.place p = .held) :
    Owned { s with pCursem := update s.pCursem p none, pList := update s.pList p none }
      v asl free := by
  have hne : ∀ pl, pl ≠ .held → ∀ x ∈ v.list pl, x ≠ p := by
    rintro pl hpl x hx rfl
    exact hpl (((v.mem pl x).mp hx).symm.trans hp)
  have hsem : ∀ a, ∀ x ∈ v.queues a, x ≠ p := fun a => hne (.sem a) (by simp)
  constructor
  · intro pl q hq
    have hpl : pl ≠ .held := by
      rintro rfl
      simp [Place.procQ] at hq
    refine Clist.Holds.congr (h.listed pl q hq) ?_ (fun x hx => ?_)
    · cases q <;> rfl
    · rw [procQ_next, procQ_next]
      exact Function.update_of_ne (hne pl hpl x hx) _ _
  · exact h.blocked.congr h.blocked.aslh h.blocked.semdFree rfl rfl
      (fun a x hx => Function.update_of_ne (hsem a x hx) _ _)
      (fun a x hx => Function.update_of_ne (hsem a x hx) _ _)

theorem TreeRep.memset (h : TreeRep t kids) (hp : t.pParent p = none)
    (hleaf : ∀ c, t.pParent c ≠ some p) :
    TreeRep { pParent := update t.pParent p none, pChildren := update t.pChildren p none,
              pSiblings := update t.pSiblings p none } kids := by
  have hpar : update t.pParent p none = t.pParent := Function.update_eq_self_iff.mpr hp.symm
  have hkids : kids p = [] := by
    rw [List.eq_nil_iff_forall_not_mem]
    exact fun c hc => hleaf c ((h.parent p c).mp hc)
  refine ⟨fun q => ?_, fun q c => by rw [hpar]; exact h.parent q c, by rw [hpar]; exact h.ranked⟩
  have hnot : p ∉ kids q := fun hm => by
    have := (h.parent q p).mp hm
    rw [hp] at this
    exact nomatch this
  by_cases hqp : q = p
  · subst hqp
    rw [hkids]
    exact Clist.holds_nil (Function.update_self ..)
  · exact (h.children q).congr (Function.update_of_ne hqp _ _)
      (fun x hx => Function.update_of_ne (ne_of_mem_of_not_mem hx hnot) _ _)

/-! ### `allocPcb` -/

/-- The first free block is in hand, with its fields cleared. -/
structure Alloc (c : Fin n) (σ σ' : Snap n) : Prop where
  first : (σ.view.list .free).head? = some c
  view : σ'.view = σ.view.move c .held
  asl : σ'.asl = σ.asl
  free : σ'.free = σ.free
  cursem : σ'.core.pCursem = update σ.core.pCursem c none
  sSemAdd : σ'.core.sSemAdd = σ.core.sSemAdd
  resRequested : σ'.core.resRequested = update σ.core.resRequested c 0
  count : σ'.core.gProcessCount = σ.core.gProcessCount
  soft : σ'.core.gSoftBlockCount = σ.core.gSoftBlockCount
  current : σ'.core.gCurrentProcess = σ.core.gCurrentProcess
  mem : σ'.core.mem = σ.core.mem
  parent : σ'.core.pParent = update σ.core.pParent c none

/-- What creation leaves alone outside the core: everything but the new block and
the result register. -/
structure Apart (c : Fin n) (k k' : Kernel n) : Prop where
  saved : ∀ x, x ≠ c → (k.pcb x).SameSaved (k'.pcb x)
  mStateLoaded : k'.mStateLoaded = k.mStateLoaded
  gPseudoClockBlk : k'.gPseudoClockBlk = k.gPseudoClockBlk
  nullSlice : k'.nullSlice = k.nullSlice

section Specs

variable {E : Stop → Kernel n → Prop}

/-- **`allocPcb` takes the first free block.** -/
theorem wp_allocPcb {Q : Option (Fin n) → Kernel n → Prop} {cs : List (Fin n)}
    (hσ : σ.core = k.core) (hl : σ.view.list .free = c :: cs) (ht : TreeRep k.toTree kids)
    (hp : k.pParent c = none) (hleaf : ∀ x, k.pParent x ≠ some c)
    (hQ : ∀ k' σ', σ'.core = k'.core → Apart c k k' → Alloc c σ σ' → TreeRep k'.toTree kids →
      Q (some c) k') : wp allocPcb Q E k := by
  have h := Snap.owned_of_core hσ
  obtain ⟨s', hrem, h', hsame⟩ := h.run_removeProcQ rfl hl
  simp only [allocPcb, wp_bind, wp_liftQ, hrem, wp_modify, wp_pure]
  let k' : Kernel n := Kernel.memset { k with toQueues := s' } c
  have howned : Owned k'.toQueues (σ.view.move c .held) σ.asl σ.free :=
    h'.memset Placement.move_place_self
  refine hQ k' ⟨k'.core, _, σ.asl, σ.free, howned⟩ rfl ?_ ?_ (ht.memset hp hleaf)
  · refine ⟨fun x hx => ?_, rfl, rfl, rfl⟩
    have hpcb : k'.pcb x = k.pcb x := Function.update_of_ne hx _ _
    rw [hpcb]
    exact .refl _
  · refine ⟨by rw [hl]; rfl, rfl, rfl, rfl, ?_, ?_, ?_, ?_, ?_, ?_, ?_, ?_⟩
    all_goals rw [hσ]
    · show update s'.pCursem c none = _
      rw [hsame.1]
      rfl
    · exact hsame.2
    all_goals rfl

end Specs

/-! ### `createProcess` -/

/-- The current process `p` has a new child `c`, which is ready. -/
structure Create (p c : Fin n) (σ σ' : Snap n) : Prop where
  room : σ.core.gProcessCount.toNat < maxProc
  parent : σ.core.gCurrentProcess = some p
  first : (σ.view.list .free).head? = some c
  view : σ'.view = σ.view.move c .ready
  asl : σ'.asl = σ.asl
  free : σ'.free = σ.free
  cursem : σ'.core.pCursem = update σ.core.pCursem c none
  sSemAdd : σ'.core.sSemAdd = σ.core.sSemAdd
  resRequested : σ'.core.resRequested = update σ.core.resRequested c 0
  count : σ'.core.gProcessCount = σ.core.gProcessCount + 1
  soft : σ'.core.gSoftBlockCount = σ.core.gSoftBlockCount
  current : σ'.core.gCurrentProcess = σ.core.gCurrentProcess
  mem : σ'.core.mem = σ.core.mem

theorem count_succ {x : Word} (h : x.toNat < maxProc) : (x + 1).toNat = x.toNat + 1 := by
  have hlt : x.toNat < 20 := h
  have hone : (1 : Word).toNat = 1 := rfl
  rw [BitVec.toNat_add, hone]
  omega

theorem Consistent.isolated (hc : Consistent σ) (hσ : σ.core = k.core)
    (hp : σ.view.place p = .free) : k.pParent p = none ∧ ∀ c, k.pParent c ≠ some p := by
  rw [← Snap.pParent_eq hσ]
  exact hc.rooted p hp

theorem Alloc.create {σ₁ : Snap n} {t' : Tree n} {kids' : Fin n → List (Fin n)}
    (h : Alloc c σ σ₁) (hc : Consistent σ) (hroom : σ.core.gProcessCount.toNat < maxProc)
    (hp : σ.core.gCurrentProcess = some p) (ht : TreeRep t' kids')
    (hpar : t'.pParent = update σ.core.pParent c (some p)) :
    ∃ σ' : Snap n, σ'.core = { σ₁.core with
        toQueues := σ₁.core.setProcQ .gReadyQueue ((σ₁.core.procQ .gReadyQueue).enqueue c)
        toTree := t', gProcessCount := σ₁.core.gProcessCount + 1 } ∧
      Create p c σ σ' ∧ Consistent σ' := by
  have hfree : σ.view.place c = .free := Snap.place_of_head h.first
  have hheld : σ.view.place p = .held := (hc.current p).mpr hp
  have h₁ := σ₁.owned
  rw [h.view, h.asl, h.free] at h₁
  have h₂ := h₁.insertProcQ_ready Placement.move_place_self
  rw [Placement.move_move (by simp) (by simp [hfree])] at h₂
  refine ⟨⟨_, σ.view.move c .ready, σ.asl, σ.free, h₂⟩, rfl, ?_, ?_⟩
  · refine ⟨hroom, hp, h.first, rfl, rfl, rfl, ?_, ?_, h.resRequested, ?_, h.soft, h.current, h.mem⟩
    · rw [← h.cursem]
      exact setProcQ_pCursem
    · rw [← h.sSemAdd]
      exact setProcQ_sSemAdd
    · rw [← h.count]
  · refine ⟨?_, ⟨kids', ht⟩, fun q hq => ?_, fun q => ?_⟩
    · obtain ⟨cs, hl⟩ := List.head?_eq_some_iff.mp h.first
      have hcount := hc.count
      have hlist : (σ.view.move c .ready).list .free = cs := by
        rw [Placement.move_list_of_ne (by simp), hl, List.erase_cons_head]
      show (σ₁.core.gProcessCount + 1).toNat + ((σ.view.move c .ready).list .free).length = n
      rw [hlist, h.count, count_succ hroom]
      rw [hl, List.length_cons] at hcount
      omega
    · have hqc : q ≠ c := by
        rintro rfl
        rw [Placement.move_place_self] at hq
        exact nomatch hq
      rw [Placement.move_place_of_ne hqc] at hq
      obtain ⟨hroot, hleaf⟩ := hc.rooted q hq
      show t'.pParent q = none ∧ ∀ x, t'.pParent x ≠ some q
      rw [hpar, Function.update_of_ne hqc]
      refine ⟨hroot, fun x hx => ?_⟩
      by_cases hxc : x = c
      · rw [hxc, Function.update_self] at hx
        obtain rfl : p = q := Option.some.inj hx
        rw [hq] at hheld
        exact nomatch hheld
      · rw [Function.update_of_ne hxc] at hx
        exact hleaf x hx
    · show (σ.view.move c .ready).place q = .held ↔ σ₁.core.gCurrentProcess = some q
      rw [h.current, ← hc.current q]
      by_cases hqc : q = c
      · rw [hqc, Placement.move_place_self, hfree]
        simp
      · rw [Placement.move_place_of_ne hqc]

section Specs

variable {Q : Unit → Kernel n → Prop} {E : Stop → Kernel n → Prop}

/-- **`createProcess` makes a free block a ready child of the current process**,
or reports that there is none. -/
theorem wp_createProcess {npstate : ProcState} (hσ : σ.core = k.core) (hc : Consistent σ)
    (hn : maxProc ≤ n) (hp : k.gCurrentProcess = some p)
    (hfull : ¬ k.gProcessCount.toNat < maxProc →
      Q () { k with sysbold := { k.sysbold with a1 := -1 } })
    (hcreate : ∀ c k' σ', σ'.core = k'.core → Apart c k k' → Create p c σ σ' → Consistent σ' →
      Q () k') : wp (createProcess npstate) Q E k := by
  have hcount := hc.count
  rw [hσ] at hcount
  simp only [createProcess, wp_bind, wp_get, wp_ite, wp_modify]
  by_cases hroom : k.gProcessCount.toNat < maxProc
  · rw [if_pos hroom]
    obtain ⟨c, cs, hl⟩ : ∃ c cs, σ.view.list .free = c :: cs := by
      refine List.exists_cons_of_ne_nil (fun hnil => ?_)
      rw [hnil, List.length_nil] at hcount
      have hk : k.gProcessCount.toNat = n := hcount
      omega
    have hfree : σ.view.place c = .free := (σ.view.mem _ c).mp (by simp [hl])
    have hheld : σ.view.place p = .held := (hc.current p).mpr (by rw [hσ]; exact hp)
    have hpc : p ≠ c := by
      rintro rfl
      rw [hfree] at hheld
      cases hheld
    obtain ⟨kids, ht⟩ := hc.tree
    rw [hσ] at ht
    obtain ⟨hroot, hleaf⟩ := hc.isolated hσ hfree
    refine wp_allocPcb hσ hl ht hroot hleaf (fun k₁ σ₁ hσ₁ hapart hall ht₁ => ?_)
    have hcur₁ : k₁.gCurrentProcess = some p := by
      have := hall.current
      rw [hσ₁, hσ] at this
      exact this.trans hp
    have hpar₁ : k₁.pParent = update k.pParent c none := by
      have := hall.parent
      rw [hσ₁, hσ] at this
      exact this
    have hleaf₁ : ∀ x, k₁.pParent x ≠ some c := by
      intro x hx
      rw [hpar₁] at hx
      by_cases hxc : x = c
      · rw [hxc, Function.update_self] at hx
        simp at hx
      · rw [Function.update_of_ne hxc] at hx
        exact hleaf x hx
    obtain ⟨t', hins, ht', hpar', -⟩ := ht₁.run_insertChild (c := c)
      (by rw [hpar₁, Function.update_self]) (Forest.not_progeny_of_leaf hleaf₁ hpc)
    obtain ⟨σ', hσ', hcr, hcons⟩ := hall.create hc (by rw [hσ]; exact hroom) (by rw [hσ]; exact hp) ht'
      (by rw [hpar', hpar₁, Function.update_idem, Snap.pParent_eq hσ])
    simp only [pidSelector, wp_bind, wp_modify, wp_get, wp_pure]
    refine (wp_current (p := p) ?_).mpr ?_
    · exact hcur₁
    simp only [wp_liftT, wp_liftQ, Kernel.setPcb, hins, run_insertProcQ]
    refine hcreate c _ σ' ?_ ⟨fun x hx => ?_, hapart.mStateLoaded, hapart.gPseudoClockBlk,
      hapart.nullSlice⟩ hcr hcons
    · rw [hσ', hσ₁]
      rfl
    · show (k.pcb x).SameSaved (update k₁.pcb c _ x)
      rw [Function.update_of_ne hx]
      exact hapart.saved x hx
  · rw [if_neg hroom]
    exact hfull hroom

end Specs

/-! ### `main` -/

/-- Every block is free. -/
def View.allFree (n : ℕ) : View n where
  place _ := .free
  list pl := if pl = .free then List.finRange n else []
  mem pl p := by
    by_cases hpl : pl = .free
    · simp [hpl]
    · simp [hpl, Ne.symm hpl]
  nodup pl := by
    split_ifs
    · exact List.nodup_finRange n
    · exact List.nodup_nil

/-- **`initPcbs` and `initASL` put everything on the free lists.** -/
theorem owned_init (s : Queues n) (hpcb : s.pcbFree = none) (hasl : s.aslh = none)
    (hsemd : s.semdFree = none) (hidle : ∀ d, s.sProcq d = none) :
    ∃ s₁ s₂, (initPcbs : Q n Unit).run s = some ((), s₁) ∧
      (initASL : Q n Unit).run s₁ = some ((), s₂) ∧ s₂.pCursem = s.pCursem ∧
      Owned { s₂ with gReadyQueue := none } (View.allFree n) [] (List.finRange maxProc) := by
  obtain ⟨c, hrun, hc⟩ := run_initPcbs (s := s) (Clist.holds_nil hpcb)
  obtain ⟨s₂, hrun₂, hrep, hlist, hfree, hready₂, hcs⟩ :=
    aslRep_initASL (s := s.setProcQ .pcbFree c) (hasl ▸ setProcQ_aslh) (hsemd ▸ setProcQ_semdFree) hidle
  refine ⟨_, s₂, hrun, hrun₂, hcs, fun pl q hq => ?_, ?_⟩
  · cases pl with
    | free =>
      obtain rfl : ProcQ.pcbFree = q := Option.some.inj hq
      exact Clist.Holds.congr hc hfree (fun x _ => congrFun hlist x)
    | ready =>
      obtain rfl : ProcQ.gReadyQueue = q := Option.some.inj hq
      exact Clist.holds_nil rfl
    | sem a => simp [Place.procQ] at hq
    | held => simp [Place.procQ] at hq
  · refine hrep.congr hrep.aslh hrep.semdFree rfl rfl ?_ ?_ <;>
      (intro _ _ h; cases h)

/-- The kernel has one process, which runs. -/
structure Initial (M : Machine) (p : Fin n) (σ : Snap n) : Prop where
  place : ∀ q, σ.view.place q = if q = p then .held else .free
  asl : σ.asl = []
  free : σ.free = List.finRange maxProc
  soft : σ.core.gSoftBlockCount = 0
  cursem : ∀ q, σ.core.pCursem q = none
  current : σ.core.gCurrentProcess = some p
  mem : ∃ x, σ.core.mem =
    update (update (clearDevS M fun _ => 0) M.gPcTimerS 0) 0x00011114 x

/-- **`main` starts the first process.** -/
theorem wp_main {Q : Unit → Kernel n → Prop} {E : Stop → Kernel n → Prop} {cs : List (Fin n)}
    (hn : List.finRange n = c :: cs) (hk : M.kernelData 0x00011114 = false)
    (hE : ∀ k' σ', σ'.core = k'.core → Consistent σ' → Initial M c σ' →
      E (.ldst (k'.pcb c).pS) k') : wp (main M) Q E (.static n) := by
  obtain ⟨s₁, s₂, hrun₁, hrun₂, hcs, h₀⟩ :=
    owned_init (Kernel.static n).toQueues rfl rfl rfl (fun _ => rfl)
  have htree : TreeRep (Kernel.static n).toTree fun _ => [] :=
    ⟨fun p => Clist.holds_nil rfl, fun p c => iff_of_false (by simp) (by intro h; cases h),
      fun _ => 0, by intro c p h; cases h⟩
  simp only [main, wp_bind, wp_liftQ, hrun₁, hrun₂, wp_modify]
  refine wp_allocPcb (σ := ⟨_, View.allFree n, [], List.finRange maxProc, h₀⟩) rfl hn htree rfl
    (by intro x h; cases h) (fun k₁ σ₁ hσ₁ hapart hall ht₁ => ?_)
  have hview : σ₁.view = (View.allFree n).move c .held := hall.view
  have hasl : σ₁.asl = [] := hall.asl
  have hfree : σ₁.free = List.finRange maxProc := hall.free
  have hcursem : σ₁.core.pCursem = update s₂.pCursem c none := hall.cursem
  have hcount : σ₁.core.gProcessCount = 1 := hall.count
  have hsoft : σ₁.core.gSoftBlockCount = 0 := hall.soft
  have hcur : σ₁.core.gCurrentProcess = none := hall.current
  have hmem : σ₁.core.mem = update (clearDevS M fun _ => 0) M.gPcTimerS 0 := hall.mem
  have hpar : σ₁.core.pParent = update (fun _ => none) c none := hall.parent
  clear hall
  rw [hσ₁] at hcursem hcount hsoft hcur hmem hpar
  -- `main` clears once more what `allocPcb` has cleared
  have hcs' : k₁.pCursem = fun _ => none := by
    funext x
    refine (congrFun hcursem x).trans ?_
    show update s₂.pCursem c none x = none
    by_cases hx : x = c
    · rw [hx, Function.update_self]
    · rw [Function.update_of_ne hx, hcs]
      rfl
  have hnoop : update k₁.pCursem c none = k₁.pCursem :=
    Function.update_eq_self_iff.mpr (by rw [hcs'])
  have ht₂ := ht₁.memset (p := c) ((congrFun hpar c).trans (Function.update_self ..)) (fun x hx => by
    cases (ht₁.parent c x).mpr hx)
  have h₁ := Snap.owned_of_core hσ₁
  rw [hview, hasl, hfree] at h₁
  have h₂ := h₁.insertProcQ_ready Placement.move_place_self
  rw [Placement.move_move (by simp) (by simp [View.allFree])] at h₂
  have hlist : ((View.allFree n).move c .ready).list .ready = [c] := by
    rw [Placement.move_list_self (by simp [View.allFree])]
    simp [View.allFree]
  have hfreeList : ((View.allFree n).move c .ready).list .free = cs := by
    rw [Placement.move_list_of_ne (by simp)]
    simp [View.allFree, hn]
  have hplace : ∀ q, ((View.allFree n).move c .ready).place q = if q = c then .ready else .free :=
    fun q => by by_cases hq : q = c <;> simp [hq, View.allFree]
  have hlen : cs.length + 1 = n := by
    rw [← List.length_cons, ← hn, List.length_finRange]
  have hsched : ∀ k₂ : Kernel n,
      k₂.toQueues = k₁.setProcQ .gReadyQueue ((k₁.procQ .gReadyQueue).enqueue c) →
      TreeRep k₂.toTree (fun _ => []) → (∀ x, k₂.pParent x = none) → k₂.gProcessCount = 1 →
      k₂.gSoftBlockCount = 0 → k₂.gCurrentProcess = none →
      k₂.mem = update (clearDevS M fun _ => 0) M.gPcTimerS 0 → wp (scheduler M) Q E k₂ := by
    intro k₂ hq ht hroot hcount₂ hsoft₂ hidle hmem₂
    rw [← hq] at h₂
    let σ₂ : Snap n := ⟨k₂.core, _, [], List.finRange maxProc, h₂⟩
    have hcons : Consistent σ₂ := by
      refine ⟨?_, ⟨_, ht⟩, fun q _ => ⟨hroot q, fun x hx => ?_⟩, fun q => ?_⟩
      · show k₂.gProcessCount.toNat + _ = n
        rw [hcount₂, hfreeList]
        show 1 + cs.length = n
        omega
      · cases (hroot x).symm.trans hx
      · show _ ↔ k₂.gCurrentProcess = some q
        rw [hidle, hplace]
        split_ifs <;> simp
    refine wp_scheduler (σ := σ₂) rfl hk ?_ ?_ ?_ ?_
    · intro p k' σ' hσ' _ hd
      obtain rfl : c = p := by
        have hfirst := hd.first
        rw [hlist] at hfirst
        exact Option.some.inj hfirst
      refine hE k' σ' hσ' (hd.consistent hcons hidle) ⟨fun q => ?_, hd.asl, hd.free, ?_, fun q => ?_,
        hd.current, ?_⟩
      · rw [hd.view]
        by_cases hqc : q = c
        · simp [hqc]
        · rw [Placement.move_place_of_ne hqc, if_neg hqc, hplace, if_neg hqc]
      · exact hd.soft.trans hsoft₂
      · rw [hd.sameSemd.1]
        show k₂.pCursem q = none
        rw [hq, setProcQ_pCursem, hcs']
      · obtain ⟨x, hx⟩ := hd.mem
        exact ⟨x, hx.trans (by rw [← hmem₂]; rfl)⟩
    all_goals
      intro hnil
      rw [show σ₂.view.list .ready = [c] from hlist] at hnil
      cases hnil
  simp only [wp_bind, wp_modify, Kernel.setPcb, wp_liftQ, run_insertProcQ, hnoop]
  refine hsched _ rfl ht₂ (fun x => ?_) hcount hsoft hcur hmem
  show update k₁.pParent c none x = none
  have hk₁ : k₁.pParent x = none := (congrFun hpar x).trans (by
    by_cases hx : x = c <;> simp [hx])
  by_cases hx : x = c <;> simp [hx, hk₁]

end JaeOS
