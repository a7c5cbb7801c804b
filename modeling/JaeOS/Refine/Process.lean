import JaeOS.Refine.Kill

/-!
# Processes come, run and go

What creation, termination, dispatch and preemption do to a snapshot, and that
they keep it `Consistent`: the counter counts the live processes, the tree
contains live processes only, and the process in hand is the current one.
-/

namespace JaeOS

open Function (update)
open Forest (Progeny)

variable {n : ℕ} {M : Machine} {k k' : Kernel n} {σ σ' σ'' : Snap n} {p q c : Fin n}
  {ds : List (Fin n)} {kids : Fin n → List (Fin n)} {pl : Place}

/-- The invariant between two kernel functions, besides what the lists say. -/
structure Consistent (σ : Snap n) : Prop where
  count : σ.core.gProcessCount.toNat + (σ.view.list .free).length = n
  tree : ∃ kids, TreeRep σ.core.toTree kids
  rooted : ∀ p, σ.view.place p = .free → σ.core.pParent p = none ∧ ∀ c, σ.core.pParent c ≠ some p
  current : ∀ p, σ.view.place p = .held ↔ σ.core.gCurrentProcess = some p

/-! ### Termination -/

theorem length_list_le (v : View n) (pl : Place) : (v.list pl).length ≤ n := by
  have := (v.nodup pl).length_le_card
  rwa [Fintype.card_fin] at this

theorem Release.count_eq (h : Release M q σ σ')
    (hc : σ.core.gProcessCount.toNat + (σ.view.list .free).length = n) :
    σ'.core.gProcessCount.toNat + (σ'.view.list .free).length = n := by
  have hlen := length_list_le (σ.view.move q .free) .free
  rw [h.view, h.count, Placement.move_list_self h.alive] at *
  rw [List.length_append, List.length_singleton] at *
  have hpos : 1 ≤ σ.core.gProcessCount.toNat := by omega
  have hsub : (σ.core.gProcessCount - 1).toNat = σ.core.gProcessCount.toNat - 1 := by
    have hle : (1 : Word) ≤ σ.core.gProcessCount := hpos
    rw [BitVec.toNat_sub_of_le hle]
    rfl
  omega

namespace Releases

theorem count_eq (h : Releases M ds σ σ')
    (hc : σ.core.gProcessCount.toNat + (σ.view.list .free).length = n) :
    σ'.core.gProcessCount.toNat + (σ'.view.list .free).length = n := by
  induction h with
  | nil => exact hc
  | aside t c _ ih => exact ih hc
  | cons h _ ih => exact ih (h.count_eq hc)

theorem place (h : Releases M ds σ σ') (q : Fin n) :
    σ'.view.place q = if q ∈ ds then .free else σ.view.place q := by
  induction h with
  | nil => simp
  | aside t c _ ih => exact ih
  | @cons r ds σ σ₁ _ h hs ih =>
    rw [ih, h.view]
    by_cases hq : q ∈ ds
    · simp [hq]
    · by_cases hqr : q = r <;> simp [hq, hqr]

theorem list (h : Releases M ds σ σ') (hpl : pl ≠ .free) :
    σ'.view.list pl = (σ.view.list pl).filter (· ∉ ds) := by
  induction h with
  | nil => simp
  | aside t c _ ih => exact ih
  | @cons r ds σ σ₁ _ h hs ih =>
    rw [ih, h.view, Placement.move_list_of_ne hpl, (σ.view.nodup pl).erase_eq_filter,
      List.filter_filter]
    refine List.filter_congr (fun x _ => ?_)
    by_cases hx : x ∈ ds <;> by_cases hxr : x = r <;> simp [hx, hxr]

theorem list_free (h : Releases M ds σ σ') :
    σ'.view.list .free = σ.view.list .free ++ ds := by
  induction h with
  | nil => simp
  | aside t c _ ih => exact ih
  | cons h _ ih =>
    rw [ih, h.view, Placement.move_list_self h.alive, List.append_assoc, List.singleton_append]

theorem count (h : Releases M ds σ σ') :
    σ'.core.gProcessCount = σ.core.gProcessCount - BitVec.ofNat 32 ds.length := by
  induction h with
  | nil => simp
  | aside t c _ ih => exact ih
  | @cons q ds σ σ₁ _ h _ ih =>
    rw [ih, h.count, List.length_cons, BitVec.ofNat_add, BitVec.sub_sub, BitVec.add_comm]
    rfl

theorem mem (h : Releases M ds σ σ') : σ'.core.mem = σ.core.mem := by
  induction h with
  | nil => rfl
  | aside t c _ ih => exact ih
  | cons h _ ih => exact ih.trans h.mem

theorem resRequested (h : Releases M ds σ σ') : σ'.core.resRequested = σ.core.resRequested := by
  induction h with
  | nil => rfl
  | aside t c _ ih => exact ih
  | cons h _ ih => exact ih.trans h.resRequested

theorem sameSemd (h : Releases M ds σ σ') : σ.core.SameSemd σ'.core.toQueues := by
  induction h with
  | nil => exact ⟨rfl, rfl⟩
  | aside t c _ ih => exact ih
  | cons h _ ih => exact h.sameSemd.trans ih

end Releases

/-- A process and its descendants are terminated. -/
structure Terminate (M : Machine) (root : Fin n) (σ σ' : Snap n) : Prop where
  releases : ∃ ds, ds.Nodup ∧ (∀ q, q ∈ ds ↔ Progeny σ.core.pParent root q) ∧ Releases M ds σ σ'
  current : σ'.core.gCurrentProcess =
    if σ.core.gCurrentProcess = some root then none else σ.core.gCurrentProcess

/-- The process `terminateProcess` terminates, together with its descendants. -/
def Kernel.target (k : Kernel n) (p : Fin n) (pid : Word) : Option (Fin n) :=
  if pid = 0 then some p
  else if k.emptyChild p then none
  else (k.childByPid (n + 1) p pid).join

theorem Consistent.alive (hc : Consistent σ) (hp : σ.view.place p ≠ .free)
    (hq : Progeny σ.core.pParent p q) : σ.view.place q ≠ .free := by
  rcases hq.cases with rfl | ⟨r, _, hr⟩
  · exact hp
  · intro hfree
    rw [(hc.rooted q hfree).1] at hr
    exact nomatch hr

theorem Snap.pParent_eq (hσ : σ.core = k.core) : σ.core.pParent = k.pParent := by
  rw [hσ]
  rfl

section Specs

variable {Q : Unit → Kernel n → Prop} {E : Stop → Kernel n → Prop}

/-- Termination of `root` keeps the invariant, if the current process is `root`
or survives. -/
theorem Cleared.consistent {kids' : Fin n → List (Fin n)} {root : Fin n}
    (h : Cleared M root k k' σ σ' kids kids' ds) (hσ : σ.core = k.core)
    (hc : Consistent σ) (o : Option (Fin n))
    (ho : ∀ p, o = some p ↔ k.gCurrentProcess = some p ∧ p ∉ ds) :
    Consistent (σ'.aside k'.toTree o) := by
  have htree : σ'.core.toTree = k'.toTree := by rw [h.core]; rfl
  refine ⟨h.releases.count_eq hc.count, ⟨kids', h.pruned.rep⟩, fun p hp => ?_, fun p => ?_⟩
  · have hp' : σ'.view.place p = .free := hp
    rw [h.releases.place] at hp'
    show k'.pParent p = none ∧ ∀ c, k'.pParent c ≠ some p
    by_cases hpd : p ∈ ds
    · refine ⟨by rw [h.pruned.parent, if_pos hpd], fun c hcp => ?_⟩
      have := (h.pruned.rep.parent p c).mpr hcp
      rw [h.gone p hpd] at this
      exact nomatch this
    · rw [if_neg hpd] at hp'
      have hold := hc.rooted p hp'
      rw [Snap.pParent_eq hσ] at hold
      exact ⟨by rw [h.pruned.parent, if_neg hpd, hold.1], fun c hcp => hold.2 c (h.pruned.le hcp)⟩
  · show σ'.view.place p = .held ↔ o = some p
    rw [h.releases.place, ho]
    have hcur : σ.view.place p = .held ↔ k.gCurrentProcess = some p := by
      rw [hc.current p, hσ]
      rfl
    by_cases hpd : p ∈ ds
    · simp [hpd]
    · simpa [hpd] using hcur

/-- **`terminateProcess`** terminates its target, or does nothing. -/
theorem wp_terminateProcess {pid : Word} (hσ : σ.core = k.core) (hc : Consistent σ)
    (hp : k.gCurrentProcess = some p)
    (hok : ∀ root, k.target p pid = some root → ∀ q, Progeny k.pParent root q →
      σ.view.place q = .ready → k.pCursem q = none)
    (hnone : k.target p pid = none → Q () k)
    (hsome : ∀ root k' σ', k.target p pid = some root → σ'.core = k'.core → Beside k k' →
      Terminate M root σ σ' → Consistent σ' → Q () k') :
    wp (terminateProcess M pid) Q E k := by
  obtain ⟨kids, ht⟩ := hc.tree
  rw [hσ] at ht
  have hheld : σ.view.place p = .held := (hc.current p).mpr (by rw [hσ]; exact hp)
  have hpar := Snap.pParent_eq hσ
  have hcs : σ.core.pCursem = k.pCursem := by rw [hσ]; rfl
  have halive : ∀ root, Progeny k.pParent p root → ∀ q, Progeny k.pParent root q →
      σ.view.place q ≠ .free := fun root hr q hq =>
    hc.alive (by rw [hheld]; simp) (by rw [hpar]; exact hr.trans hq)
  have hsize : ∀ root, Forest.SizeLE k.pParent root (n + 1) := fun root => by
    obtain ⟨S, hS, hcard⟩ : Forest.SizeLE k.pParent root _ := Forest.sizeLE_card
    refine ⟨S, hS, hcard.trans ?_⟩
    rw [Fintype.card_fin]
    omega
  rw [terminateProcess, wp_bind, wp_current hp]
  by_cases hpid : pid = 0
  · have htarget : k.target p pid = some p := by rw [Kernel.target, if_pos hpid]
    rw [if_neg (by simpa using hpid)]
    simp only [wp_bind, wp_modify]
    refine wp_terminateProgeny (n + 1) p k σ kids _ hσ ht (hsize p) (fun q hq => ?_)
      (fun k' σ' kids' ds hcl hpds => ?_)
    · exact ⟨halive p .refl q hq, fun hr => by rw [hcs]; exact hok p htarget q hq hr⟩
    · have hcons := hcl.consistent hσ hc none (fun q => by
        refine iff_of_false (by simp) (fun h => ?_)
        rw [hp] at h
        obtain rfl : p = q := Option.some.inj h.1
        exact h.2 hpds)
      refine hsome p _ (σ'.aside k'.toTree none) htarget ?_ (hcl.beside.trans (beside_core ..)) ?_
        hcons
      · exact Snap.aside_core hcl.core _ _
      · refine ⟨⟨ds, hcl.nodup, fun q => ?_, ?_⟩, ?_⟩
        · rw [hpar]
          exact ⟨fun hq => hcl.below q hq, hcl.mem_of_progeny hpds⟩
        · have := hcl.releases.append (.aside k'.toTree none (.nil _))
          rwa [List.append_nil] at this
        · rw [hσ]
          exact (if_pos hp).symm
  · rw [if_pos (by simpa using hpid)]
    simp only [wp_bind, wp_get, wp_ite]
    by_cases hempty : k.emptyChild p = true
    · rw [if_pos hempty, wp_pure]
      exact hnone (by rw [Kernel.target, if_neg hpid, if_pos hempty])
    · rw [if_neg hempty]
      obtain ⟨r, hr, hspec⟩ := ht.childByPid_spec pid (n + 1) p (hsize p)
      have htarget : k.target p pid = r := by
        rw [Kernel.target, if_neg hpid, if_neg hempty, hr, Option.join_some]
      rw [hr]
      cases r with
      | none => exact hnone htarget
      | some root =>
        obtain ⟨_, d, hd, hdr⟩ := hspec root rfl
        refine wp_terminateProgeny (n + 1) root k σ kids _ hσ ht (hsize root) (fun q hq => ?_)
          (fun k' σ' kids' ds hcl hrds => ?_)
        · exact ⟨halive root (hdr.of_child hd) q hq, fun hr' => by
            rw [hcs]; exact hok root htarget q hq hr'⟩
        · have hnot : p ∉ ds := fun hm => ht.ranked.not_progeny hd (hdr.trans (hcl.below p hm))
          have hpr : k.gCurrentProcess ≠ some root := by
            rw [hp]
            rintro heq
            exact hnot (Option.some.inj heq ▸ hrds)
          have hcons := hcl.consistent hσ hc k.gCurrentProcess (fun q => by
            refine ⟨fun h => ⟨h, fun hm => ?_⟩, fun h => h.1⟩
            rw [hp] at h
            exact hnot (Option.some.inj h ▸ hm))
          refine hsome root _ (σ'.aside k'.toTree k.gCurrentProcess) htarget ?_ hcl.beside ?_ hcons
          · rw [Snap.aside_core hcl.core, ← hcl.current]
          · refine ⟨⟨ds, hcl.nodup, fun q => ?_, ?_⟩, ?_⟩
            · rw [hpar]
              exact ⟨fun hq => hcl.below q hq, hcl.mem_of_progeny hrds⟩
            · have := hcl.releases.append (.aside k'.toTree k.gCurrentProcess (.nil _))
              rwa [List.append_nil] at this
            · rw [hσ]
              exact (if_neg hpr).symm

end Specs

/-! ### Waking and blocking -/

namespace View

theorem wake_place (v : View n) (ps : List (Fin n)) (q : Fin n) :
    (v.wake ps).place q = if q ∈ ps then .ready else v.place q := by
  induction ps generalizing v with
  | nil => simp [wake]
  | cons p ps ih =>
    rw [wake, List.foldl_cons, ← wake, ih]
    by_cases hq : q ∈ ps <;> by_cases hqp : q = p <;> simp [hq, hqp]

theorem wake_list (v : View n) (ps : List (Fin n)) (hpl : pl ≠ .ready) :
    (v.wake ps).list pl = (v.list pl).filter (· ∉ ps) := by
  induction ps generalizing v with
  | nil => simp [wake]
  | cons p ps ih =>
    rw [wake, List.foldl_cons, ← wake, ih, Placement.move_list_of_ne hpl,
      (v.nodup pl).erase_eq_filter, List.filter_filter]
    refine List.filter_congr (fun x _ => ?_)
    by_cases hx : x ∈ ps <;> by_cases hxp : x = p <;> simp [hx, hxp]

theorem wake_list_of_disjoint (v : View n) (ps : List (Fin n)) (hpl : pl ≠ .ready)
    (hd : ∀ p ∈ ps, v.place p ≠ pl) : (v.wake ps).list pl = v.list pl := by
  rw [wake_list v ps hpl]
  refine List.filter_eq_self.mpr (fun x hx => ?_)
  have hnot : x ∉ ps := fun hm => hd x hm ((v.mem pl x).mp hx)
  simp [hnot]

theorem wake_list_ready (v : View n) (ps : List (Fin n)) (hnd : ps.Nodup)
    (hd : ∀ p ∈ ps, v.place p ≠ .ready) : (v.wake ps).list .ready = v.list .ready ++ ps := by
  induction ps generalizing v with
  | nil => simp [wake]
  | cons p ps ih =>
    rw [List.nodup_cons] at hnd
    rw [wake, List.foldl_cons, ← wake, ih _ hnd.2 (fun x hx => ?_),
      Placement.move_list_self (hd p List.mem_cons_self), List.append_assoc, List.singleton_append]
    rw [Placement.move_place_of_ne (ne_of_mem_of_not_mem hx hnd.1)]
    exact hd x (List.mem_cons_of_mem _ hx)

end View

theorem Snap.place_of_woken {a w : Word} (h : p ∈ (σ.service a w).woken) :
    σ.view.place p = .sem a := by
  have happ := serve_append σ.core.resRequested (w + σ.core.mem a) (σ.waiting a)
  have hm : p ∈ σ.waiting a := by
    rw [← happ]
    exact List.mem_append_left _ h
  exact (σ.view.mem (.sem a) p).mp hm

theorem Signal.consistent {a w : Word} (h : Signal M a w σ σ') (hc : Consistent σ) :
    Consistent σ' := by
  have hfree : σ'.view.list .free = σ.view.list .free := by
    rw [h.view]
    exact View.wake_list_of_disjoint _ _ (by simp) (fun p hp => by simp [Snap.place_of_woken hp])
  have hplace : ∀ q, σ'.view.place q = .free ↔ σ.view.place q = .free := fun q => by
    rw [← σ'.view.mem, ← σ.view.mem, hfree]
  refine ⟨by rw [h.count, hfree]; exact hc.count, ?_, fun q hq => ?_, fun q => ?_⟩
  · rw [h.tree]
    exact hc.tree
  · have htree : σ'.core.pParent = σ.core.pParent := congrArg Tree.pParent h.tree
    rw [htree]
    exact hc.rooted q ((hplace q).mp hq)
  · rw [h.current, ← hc.current q, h.view, View.wake_place]
    split_ifs with hq
    · simp [Snap.place_of_woken hq]
    · rfl

theorem Grant.consistent {a w : Word} (h : Grant a w σ σ') (hc : Consistent σ) :
    Consistent σ' := by
  obtain ⟨count, tree, rooted, current⟩ := hc
  rw [← h.view] at count rooted current
  have hcore := h.core
  refine ⟨?_, ?_, ?_, ?_⟩
  all_goals rw [hcore]
  all_goals assumption

theorem Block.consistent {a w : Word} (h : Block M a w p σ σ') (hc : Consistent σ) :
    Consistent σ' := by
  refine ⟨?_, ?_, fun q hq => ?_, fun q => ?_⟩
  · rw [h.count, h.view, Placement.move_list_other (by simp) (by simp [h.held])]
    exact hc.count
  · rw [h.tree]
    exact hc.tree
  · have htree : σ'.core.pParent = σ.core.pParent := congrArg Tree.pParent h.tree
    rw [htree]
    refine hc.rooted q ?_
    by_cases hqp : q = p
    · rw [h.view, hqp, Placement.move_place_self] at hq
      exact Place.noConfusion hq
    · rwa [h.view, Placement.move_place_of_ne hqp] at hq
  · rw [h.idle, h.view]
    by_cases hqp : q = p
    · simp [hqp]
    · rw [Placement.move_place_of_ne hqp, hc.current q, h.current]
      exact iff_of_false (fun heq => hqp (Option.some.inj heq).symm) (by simp)

/-! ### Dispatch and preemption -/

structure Dispatch (p : Fin n) (σ σ' : Snap n) : Prop where
  first : (σ.view.list .ready).head? = some p
  view : σ'.view = σ.view.move p .held
  current : σ'.core.gCurrentProcess = some p
  mem : ∃ x, σ'.core.mem = update σ.core.mem 0x00011114 x
  asl : σ'.asl = σ.asl
  free : σ'.free = σ.free
  sameSemd : σ.core.SameSemd σ'.core.toQueues
  resRequested : σ'.core.resRequested = σ.core.resRequested
  count : σ'.core.gProcessCount = σ.core.gProcessCount
  soft : σ'.core.gSoftBlockCount = σ.core.gSoftBlockCount
  tree : σ'.core.toTree = σ.core.toTree

structure Preempt (p : Fin n) (σ σ' : Snap n) : Prop where
  current : σ.core.gCurrentProcess = some p
  view : σ'.view = σ.view.move p .ready
  idle : σ'.core.gCurrentProcess = none
  asl : σ'.asl = σ.asl
  free : σ'.free = σ.free
  sameSemd : σ.core.SameSemd σ'.core.toQueues
  resRequested : σ'.core.resRequested = σ.core.resRequested
  count : σ'.core.gProcessCount = σ.core.gProcessCount
  soft : σ'.core.gSoftBlockCount = σ.core.gSoftBlockCount
  tree : σ'.core.toTree = σ.core.toTree
  mem : σ'.core.mem = σ.core.mem

/-- A block in use changes places: the free list and the tree do not notice. -/
theorem Consistent.of_move (hc : Consistent σ) (hp : σ.view.place p ≠ .free) (hpl : pl ≠ .free)
    (hview : σ'.view = σ.view.move p pl)
    (hcount : σ'.core.gProcessCount = σ.core.gProcessCount) (htree : σ'.core.toTree = σ.core.toTree)
    (hcur : ∀ q, (σ.view.move p pl).place q = .held ↔ σ'.core.gCurrentProcess = some q) :
    Consistent σ' := by
  refine ⟨?_, by rw [htree]; exact hc.tree, fun q hq => ?_, fun q => by rw [hview]; exact hcur q⟩
  · rw [hcount, hview, Placement.move_list_other hpl.symm hp]
    exact hc.count
  · have hpar : σ'.core.pParent = σ.core.pParent := congrArg Tree.pParent htree
    rw [hpar]
    refine hc.rooted q ?_
    by_cases hqp : q = p
    · rw [hview, hqp, Placement.move_place_self] at hq
      exact absurd hq hpl
    · rwa [hview, Placement.move_place_of_ne hqp] at hq

theorem Snap.place_of_head (h : (σ.view.list pl).head? = some p) : σ.view.place p = pl :=
  (σ.view.mem pl p).mp (List.mem_of_mem_head? h)

theorem Dispatch.consistent (h : Dispatch p σ σ') (hc : Consistent σ)
    (hidle : σ.core.gCurrentProcess = none) : Consistent σ' := by
  have hp := Snap.place_of_head h.first
  refine hc.of_move (by simp [hp]) (by simp) h.view h.count h.tree (fun q => ?_)
  rw [h.current]
  by_cases hqp : q = p
  · simp [hqp]
  · rw [Placement.move_place_of_ne hqp, hc.current q, hidle]
    exact iff_of_false (by simp) (fun heq => hqp (Option.some.inj heq).symm)

theorem Preempt.consistent (h : Preempt p σ σ') (hc : Consistent σ) : Consistent σ' := by
  have hp : σ.view.place p = .held := (hc.current p).mpr h.current
  refine hc.of_move (by simp [hp]) (by simp) h.view h.count h.tree (fun q => ?_)
  rw [h.idle]
  by_cases hqp : q = p
  · simp [hqp]
  · rw [Placement.move_place_of_ne hqp, hc.current q, h.current]
    exact iff_of_false (fun heq => hqp (Option.some.inj heq).symm) (by simp)

section Specs

variable {Q : Unit → Kernel n → Prop} {E : Stop → Kernel n → Prop}

/-- **The scheduler** dispatches the first ready process.  With no ready process it
halts, waits or panics, by the two counters. -/
theorem wp_scheduler (hσ : σ.core = k.core)
    (hk : M.kernelData 0x00011114 = false)
    (hdispatch : ∀ p k' σ', σ'.core = k'.core → (∀ q, (k.pcb q).SameSaved (k'.pcb q)) →
      Dispatch p σ σ' → E (.ldst (k'.pcb p).pS) k')
    (hhalt : σ.view.list .ready = [] →
      (k.gProcessCount.toNat ≤ 0 ∨ maxProc < k.gProcessCount.toNat) → E .halt k)
    (hwait : σ.view.list .ready = [] →
      ¬ (k.gProcessCount.toNat ≤ 0 ∨ maxProc < k.gProcessCount.toNat) →
      0 < k.gSoftBlockCount.toNat → ∀ k', k'.core = k.core → Beside k k' → E .wait k')
    (hdead : σ.view.list .ready = [] →
      ¬ (k.gProcessCount.toNat ≤ 0 ∨ maxProc < k.gProcessCount.toNat) →
      ¬ 0 < k.gSoftBlockCount.toNat → E (.panic .deadlock) k) :
    wp (scheduler M) Q E k := by
  have h := Snap.owned_of_core hσ
  cases hl : σ.view.list .ready with
  | nil =>
    have hhead := h.run_headProcQ_ready
    rw [hl] at hhead
    simp only [scheduler, wp_bind, wp_liftQ, hhead, List.head?_nil, wp_get, wp_ite, wp_throw]
    split_ifs with h1 h2
    · exact hhalt hl h1
    · exact wp_getTODLO (fun t k₁ hc₁ hb₁ => wp_onHandlerExit (fun k₂ hc₂ hb₂ =>
        hwait hl h1 h2 k₂ (hc₂.trans hc₁) (hb₁.trans hb₂)))
    · exact hdead hl h1 h2
  | cons p r =>
    have hhead := h.run_headProcQ_ready
    rw [hl] at hhead
    obtain ⟨s', hrem, h', hsame⟩ := h.run_removeProcQ_ready hl
    simp only [scheduler, wp_bind, wp_liftQ, hhead, List.head?_cons, hrem, wp_modify]
    rw [wp_current rfl]
    refine wp_getTODLO (fun t k₁ hc₁ hb₁ => wp_onHandlerExit (fun k₂ hc₂ hb₂ => ?_))
    have hcore := hc₂.trans hc₁
    simp only [debugBKtwo, wp_get, wp_writeWord hk, wp_throw]
    have hq : k₂.toQueues = s' := congrArg Core.toQueues hcore
    have hreq : k₂.resRequested = k.resRequested := congrArg Core.resRequested hcore
    have hcount : k₂.gProcessCount = k.gProcessCount := congrArg Core.gProcessCount hcore
    have hsoft : k₂.gSoftBlockCount = k.gSoftBlockCount := congrArg Core.gSoftBlockCount hcore
    have hcur : k₂.gCurrentProcess = some p := congrArg Core.gCurrentProcess hcore
    have htree : k₂.toTree = k.toTree := congrArg Core.toTree hcore
    have hmem : k₂.mem = k.mem := congrArg Core.mem hcore
    have hslice : ∀ c : Pcb, c.SameSaved { c with pTimeSlice := schedTimeSlice } :=
      fun c => ⟨rfl, rfl, rfl, rfl, rfl⟩
    have hsaved : ∀ q, (k.pcb q).SameSaved (k₂.pcb q) := fun q =>
      ((beside_setPcb hslice k p).saved q).trans ((hb₁.trans hb₂).saved q)
    let k₃ : Kernel n := { k₂ with mem := update k₂.mem 0x00011114 (k₂.pcb p).pPid }
    have howned : Owned k₃.toQueues (σ.view.move p .held) σ.asl σ.free := hq ▸ h'
    refine hdispatch p k₃ ⟨k₃.core, _, σ.asl, σ.free, howned⟩ rfl hsaved ?_
    refine ⟨by rw [hl]; rfl, rfl, hcur, ⟨(k₂.pcb p).pPid, ?_⟩, rfl, rfl, ?_, ?_, ?_, ?_, ?_⟩
    all_goals rw [hσ]
    · show update k₂.mem _ _ = update k.mem _ _
      rw [hmem]
    · show k.toQueues.SameSemd k₂.toQueues
      rw [hq]
      exact hsame
    · exact hreq
    · exact hcount
    · exact hsoft
    · exact htree

end Specs

end JaeOS
