import JaeOS.Refine.Semop
import JaeOS.Refine.Tree

/-!
# Termination

`terminateProgeny` walks the tree below a process and releases one block after
the other: each leaves the list it is on and goes to the free list.
-/

namespace JaeOS

open Function (update)
open Forest (Progeny)

variable {n : ℕ} {M : Machine} {k : Kernel n} {σ σ' σ'' : Snap n} {p q c : Fin n}
  {ds es : List (Fin n)} {kids : Fin n → List (Fin n)}

theorem wp_liftT {α : Type} {x : T n α} {Q : α → Kernel n → Prop} {E : Stop → Kernel n → Prop} :
    wp (liftM x : K n α) Q E k ↔
      match x.run k.toTree with
      | some (b, t) => Q b { k with toTree := t }
      | none => E (.fault .wild) k := by
  simp only [wp, liftM, monadLift, MonadLift.monadLift, StateT.run]
  cases x k.toTree <;> rfl

/-! ### One block -/

/-- A process that can be released: it is alive, and if it is ready its `p_cursem`
is `NULL`. -/
def Snap.Releasable (σ : Snap n) (q : Fin n) : Prop :=
  σ.view.place q ≠ .free ∧ (σ.view.place q = .ready → σ.core.pCursem q = none)

/-- One block is released. -/
structure Release (M : Machine) (q : Fin n) (σ σ' : Snap n) : Prop where
  alive : σ.view.place q ≠ .free
  view : σ'.view = σ.view.move q .free
  count : σ'.core.gProcessCount = σ.core.gProcessCount - 1
  soft : σ'.core.gSoftBlockCount =
    if (σ.core.pCursem q).any (fun d => M.isDev (M.semdTable d)) then σ.core.gSoftBlockCount - 1
    else σ.core.gSoftBlockCount
  resRequested : σ'.core.resRequested = σ.core.resRequested
  mem : σ'.core.mem = σ.core.mem
  tree : σ'.core.toTree = σ.core.toTree
  current : σ'.core.gCurrentProcess = σ.core.gCurrentProcess
  sameSemd : σ.core.SameSemd σ'.core.toQueues
  conserves : (σ.view.place q = .held → ∀ d, σ.core.pCursem q = some d → d ∈ σ.asl ∨ σ.free = [d]) →
    σ.Conserves σ'

/-- **`releasePcb` releases a block.** -/
theorem wp_releasePcb {Q : Unit → Kernel n → Prop} {E : Stop → Kernel n → Prop}
    (hσ : σ.core = k.core) (hq : σ.Releasable q)
    (hQ : ∀ k' σ', σ'.core = k'.core → Beside k k' → Release M q σ σ' → Q () k') :
    wp (releasePcb M q) Q E k := by
  have h := Snap.owned_of_core hσ
  have hend : ∀ (s₁ : Queues n) (v₁ : View n) (asl₁ free₁ : List Semd),
      Owned s₁ v₁ asl₁ free₁ → v₁.place q = .held → v₁.move q .free = σ.view.move q .free →
      k.toQueues.SameSemd s₁ →
      ((σ.view.place q = .held → ∀ d, σ.core.pCursem q = some d → d ∈ σ.asl ∨ σ.free = [d]) →
        ∀ d, d ∈ asl₁ ∨ d ∈ free₁ ↔ d ∈ σ.asl ∨ d ∈ σ.free) →
      Q () { k with
        toQueues := s₁.setProcQ .pcbFree ((s₁.procQ .pcbFree).enqueue q)
        gProcessCount := k.gProcessCount - 1
        gSoftBlockCount :=
          if (k.pCursem q).any (fun d => M.isDev (M.semdTable d)) then k.gSoftBlockCount - 1
          else k.gSoftBlockCount } := by
    intro s₁ v₁ asl₁ free₁ h₁ hheld hview hsame hcons
    have h₂ := h₁.insertProcQ_free hheld
    rw [hview] at h₂
    refine hQ _ ⟨_, σ.view.move q .free, asl₁, free₁, h₂⟩ rfl (beside_core ..) ?_
    refine ⟨hq.1, rfl, ?_, ?_, ?_, ?_, ?_, ?_, ?_, hcons⟩
    all_goals rw [hσ]
    all_goals first | rfl | exact hsame.trans sameSemd_setProcQ
  have hcsσ : σ.core.pCursem q = k.pCursem q := by rw [hσ]; rfl
  cases hcs : k.pCursem q with
  | some d =>
    have hnr : σ.view.place q ≠ .ready := fun hr => by
      have := hq.2 hr
      rw [hcsσ, hcs] at this
      cases this
    obtain ⟨r, s₁, v₁, asl₁, free₁, hrun, h₁, hheld, hview, hsame, hcons⟩ :
        ∃ r s₁ v₁ asl₁ free₁, (outBlocked q).run k.toQueues = some (r, s₁) ∧
          Owned s₁ v₁ asl₁ free₁ ∧ v₁.place q = .held ∧ v₁.move q .free = σ.view.move q .free ∧
          k.toQueues.SameSemd s₁ ∧
          ((σ.view.place q = .held → d ∈ σ.asl ∨ σ.free = [d]) →
            ∀ d, d ∈ asl₁ ∨ d ∈ free₁ ↔ d ∈ σ.asl ∨ d ∈ σ.free) := by
      cases hpl : σ.view.place q with
      | free => exact absurd hpl hq.1
      | ready => exact absurd hpl hnr
      | sem a =>
        obtain ⟨s₁, _, asl₁, free₁, hrun, _, _, h₁, hcons, hsame⟩ := h.run_outBlocked hpl
        exact ⟨_, s₁, _, asl₁, free₁, hrun, h₁, Placement.move_place_self,
          Placement.move_move (by simp) (by simp [hpl]), hsame, fun _ => hcons⟩
      | held =>
        obtain ⟨s₁, free₁, hrun, h₁, hsame, hfree⟩ := h.run_outBlocked_held hpl hcs
        refine ⟨_, s₁, _, σ.asl, free₁, hrun, h₁, hpl, rfl, hsame, fun hd e => ?_⟩
        rw [hfree (hd rfl)]
    have hpost := hend s₁ v₁ asl₁ free₁ h₁ hheld hview hsame
      (fun hd => hcons (fun hp => hd hp d (by rw [hcsσ, hcs])))
    simp only [releasePcb, freePcb, wp_bind, wp_get, hcs, wp_ite, wp_liftQ, wp_modify, wp_pure,
      hrun, run_insertProcQ]
    rw [hcs, Option.any_some] at hpost
    by_cases hdev : M.isDev (M.semdTable d)
    · simpa only [hdev, if_true] using hpost
    · simpa only [hdev, if_false, Bool.false_eq_true] using hpost
  | none =>
    obtain ⟨r, s₁, v₁, hrun, h₁, hheld, hview, hsame⟩ :
        ∃ r s₁ v₁, (outProcQ .gReadyQueue q).run k.toQueues = some (r, s₁) ∧
          Owned s₁ v₁ σ.asl σ.free ∧ v₁.place q = .held ∧
          v₁.move q .free = σ.view.move q .free ∧ k.toQueues.SameSemd s₁ := by
      cases hpl : σ.view.place q with
      | free => exact absurd hpl hq.1
      | ready =>
        obtain ⟨s₁, hrun, h₁, hsame⟩ := h.run_outProcQ_ready hpl
        exact ⟨_, s₁, _, hrun, h₁, Placement.move_place_self,
          Placement.move_move (by simp) (by simp [hpl]), hsame⟩
      | sem a =>
        obtain ⟨d, _, _, hd⟩ := h.blocked.exists_cursem ((σ.view.mem _ q).mpr hpl)
        rw [hcs] at hd
        cases hd
      | held =>
        exact ⟨_, _, _, h.run_outProcQ_notReady (by simp [hpl]), h, hpl, rfl, rfl, rfl⟩
    have hpost := hend s₁ v₁ σ.asl σ.free h₁ hheld hview hsame (fun _ _ => Iff.rfl)
    simp only [releasePcb, freePcb, wp_bind, wp_get, hcs, wp_liftQ, wp_modify, wp_pure, hrun,
      run_insertProcQ]
    rw [hcs] at hpost
    exact hpost

/-! ### A subtree -/

/-- The tree links and the current process have no part in the placement. -/
def Snap.aside (σ : Snap n) (t : Tree n) (c : Option (Fin n)) : Snap n :=
  { σ with core := { σ.core with toTree := t, gCurrentProcess := c } }

theorem Snap.aside_core (hσ : σ.core = k.core) (t : Tree n) (c : Option (Fin n)) :
    (σ.aside t c).core = Kernel.core { k with toTree := t, gCurrentProcess := c } := by
  show { σ.core with toTree := t, gCurrentProcess := c } = _
  rw [hσ]
  rfl

/-- The blocks of a list are released one after the other, while the tree and the
current process may change in between. -/
inductive Releases (M : Machine) : List (Fin n) → Snap n → Snap n → Prop
  | nil (σ : Snap n) : Releases M [] σ σ
  | aside {ds : List (Fin n)} {σ σ' : Snap n} (t : Tree n) (c : Option (Fin n))
      (h : Releases M ds (σ.aside t c) σ') : Releases M ds σ σ'
  | cons {q : Fin n} {ds : List (Fin n)} {σ σ' σ'' : Snap n}
      (h : Release M q σ σ') (hs : Releases M ds σ' σ'') : Releases M (q :: ds) σ σ''

theorem Releases.append (h : Releases M ds σ σ') (h' : Releases M es σ' σ'') :
    Releases M (ds ++ es) σ σ'' := by
  induction h with
  | nil => exact h'
  | aside t c _ ih => exact .aside t c (ih h')
  | cons h _ ih => exact .cons h (ih h')

theorem Release.releasable (h : Release M q σ σ') (hp : σ.Releasable p) (hne : p ≠ q) :
    σ'.Releasable p := by
  rw [Snap.Releasable, h.view, Placement.move_place_of_ne hne, h.sameSemd.1]
  exact hp

theorem Releases.releasable (h : Releases M ds σ σ') (hp : σ.Releasable p) (hnot : p ∉ ds) :
    σ'.Releasable p := by
  induction h with
  | nil => exact hp
  | aside t c _ ih => exact ih hp hnot
  | cons h _ ih =>
    rw [List.mem_cons, not_or] at hnot
    exact ih (h.releasable hp hnot.1) hnot.2

/-- The tree `t'` is `t` without the blocks `ds`, as far as the parent pointers of
all blocks and the children of the other ones go. -/
structure Pruned (t t' : Tree n) (kids kids' : Fin n → List (Fin n)) (ds : List (Fin n)) :
    Prop where
  rep : TreeRep t' kids'
  parent : ∀ q, t'.pParent q = if q ∈ ds then none else t.pParent q
  kept : ∀ q, q ∉ ds → kids' q = (kids q).filter (· ∉ ds)

namespace Pruned

variable {t t' t'' : Tree n} {kids' kids'' : Fin n → List (Fin n)}

theorem refl (h : TreeRep t kids) : Pruned t t kids kids [] :=
  ⟨h, fun q => by simp, fun q _ => by simp⟩

theorem le (h : Pruned t t' kids kids' ds) {x y : Fin n} (hx : t'.pParent x = some y) :
    t.pParent x = some y := by
  rw [h.parent] at hx
  split_ifs at hx
  exact hx

theorem notMem (h : Pruned t t' kids kids' ds) {x y : Fin n} (hx : t'.pParent x = some y) :
    x ∉ ds := fun hm => by
  rw [h.parent, if_pos hm] at hx
  exact nomatch hx

theorem trans (h : Pruned t t' kids kids' ds) (h' : Pruned t' t'' kids' kids'' es) :
    Pruned t t'' kids kids'' (ds ++ es) := by
  refine ⟨h'.rep, fun q => ?_, fun q hq => ?_⟩
  · rw [h'.parent, h.parent]
    by_cases hd : q ∈ ds <;> by_cases he : q ∈ es <;> simp [hd, he]
  · rw [List.mem_append, not_or] at hq
    rw [h'.kept q hq.2, h.kept q hq.1, List.filter_filter]
    refine List.filter_congr (fun x _ => ?_)
    by_cases hd : x ∈ ds <;> by_cases he : x ∈ es <;> simp [hd, he]

theorem congr (h : Pruned t t' kids kids' ds) (hmem : ∀ x, x ∈ ds ↔ x ∈ es) :
    Pruned t t' kids kids' es := by
  refine ⟨h.rep, fun q => by simp only [h.parent, hmem], fun q hq => ?_⟩
  rw [h.kept q (fun hm => hq ((hmem q).mp hm))]
  exact List.filter_congr (fun x _ => by simp only [hmem])

theorem detach (h : TreeRep t kids) (hc : t.pParent c = some p)
    (h' : TreeRep t' (update kids p ((kids p).erase c)))
    (hpar : t'.pParent = update t.pParent c none) :
    Pruned t t' kids (update kids p ((kids p).erase c)) [c] := by
  refine ⟨h', fun q => ?_, fun q _ => ?_⟩
  · by_cases hq : q = c <;> simp [hpar, hq]
  · by_cases hqp : q = p
    · subst hqp
      rw [Function.update_self, (h.children q).nodup.erase_eq_filter]
      exact List.filter_congr (fun x _ => by by_cases hx : x = c <;> simp [hx])
    · rw [Function.update_of_ne hqp]
      refine (List.filter_eq_self.mpr (fun x hx => ?_)).symm
      have hxc : x ≠ c := by
        rintro rfl
        exact h.notMem_of_ne hx hqp ((h.parent p x).mpr hc)
      simp [hxc]

end Pruned

/-- What the loop over the children of `p`, or the whole function, achieves: the
blocks `ds`, all below `p`, are released and out of the tree. -/
structure Cleared (M : Machine) (p : Fin n) (k k' : Kernel n) (σ σ' : Snap n)
    (kids kids' : Fin n → List (Fin n)) (ds : List (Fin n)) : Prop where
  core : σ'.core = k'.core
  beside : Beside k k'
  current : k'.gCurrentProcess = k.gCurrentProcess
  releases : Releases M ds σ σ'
  nodup : ds.Nodup
  below : ∀ q ∈ ds, Progeny k.pParent p q
  pruned : Pruned k.toTree k'.toTree kids kids' ds
  gone : ∀ q ∈ ds, kids' q = []

/-- The specification of `terminateProgeny`, or of the recursive call in its
loop, for processes with at most `m` descendants. -/
def Kills (M : Machine) (E : Stop → Kernel n → Prop) (kill : Fin n → K n Unit) (m : ℕ) : Prop :=
  ∀ (p : Fin n) (k : Kernel n) (σ : Snap n) (kids : Fin n → List (Fin n))
    (Q : Unit → Kernel n → Prop), σ.core = k.core → TreeRep k.toTree kids →
    Forest.SizeLE k.pParent p m → (∀ q, Progeny k.pParent p q → σ.Releasable q) →
    (∀ k' σ' kids' ds, Cleared M p k k' σ σ' kids kids' ds → p ∈ ds → Q () k') →
    wp (kill p) Q E k

/-- **The loop over the children.** -/
theorem wp_killChildren {Q : Unit → Kernel n → Prop} {E : Stop → Kernel n → Prop} {m : ℕ}
    {kill : Fin n → K n Unit} (hkill : Kills M E kill m) :
    ∀ {cs : List (Fin n)} {k : Kernel n} {σ : Snap n} {kids : Fin n → List (Fin n)} {fuel : ℕ},
      σ.core = k.core → TreeRep k.toTree kids → kids p = cs → cs.length < fuel →
      Forest.SizeLE k.pParent p (m + 1) →
      (∀ q, Progeny k.pParent p q → q ≠ p → σ.Releasable q) →
      (∀ k' σ' kids' ds, Cleared M p k k' σ σ' kids kids' ds → p ∉ ds → kids' p = [] → Q () k') →
      wp (killChildren kill fuel p) Q E k := by
  intro cs
  induction cs with
  | nil =>
    intro k σ kids fuel hσ ht hk hf hs hr hQ
    obtain ⟨fuel, rfl⟩ : ∃ f, fuel = f + 1 := ⟨fuel - 1, by omega⟩
    have hempty : k.emptyChild p = true := by rw [ht.emptyChild_eq, hk]; rfl
    simp only [killChildren, wp_bind, wp_get, wp_ite, hempty, if_true, wp_pure]
    exact hQ k σ kids [] ⟨hσ, .refl k, rfl, .nil σ, List.nodup_nil, fun _ h => absurd h (by simp),
      .refl ht, fun _ h => absurd h (by simp)⟩ List.not_mem_nil hk
  | cons c cs ih =>
    intro k σ kids fuel hσ ht hk hf hs hr hQ
    obtain ⟨fuel, rfl⟩ : ∃ f, fuel = f + 1 := ⟨fuel - 1, by omega⟩
    have hempty : k.emptyChild p = false := by rw [ht.emptyChild_eq, hk]; rfl
    have hc : k.pParent c = some p := (ht.parent p c).mp (by simp [hk])
    have hcs : cs = (kids p).erase c := by simp [hk]
    obtain ⟨t₁, hrem, ht₁, hpar₁, -⟩ := ht.run_removeChild hk
    rw [hcs] at ht₁
    have hdet := Pruned.detach ht hc ht₁ hpar₁
    simp only [killChildren, wp_bind, wp_get, wp_ite, hempty, if_false, Bool.false_eq_true,
      wp_liftT, hrem]
    have hmono : ∀ {x y}, Progeny t₁.pParent x y → Progeny k.pParent x y :=
      fun h => h.mono (fun a b hab => hdet.le hab)
    refine hkill c { k with toTree := t₁ } (σ.aside t₁ k.gCurrentProcess) _ _ ?_ ht₁ ?_ (fun q hq => ?_)
      (fun k₂ σ₂ kids₂ ds hcl hcds => ?_)
    · exact Snap.aside_core hσ t₁ _
    · exact (ht.ranked.sizeLE_child hs hc).mono (fun a b hab => hdet.le hab)
    · have hq' := hmono hq
      refine hr q (hq'.of_child hc) ?_
      rintro rfl
      exact ht.ranked.not_progeny hc hq'
    -- the subtree of `c` is gone; the rest of the children is as before
    have hbelow : ∀ q ∈ ds, Progeny k.pParent c q := fun q hq => hmono (hcl.below q hq)
    have hp : p ∉ ds := fun hm => ht.ranked.not_progeny hc (hbelow p hm)
    have hpc : p ≠ c := (ht.ranked.ne_parent hc).symm
    have hnd : (c :: cs).Nodup := hk ▸ (ht.children p).nodup
    have hkids₂ : kids₂ p = cs := by
      rw [hcl.pruned.kept p hp, Function.update_self, ← hcs]
      refine List.filter_eq_self.mpr (fun x hx => ?_)
      have hxc : x ≠ c := fun heq => (List.nodup_cons.mp hnd).1 (heq ▸ hx)
      have hxp : t₁.pParent x = some p := by
        rw [hpar₁, Function.update_of_ne hxc]
        exact (ht.parent p x).mp (by simp [hk, hx])
      have hxds : x ∉ ds := fun hm => by
        rcases (hcl.below x hm).cases with rfl | ⟨r, hr', hxr⟩
        · exact hxc rfl
        · obtain rfl : p = r := Option.some.inj (hxp.symm.trans hxr)
          exact ht.ranked.not_progeny hc (hmono hr')
      simp [hxds]
    have hprune : Pruned k.toTree k₂.toTree kids kids₂ ds :=
      (hdet.trans hcl.pruned).congr (fun x => by
        rw [List.singleton_append, List.mem_cons]
        exact ⟨fun h => h.elim (fun heq => heq ▸ hcds) id, .inr⟩)
    refine ih hcl.core hcl.pruned.rep hkids₂ (by simpa using hf) (hs.mono (fun a b => hprune.le))
      (fun q hq hqp => ?_) (fun k₃ σ₃ kids₃ es hcl' hpes hnil => ?_)
    · rcases hq.cases with rfl | ⟨r, _, hqr⟩
      · exact absurd rfl hqp
      · exact hcl.releases.releasable (hr q (hq.mono (fun a b => hprune.le)) hqp)
          (hprune.notMem hqr)
    · refine hQ k₃ σ₃ kids₃ (ds ++ es) ⟨hcl'.core, ?_, hcl'.current.trans hcl.current, ?_, ?_, ?_,
        hprune.trans hcl'.pruned, ?_⟩ (by simp [hp, hpes]) hnil
      · exact (beside_core ..).trans (hcl.beside.trans hcl'.beside)
      · exact .aside t₁ _ (hcl.releases.append hcl'.releases)
      · refine hcl.nodup.append hcl'.nodup (fun x hx hx' => ?_)
        rcases (hcl'.below x hx').cases with rfl | ⟨r, _, hxr⟩
        · exact hp hx
        · exact hprune.notMem hxr hx
      · intro q hq
        rcases List.mem_append.mp hq with hm | hm
        · exact (hbelow q hm).of_child hc
        · exact (hcl'.below q hm).mono (fun a b => hprune.le)
      · intro q hq
        by_cases hm : q ∈ es
        · exact hcl'.gone q hm
        · have hm' : q ∈ ds := (List.mem_append.mp hq).resolve_right hm
          rw [hcl'.pruned.kept q hm, hcl.gone q hm', List.filter_nil]

/-- **`terminateProgeny` releases a process and its descendants**, each once. -/
theorem wp_terminateProgeny {E : Stop → Kernel n → Prop} :
    ∀ m, Kills M E (terminateProgeny M m) m := by
  intro m
  induction m with
  | zero => exact fun p k σ kids Q _ _ hs => absurd hs.pos (lt_irrefl 0)
  | succ m ih =>
    intro p k σ kids Q hσ ht hs hr hQ
    obtain ⟨r, t₁, kids₁, hout, hdet, hpar₁, hk₁⟩ : ∃ r t₁ kids₁,
        (outChild p).run k.toTree = some (r, t₁) ∧ Pruned k.toTree t₁ kids kids₁ [p] ∧
          t₁.pParent p = none ∧ kids₁ p = kids p := by
      cases hp : k.pParent p with
      | none =>
        refine ⟨none, k.toTree, kids, TreeRep.run_outChild_orphan hp, ⟨ht, fun q => ?_, fun q _ => ?_⟩,
          hp, rfl⟩
        · by_cases hq : q = p <;> simp [hq, hp]
        · refine (List.filter_eq_self.mpr (fun x hx => ?_)).symm
          have hxp : x ≠ p := by
            rintro rfl
            rw [ht.parent q x, hp] at hx
            exact nomatch hx
          simp [hxp]
      | some r =>
        obtain ⟨t₁, hrun, ht₁, hpar₁, -⟩ := ht.run_outChild hp
        refine ⟨_, t₁, _, hrun, Pruned.detach ht hp ht₁ hpar₁, ?_, ?_⟩
        · rw [hpar₁, Function.update_self]
        · exact Function.update_of_ne (ht.ranked.ne_parent hp) _ _
    rw [terminateProgeny, wp_bind, wp_liftT, hout]
    simp only [wp_bind]
    have hmono : ∀ {x y}, Progeny t₁.pParent x y → Progeny k.pParent x y :=
      fun h => h.mono (fun a b hab => hdet.le hab)
    refine wp_killChildren ih (Snap.aside_core hσ t₁ k.gCurrentProcess) hdet.rep hk₁ (ht.length_lt p)
      (hs.mono (fun a b => hdet.le)) (fun q hq _ => hr q (hmono hq))
      (fun k₂ σ₂ kids₂ ds hcl hpds hnil => ?_)
    have hrel : σ₂.Releasable p := hcl.releases.releasable (hr p .refl) hpds
    refine wp_releasePcb hcl.core hrel (fun k₃ σ₃ hσ₃ hb₃ hrel₃ => ?_)
    have htree : k₃.toTree = k₂.toTree := by
      have := hrel₃.tree
      rw [hcl.core, hσ₃] at this
      exact this
    have hcurrent : k₃.gCurrentProcess = k₂.gCurrentProcess := by
      have := hrel₃.current
      rw [hcl.core, hσ₃] at this
      exact this
    refine hQ k₃ σ₃ kids₂ (ds ++ [p]) ⟨hσ₃, ?_, hcurrent.trans hcl.current, ?_, ?_, ?_, ?_, ?_⟩
      (by simp)
    · exact (beside_core ..).trans (hcl.beside.trans hb₃)
    · exact .aside t₁ _ (hcl.releases.append (.cons hrel₃ (.nil σ₃)))
    · exact hcl.nodup.append (List.nodup_singleton p) (by simpa using hpds)
    · intro q hq
      rcases List.mem_append.mp hq with hm | hm
      · exact hmono (hcl.below q hm)
      · rw [List.mem_singleton.mp hm]
        exact .refl
    · rw [htree]
      exact (hdet.trans hcl.pruned).congr (fun x => by simp [or_comm])
    · intro q hq
      rcases List.mem_append.mp hq with hm | hm
      · exact hcl.gone q hm
      · rw [List.mem_singleton.mp hm]
        exact hnil

theorem Cleared.mem_of_progeny {k' : Kernel n} {kids' : Fin n → List (Fin n)}
    (h : Cleared M p k k' σ σ' kids kids' ds) (hp : p ∈ ds) (hq : Progeny k.pParent p q) :
    q ∈ ds := by
  refine hq.mem (S := fun a => a ∈ ds) hp (fun a ha c hc => ?_)
  by_contra hnot
  have hpar : k'.pParent c = some a := by
    rw [h.pruned.parent, if_neg hnot]
    exact hc
  have hmem := (h.pruned.rep.parent a c).mpr hpar
  rw [h.gone a ha] at hmem
  exact nomatch hmem

end JaeOS
