import JaeOS.Properties.Descriptors

/-!
# The reach of `TERMINATEPROCESS`

`childByPid` leaves its loop at the first child that has the pid or has children, and
returns what it finds below that child.  So it never looks behind a child with
children: the blocks it can find are the `Searched` ones.
-/

namespace JaeOS

open Forest (Progeny)

variable {n : ℕ} {M : Machine} {k : Kernel n} {p d e : Fin n} {pid : Word}
  {kids : Fin n → List (Fin n)}

/-! ### The property -/

/-- `d` is a proper descendant of `p`. -/
def Tree.Below (t : Tree n) (p d : Fin n) : Prop :=
  ∃ c, t.pParent c = some p ∧ Progeny t.pParent c d

/-- No two blocks with a parent have the same pid. -/
def Kernel.DistinctPids (k : Kernel n) : Prop :=
  ∀ d e, k.pParent d ≠ none → k.pParent e ≠ none → (k.pcb d).pPid = (k.pcb e).pPid → d = e

/-- What the search for a pid below `p` is to do: find the proper descendant with the
pid if there is one, so that TERMINATEPROCESS of `p` terminates it, and does nothing
if there is none. -/
structure SearchRight (M : Machine) (k : Kernel n) (p : Fin n) (pid : Word) : Prop where
  search : ∃ r, k.childByPid (n + 1) p pid = some r ∧
    (∀ d, r = some d → k.Below p d ∧ (k.pcb d).pPid = pid) ∧
    (r = none → ∀ d, k.Below p d → (k.pcb d).pPid ≠ pid)
  found : k.gCurrentProcess = some p → pid ≠ 0 → ∀ d, k.Below p d → (k.pcb d).pPid = pid →
    terminateProcess M pid k = terminateProgeny M (n + 1) d k
  missing : k.gCurrentProcess = some p → pid ≠ 0 →
    (∀ d, k.Below p d → (k.pcb d).pPid ≠ pid) → terminateProcess M pid k = .ok () k

/-! ### The system call -/

theorem Tree.Below.pParent_ne_none {t : Tree n} (h : t.Below p d) : t.pParent d ≠ none := by
  obtain ⟨c, hc, hcd⟩ := h
  rcases hcd.cases with rfl | ⟨r, -, hr⟩
  · simp [hc]
  · simp [hr]

theorem TreeRep.not_below {t : Tree n} (h : TreeRep t kids) (he : t.emptyChild p = true) :
    ¬ t.Below p d := by
  rintro ⟨c, hc, -⟩
  rw [h.emptyChild_eq, List.isEmpty_iff] at he
  have := (h.parent p c).mpr hc
  rw [he] at this
  exact nomatch this

/-- **TERMINATEPROCESS of a descendant** does what the search says. -/
theorem terminateProcess_eq (ht : TreeRep k.toTree kids) (hcur : k.gCurrentProcess = some p)
    (hpid : pid ≠ 0) {r : Option (Fin n)} (hr : k.childByPid (n + 1) p pid = some r)
    (hsound : ∀ d, r = some d → k.Below p d) :
    terminateProcess M pid k = r.elim (.ok () k) (fun d => terminateProgeny M (n + 1) d k) := by
  refine (wp_iff_eq.mp ?_).symm
  rw [terminateProcess, wp_bind]
  refine (wp_current hcur).mpr ?_
  rw [if_pos hpid, wp_bind, wp_get]
  refine wp_if (fun he => ?_) (fun _ => ?_)
  · cases r with
    | none => rfl
    | some d => exact absurd (hsound d rfl) (ht.not_below he)
  · rw [hr]
    cases r with
    | none => rfl
    | some d => exact wp_iff_eq.mpr rfl

/-- **The search for a pid is right exactly if nothing hides the descendant that has
it**: on the way down to it no block has an elder sibling with children. -/
theorem searchRight_iff (ht : TreeRep k.toTree kids) (hd : k.DistinctPids) :
    SearchRight M k p pid ↔
      ∀ d, k.Below p d → (k.pcb d).pPid = pid → Searched kids p d := by
  obtain ⟨r, hr, hfound, hnone⟩ := ht.childByPid_search pid (n + 1) p (by
    obtain ⟨S, hS, hcard⟩ : Forest.SizeLE k.pParent p _ := Forest.sizeLE_card
    rw [Fintype.card_fin] at hcard
    exact ⟨S, hS, by omega⟩)
  constructor
  · rintro ⟨⟨r', hr', -, hnone'⟩, -, -⟩ d hbelow hpid
    obtain rfl : r = r' := Option.some.inj (hr.symm.trans hr')
    cases r with
    | none => exact absurd hpid (hnone' rfl d hbelow)
    | some e =>
      obtain ⟨hepid, hes⟩ := hfound e rfl
      have hebelow : k.Below p e := hes.below ht
      obtain rfl : d = e := hd d e hbelow.pParent_ne_none hebelow.pParent_ne_none
        (hpid.trans hepid.symm)
      exact hes
  · intro hall
    have hsound : ∀ d, r = some d → k.Below p d ∧ (k.pcb d).pPid = pid := fun d hrd =>
      ⟨(hfound d hrd).2.below ht, (hfound d hrd).1⟩
    have hcomplete : r = none → ∀ d, k.Below p d → (k.pcb d).pPid ≠ pid :=
      fun hrn d hbelow hpid => hnone hrn d (hall d hbelow hpid) hpid
    refine ⟨⟨r, hr, hsound, hcomplete⟩, fun hcur hne d hbelow hpid => ?_, fun hcur hne hno => ?_⟩
    · rw [terminateProcess_eq ht hcur hne hr (fun d hrd => (hsound d hrd).1)]
      cases r with
      | none => exact absurd hpid (hcomplete rfl d hbelow)
      | some e =>
        obtain ⟨hebelow, hepid⟩ := hsound e rfl
        obtain rfl : d = e := hd d e hbelow.pParent_ne_none hebelow.pParent_ne_none
          (hpid.trans hepid.symm)
        rfl
    · rw [terminateProcess_eq ht hcur hne hr (fun d hrd => (hsound d hrd).1)]
      cases r with
      | none => rfl
      | some e => exact absurd (hsound e rfl).2 (hno e (hsound e rfl).1)

/-! ### Two runs -/

/-- No two blocks with a parent have the same pid, as a test. -/
def Kernel.distinctPids (k : Kernel n) : Bool :=
  (List.finRange n).all fun d => (List.finRange n).all fun e =>
    (k.pParent d).isNone || (k.pParent e).isNone || (k.pcb d).pPid != (k.pcb e).pPid || d == e

theorem Kernel.DistinctPids.of_test (h : k.distinctPids = true) : k.DistinctPids := by
  intro d e hd he hpid
  rw [Kernel.distinctPids, List.all_eq_true] at h
  have hde := List.all_eq_true.mp (h d (List.mem_finRange d)) e (List.mem_finRange e)
  simpa [hd, he, hpid] using hde

theorem TreeRep.only_child {t : Tree n} (h : TreeRep t kids) (hc : t.pChildren p = some d)
    (hs : t.pSiblings d = some d) : kids p = [d] :=
  (h.children p).unique (Clist.holds_singleton hc hs)

/-- A chain of three processes: the last one is found. -/
theorem searchRight_chain : ∃ (k : Kernel maxProc) (e : Fin maxProc),
    k.Below proc0 e ∧ SearchRight uarm k proc0 (k.pcb e).pPid := by
  let child : Fin maxProc := ⟨1, by decide⟩
  let grandchild : Fin maxProc := ⟨2, by decide⟩
  obtain ⟨c, L, hreach, hc⟩ := reaches_calm [sys 1 0 0 0, timerInterrupt, sys 1 0 0 0]
    (fun c => c.k.pChildren proc0 == some child && c.k.pSiblings child == some child &&
      c.k.pChildren child == some grandchild && c.k.pSiblings grandchild == some grandchild &&
      c.k.distinctPids)
    (by decide +kernel)
  simp only [Bool.and_eq_true, beq_iff_eq] at hc
  obtain ⟨⟨⟨⟨hkids₀, hnext₀⟩, hkids₁⟩, hnext₁⟩, hpids⟩ := hc
  obtain ⟨σ, hb, -⟩ := hreach.complete layout_uarm
  obtain ⟨kids, ht⟩ := hb.consistent.tree
  rw [hb.core] at ht
  have hp : kids proc0 = [child] := ht.only_child hkids₀ hnext₀
  have hc : kids child = [grandchild] := ht.only_child hkids₁ hnext₁
  have hchild : c.k.pParent child = some proc0 := (ht.parent proc0 child).mp (by simp [hp])
  have hgrand : c.k.pParent grandchild = some child :=
    (ht.parent child grandchild).mp (by simp [hc])
  have hbelow : c.k.Below proc0 grandchild := ⟨child, hchild, .single hgrand⟩
  refine ⟨c.k, grandchild, hbelow, (searchRight_iff ht (.of_test hpids)).mpr (fun d hd hpid => ?_)⟩
  obtain rfl : d = grandchild := Kernel.DistinctPids.of_test hpids d grandchild
    hd.pParent_ne_none hbelow.pParent_ne_none hpid
  exact .head ⟨[], [], hp, by simp⟩ (.single ⟨[], [], hc, by simp⟩)

/-- **A child with children hides its younger siblings.**  The first process has two
children, the first of which has a child: the second one is not found. -/
theorem not_searchRight : ∃ (k : Kernel maxProc) (kids : Fin maxProc → List (Fin maxProc))
    (pid : Word), TreeRep k.toTree kids ∧ k.DistinctPids ∧ k.gCurrentProcess = some proc0 ∧
      pid ≠ 0 ∧ ¬ SearchRight uarm k proc0 pid := by
  let second : Fin maxProc := ⟨3, by decide⟩
  obtain ⟨c, L, hreach, hc⟩ := reaches_calm
    [sys 1 0 0 0, timerInterrupt, sys 1 0 0 0, timerInterrupt, sys 1 0 0 0]
    (fun c => c.k.gCurrentProcess == some proc0 && c.k.pParent second == some proc0 &&
      (c.k.pcb second).pPid != 0 && c.k.distinctPids &&
      c.k.childByPid (maxProc + 1) proc0 (c.k.pcb second).pPid == some none)
    (by decide +kernel)
  simp only [Bool.and_eq_true, beq_iff_eq, bne_iff_ne] at hc
  obtain ⟨⟨⟨⟨hcur, hparent⟩, hne⟩, hpids⟩, hsearch⟩ := hc
  obtain ⟨σ, hb, -⟩ := hreach.complete layout_uarm
  obtain ⟨kids, ht⟩ := hb.consistent.tree
  rw [hb.core] at ht
  refine ⟨c.k, kids, (c.k.pcb second).pPid, ht, .of_test hpids, hcur, hne, ?_⟩
  rintro ⟨⟨r, hr, -, hnone⟩, -, -⟩
  obtain rfl : r = none := Option.some.inj (hr.symm.trans hsearch)
  exact hnone rfl second ⟨second, hparent, .refl⟩ rfl

end JaeOS
