import JaeOS.Lib.Forest
import JaeOS.Refine.Clist
import JaeOS.Model.Pcb
import Mathlib.Data.Fintype.Card

/-!
# The process tree

`TreeRep t kids` says that the children lists of the blocks are well formed and
hold `kids`, that they agree with the parent pointers, and that the parent
pointers form a forest.
-/

namespace JaeOS

open Function (update)
open Forest (Progeny Ranked)

variable {n : ℕ} {t t' : Tree n} {kids kids' : Fin n → List (Fin n)} {p q c x : Fin n}
  {cs : List (Fin n)}

structure TreeRep (t : Tree n) (kids : Fin n → List (Fin n)) : Prop where
  children : ∀ p, (t.children p).Holds (kids p)
  parent : ∀ p c, c ∈ kids p ↔ t.pParent c = some p
  ranked : Ranked t.pParent

/-- From `t` to `t'` only the parent of `c`, the children list of `q` and the sibling links of
`c` and of `ys` may have changed. -/
structure Tree.Touches (c q : Fin n) (ys : List (Fin n)) (t t' : Tree n) : Prop where
  pParent : ∀ x, x ≠ c → t'.pParent x = t.pParent x
  pChildren : ∀ x, x ≠ q → t'.pChildren x = t.pChildren x
  pSiblings : ∀ x, x ≠ c → x ∉ ys → t'.pSiblings x = t.pSiblings x

/-- `c` is a child of `p`, and none of its elder siblings has children. -/
def FirstBranch (kids : Fin n → List (Fin n)) (p c : Fin n) : Prop :=
  ∃ pre post, kids p = pre ++ c :: post ∧ ∀ x ∈ pre, kids x = []

/-- `childByPid` looks at `c` on its way down from `p`, if it goes on to the end. -/
def Searched (kids : Fin n → List (Fin n)) : Fin n → Fin n → Prop :=
  Relation.TransGen (FirstBranch kids)

theorem Searched.cases (h : Searched kids p c) :
    ∃ d, FirstBranch kids p d ∧ (d = c ∨ kids d ≠ [] ∧ Searched kids d c) := by
  obtain ⟨d, hd, hdc⟩ := Relation.TransGen.head'_iff.mp h
  refine ⟨d, hd, ?_⟩
  rcases hdc.cases_head with rfl | ⟨e, he, hec⟩
  · exact .inl rfl
  · obtain ⟨pre, post, hk, -⟩ := id he
    exact .inr ⟨by simp [hk], Relation.TransGen.head'_iff.mpr ⟨e, he, hec⟩⟩

theorem Searched.below (h : TreeRep t kids) (hs : Searched kids p c) :
    ∃ d, t.pParent d = some p ∧ Progeny t.pParent d c := by
  have hchild : ∀ {a b}, FirstBranch kids a b → t.pParent b = some a := by
    rintro a b ⟨pre, post, hk, -⟩
    exact (h.parent a b).mp (by simp [hk])
  obtain ⟨d, hd, hdc⟩ := Relation.TransGen.head'_iff.mp hs
  exact ⟨d, hchild hd, Relation.ReflTransGen.mono (fun a b => hchild) _ _ hdc⟩

namespace TreeRep

theorem length_lt (h : TreeRep t kids) (p : Fin n) : (kids p).length < n + 1 := by
  have := (h.children p).nodup.length_le_card
  rw [Fintype.card_fin] at this
  omega

theorem emptyChild_eq (h : TreeRep t kids) (p : Fin n) : t.emptyChild p = (kids p).isEmpty :=
  (h.children p).empty_eq

theorem notMem_of_ne (h : TreeRep t kids) (hx : x ∈ kids q) (hqp : q ≠ p) : x ∉ kids p := fun hm => by
  have h1 := (h.parent q x).mp hx
  have h2 := (h.parent p x).mp hm
  rw [h1] at h2
  exact hqp (Option.some.inj h2)

/-- **A child leaves its parent.**  The list of `p` has been written back without
`c`, and `c` is an orphan. -/
theorem detach {l : Clist (Fin n)} (h : TreeRep t kids) (hc : t.pParent c = some p)
    (hl : l.Holds ((kids p).erase c)) (hout : Clist.SameOutside (kids p) (t.children p) l) :
    TreeRep ((t.setChildren p l).orphan c) (update kids p ((kids p).erase c)) := by
  have hnd := (h.children p).nodup
  refine ⟨fun r => ?_, fun r x => ?_, h.ranked.detach c⟩
  · by_cases hrp : r = p
    · subst hrp
      rw [Function.update_self]
      refine hl.congr (Function.update_self ..) (fun x hx => ?_)
      have hxc : x ≠ c := fun heq => hnd.not_mem_erase (heq ▸ hx)
      exact Function.update_of_ne hxc _ _
    · rw [Function.update_of_ne hrp]
      refine (h.children r).congr (Function.update_of_ne hrp _ _) (fun x hx => ?_)
      have hxp := h.notMem_of_ne hx hrp
      have hxc : x ≠ c := fun heq => hxp (heq ▸ (h.parent p c).mpr hc)
      have hnext : l.next x = t.pSiblings x := hout x hxp
      exact (Function.update_of_ne hxc _ _).trans hnext
  · show x ∈ update kids p ((kids p).erase c) r ↔ update t.pParent c none x = some r
    by_cases hxc : x = c
    · subst hxc
      rw [Function.update_self]
      refine iff_of_false (fun hm => ?_) (by simp)
      by_cases hrp : r = p
      · subst hrp
        rw [Function.update_self] at hm
        exact hnd.not_mem_erase hm
      · rw [Function.update_of_ne hrp] at hm
        exact h.notMem_of_ne hm hrp ((h.parent p x).mpr hc)
    · rw [Function.update_of_ne hxc, ← h.parent r x]
      by_cases hrp : r = p
      · subst hrp
        rw [Function.update_self, List.mem_erase_of_ne hxc]
      · rw [Function.update_of_ne hrp]

theorem detach_touches {l : Clist (Fin n)} (hout : Clist.SameOutside cs (t.children p) l) :
    t.Touches c p cs ((t.setChildren p l).orphan c) where
  pParent _ hx := Function.update_of_ne hx _ _
  pChildren _ hx := Function.update_of_ne hx _ _
  pSiblings x hx hxs := (Function.update_of_ne hx _ _).trans (hout x hxs)

/-! ### The functions of `pcb.c` -/

/-- **`removeChild` takes the first child.** -/
theorem run_removeChild (h : TreeRep t kids) (hk : kids p = c :: cs) :
    ∃ t', (removeChild p).run t = some (some c, t') ∧ TreeRep t' (update kids p cs) ∧
      t'.pParent = update t.pParent c none ∧ t.Touches c p (kids p) t' := by
  have hch := h.children p
  rw [hk] at hch
  obtain ⟨l, hdeq, hl, hout⟩ := hch.dequeue
  have hc : t.pParent c = some p := (h.parent p c).mp (by simp [hk])
  have hempty : t.emptyChild p = false := by
    rw [h.emptyChild_eq, hk]
    rfl
  have hcs : cs = (kids p).erase c := by simp [hk]
  have hrep := h.detach hc (hcs ▸ hl) (hk ▸ hout)
  refine ⟨_, ?_, hcs ▸ hrep, rfl, detach_touches (hk ▸ hout)⟩
  simp [removeChild, hempty, hch.head_eq, hdeq]

/-- **`outChild` takes a block away from its parent.** -/
theorem run_outChild (h : TreeRep t kids) (hc : t.pParent c = some p) :
    ∃ t', (outChild c).run t = some (some c, t') ∧
      TreeRep t' (update kids p ((kids p).erase c)) ∧ t'.pParent = update t.pParent c none ∧
      t.Touches c p (kids p) t' := by
  obtain ⟨pre, post, hk⟩ := List.append_of_mem ((h.parent p c).mpr hc)
  have hch := h.children p
  have hlen := h.length_lt p
  rw [hk] at hch hlen
  obtain ⟨l, hdel, hl, hout⟩ := hch.delete hlen
  have hpre : c ∉ pre := fun hm => List.disjoint_of_nodup_append hch.nodup hm List.mem_cons_self
  have herase : (kids p).erase c = pre ++ post := by
    rw [hk, List.erase_append_right _ hpre, List.erase_cons_head]
  have hrep := h.detach hc (herase ▸ hl) (hk ▸ hout)
  refine ⟨_, ?_, hrep, rfl, detach_touches (hk ▸ hout)⟩
  simp [outChild, hc, hdel]

theorem run_outChild_orphan (hc : t.pParent c = none) : (outChild c).run t = some (none, t) := by
  simp [outChild, hc]

/-- **`insertChild` gives a block to a parent**, with what is below it. -/
theorem run_insertChild (h : TreeRep t kids) (hc : t.pParent c = none)
    (hnot : ¬ Progeny t.pParent c p) :
    ∃ t', (insertChild p c).run t = some ((), t') ∧
      TreeRep t' (update kids p (kids p ++ [c])) ∧ t'.pParent = update t.pParent c (some p) ∧
      t.Touches c p (kids p) t' := by
  have hno : ∀ r, c ∉ kids r := fun r hm => by
    rw [h.parent r c, hc] at hm
    simp at hm
  have hout := (h.children p).enqueue_sameOutside (e := c)
  refine ⟨_, rfl, ⟨fun r => ?_, fun r x => ?_, h.ranked.attach hnot⟩, rfl,
    ⟨fun x hx => Function.update_of_ne hx _ _, fun x hx => Function.update_of_ne hx _ _,
      fun x hx hxs => hout x (by simp [hx, hxs])⟩⟩
  · by_cases hrp : r = p
    · subst hrp
      rw [Function.update_self]
      exact ((h.children r).enqueue (hno r)).congr (Function.update_self ..) (fun _ _ => rfl)
    · rw [Function.update_of_ne hrp]
      refine (h.children r).congr (Function.update_of_ne hrp _ _) (fun x hx => ?_)
      refine hout x ?_
      rw [List.mem_cons, not_or]
      exact ⟨fun heq => hno r (heq ▸ hx), h.notMem_of_ne hx hrp⟩
  · show x ∈ update kids p (kids p ++ [c]) r ↔ update t.pParent c (some p) x = some r
    by_cases hxc : x = c
    · subst hxc
      rw [Function.update_self]
      by_cases hrp : r = p
      · subst hrp
        simp
      · rw [Function.update_of_ne hrp]
        exact iff_of_false (hno r) (fun heq => hrp (Option.some.inj heq).symm)
    · rw [Function.update_of_ne hxc, ← h.parent r x]
      by_cases hrp : r = p
      · subst hrp
        simp [hxc]
      · rw [Function.update_of_ne hrp]

/-! ### The search for a pid -/

/-- **`childByPid` ends**, and finds the pid if a searched block has it. -/
theorem childByPid_search {k : Kernel n} (h : TreeRep k.toTree kids) (pid : Word) :
    ∀ (fuel : ℕ) (p : Fin n), Forest.SizeLE k.pParent p fuel →
      ∃ r, k.childByPid fuel p pid = some r ∧
        (∀ c, r = some c → (k.pcb c).pPid = pid ∧ Searched kids p c) ∧
        (r = none → ∀ c, Searched kids p c → (k.pcb c).pPid ≠ pid) := by
  intro fuel
  induction fuel with
  | zero => exact fun p hs => absurd hs.pos (lt_irrefl 0)
  | succ fuel ih =>
    intro p hs
    rw [Kernel.childByPid, h.emptyChild_eq]
    by_cases hempty : (kids p).isEmpty = true
    · rw [if_pos hempty]
      refine ⟨none, rfl, fun c hc => (nomatch hc), fun _ c hc => ?_⟩
      obtain ⟨d, ⟨pre, post, hk, -⟩, -⟩ := hc.cases
      simp [hk] at hempty
    · rw [if_neg hempty]
      have hleaf : ∀ x, (((k.pcb x).pPid == pid || !k.emptyChild x) = false) →
          (k.pcb x).pPid ≠ pid ∧ kids x = [] := by
        intro x hx
        rw [Bool.or_eq_false_iff, h.emptyChild_eq] at hx
        exact ⟨by simpa using hx.1, by simpa using hx.2⟩
      rcases (h.children p).foreach_cases
          (fun child => (k.pcb child).pPid == pid || !k.emptyChild child) (h.length_lt p) with
        ⟨hall, cur, hcur, hend⟩ | ⟨pre, d, post, hk, hpre, hstop, hcur, hbrk⟩
      · -- all children are leaves with another pid
        refine ⟨none, by simp [hcur, hend], fun c hc => (nomatch hc), fun _ c hc => ?_⟩
        obtain ⟨d, ⟨pre, post, hk, -⟩, hdc⟩ := hc.cases
        obtain ⟨hpid, hnil⟩ := hleaf d (hall d (by simp [hk]))
        rcases hdc with rfl | ⟨hne, -⟩
        · exact hpid
        · exact absurd hnil hne
      · have hd : k.pParent d = some p := (h.parent p d).mp (by simp [hk])
        have hbranch : FirstBranch kids p d := ⟨pre, post, hk, fun x hx => (hleaf x (hpre x hx)).2⟩
        by_cases hpid : (k.pcb d).pPid = pid
        · refine ⟨some d, by simp [hcur, hbrk, hpid], fun c hc => ?_, fun hc => (nomatch hc)⟩
          obtain rfl : d = c := Option.some.inj hc
          exact ⟨hpid, .single hbranch⟩
        · obtain ⟨r, hr, hfound, hnone⟩ := ih d (h.ranked.sizeLE_child hs hd)
          refine ⟨r, by simp [hcur, hbrk, hpid, hr], fun c hc => ?_, fun hc c hs' => ?_⟩
          · obtain ⟨hc1, hc2⟩ := hfound c hc
            exact ⟨hc1, .head hbranch hc2⟩
          · obtain ⟨e, ⟨pre', post', hk', hpre'⟩, hec⟩ := hs'.cases
            have hdk : kids d ≠ [] := by
              have : k.emptyChild d = false := by simpa [hpid] using hstop
              rwa [h.emptyChild_eq, List.isEmpty_eq_false_iff] at this
            have hor : e ∈ pre ∨ e = d := by
              rcases List.append_eq_append_iff.mp (hk.symm.trans hk') with
                ⟨as, has, htail⟩ | ⟨bs, hbs, htail⟩
              · cases as with
                | nil => exact .inr (List.cons.inj htail).1.symm
                | cons x as =>
                  obtain rfl : d = x := (List.cons.inj htail).1
                  exact absurd (hpre' d (by simp [has])) hdk
              · cases bs with
                | nil => exact .inr (List.cons.inj htail).1
                | cons x bs =>
                  obtain rfl : e = x := (List.cons.inj htail).1
                  exact .inl (by simp [hbs])
            rcases hor with he | rfl
            · obtain ⟨hepid, henil⟩ := hleaf e (hpre e he)
              rcases hec with rfl | ⟨hne, -⟩
              · exact hepid
              · exact absurd henil hne
            · rcases hec with rfl | ⟨-, hec⟩
              · exact hpid
              · exact hnone hc c hec

/-- **`childByPid` is sound**: what it finds is a proper descendant with the pid. -/
theorem childByPid_spec {k : Kernel n} (h : TreeRep k.toTree kids) (pid : Word)
    (fuel : ℕ) (p : Fin n) (hs : Forest.SizeLE k.pParent p fuel) :
    ∃ r, k.childByPid fuel p pid = some r ∧
      ∀ c, r = some c → (k.pcb c).pPid = pid ∧
        ∃ d, k.pParent d = some p ∧ Progeny k.pParent d c := by
  obtain ⟨r, hr, hfound, -⟩ := h.childByPid_search pid fuel p hs
  refine ⟨r, hr, fun c hc => ?_⟩
  obtain ⟨hpid, hc⟩ := hfound c hc
  exact ⟨hpid, hc.below h⟩

end TreeRep

end JaeOS
