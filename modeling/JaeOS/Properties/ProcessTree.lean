import JaeOS.Refine.Tree
import JaeOS.Model.Init

/-!
# The process tree is an ordered forest

Any sequence of `insertChild`, `removeChild` and `outChild` keeps the three links of the
blocks consistent: the circular children lists and the parent pointers stand for one ordered
forest, and each call does to it what its name says.
-/

namespace JaeOS

open Function (update)
open Forest (Progeny)

variable {n : ℕ} {t t₀ t' : Tree n} {kids : Fin n → List (Fin n)} {p q : Fin n}
  {r : Option (Fin n)}

/-! ### The property -/

/-- A call of one of the three functions. -/
inductive TreeCall (n : ℕ)
  | insertChild (q p : Fin n)
  | removeChild (q : Fin n)
  | outChild (p : Fin n)

namespace TreeCall

/-- The call, with what it returns. -/
def code : TreeCall n → T n (Option (Fin n))
  | .insertChild q p => do
    JaeOS.insertChild q p
    pure none
  | .removeChild q => JaeOS.removeChild q
  | .outChild p => JaeOS.outChild p

/-- A block gets a parent only if it has none, and is neither the new parent nor above it. -/
def Admissible (t : Tree n) : TreeCall n → Prop
  | .insertChild q p => t.pParent p = none ∧ ¬ Progeny t.pParent p q
  | _ => True

/-- The block that is detached and returned. -/
def value (t : Tree n) (kids : Fin n → List (Fin n)) : TreeCall n → Option (Fin n)
  | .insertChild _ _ => none
  | .removeChild q => (kids q).head?
  | .outChild p => if t.pParent p = none then none else some p

/-- The children lists afterwards. -/
def after (kids : Fin n → List (Fin n)) : TreeCall n → Fin n → List (Fin n)
  | .insertChild q p => update kids q (kids q ++ [p])
  | .removeChild q => update kids q (kids q).tail
  | .outChild p => fun q => (kids q).erase p

end TreeCall

/-- The links stand for an ordered forest with these children lists. -/
structure Tree.Represents (t : Tree n) (kids : Fin n → List (Fin n)) : Prop where
  links : ∀ q, (t.children q).Holds (kids q)
  parent : ∀ q p, p ∈ kids q ↔ t.pParent p = some q
  ordered : Forest.Ordered kids

/-- Of the subtree of `p` only the root has new links: it has become an orphan. -/
structure Tree.Detached (t : Tree n) (p : Fin n) (t' : Tree n) : Prop where
  orphan : t'.pParent p = none
  children : ∀ x, Progeny t.pParent p x → t'.pChildren x = t.pChildren x
  below : ∀ x, Progeny t.pParent p x → x ≠ p →
    t'.pParent x = t.pParent x ∧ t'.pSiblings x = t.pSiblings x

/-- What a call does to the forest. -/
structure TreeCall.Right (c : TreeCall n) (t : Tree n) (kids : Fin n → List (Fin n))
    (t' : Tree n) : Prop where
  represents : t'.Represents (c.after kids)
  detached : ∀ p, c.value t kids = some p → t.Detached p t'
  nothing : (∀ q p, c ≠ .insertChild q p) → c.value t kids = none → t' = t

/-- Nobody has a parent or a child. -/
def Tree.Blank (t : Tree n) : Prop := ∀ p, t.pParent p = none ∧ t.pChildren p = none

/-- Admissible calls, one after the other. -/
inductive TreeRuns (t₀ : Tree n) : Tree n → Prop
  | refl : TreeRuns t₀ t₀
  | call {t t' : Tree n} {r : Option (Fin n)} (c : TreeCall n) (h : TreeRuns t₀ t)
      (hc : c.Admissible t) (hrun : c.code.run t = some (r, t')) : TreeRuns t₀ t'

/-! ### One call -/

namespace TreeRep

theorem represents (h : TreeRep t kids) : t.Represents kids :=
  ⟨h.children, h.parent, h.ranked.ordered (fun q => (h.children q).nodup) h.parent⟩

theorem detached (h : TreeRep t kids) (hp : t.pParent p = some q)
    (hpar : t'.pParent = update t.pParent p none) (htouch : t.Touches p q (kids q) t') :
    t.Detached p t' where
  orphan := by rw [hpar, Function.update_self]
  children x hx := by
    refine htouch.pChildren x ?_
    rintro rfl
    exact h.ranked.not_progeny hp hx
  below x hx hxp := by
    refine ⟨htouch.pParent x hxp, htouch.pSiblings x hxp (fun hm => ?_)⟩
    rw [h.parent q x] at hm
    obtain heq | ⟨r, hr, hxr⟩ := hx.cases
    · exact hxp heq
    · obtain rfl : r = q := Option.some.inj (hxr.symm.trans hm)
      exact h.ranked.not_progeny hp hr

theorem erase_eq (h : TreeRep t kids) (hp : t.pParent p = some q) :
    update kids q ((kids q).erase p) = fun r => (kids r).erase p := by
  funext r
  by_cases hrq : r = q
  · rw [hrq, Function.update_self]
  · rw [Function.update_of_ne hrq, List.erase_of_not_mem]
    exact fun hm => h.notMem_of_ne hm hrq ((h.parent q p).mpr hp)

/-- **One call.** -/
theorem call (h : TreeRep t kids) (c : TreeCall n) (hc : c.Admissible t) :
    ∃ t', c.code.run t = some (c.value t kids, t') ∧ TreeRep t' (c.after kids) ∧
      c.Right t kids t' := by
  cases c with
  | insertChild q p =>
    obtain ⟨t', hrun, hrep, -, -⟩ := h.run_insertChild hc.1 hc.2
    refine ⟨t', ?_, hrep, hrep.represents, fun x hx => ?_, fun hne _ => absurd rfl (hne q p)⟩
    · rw [TreeCall.code, StateT.run_bind, hrun]
      rfl
    · cases hx
  | removeChild q =>
    rw [TreeCall.code, TreeCall.value, TreeCall.after]
    cases hk : kids q with
    | nil =>
      have hsame : update kids q (List.tail []) = kids := by
        rw [List.tail_nil, ← hk, Function.update_eq_self]
      have hempty : t.emptyChild q = true := by rw [h.emptyChild_eq, hk, List.isEmpty_nil]
      refine ⟨t, by simp [removeChild, hempty], by rwa [hsame], ⟨?_, fun p hp => ?_, fun _ _ => rfl⟩⟩
      · rw [TreeCall.after, hk, hsame]
        exact h.represents
      · rw [TreeCall.value, hk] at hp
        cases hp
    | cons p cs =>
      obtain ⟨t', hrun, hrep, hpar, htouch⟩ := h.run_removeChild hk
      refine ⟨t', hrun, hrep, ⟨?_, fun x hx => ?_, fun _ hn => ?_⟩⟩
      · rw [TreeCall.after, hk]
        exact hrep.represents
      · rw [TreeCall.value, hk] at hx
        obtain rfl : p = x := Option.some.inj hx
        exact h.detached ((h.parent q p).mp (by simp [hk])) hpar htouch
      · rw [TreeCall.value, hk] at hn
        cases hn
  | outChild p =>
    rw [TreeCall.code, TreeCall.value, TreeCall.after]
    cases hp : t.pParent p with
    | none =>
      have hsame : (fun q => (kids q).erase p) = kids := by
        funext q
        refine List.erase_of_not_mem (fun hm => ?_)
        rw [h.parent q p, hp] at hm
        cases hm
      rw [if_pos rfl]
      refine ⟨t, run_outChild_orphan hp, by rwa [hsame], ⟨?_, fun x hx => ?_, fun _ _ => rfl⟩⟩
      · rw [TreeCall.after, hsame]
        exact h.represents
      · rw [TreeCall.value, if_pos hp] at hx
        cases hx
    | some q =>
      have hne : t.pParent p ≠ none := by rw [hp]; exact Option.some_ne_none q
      obtain ⟨t', hrun, hrep, hpar, htouch⟩ := h.run_outChild hp
      rw [h.erase_eq hp] at hrep
      rw [if_neg (Option.some_ne_none q)]
      refine ⟨t', hrun, hrep, hrep.represents, fun x hx => ?_, fun _ hn => ?_⟩
      · rw [TreeCall.value, if_neg hne] at hx
        obtain rfl : p = x := Option.some.inj hx
        exact h.detached hp hpar htouch
      · rw [TreeCall.value, if_neg hne] at hn
        cases hn

end TreeRep

/-! ### Runs -/

theorem Tree.Blank.rep (h : t.Blank) : TreeRep t (fun _ => []) where
  children p := Clist.holds_nil (h p).2
  parent p c := by simp [(h c).1]
  ranked := ⟨fun _ => 0, fun c p hc => by simp [(h c).1] at hc⟩

theorem TreeRuns.rep (h₀ : t₀.Blank) (h : TreeRuns t₀ t) : ∃ kids, TreeRep t kids := by
  induction h with
  | refl => exact ⟨_, h₀.rep⟩
  | call c _ hc hrun ih =>
    obtain ⟨kids, hrep⟩ := ih
    obtain ⟨t₁, hrun₁, hrep₁, -⟩ := hrep.call c hc
    obtain ⟨-, rfl⟩ := Prod.mk.inj (Option.some.inj (hrun₁.symm.trans hrun))
    exact ⟨_, hrep₁⟩

/-- **The process tree functions represent an ordered forest**: after any sequence of calls the
links stand for one, and every further call has a result and does what it says to the
forest. -/
theorem tree_represents_forest (h₀ : t₀.Blank) (h : TreeRuns t₀ t) :
    ∃ kids, t.Represents kids ∧ ∀ c : TreeCall n, c.Admissible t →
      ∃ t', c.code.run t = some (c.value t kids, t') ∧ c.Right t kids t' := by
  obtain ⟨kids, hrep⟩ := h.rep h₀
  refine ⟨kids, hrep.represents, fun c hc => ?_⟩
  obtain ⟨t', hrun, -, hright⟩ := hrep.call c hc
  exact ⟨t', hrun, hright⟩

/-- The blocks as `main` finds them, and two children for the first one. -/
theorem tree_represents_forest_two : ∃ t : Tree 3, TreeRuns (Kernel.static 3).toTree t ∧
    t.pParent 1 = some 0 ∧ t.pParent 2 = some 0 ∧
    ∃ kids, t.Represents kids ∧ ∀ c : TreeCall 3, c.Admissible t →
      ∃ t', c.code.run t = some (c.value t kids, t') ∧ c.Right t kids t' := by
  have hblank : (Kernel.static 3).toTree.Blank := fun p => ⟨rfl, rfl⟩
  have h1 : TreeCall.Admissible (Kernel.static 3).toTree (.insertChild 0 1) :=
    ⟨rfl, Forest.not_progeny_of_leaf (fun x hx => by cases hx) (by decide)⟩
  have hrun1 := TreeRuns.call _ .refl h1 rfl
  have hrun2 := TreeRuns.call (.insertChild 0 2) hrun1
    ⟨rfl, Forest.not_progeny_of_leaf (by decide) (by decide)⟩ rfl
  exact ⟨_, hrun2, rfl, rfl, tree_represents_forest hblank hrun2⟩

end JaeOS
