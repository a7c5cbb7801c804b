import Mathlib.Logic.Relation
import Mathlib.Logic.Function.Basic
import Mathlib.Order.Basic
import Mathlib.Data.Nat.Notation
import Mathlib.Order.Nat
import Mathlib.Data.Fintype.Card

/-!
# Forests given by parent pointers

A map `par` sends every node to its parent, or to `none`.  `Progeny par p q`
says that `q` is `p` or a descendant of `p`.  A forest is `Ranked` when parents
come before their children, so that there are no cycles.
-/

open Function (update)
open Relation (ReflTransGen)

namespace Forest

variable {α : Type*} {par par' : α → Option α} {p q r c : α}

/-- `q` is `p` or one of its descendants. -/
def Progeny (par : α → Option α) : α → α → Prop := ReflTransGen fun a b => par b = some a

/-- There is a rank that grows from parents to children. -/
def Ranked (par : α → Option α) : Prop := ∃ rank : α → ℕ, ∀ c p, par c = some p → rank p < rank c

theorem Progeny.refl : Progeny par p p := ReflTransGen.refl

theorem Progeny.tail (h : Progeny par p q) (hc : par c = some q) : Progeny par p c :=
  ReflTransGen.tail h hc

theorem Progeny.trans (h : Progeny par p q) (h' : Progeny par q r) : Progeny par p r :=
  ReflTransGen.trans h h'

theorem Progeny.of_child (hc : par c = some p) (h : Progeny par c q) : Progeny par p q :=
  ReflTransGen.head hc h

theorem Progeny.mono (hle : ∀ c p, par' c = some p → par c = some p) (h : Progeny par' p q) :
    Progeny par p q :=
  Relation.ReflTransGen.mono (fun a b hab => hle b a hab) _ _ h

/-- **A set that contains `p` and all children of its members contains the
progeny of `p`.** -/
theorem Progeny.mem {S : α → Prop} (h : Progeny par p q) (hp : S p)
    (hclosed : ∀ a, S a → ∀ c, par c = some a → S c) : S q := by
  induction h with
  | refl => exact hp
  | tail _ hc ih => exact hclosed _ ih _ hc

/-- At most `m` nodes: `p` and its descendants. -/
def SizeLE (par : α → Option α) (p : α) (m : ℕ) : Prop :=
  ∃ S : Finset α, (∀ q, Progeny par p q → q ∈ S) ∧ S.card ≤ m

theorem sizeLE_card [Fintype α] : SizeLE par p (Fintype.card α) :=
  ⟨Finset.univ, fun q _ => Finset.mem_univ q, le_rfl⟩

theorem SizeLE.mono {m : ℕ} (hle : ∀ c p, par' c = some p → par c = some p)
    (h : SizeLE par p m) : SizeLE par' p m := by
  obtain ⟨S, hS, hcard⟩ := h
  exact ⟨S, fun q hq => hS q (hq.mono hle), hcard⟩

theorem SizeLE.pos {m : ℕ} (h : SizeLE par p m) : 0 < m := by
  obtain ⟨S, hS, hcard⟩ := h
  exact (Finset.card_pos.mpr ⟨p, hS p .refl⟩).trans_le hcard

theorem Progeny.cases (h : Progeny par p q) : q = p ∨ ∃ r, Progeny par p r ∧ par q = some r := by
  cases h with
  | refl => exact .inl rfl
  | tail h hc => exact .inr ⟨_, h, hc⟩

theorem not_progeny_of_leaf (hleaf : ∀ x, par x ≠ some c) (hne : p ≠ c) : ¬ Progeny par c p :=
  fun h => hne (h.mem (S := fun a => a = c) rfl (fun _ ha b hb => absurd (ha ▸ hb) (hleaf b)))

/-- Children lists that make an ordered forest: everybody is in one list at most, and there
once, and nobody is below itself. -/
structure Ordered (kids : α → List α) : Prop where
  nodup : ∀ q, (kids q).Nodup
  single : ∀ p q r, p ∈ kids q → p ∈ kids r → q = r
  acyclic : ∀ p, ¬ Relation.TransGen (fun a b => b ∈ kids a) p p

namespace Ranked

theorem mono (hle : ∀ c p, par' c = some p → par c = some p) (h : Ranked par) : Ranked par' := by
  obtain ⟨rank, hrank⟩ := h
  exact ⟨rank, fun c p hc => hrank c p (hle c p hc)⟩

theorem not_progeny (h : Ranked par) (hc : par c = some p) : ¬ Progeny par c p := by
  obtain ⟨rank, hrank⟩ := h
  intro hp
  have hle : rank c ≤ rank p :=
    hp.mem (S := fun a => rank c ≤ rank a) le_rfl (fun a ha b hb => ha.trans (hrank b a hb).le)
  exact absurd (hrank c p hc) (not_lt.mpr hle)

theorem ne_parent (h : Ranked par) (hc : par c = some p) : c ≠ p := by
  rintro rfl
  exact h.not_progeny hc .refl

theorem irrefl (h : Ranked par) (p : α) : ¬ Relation.TransGen (fun a b => par b = some a) p p := by
  intro hp
  obtain ⟨q, hpq, hqp⟩ := Relation.TransGen.head'_iff.mp hp
  exact h.not_progeny hpq hqp

theorem ordered {kids : α → List α} (h : Ranked par) (hnd : ∀ q, (kids q).Nodup)
    (hkids : ∀ q p, p ∈ kids q ↔ par p = some q) : Ordered kids where
  nodup := hnd
  single p q r hq hr := by
    rw [hkids] at hq hr
    exact Option.some.inj (hq.symm.trans hr)
  acyclic p hp := h.irrefl p
    (Relation.TransGen.mono (fun a b hab => (hkids a b).mp hab) _ _ hp)

variable [DecidableEq α]

theorem sizeLE_child {m : ℕ} (h : Ranked par) (hs : SizeLE par p (m + 1)) (hc : par c = some p) :
    SizeLE par c m := by
  obtain ⟨S, hS, hcard⟩ := hs
  refine ⟨S.erase p, fun q hq => Finset.mem_erase.mpr ⟨?_, hS q (hq.of_child hc)⟩, ?_⟩
  · rintro rfl
    exact h.not_progeny hc hq
  · rw [Finset.card_erase_of_mem (hS p .refl)]
    exact Nat.sub_le_of_le_add hcard

theorem detach (h : Ranked par) (c : α) : Ranked (update par c none) := by
  refine h.mono (fun x y hx => ?_)
  by_cases hxc : x = c
  · subst hxc
    rw [Function.update_self] at hx
    exact nomatch hx
  · rwa [Function.update_of_ne hxc] at hx

theorem attach (h : Ranked par) (hnot : ¬ Progeny par c p) : Ranked (update par c (some p)) := by
  classical
  obtain ⟨rank, hrank⟩ := h
  -- what is below `c` moves down, below `p`
  refine ⟨fun x => if Progeny par c x then rank x + rank p + 1 else rank x, fun x y hx => ?_⟩
  beta_reduce
  by_cases hxc : x = c
  · subst hxc
    rw [Function.update_self] at hx
    obtain rfl : p = y := Option.some.inj hx
    rw [if_neg hnot, if_pos .refl]
    omega
  · rw [Function.update_of_ne hxc] at hx
    have hlt := hrank x y hx
    by_cases hy : Progeny par c y
    · rw [if_pos hy, if_pos (hy.tail hx)]
      omega
    · have hnx : ¬ Progeny par c x := by
        intro hcx
        obtain heq | ⟨r, hr, hxr⟩ := hcx.cases
        · exact hxc heq
        · obtain rfl : r = y := Option.some.inj (hxr.symm.trans hx)
          exact hy hr
      rw [if_neg hy, if_neg hnx]
      exact hlt

end Ranked

end Forest
