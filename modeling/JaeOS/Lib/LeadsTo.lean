import Mathlib.Order.Filter.AtTopBot.Basic
import Mathlib.Tactic.Common

/-!
# What happens sooner or later

Properties of the moments of an endless run.  `LeadsTo P Q` says that whenever `P` holds, `Q`
happens then or later.  The rule with a rank proves it from what happens again and again: a
rank that never grows while one waits for `Q`, and gets smaller whenever `F` happens, cannot
get smaller for ever.
-/

open Filter (atTop)

variable {P P' Q R F : ℕ → Prop}

/-- Whenever `P` holds, `Q` happens then or later. -/
def LeadsTo (P Q : ℕ → Prop) : Prop := ∀ i, P i → ∃ j, i ≤ j ∧ Q j

namespace LeadsTo

theorem trans (h : LeadsTo P Q) (h' : LeadsTo Q R) : LeadsTo P R := by
  intro i hi
  obtain ⟨j, hij, hj⟩ := h i hi
  obtain ⟨l, hjl, hl⟩ := h' j hj
  exact ⟨l, hij.trans hjl, hl⟩

theorem of_imp (h : ∀ i, P i → Q i) : LeadsTo P Q := fun i hi => ⟨i, le_rfl, h i hi⟩

theorem or (h : LeadsTo P Q) (h' : LeadsTo P' Q) : LeadsTo (fun i => P i ∨ P' i) Q := by
  rintro i (hi | hi)
  · exact h i hi
  · exact h' i hi

section Rank

variable {α : Type*} [Preorder α] {T : α → ℕ → Prop} {x : α} {i : ℕ}

/-- As long as `Q` has not happened, the rank does not grow. -/
theorem keep (hstep : ∀ x i, T x i → Q i ∨ Q (i + 1) ∨ ∃ y, T y (i + 1) ∧ y ≤ x) (hx : T x i)
    (m : ℕ) : (∃ j, i ≤ j ∧ Q j) ∨ ∃ y, T y (i + m) ∧ y ≤ x := by
  induction m with
  | zero => exact .inr ⟨x, hx, le_rfl⟩
  | succ m ih =>
    rcases ih with hq | ⟨y, hy, hyx⟩
    · exact .inl hq
    · rcases hstep y (i + m) hy with hq | hq | ⟨z, hz, hzy⟩
      · exact .inl ⟨i + m, by omega, hq⟩
      · exact .inl ⟨i + m + 1, by omega, hq⟩
      · exact .inr ⟨z, hz, hzy.trans hyx⟩

/-- **The rule with a rank.** -/
theorem of_rank [WellFoundedLT α]
    (hstep : ∀ x i, T x i → Q i ∨ Q (i + 1) ∨ ∃ y, T y (i + 1) ∧ y ≤ x ∧ (F i → y < x))
    (hF : ∃ᶠ i in atTop, F i) : LeadsTo (fun i => ∃ x, T x i) Q := by
  have hkeep : ∀ x i, T x i → Q i ∨ Q (i + 1) ∨ ∃ y, T y (i + 1) ∧ y ≤ x := by
    intro x i hx
    rcases hstep x i hx with hq | hq | ⟨y, hy, hyx, -⟩
    · exact .inl hq
    · exact .inr (.inl hq)
    · exact .inr (.inr ⟨y, hy, hyx⟩)
  rintro i ⟨x, hx⟩
  induction x using WellFoundedLT.induction generalizing i with
  | ind x ih =>
    obtain ⟨j, hij, hj⟩ := Filter.frequently_atTop.mp hF i
    obtain ⟨m, rfl⟩ := Nat.exists_eq_add_of_le hij
    rcases keep hkeep hx m with hq | ⟨y, hy, hyx⟩
    · exact hq
    · rcases hstep y (i + m) hy with hq | hq | ⟨z, hz, -, hzy⟩
      · exact ⟨i + m, hij, hq⟩
      · exact ⟨i + m + 1, by omega, hq⟩
      · obtain ⟨l, hl, hq⟩ := ih z ((hzy hj).trans_le hyx) (i + m + 1) hz
        exact ⟨l, by omega, hq⟩

end Rank

end LeadsTo
