import Mathlib.Data.List.Nodup
import Mathlib.Data.List.Perm.Basic
import Mathlib.Logic.Function.Basic

/-!
# Tokens on ordered lists

A `Placement` puts every token in exactly one place, and orders the tokens of a
place in a list.  Both facts are part of the type, so that whatever is built
with `Placement.move` keeps them.
-/

open Function (update)

/-- Where every token is, and the order of the tokens in each place. -/
structure Placement (T P : Type*) where
  place : T → P
  list : P → List T
  mem : ∀ a t, t ∈ list a ↔ place t = a
  nodup : ∀ a, (list a).Nodup

namespace Placement

variable {T P : Type*} {v : Placement T P} {t u : T} {a b c : P}

@[ext] theorem ext {v w : Placement T P} (hp : v.place = w.place) (hl : v.list = w.list) : v = w := by
  cases v
  cases w
  cases hp
  cases hl
  rfl

theorem disjoint (h : a ≠ b) : (v.list a).Disjoint (v.list b) := fun t ha hb =>
  h (((v.mem a t).mp ha).symm.trans ((v.mem b t).mp hb))

variable [DecidableEq T] [DecidableEq P]

/-- Take a token from wherever it is to the end of a list. -/
def move (v : Placement T P) (t : T) (a : P) : Placement T P where
  place := update v.place t a
  list := update (fun b => (v.list b).erase t) a ((v.list a).erase t ++ [t])
  mem b u := by
    have hb := (v.nodup b).mem_erase_iff (b := t) (a := u)
    by_cases hut : u = t
    · subst hut
      rw [Function.update_self]
      by_cases hba : b = a
      · subst hba
        simp
      · rw [Function.update_of_ne hba, hb]
        exact ⟨fun h => absurd rfl h.1, fun h => absurd h.symm hba⟩
    · rw [Function.update_of_ne hut]
      by_cases hba : b = a
      · subst hba
        rw [Function.update_self, List.mem_append, hb, v.mem]
        simp [hut]
      · rw [Function.update_of_ne hba, hb, v.mem]
        simp [hut]
  nodup b := by
    by_cases hba : b = a
    · subst hba
      rw [Function.update_self]
      refine ((v.nodup b).erase t).append (List.nodup_singleton t) ?_
      rw [List.disjoint_singleton]
      exact (v.nodup b).not_mem_erase
    · rw [Function.update_of_ne hba]
      exact (v.nodup b).erase t

@[simp] theorem move_place : (v.move t a).place = update v.place t a := rfl

@[simp] theorem move_place_self : (v.move t a).place t = a := Function.update_self ..

theorem move_place_of_ne (h : u ≠ t) : (v.move t a).place u = v.place u :=
  Function.update_of_ne h ..

theorem move_list : (v.move t a).list =
    update (fun b => (v.list b).erase t) a ((v.list a).erase t ++ [t]) := rfl

theorem move_list_self (h : v.place t ≠ a) : (v.move t a).list a = v.list a ++ [t] := by
  have hnot : t ∉ v.list a := fun hm => h ((v.mem a t).mp hm)
  rw [move_list, Function.update_self, List.erase_of_not_mem hnot]

theorem move_list_of_ne (h : b ≠ a) : (v.move t a).list b = (v.list b).erase t := by
  rw [move_list, Function.update_of_ne h]

theorem move_list_other (h : b ≠ a) (hb : v.place t ≠ b) : (v.move t a).list b = v.list b := by
  have hnot : t ∉ v.list b := fun hm => hb ((v.mem b t).mp hm)
  rw [move_list_of_ne h, List.erase_of_not_mem hnot]

/-- A token that is put down somewhere and taken on leaves no trace there. -/
theorem move_move (hab : a ≠ b) (ht : v.place t ≠ a) : (v.move t a).move t b = v.move t b := by
  refine ext ?_ (funext fun c => ?_)
  · rw [move_place, move_place, move_place, Function.update_idem]
  have hta : (v.move t a).place t ≠ b := by
    rw [move_place_self]
    exact hab
  by_cases hcb : c = b
  · subst hcb
    rw [move_list_self hta, move_list_of_ne hab.symm, move_list, Function.update_self]
  · rw [move_list_of_ne hcb, move_list_of_ne hcb]
    by_cases hca : c = a
    · subst hca
      have hnot : t ∉ v.list c := fun hm => ht ((v.mem c t).mp hm)
      rw [move_list_self ht, List.erase_append_right _ hnot, List.erase_cons_head, List.append_nil,
        List.erase_of_not_mem hnot]
    · rw [move_list_of_ne hca, List.erase_of_not_mem (v.nodup c).not_mem_erase]

end Placement
