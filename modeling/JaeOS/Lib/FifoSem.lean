import Mathlib.Algebra.BigOperators.Group.Finset.Basic
import Mathlib.Algebra.BigOperators.Group.List.Basic
import Mathlib.Algebra.GroupWithZero.Nat
import Mathlib.Algebra.Order.BigOperators.Group.Finset
import Mathlib.Order.Bounds.Defs
import Mathlib.Tactic.Common

/-!
# Weighted semaphores with a FIFO queue

A semaphore has a value and a queue of waiters, each with the amount it asked
for.  `serve` is what a release does to the queue: the waiters are served from
the front, for as long as the resources last.  `FifoSem` is the semaphore with
its history, and `FifoSem.Sound` what the history says about it: requests are
granted in the order of their issue, and nothing is created or lost.
-/

variable {α β γ : Type*}

/-! ### Serving a queue -/

structure Service (α β : Type*) where
  woken : List α
  rest : List α
  left : β

/-- Serve the waiters of a queue in order, from the resources `r`. -/
def serve [LE β] [DecidableLE β] [Sub β] (req : α → β) (r : β) : List α → Service α β
  | [] => ⟨[], [], r⟩
  | p :: q =>
    if req p ≤ r then
      let s := serve req (r - req p) q
      ⟨p :: s.woken, s.rest, s.left⟩
    else ⟨[], p :: q, r⟩

section Serve

variable [LE β] [DecidableLE β] [Sub β] {req req' : α → β} {r : β} {p : α} {q : List α}

theorem serve_cons_of_le (h : req p ≤ r) :
    serve req r (p :: q) = ⟨p :: (serve req (r - req p) q).woken,
      (serve req (r - req p) q).rest, (serve req (r - req p) q).left⟩ := by
  rw [serve, if_pos h]

theorem serve_cons_of_not_le (h : ¬ req p ≤ r) : serve req r (p :: q) = ⟨[], p :: q, r⟩ := by
  rw [serve, if_neg h]

theorem serve_append (req : α → β) (r : β) (q : List α) :
    (serve req r q).woken ++ (serve req r q).rest = q := by
  induction q generalizing r with
  | nil => rfl
  | cons p q ih =>
    by_cases h : req p ≤ r
    · rw [serve_cons_of_le h, List.cons_append, ih]
    · rw [serve_cons_of_not_le h, List.nil_append]

/-- The first waiter left over asks for more than is left. -/
theorem serve_rest (req : α → β) (r : β) (q : List α) :
    ∀ p ∈ (serve req r q).rest.head?, ¬ req p ≤ (serve req r q).left := by
  induction q generalizing r with
  | nil => exact fun p hp => nomatch hp
  | cons p q ih =>
    by_cases h : req p ≤ r
    · rw [serve_cons_of_le h]
      exact ih _
    · rw [serve_cons_of_not_le h]
      intro x hx
      obtain rfl : p = x := Option.some.inj hx
      exact h

theorem serve_congr (h : ∀ p ∈ q, req p = req' p) : serve req r q = serve req' r q := by
  induction q generalizing r with
  | nil => rfl
  | cons p q ih =>
    have hp : req p = req' p := h p List.mem_cons_self
    have hq := fun r => ih (r := r) (fun x hx => h x (List.mem_cons_of_mem _ hx))
    rw [serve, serve, hp, hq]

/-- Serving commutes with a map of the amounts that respects order and
subtraction. -/
theorem serve_map [LE γ] [DecidableLE γ] [Sub γ] (f : β → γ)
    (hle : ∀ x y, f x ≤ f y ↔ x ≤ y) (hsub : ∀ x y, x ≤ y → f (y - x) = f y - f x) :
    serve (fun p => f (req p)) (f r) q =
      ⟨(serve req r q).woken, (serve req r q).rest, f (serve req r q).left⟩ := by
  induction q generalizing r with
  | nil => rfl
  | cons p q ih =>
    by_cases h : req p ≤ r
    · have hf : f (req p) ≤ f r := (hle _ _).mpr h
      rw [serve_cons_of_le h, serve, if_pos hf, ← hsub _ _ h, ih]
    · have hf : ¬ f (req p) ≤ f r := fun hf => h ((hle _ _).mp hf)
      rw [serve_cons_of_not_le h, serve, if_neg hf]

theorem serve_pairs : serve Prod.snd r (q.map fun p => (p, req p)) =
    ⟨(serve req r q).woken.map fun p => (p, req p),
      (serve req r q).rest.map fun p => (p, req p), (serve req r q).left⟩ := by
  induction q generalizing r with
  | nil => rfl
  | cons p q ih =>
    by_cases h : req p ≤ r
    · rw [serve_cons_of_le h, List.map_cons, serve, if_pos h, ih]
      rfl
    · rw [serve_cons_of_not_le h, List.map_cons, serve, if_neg h]
      rfl

end Serve

theorem serve_sum (req : α → ℕ) (r : ℕ) (q : List α) :
    (serve req r q).left + ((serve req r q).woken.map req).sum = r := by
  induction q generalizing r with
  | nil => rfl
  | cons p q ih =>
    by_cases h : req p ≤ r
    · have := ih (r - req p)
      simp only [serve_cons_of_le h, List.map_cons, List.sum_cons]
      omega
    · rw [serve_cons_of_not_le h]
      rfl

theorem serve_woken_eq_take [LE β] [DecidableLE β] [Sub β] (req : α → β) (r : β) (q : List α) :
    (serve req r q).woken = q.take (serve req r q).woken.length := by
  have h := congrArg (List.take (serve req r q).woken.length) (serve_append req r q)
  rwa [List.take_left] at h

theorem serve_rest_eq_drop [LE β] [DecidableLE β] [Sub β] (req : α → β) (r : β) (q : List α) :
    (serve req r q).rest = q.drop (serve req r q).woken.length := by
  have h := congrArg (List.drop (serve req r q).woken.length) (serve_append req r q)
  rwa [List.drop_left] at h

/-- **As many waiters are served as the resources last for.** -/
theorem serve_isGreatest (req : α → ℕ) (r : ℕ) (q : List α) :
    IsGreatest {j | j ≤ q.length ∧ ∀ i ≤ j, ((q.take i).map req).sum ≤ r}
      (serve req r q).woken.length := by
  induction q generalizing r with
  | nil =>
    refine ⟨⟨Nat.zero_le _, ?_⟩, fun j hj => hj.1⟩
    intro i _
    simp
  | cons p q ih =>
    by_cases h : req p ≤ r
    · obtain ⟨⟨hlen, hsum⟩, hmax⟩ := ih (r - req p)
      rw [serve_cons_of_le h, List.length_cons]
      refine ⟨⟨Nat.succ_le_succ hlen, ?_⟩, ?_⟩
      · intro i hi
        cases i with
        | zero => simp
        | succ i =>
          have := hsum i (Nat.le_of_succ_le_succ hi)
          rw [List.take_succ_cons, List.map_cons, List.sum_cons]
          omega
      · rintro j ⟨hj, hall⟩
        cases j with
        | zero => exact Nat.zero_le _
        | succ j =>
          apply Nat.succ_le_succ
          refine hmax ⟨Nat.le_of_succ_le_succ hj, ?_⟩
          intro i hi
          have := hall (i + 1) (Nat.succ_le_succ hi)
          rw [List.take_succ_cons, List.map_cons, List.sum_cons] at this
          omega
    · rw [serve_cons_of_not_le h]
      refine ⟨⟨Nat.zero_le _, ?_⟩, ?_⟩
      · intro i hi
        obtain rfl : i = 0 := Nat.le_zero.mp hi
        simp
      · rintro j ⟨_, hall⟩
        cases j with
        | zero => exact Nat.zero_le _
        | succ j =>
          have := hall 1 (Nat.succ_le_succ (Nat.zero_le j))
          rw [List.take_succ_cons, List.map_cons, List.sum_cons] at this
          omega

/-- **A waiter that is not served** keeps those in front of it that are not served either,
and the first of them, or the waiter itself, asks for more than is left. -/
theorem serve_waits (req : α → ℕ) (r : ℕ) {q before after : List α} {x : α}
    (hq : q = before ++ x :: after) (hnd : q.Nodup) (hx : x ∈ (serve req r q).rest) :
    ∃ before', before = (serve req r q).woken ++ before' ∧
      (serve req r q).rest = before' ++ x :: after ∧
      ∃ y ∈ before' ++ [x], (serve req r q).left < req y := by
  have happ := serve_append req r q
  have hfirst := serve_rest req r q
  generalize serve req r q = s at happ hfirst hx ⊢
  rw [← happ] at hnd
  have hnot : x ∉ s.woken := fun hm => (List.nodup_append.mp hnd).2.2 x hm x hx rfl
  obtain ⟨before', hbefore, hrest⟩ : ∃ before', before = s.woken ++ before' ∧
      s.rest = before' ++ x :: after := by
    rcases List.append_eq_append_iff.mp (happ.trans hq) with ⟨m, hb, hr⟩ | ⟨m, hw, hr⟩
    · exact ⟨m, hb, hr⟩
    · cases m with
      | nil => exact ⟨[], by rw [hw, List.append_nil, List.append_nil], hr.symm⟩
      | cons y m =>
        rw [List.cons_append, List.cons.injEq] at hr
        exact absurd (by simp [hw, hr.1]) hnot
  refine ⟨before', hbefore, hrest, ?_⟩
  rw [hrest] at hfirst
  cases before' with
  | nil => exact ⟨x, by simp, Nat.lt_of_not_le (hfirst x rfl)⟩
  | cons y m => exact ⟨y, by simp, Nat.lt_of_not_le (hfirst y rfl)⟩

/-! ### The semaphore and its history -/

/-- A semaphore, with the sum of what was released, and the requests issued and
granted so far, in order. -/
structure FifoSem (α : Type*) where
  value : ℕ
  queue : List (α × ℕ)
  supplied : ℕ
  issued : List (α × ℕ)
  granted : List (α × ℕ)

namespace FifoSem

variable {s : FifoSem α} {v : ℕ}

def init (v : ℕ) : FifoSem α := ⟨v, [], 0, [], []⟩

def signal (s : FifoSem α) (w : ℕ) : FifoSem α :=
  let t := serve Prod.snd (s.value + w) s.queue
  { s with value := t.left, queue := t.rest, supplied := s.supplied + w
           granted := s.granted ++ t.woken }

/-- A request is granted at once if nobody waits and there is enough. -/
def Grants (s : FifoSem α) (w : ℕ) : Prop := s.queue = [] ∧ w ≤ s.value

instance (s : FifoSem α) (w : ℕ) : Decidable (s.Grants w) :=
  inferInstanceAs (Decidable (_ ∧ _))

def wait (s : FifoSem α) (p : α) (w : ℕ) : FifoSem α :=
  if s.Grants w then
    { s with value := s.value - w, issued := s.issued ++ [(p, w)]
             granted := s.granted ++ [(p, w)] }
  else { s with queue := s.queue ++ [(p, w)], issued := s.issued ++ [(p, w)] }

/-- Nobody waits for what is there. -/
def Blocked (s : FifoSem α) : Prop := ∀ x ∈ s.queue.head?, s.value < x.2

/-- A release leaves nobody waiting for what is there, whatever it was before. -/
theorem blocked_signal (s : FifoSem α) (w : ℕ) : (s.signal w).Blocked := fun x hx =>
  Nat.lt_of_not_le (serve_rest Prod.snd (s.value + w) s.queue x hx)

theorem value_signal_le (s : FifoSem α) (w : ℕ) : (s.signal w).value ≤ s.value + w := by
  have hsum := serve_sum Prod.snd (s.value + w) s.queue
  rw [FifoSem.signal]
  dsimp only
  omega

theorem Blocked.wait (h : s.Blocked) (p : α) (w : ℕ) : (s.wait p w).Blocked := by
  rw [FifoSem.wait]
  split_ifs with hg
  · intro x hx
    rw [hg.1] at hx
    exact absurd hx (by simp)
  · intro x hx
    cases hq : s.queue with
    | nil =>
      have hlt : ¬ w ≤ s.value := fun hle => hg ⟨hq, hle⟩
      simp only [hq, List.nil_append, List.head?_cons, Option.mem_some_iff] at hx
      subst hx
      exact Nat.lt_of_not_le hlt
    | cons y q =>
      refine h x ?_
      simpa [hq] using hx

/-- What the history of a semaphore that started with `v` units says. -/
structure Sound (v : ℕ) (s : FifoSem α) : Prop where
  /-- Granted in the order of issue, each request once. -/
  order : s.issued = s.granted ++ s.queue
  /-- No unit is created or lost. -/
  account : v + s.supplied = s.value + (s.granted.map Prod.snd).sum
  /-- Nobody waits for what is there. -/
  blocked : s.Blocked

theorem Sound.init : Sound v (init v : FifoSem α) := ⟨rfl, rfl, fun _ h => nomatch h⟩

theorem Sound.signal (h : Sound v s) (w : ℕ) : Sound v (s.signal w) where
  order := by
    have := serve_append Prod.snd (s.value + w) s.queue
    rw [FifoSem.signal, List.append_assoc, this]
    exact h.order
  account := by
    have hsum := serve_sum Prod.snd (s.value + w) s.queue
    have hold := h.account
    simp only [FifoSem.signal, List.map_append, List.sum_append]
    omega
  blocked := blocked_signal s w

theorem Sound.wait (h : Sound v s) (p : α) (w : ℕ) : Sound v (s.wait p w) := by
  have hblocked := h.blocked.wait p w
  have hacc := h.account
  rw [FifoSem.wait] at hblocked ⊢
  split_ifs at hblocked ⊢ with hg
  · refine ⟨?_, ?_, hblocked⟩
    · simp [h.order, hg.1]
    · have := hg.2
      simp only [List.map_append, List.sum_append, List.map_cons, List.map_nil, List.sum_singleton]
      omega
  · refine ⟨?_, hacc, hblocked⟩
    simp [h.order]

end FifoSem

/-! ### Units in hand -/

section Units

open Finset (univ)

variable [Fintype α] {held held' given got : α → ℕ} {v v' : ℕ} {x y : α}

/-- The units of a semaphore, those that are there and those that are held. -/
def units (v : ℕ) (held : α → ℕ) : ℕ := v + ∑ x, held x

/-- **What is given back is there or is handed on.** -/
theorem units_exchange (h : ∀ x, held' x + given x = held x + got x)
    (hv : v' + ∑ x, got x = v + ∑ x, given x) : units v' held' = units v held := by
  have hsum : ∑ x, held' x + ∑ x, given x = ∑ x, held x + ∑ x, got x := by
    rw [← Finset.sum_add_distrib, ← Finset.sum_add_distrib]
    exact Finset.sum_congr rfl (fun x _ => h x)
  rw [units, units]
  omega

theorem units_mono (h : ∀ x, held' x ≤ held x) : units v held' ≤ units v held :=
  Nat.add_le_add_left (Finset.sum_le_sum (fun x _ => h x)) v

theorem held_le_units (v : ℕ) (held : α → ℕ) (x : α) : v + held x ≤ units v held :=
  Nat.add_le_add_left (Finset.single_le_sum (fun _ _ => Nat.zero_le _) (Finset.mem_univ x)) v

/-- **Two holders share the units.** -/
theorem held_add_held_le (v : ℕ) (held : α → ℕ) (hne : x ≠ y) : held x + held y ≤ units v held := by
  classical
  have hpair : ∑ z ∈ {x, y}, held z ≤ ∑ z, held z :=
    Finset.sum_le_sum_of_subset (Finset.subset_univ _)
  rw [Finset.sum_pair hne] at hpair
  exact hpair.trans (Nat.le_add_left _ v)

theorem sum_of_waiters [DecidableEq α] {q : List α} (req : α → ℕ) (hnd : q.Nodup) :
    ∑ x, (if x ∈ q then req x else 0) = (q.map req).sum := by
  rw [← List.sum_toFinset req hnd, ← Finset.sum_filter]
  refine Finset.sum_congr ?_ (fun _ _ => rfl)
  ext x
  simp

end Units
