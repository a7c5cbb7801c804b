import JaeOS.Lib.CircList
import JaeOS.Model.Clist

/-!
# The list macros on well-formed lists

`c.Holds xs` says that the list under a list head is well formed and holds
`xs`.  Each macro is compared with the operation on `xs` it stands for, and
leaves the links of all other nodes alone.  The loops of `clist_foreach` and
`clist_delete` end within `xs.length + 1` rounds.
-/

namespace JaeOS

open Function (update)

namespace Clist

variable {N : Type*} {c : Clist N} {xs pre mid post : List N} {a e x y : N}

/-- The list is well formed and holds `xs`, in order. -/
def Holds (c : Clist N) (xs : List N) : Prop := CircList c.next c.tail xs

/-- `c'` differs from `c` in links of nodes in `xs` only. -/
def SameOutside (xs : List N) (c c' : Clist N) : Prop := ∀ a, a ∉ xs → c'.next a = c.next a

theorem Holds.congr {c' : Clist N} (h : c.Holds xs) (ht : c'.tail = c.tail)
    (hn : ∀ a ∈ xs, c'.next a = c.next a) : c'.Holds xs := by
  rw [Holds, ht]
  exact CircList.congr h hn

theorem Holds.nodup (h : c.Holds xs) : xs.Nodup := CircList.nodup h

theorem Holds.tail_eq (h : c.Holds xs) : c.tail = xs.getLast? := CircList.tail_eq h

theorem Holds.unique {ys : List N} (h : c.Holds xs) (hy : c.Holds ys) : xs = ys :=
  CircList.unique h hy

theorem holds_nil (hc : c.tail = none) : c.Holds [] := by
  rw [Holds, hc]
  exact .nil

theorem holds_singleton (ht : c.tail = some x) (hx : c.next x = some x) : c.Holds [x] := by
  refine ⟨List.nodup_singleton x, ht, ?_⟩
  rw [ht]
  exact links_cons_cons.mpr ⟨hx, links_singleton _ x⟩

theorem Holds.empty_eq (h : c.Holds xs) : c.empty = xs.isEmpty := by
  rw [empty, h.tail_eq]
  cases xs with
  | nil => rfl
  | cons x xs => rw [List.getLast?_cons]; rfl

theorem Holds.tail_of_append (h : c.Holds (pre ++ x :: post)) :
    c.tail = (x :: post).getLast? :=
  CircList.tail_of_append h

theorem Holds.getLast?_ne_tail (h : c.Holds (pre ++ x :: post)) : pre.getLast? ≠ c.tail := by
  rw [h.tail_of_append]
  intro heq
  cases hl : pre.getLast? with
  | none =>
    rw [hl] at heq
    exact List.cons_ne_nil _ _ (List.getLast?_eq_none_iff.mp heq.symm)
  | some a =>
    rw [hl] at heq
    exact List.disjoint_of_nodup_append h.nodup (List.mem_of_getLast? hl)
      (List.mem_of_getLast? heq.symm)

theorem Holds.next_of_append (h : c.Holds (pre ++ x :: y :: post)) : c.next x = some y :=
  CircList.next_of_append h

theorem Holds.exists_tail (h : c.Holds (x :: xs)) : ∃ t, c.tail = some t ∧ c.next t = some x := by
  obtain ⟨tail, next⟩ := c
  cases tail with
  | none => exact absurd (CircList.eq_nil h) (List.cons_ne_nil _ _)
  | some t => exact ⟨t, rfl, CircList.next_tail h⟩

theorem Holds.head_eq (h : c.Holds xs) : c.head = some xs.head? := by
  cases xs with
  | nil => simp [head, h.tail_eq]
  | cons x xs =>
    obtain ⟨t, ht, hnext⟩ := h.exists_tail
    simp only [head, ht, hnext]
    rfl

/-! ### Bodies of loops -/

/-- Run a body over the nodes in order, up to the one where it leaves. -/
def sweep {σ : Type*} (body : N → σ → Bool × σ) : List N → σ → Option N × σ
  | [], s => (none, s)
  | x :: xs, s =>
    if (body x s).1 then (some x, (body x s).2) else sweep body xs (body x s).2

theorem sweep_record (xs l : List N) :
    sweep (fun x l => (false, l ++ [x])) xs l = (none, l ++ xs) := by
  induction xs generalizing l with
  | nil => rw [sweep, List.append_nil]
  | cons x xs ih =>
    rw [sweep, if_neg Bool.false_ne_true, ih, List.append_assoc, List.singleton_append]

variable [DecidableEq N]

/-! ### `clist_enqueue` -/

/-- **`clist_enqueue` appends.** -/
theorem Holds.enqueue (h : c.Holds xs) (he : e ∉ xs) : (c.enqueue e).Holds (xs ++ [e]) := by
  obtain ⟨tail, next⟩ := c
  cases tail with
  | none =>
    obtain rfl := CircList.eq_nil h
    exact CircList.singleton
  | some t => exact CircList.concat h he

/-- Enqueueing a node that is on the list already keeps the list well formed,
but drops the nodes behind it, or all the others if it is the last. -/
theorem Holds.enqueue_mem (h : c.Holds (pre ++ e :: post)) :
    (c.enqueue e).Holds (if post = [] then [e] else pre ++ [e]) := by
  obtain ⟨tail, next⟩ := c
  cases tail with
  | none => exact absurd (CircList.eq_nil h) (by simp)
  | some t => exact CircList.concat_mem h

theorem Holds.enqueue_sameOutside (h : c.Holds xs) : SameOutside (e :: xs) c (c.enqueue e) := by
  intro a ha
  rw [List.mem_cons, not_or] at ha
  obtain ⟨tail, next⟩ := c
  cases tail with
  | none => exact Function.update_of_ne ha.1 _ _
  | some t =>
    exact CircList.linkAfter_of_ne (ne_of_mem_of_not_mem (CircList.tail_mem h) ha.2).symm ha.1

/-! ### `clist_push` -/

/-- **`clist_push` prepends.** -/
theorem Holds.push (h : c.Holds xs) (he : e ∉ xs) : (c.push e).Holds (e :: xs) := by
  obtain ⟨tail, next⟩ := c
  cases tail with
  | none =>
    obtain rfl := CircList.eq_nil h
    exact holds_singleton rfl (Function.update_self ..)
  | some t => exact CircList.cons h he

theorem Holds.push_sameOutside (h : c.Holds xs) : SameOutside (e :: xs) c (c.push e) := by
  intro a ha
  rw [List.mem_cons, not_or] at ha
  obtain ⟨tail, next⟩ := c
  cases tail with
  | none =>
    show update (update next e (some e)) e (some e) a = next a
    rw [Function.update_of_ne ha.1, Function.update_of_ne ha.1]
  | some t =>
    exact CircList.linkAfter_of_ne (ne_of_mem_of_not_mem (CircList.tail_mem h) ha.2).symm ha.1

/-! ### `clist_dequeue` -/

/-- **`clist_dequeue` drops the first node.** -/
theorem Holds.dequeue (h : c.Holds (x :: xs)) :
    ∃ c', c.dequeue = some c' ∧ c'.Holds xs ∧ SameOutside (x :: xs) c c' := by
  obtain ⟨tail, next⟩ := c
  cases tail with
  | none => exact absurd (CircList.eq_nil h) (List.cons_ne_nil _ _)
  | some t =>
    have hnext : next t = some x := CircList.next_tail h
    have htail : some t = (x :: xs).getLast? := h.tail_eq
    rw [Clist.dequeue]
    simp only [hnext]
    refine ⟨_, rfl, ?_⟩
    cases xs with
    | nil =>
      obtain rfl : t = x := Option.some.inj htail
      rw [if_pos rfl]
      exact ⟨holds_nil rfl, fun a _ => rfl⟩
    | cons y ys =>
      rw [List.getLast?_cons_cons] at htail
      have ht : t ∈ y :: ys := List.mem_of_getLast? htail.symm
      have htx : t ≠ x := ne_of_mem_of_not_mem ht (List.nodup_cons.mp h.nodup).1
      rw [if_neg htx]
      have h' : CircList next (some t) ([] ++ x :: y :: ys) := h
      refine ⟨h'.erase (List.cons_ne_nil _ _), fun a ha => ?_⟩
      exact Function.update_of_ne (ne_of_mem_of_not_mem (List.mem_cons_of_mem _ ht) ha).symm _ _

/-! ### `clist_foreach` -/

theorem foreachLoop_break {brk : N → Bool} (hx : brk x = true) :
    ∀ (mid pre : List N) (fuel : ℕ) (s : N), c.Holds (pre ++ mid ++ x :: post) →
      (∀ y ∈ mid, brk y = false) → mid.length < fuel → (mid ++ [x]).head? = some s →
      foreachLoop brk c fuel pre.getLast? s = some ⟨(pre ++ mid).getLast?, some x⟩ := by
  intro mid
  induction mid with
  | nil =>
    intro pre fuel s h _ hf hs
    obtain ⟨fuel, rfl⟩ : ∃ f, fuel = f + 1 := ⟨fuel - 1, by simp at hf; omega⟩
    obtain rfl : x = s := by simpa using hs
    rw [List.append_nil] at h ⊢
    rw [foreachLoop, if_neg h.getLast?_ne_tail, if_pos hx]
  | cons y mid ih =>
    intro pre fuel s h hmid hf hs
    obtain ⟨fuel, rfl⟩ : ∃ f, fuel = f + 1 := ⟨fuel - 1, by simp at hf; omega⟩
    obtain rfl : y = s := by simpa using hs
    have hy : ¬ brk y = true := by rw [hmid y (by simp)]; simp
    have hne : pre.getLast? ≠ c.tail := by
      have h' : c.Holds (pre ++ y :: (mid ++ x :: post)) := by simpa using h
      exact h'.getLast?_ne_tail
    obtain ⟨s', hs'⟩ : ∃ s', (mid ++ [x]).head? = some s' := by
      cases mid <;> simp
    have hnext : c.next y = some s' := by
      cases mid with
      | nil =>
        obtain rfl : x = s' := by simpa using hs'
        have h' : c.Holds (pre ++ y :: x :: post) := by simpa using h
        exact h'.next_of_append
      | cons z mid =>
        obtain rfl : z = s' := by simpa using hs'
        have h' : c.Holds (pre ++ y :: z :: (mid ++ x :: post)) := by simpa using h
        exact h'.next_of_append
    rw [foreachLoop, if_neg hne, if_neg hy]
    simp only [hnext]
    have := ih (pre ++ [y]) fuel s' (by simpa using h) (fun z hz => hmid z (by simp [hz]))
      (by simp at hf; omega) hs'
    simpa using this

/-- **`clist_foreach` left at a node**: the cursor is there, and `tmp` is the
node before. -/
theorem Holds.foreach_break {brk : N → Bool} {fuel : ℕ} (h : c.Holds (pre ++ x :: post))
    (hpre : ∀ y ∈ pre, brk y = false) (hx : brk x = true) (hf : pre.length < fuel) :
    c.foreach fuel brk = some ⟨pre.getLast?, some x⟩ ∧
      foreachAll ⟨pre.getLast?, some x⟩ c = false := by
  refine ⟨?_, decide_eq_false h.getLast?_ne_tail⟩
  obtain ⟨s, r, hs, hcons⟩ : ∃ s r, (pre ++ [x]).head? = some s ∧ pre ++ x :: post = s :: r := by
    cases pre <;> simp
  have h' := h
  rw [hcons] at h'
  obtain ⟨t, ht, hnext⟩ := h'.exists_tail
  simp only [foreach, ht, hnext]
  exact foreachLoop_break hx pre [] fuel s (by simpa using h) hpre hf hs

theorem foreachLoop_all {brk : N → Bool} :
    ∀ (mid pre : List N) (fuel : ℕ) (s : N), c.Holds (pre ++ s :: mid) →
      (∀ y ∈ s :: mid, brk y = false) → mid.length + 1 < fuel →
      ∃ s', foreachLoop brk c fuel pre.getLast? s = some ⟨c.tail, some s'⟩ := by
  intro mid
  induction mid with
  | nil =>
    intro pre fuel s h hmid hf
    obtain ⟨fuel, rfl⟩ : ∃ f, fuel = f + 2 := ⟨fuel - 2, by simp at hf; omega⟩
    have hs : ¬ brk s = true := by rw [hmid s (by simp)]; simp
    obtain ⟨s', -, hnext⟩ := CircList.next_mem h (x := s) (by simp)
    have ht : some s = c.tail := (h.tail_of_append).symm
    refine ⟨s', ?_⟩
    rw [foreachLoop, if_neg h.getLast?_ne_tail, if_neg hs]
    simp only [hnext]
    rw [foreachLoop, if_pos ht, ht]
  | cons y mid ih =>
    intro pre fuel s h hmid hf
    obtain ⟨fuel, rfl⟩ : ∃ f, fuel = f + 1 := ⟨fuel - 1, by simp at hf; omega⟩
    have hs : ¬ brk s = true := by rw [hmid s (by simp)]; simp
    obtain ⟨s', hs'⟩ := ih (pre ++ [s]) fuel y (by simpa using h)
      (fun z hz => hmid z (List.mem_cons_of_mem _ hz)) (by simp at hf; omega)
    refine ⟨s', ?_⟩
    rw [foreachLoop, if_neg h.getLast?_ne_tail, if_neg hs]
    simp only [h.next_of_append]
    simpa using hs'

/-- **`clist_foreach` without a break** ends, and `clist_foreach_all` says so. -/
theorem Holds.foreach_all {brk : N → Bool} {fuel : ℕ} (h : c.Holds xs)
    (hxs : ∀ y ∈ xs, brk y = false) (hf : xs.length < fuel) :
    ∃ cur, c.foreach fuel brk = some cur ∧ foreachAll cur c = true := by
  cases xs with
  | nil =>
    have ht : c.tail = none := h.tail_eq
    exact ⟨⟨none, none⟩, by simp only [foreach, ht], by simp [foreachAll, ht]⟩
  | cons x xs =>
    obtain ⟨t, ht, hnext⟩ := h.exists_tail
    obtain ⟨s', hs'⟩ := foreachLoop_all xs [] fuel x (by simpa using h) hxs (by simpa using hf)
    exact ⟨_, by simpa [foreach, ht, hnext] using hs', by simp [foreachAll, ht]⟩

theorem Holds.foreach_cases {fuel : ℕ} (brk : N → Bool) (h : c.Holds xs) (hf : xs.length < fuel) :
    (∀ y ∈ xs, brk y = false) ∧
        (∃ cur, c.foreach fuel brk = some cur ∧ foreachAll cur c = true) ∨
      ∃ pre x post, xs = pre ++ x :: post ∧ (∀ y ∈ pre, brk y = false) ∧ brk x = true ∧
        c.foreach fuel brk = some ⟨pre.getLast?, some x⟩ ∧
        foreachAll ⟨pre.getLast?, some x⟩ c = false := by
  cases hfind : xs.find? brk with
  | none =>
    rw [List.find?_eq_none] at hfind
    have hxs : ∀ y ∈ xs, brk y = false := fun y hy => by simpa using hfind y hy
    exact Or.inl ⟨hxs, h.foreach_all hxs hf⟩
  | some x =>
    obtain ⟨hx, pre, post, rfl, hpre⟩ := List.find?_eq_some_iff_append.mp hfind
    have hpre' : ∀ y ∈ pre, brk y = false := fun y hy => by simpa using hpre y hy
    have hlen : pre.length < fuel := by simp at hf; omega
    obtain ⟨h1, h2⟩ := h.foreach_break hpre' hx hlen
    exact Or.inr ⟨pre, x, post, rfl, hpre', hx, h1, h2⟩

/-! ### `clist_foreach` with an effect -/

theorem foreach_eq_foreachDo (brk : N → Bool) (c : Clist N) (fuel : ℕ) :
    c.foreach fuel brk = (c.foreachDo fuel (fun x _ => (brk x, ())) ()).map Prod.fst := by
  have loop : ∀ (fuel : ℕ) (tmp : Option N) (x : N), foreachLoop brk c fuel tmp x =
      (foreachDoLoop (fun x _ => (brk x, ())) c fuel tmp x ()).map Prod.fst := by
    intro fuel
    induction fuel with
    | zero => exact fun _ _ => rfl
    | succ fuel ih =>
      intro tmp x
      rw [foreachLoop, foreachDoLoop]
      by_cases htmp : tmp = c.tail
      · rw [if_pos htmp, if_pos htmp, Option.map_some]
      rw [if_neg htmp, if_neg htmp]
      by_cases hx : brk x = true
      · rw [if_pos hx, if_pos hx, Option.map_some]
      rw [if_neg hx, if_neg hx]
      cases c.next x with
      | none => rfl
      | some y => exact ih (some x) y
  rw [foreach, foreachDo]
  cases c.tail with
  | none => rfl
  | some t =>
    cases hnext : c.next t with
    | none => simp only [hnext, Option.map_none]
    | some y =>
      simp only [hnext]
      exact loop fuel none y

theorem foreachDoLoop_sweep {σ : Type*} {body : N → σ → Bool × σ} :
    ∀ (mid pre : List N) (fuel : ℕ) (x : N) (s : σ), c.Holds (pre ++ x :: mid) →
      mid.length + 1 < fuel →
      ∃ cur, foreachDoLoop body c fuel pre.getLast? x s =
          some (cur, (sweep body (x :: mid) s).2) ∧
        ((sweep body (x :: mid) s).1 = none → cur.tmp = c.tail) ∧
        ∀ y, (sweep body (x :: mid) s).1 = some y →
          ∃ l post, x :: mid = l ++ y :: post ∧ cur = ⟨(pre ++ l).getLast?, some y⟩ := by
  intro mid
  induction mid with
  | nil =>
    intro pre fuel x s h hf
    obtain ⟨fuel, rfl⟩ : ∃ f, fuel = f + 2 := ⟨fuel - 2, by simp at hf; omega⟩
    rw [foreachDoLoop, if_neg h.getLast?_ne_tail, sweep]
    by_cases hx : (body x s).1 = true
    · rw [if_pos hx, if_pos hx]
      refine ⟨_, rfl, fun hn => by simp at hn, fun y hy => ?_⟩
      obtain rfl : x = y := Option.some.inj hy
      exact ⟨[], [], rfl, by rw [List.append_nil]⟩
    · obtain ⟨s', -, hnext⟩ := CircList.next_mem h (x := x) (by simp)
      have ht : some x = c.tail := (h.tail_of_append).symm
      rw [if_neg hx, if_neg hx]
      simp only [hnext]
      rw [foreachDoLoop, if_pos ht, sweep]
      exact ⟨_, rfl, fun _ => ht, fun y hy => by simp at hy⟩
  | cons z mid ih =>
    intro pre fuel x s h hf
    obtain ⟨fuel, rfl⟩ : ∃ f, fuel = f + 1 := ⟨fuel - 1, by simp at hf; omega⟩
    rw [foreachDoLoop, if_neg h.getLast?_ne_tail, sweep]
    by_cases hx : (body x s).1 = true
    · rw [if_pos hx, if_pos hx]
      refine ⟨_, rfl, fun hn => by simp at hn, fun y hy => ?_⟩
      obtain rfl : x = y := Option.some.inj hy
      exact ⟨[], z :: mid, rfl, by rw [List.append_nil]⟩
    · rw [if_neg hx, if_neg hx]
      simp only [h.next_of_append]
      obtain ⟨cur, hcur, hend, hbrk⟩ := ih (pre ++ [x]) fuel z (body x s).2 (by simpa using h)
        (by simp at hf; omega)
      rw [List.getLast?_concat] at hcur
      refine ⟨cur, hcur, hend, fun y hy => ?_⟩
      obtain ⟨l, post, hl, hc⟩ := hbrk y hy
      refine ⟨x :: l, post, by rw [hl, List.cons_append], ?_⟩
      rw [hc, List.append_assoc, List.singleton_append]

/-- **`clist_foreach` runs its body at every node once, in order, up to the one
where it leaves**, and ends; `clist_foreach_all` tells whether it has left. -/
theorem Holds.foreachDo {σ : Type*} {fuel : ℕ} (body : N → σ → Bool × σ) (s : σ) (h : c.Holds xs)
    (hf : xs.length < fuel) :
    ∃ cur, c.foreachDo fuel body s = some (cur, (sweep body xs s).2) ∧
      (foreachAll cur c = true ↔ (sweep body xs s).1 = none) ∧
      ∀ x, (sweep body xs s).1 = some x →
        ∃ pre post, xs = pre ++ x :: post ∧ cur = ⟨pre.getLast?, some x⟩ := by
  cases xs with
  | nil =>
    have ht : c.tail = none := h.tail_eq
    refine ⟨⟨none, none⟩, by simp only [Clist.foreachDo, ht, sweep], ?_, fun x hx => by simp [sweep] at hx⟩
    simp [foreachAll, ht, sweep]
  | cons x xs =>
    obtain ⟨t, ht, hnext⟩ := h.exists_tail
    have hf' : xs.length + 1 < fuel := by simpa using hf
    obtain ⟨cur, hcur, hend, hbrk⟩ := foreachDoLoop_sweep xs [] fuel x s (by simpa using h) hf'
    refine ⟨cur, by simpa [Clist.foreachDo, ht, hnext] using hcur, ?_, by simpa using hbrk⟩
    rw [foreachAll, decide_eq_true_iff]
    refine ⟨fun hall => ?_, hend⟩
    cases hs : (sweep body (x :: xs) s).1 with
    | none => rfl
    | some y =>
      obtain ⟨l, post, hl, rfl⟩ := hbrk y hs
      rw [hl] at h
      exact absurd hall h.getLast?_ne_tail

/-! ### Taking out and putting in at the cursor -/

/-- **`clist_foreach_delete` takes out the node under the cursor.** -/
theorem Holds.foreachDelete (h : c.Holds (pre ++ x :: post)) :
    ∃ c', c.foreachDelete pre.getLast? x = some c' ∧ c'.Holds (pre ++ post) ∧
      SameOutside (pre ++ x :: post) c c' := by
  obtain ⟨tail, next⟩ := c
  cases tail with
  | none => exact absurd (CircList.eq_nil h) (by simp)
  | some t =>
    have htail : some t = (x :: post).getLast? := h.tail_of_append
    have htmem : t ∈ pre ++ x :: post := CircList.tail_mem h
    rcases List.eq_nil_or_concat pre with rfl | ⟨q, b, rfl⟩
    · refine ⟨_, rfl, ?_⟩
      cases post with
      | nil =>
        obtain rfl : t = x := Option.some.inj htail
        rw [if_pos rfl]
        exact ⟨holds_nil rfl, fun a _ => rfl⟩
      | cons y post =>
        rw [List.getLast?_cons_cons] at htail
        have htx : t ≠ x := ne_of_mem_of_not_mem (List.mem_of_getLast? htail.symm)
          (List.nodup_cons.mp h.nodup).1
        rw [if_neg htx]
        exact ⟨CircList.erase h (List.cons_ne_nil _ _), fun a ha =>
          Function.update_of_ne (ne_of_mem_of_not_mem htmem ha).symm _ _⟩
    · have hb : b ∈ q ++ [b] ++ x :: post := by simp
      rw [List.concat_eq_append] at h htmem ⊢
      rw [List.getLast?_concat]
      refine ⟨_, rfl, ?_, fun a ha =>
        Function.update_of_ne (ne_of_mem_of_not_mem hb ha).symm _ _⟩
      cases post with
      | nil =>
        obtain rfl : t = x := Option.some.inj htail
        have := CircList.erase_last h (by simp)
        simpa [Holds] using this
      | cons y post =>
        rw [List.getLast?_cons_cons] at htail
        have htx : some t ≠ some x := fun heq => (List.nodup_cons.mp
          (List.Nodup.of_append_right h.nodup)).1
          (Option.some.inj heq ▸ List.mem_of_getLast? htail.symm)
        have := CircList.erase h (List.cons_ne_nil _ _)
        simpa [Holds, htx] using this

/-- **`clist_foreach_add` puts a new node before the cursor.** -/
theorem Holds.foreachAdd (h : c.Holds (pre ++ x :: post)) (he : e ∉ pre ++ x :: post) :
    ∃ c', c.foreachAdd e pre.getLast? x = some c' ∧ c'.Holds (pre ++ e :: x :: post) ∧
      SameOutside (e :: (pre ++ x :: post)) c c' := by
  obtain ⟨tail, next⟩ := c
  cases tail with
  | none => exact absurd (CircList.eq_nil h) (by simp)
  | some t =>
    have hins := CircList.insert h he
    have hpred : CircList.pred t pre ∈ pre ++ x :: post :=
      CircList.pred_mem (List.mem_of_getLast? h.tail_of_append.symm)
    have hout : ∀ a, a ∉ e :: (pre ++ x :: post) →
        update (update next e (some x)) (CircList.pred t pre) (some e) a = next a := by
      intro a ha
      rw [List.mem_cons, not_or] at ha
      rw [Function.update_of_ne (ne_of_mem_of_not_mem hpred ha.2).symm,
        Function.update_of_ne ha.1]
    rcases List.eq_nil_or_concat pre with rfl | ⟨q, b, rfl⟩
    · exact ⟨_, rfl, hins, hout⟩
    · rw [List.concat_eq_append] at hins hout ⊢
      rw [List.getLast?_concat]
      rw [CircList.pred_concat] at hins hout
      exact ⟨_, rfl, hins, hout⟩

/-! ### `clist_delete` -/

theorem deleteLoop_found :
    ∀ (mid pre : List N) (fuel : ℕ) (s : N), c.Holds (pre ++ s :: mid ++ x :: post) →
      mid.length < fuel →
      ∃ c', deleteLoop x c fuel pre.getLast? s = some (false, c') ∧
        c'.Holds (pre ++ s :: mid ++ post) ∧ SameOutside (pre ++ s :: mid ++ x :: post) c c' := by
  intro mid
  induction mid with
  | nil =>
    intro pre fuel s h hf
    obtain ⟨fuel, rfl⟩ : ∃ f, fuel = f + 1 := ⟨fuel - 1, by omega⟩
    have h' : c.Holds (pre ++ s :: x :: post) := by simpa using h
    obtain ⟨c', hc', hholds, hout⟩ := h.foreachDelete
    refine ⟨c', ?_, hholds, hout⟩
    rw [deleteLoop, if_neg h'.getLast?_ne_tail]
    simp only [h'.next_of_append, if_true]
    rw [List.getLast?_append_of_ne_nil _ (List.cons_ne_nil _ _)] at hc'
    simp only [List.getLast?_singleton, Clist.foreachDelete, Option.some.injEq] at hc'
    rw [← hc']
    simp only [eq_comm]
  | cons y mid ih =>
    intro pre fuel s h hf
    obtain ⟨fuel, rfl⟩ : ∃ f, fuel = f + 1 := ⟨fuel - 1, by omega⟩
    have h' : c.Holds (pre ++ s :: y :: (mid ++ x :: post)) := by simpa using h
    have hyx : y ≠ x := by
      rintro rfl
      have := h.nodup
      simp [List.nodup_append] at this
    obtain ⟨c', hc', hholds, hout⟩ := ih (pre ++ [s]) fuel y (by simpa using h)
      (by simp at hf; omega)
    refine ⟨c', ?_, by simpa using hholds, by simpa using hout⟩
    rw [deleteLoop, if_neg h'.getLast?_ne_tail]
    simp only [h'.next_of_append, if_neg hyx]
    simpa using hc'

theorem deleteLoop_notFound :
    ∀ (mid pre : List N) (fuel : ℕ) (s : N), c.Holds (pre ++ s :: mid) → x ∉ pre ++ s :: mid →
      mid.length + 1 < fuel → deleteLoop x c fuel pre.getLast? s = some (true, c) := by
  intro mid
  induction mid with
  | nil =>
    intro pre fuel s h hx hf
    obtain ⟨fuel, rfl⟩ : ∃ f, fuel = f + 2 := ⟨fuel - 2, by simp at hf; omega⟩
    obtain ⟨s', hs', hnext⟩ := CircList.next_mem h (x := s) (by simp)
    have ht : some s = c.tail := (h.tail_of_append).symm
    rw [deleteLoop, if_neg h.getLast?_ne_tail]
    simp only [hnext, if_neg (ne_of_mem_of_not_mem hs' hx)]
    rw [deleteLoop, if_pos ht]
  | cons y mid ih =>
    intro pre fuel s h hx hf
    obtain ⟨fuel, rfl⟩ : ∃ f, fuel = f + 1 := ⟨fuel - 1, by omega⟩
    have hyx : y ≠ x := ne_of_mem_of_not_mem (by simp) hx
    rw [deleteLoop, if_neg h.getLast?_ne_tail]
    simp only [h.next_of_append, if_neg hyx]
    have := ih (pre ++ [s]) fuel y (by simpa using h) (by simpa using hx)
      (by simp at hf; omega)
    simpa using this

/-- **`clist_delete` takes out a node of the list**, wherever it is. -/
theorem Holds.delete {fuel : ℕ} (h : c.Holds (pre ++ x :: post))
    (hf : (pre ++ x :: post).length < fuel) :
    ∃ c', c.delete fuel x = some (false, c') ∧ c'.Holds (pre ++ post) ∧
      SameOutside (pre ++ x :: post) c c' := by
  obtain ⟨tail, next⟩ := c
  cases tail with
  | none => exact absurd (CircList.eq_nil h) (by simp)
  | some t =>
    rw [Clist.delete]
    cases pre with
    | nil =>
      have hnext : next t = some x := CircList.next_tail h
      have h' : Holds ⟨some t, next⟩ ([] ++ x :: post) := h
      obtain ⟨c', hc', hholds, hout⟩ := h'.foreachDelete
      refine ⟨c', ?_, hholds, hout⟩
      simp only [hnext]
      rw [← Option.some.inj hc']
      by_cases htx : t = x
      · subst htx; simp
      · simp [htx]
    | cons s pre =>
      have hnext : next t = some s := CircList.next_tail h
      have hsx : x ≠ s := by
        rintro rfl
        have := h.nodup
        simp at this
      obtain ⟨c', hc', hholds, hout⟩ := deleteLoop_found (c := ⟨some t, next⟩) pre [] fuel s
        (by simpa using h) (by simp at hf; omega)
      refine ⟨c', ?_, hholds, hout⟩
      have hts : ¬(t = s ∧ t = x) := fun ⟨h1, h2⟩ => hsx (h2.symm.trans h1)
      simp only [hnext, if_neg hts, if_neg hsx]
      exact hc'

theorem Holds.delete_notMem {fuel : ℕ} (h : c.Holds xs) (hx : x ∉ xs) (hf : xs.length < fuel) :
    c.delete fuel x = some (true, c) := by
  obtain ⟨tail, next⟩ := c
  cases tail with
  | none => rfl
  | some t =>
    rw [Clist.delete]
    cases xs with
    | nil => exact absurd h.tail_eq (by simp)
    | cons s xs =>
      have hnext : next t = some s := CircList.next_tail h
      have hxs : x ≠ s := fun heq => hx (by simp [heq])
      have hts : ¬(t = s ∧ t = x) := fun ⟨h1, h2⟩ => hxs (h2.symm.trans h1)
      simp only [hnext, if_neg hts, if_neg hxs]
      exact deleteLoop_notFound xs [] fuel s (by simpa using h) (by simpa using hx)
        (by simpa using hf)

end Clist

end JaeOS
