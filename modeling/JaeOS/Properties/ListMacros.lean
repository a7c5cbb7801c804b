import JaeOS.Refine.ProcQ
import JaeOS.Model.Init

/-!
# The list macros refine lists

A list head whose list is well formed stands for the list of its nodes.  Each macro of
`clist.h` does to that list what its name says, and so do the process queue functions of
`pcb.c`.  No macro changes the link of a node that is neither on the list nor put on it.
-/

namespace JaeOS

namespace Clist

variable {N : Type*} [DecidableEq N] {c : Clist N} {xs : List N} {fuel : ℕ}

/-- What the macros make of a list head `c` that holds `xs`.  The loops have `fuel` rounds. -/
structure Refines (c : Clist N) (xs : List N) (fuel : ℕ) : Prop where
  enqueue : ∀ x, x ∉ xs →
    (c.enqueue x).Holds (xs ++ [x]) ∧ SameOutside (x :: xs) c (c.enqueue x)
  push : ∀ x, x ∉ xs → (c.push x).Holds (x :: xs) ∧ SameOutside (x :: xs) c (c.push x)
  head : c.head = some xs.head?
  last : c.clistTail = xs.getLast?
  dequeue : ∃ c', c.dequeue = some c' ∧ c'.Holds xs.tail ∧ SameOutside xs c c'
  delete : ∀ x, x ∈ xs →
    ∃ c', c.delete fuel x = some (false, c') ∧ c'.Holds (xs.erase x) ∧ SameOutside xs c c'
  delete_notMem : ∀ x, x ∉ xs → c.delete fuel x = some (true, c)
  foreach : ∀ {σ : Type} (body : N → σ → Bool × σ) (s : σ),
    ∃ cur, c.foreachDo fuel body s = some (cur, (sweep body xs s).2) ∧
      (foreachAll cur c = true ↔ (sweep body xs s).1 = none)
  visits : ∃ cur, c.foreachDo fuel (fun x l => (false, l ++ [x])) [] = some (cur, xs)
  foreachDelete : ∀ {σ : Type} (body : N → σ → Bool × σ) (s : σ) (x : N),
    (sweep body xs s).1 = some x → ∃ tmp pre post,
      c.foreachDo fuel body s = some (⟨tmp, some x⟩, (sweep body xs s).2) ∧
      xs = pre ++ x :: post ∧ ∃ c', c.foreachDelete tmp x = some c' ∧ c'.Holds (pre ++ post) ∧
        SameOutside xs c c'
  foreachAdd : ∀ {σ : Type} (body : N → σ → Bool × σ) (s : σ) (x e : N),
    (sweep body xs s).1 = some x → e ∉ xs → ∃ tmp pre post,
      c.foreachDo fuel body s = some (⟨tmp, some x⟩, (sweep body xs s).2) ∧
      xs = pre ++ x :: post ∧ ∃ c', c.foreachAdd e tmp x = some c' ∧
        c'.Holds (pre ++ e :: x :: post) ∧ SameOutside (e :: xs) c c'

theorem Holds.dequeue_tail (h : c.Holds xs) :
    ∃ c', c.dequeue = some c' ∧ c'.Holds xs.tail ∧ SameOutside xs c c' := by
  cases xs with
  | nil =>
    have ht : c.tail = none := h.tail_eq
    exact ⟨c, by rw [Clist.dequeue, ht], h, fun _ _ => rfl⟩
  | cons x xs => exact h.dequeue

theorem Holds.delete_erase {x : N} (h : c.Holds xs) (hx : x ∈ xs) (hf : xs.length < fuel) :
    ∃ c', c.delete fuel x = some (false, c') ∧ c'.Holds (xs.erase x) ∧ SameOutside xs c c' := by
  obtain ⟨pre, post, rfl⟩ := List.append_of_mem hx
  have hpre : x ∉ pre := fun hm => List.disjoint_of_nodup_append h.nodup hm List.mem_cons_self
  rw [List.erase_append_right _ hpre, List.erase_cons_head]
  exact h.delete hf

theorem Holds.refines (h : c.Holds xs) (hf : xs.length < fuel) : c.Refines xs fuel where
  enqueue _ hx := ⟨h.enqueue hx, h.enqueue_sameOutside⟩
  push _ hx := ⟨h.push hx, h.push_sameOutside⟩
  head := h.head_eq
  last := h.tail_eq
  dequeue := h.dequeue_tail
  delete _ hx := h.delete_erase hx hf
  delete_notMem _ hx := h.delete_notMem hx hf
  foreach body s := by
    obtain ⟨cur, hcur, hall, -⟩ := h.foreachDo body s hf
    exact ⟨cur, hcur, hall⟩
  visits := by
    obtain ⟨cur, hcur, -⟩ := h.foreachDo (fun x l => (false, l ++ [x])) [] hf
    refine ⟨cur, ?_⟩
    rw [hcur, sweep_record, List.nil_append]
  foreachDelete body s x hx := by
    obtain ⟨cur, hcur, -, hbrk⟩ := h.foreachDo body s hf
    obtain ⟨pre, post, rfl, rfl⟩ := hbrk x hx
    exact ⟨_, pre, post, hcur, rfl, h.foreachDelete⟩
  foreachAdd body s x e hx he := by
    obtain ⟨cur, hcur, -, hbrk⟩ := h.foreachDo body s hf
    obtain ⟨pre, post, rfl, rfl⟩ := hbrk x hx
    exact ⟨_, pre, post, hcur, rfl, h.foreachAdd he⟩

end Clist

variable {n : ℕ} {s : Queues n} {q : ProcQ} {xs : List (Fin n)}

/-- What the process queue functions make of a queue that holds `xs`: they write back its
list head and links of its own blocks, and nothing else. -/
structure Queues.Refines (s : Queues n) (q : ProcQ) (xs : List (Fin n)) : Prop where
  insert : ∀ p, p ∉ xs → ∃ c, (insertProcQ q p).run s = some ((), s.setProcQ q c) ∧
    c.Holds (xs ++ [p]) ∧ Clist.SameOutside (p :: xs) (s.procQ q) c
  remove : ∃ c, (removeProcQ q).run s = some (xs.head?, s.setProcQ q c) ∧ c.Holds xs.tail ∧
    Clist.SameOutside xs (s.procQ q) c
  head : (headProcQ q).run s = some (xs.head?, s)
  out : ∀ p, p ∈ xs → ∃ c, (outProcQ q p).run s = some (some p, s.setProcQ q c) ∧
    c.Holds (xs.erase p) ∧ Clist.SameOutside xs (s.procQ q) c
  out_notMem : ∀ p, p ∉ xs → (outProcQ q p).run s = some (none, s)

theorem setProcQ_procQ : s.setProcQ q (s.procQ q) = s := by
  cases q <;> simp [Queues.setProcQ, Queues.procQ]

theorem Queues.Queue.refines (h : s.Queue q xs) : s.Refines q xs where
  insert p hp := ⟨_, run_insertProcQ q p s, Clist.Holds.enqueue h hp,
    Clist.Holds.enqueue_sameOutside h⟩
  remove := by
    cases xs with
    | nil =>
      refine ⟨s.procQ q, ?_, h, fun _ _ => rfl⟩
      rw [setProcQ_procQ]
      exact run_removeProcQ_nil h
    | cons x xs => exact run_removeProcQ h
  head := run_headProcQ h
  out _ hp := run_outProcQ h hp
  out_notMem _ hp := run_outProcQ_notMem h hp

/-- **The list macros refine plain lists, and the process queues are FIFO queues with removal
of any member.** -/
theorem clist_refines {N : Type*} [DecidableEq N] :
    (∀ (c : Clist N) (xs : List N) (fuel : ℕ), c.Holds xs → xs.length < fuel →
      c.Refines xs fuel) ∧
    ∀ (n : ℕ) (s : Queues n) (q : ProcQ) (xs : List (Fin n)), s.Queue q xs → s.Refines q xs :=
  ⟨fun _ _ _ h hf => h.refines hf, fun _ _ _ _ h => h.refines⟩

/-- A list of two nodes, and an empty ready queue. -/
theorem clist_refines_two :
    (Clist.enqueue 1 (Clist.enqueue 0 ⟨none, fun _ => none⟩) : Clist (Fin 3)).Refines [0, 1] 3 ∧
      (Kernel.static 2).toQueues.Refines .gReadyQueue [] := by
  have hnil : Clist.Holds (⟨none, fun _ => none⟩ : Clist (Fin 3)) [] := Clist.holds_nil rfl
  have htwo : (Clist.enqueue 1 (Clist.enqueue 0 ⟨none, fun _ => none⟩) : Clist (Fin 3)).Holds [0, 1] :=
    Clist.Holds.enqueue (Clist.Holds.enqueue hnil List.not_mem_nil) (by decide)
  obtain ⟨hmacros, hqueues⟩ := clist_refines (N := Fin 3)
  exact ⟨hmacros _ _ 3 htwo (by decide), hqueues 2 _ _ _ (Clist.holds_nil rfl)⟩

/-- `clist_foreach_all` after a `clist_foreach_delete` does not see the `break` at the last
node: the node before it is the last one then. -/
theorem Clist.Holds.foreachAll_foreachDelete {N : Type*} [DecidableEq N] {c c' : Clist N} {x : N}
    {pre post : List N} (h : c.Holds (pre ++ x :: post))
    (hc : c.foreachDelete pre.getLast? x = some c') :
    Clist.foreachAll ⟨pre.getLast?, some x⟩ c' = true ↔ post = [] := by
  obtain ⟨c₁, hc₁, hholds, -⟩ := h.foreachDelete
  obtain rfl : c₁ = c' := Option.some.inj (hc₁.symm.trans hc)
  rw [Clist.foreachAll, decide_eq_true_iff]
  cases post with
  | nil =>
    rw [List.append_nil] at hholds
    exact iff_of_true hholds.tail_eq.symm rfl
  | cons y post => exact iff_of_false hholds.getLast?_ne_tail (List.cons_ne_nil _ _)

end JaeOS
