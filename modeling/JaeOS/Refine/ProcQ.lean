import JaeOS.Refine.Clist
import JaeOS.Model.Pcb
import Mathlib.Data.Fintype.Card
import Mathlib.Data.List.FinRange

/-!
# Process queues

A list head of blocks holds a list of blocks, and the queue functions of `pcb.c`
do to it what their names say.  Writing one list head back leaves the other
list heads and, outside its own blocks, the links alone.
-/

namespace JaeOS

open Function (update)

variable {n : ℕ} {s : Queues n} {q r : ProcQ} {c : Clist (Fin n)} {p x : Fin n}
  {xs : List (Fin n)}

/-- The queue under the list head `q` holds `xs`. -/
def Queues.Queue (s : Queues n) (q : ProcQ) (xs : List (Fin n)) : Prop := (s.procQ q).Holds xs

theorem Queues.Queue.length_lt (h : s.Queue q xs) : xs.length < n + 1 := by
  have := h.nodup.length_le_card
  rw [Fintype.card_fin] at this
  omega

/-! ### Reading and writing list heads -/

@[simp] theorem setProcQ_pCursem : (s.setProcQ q c).pCursem = s.pCursem := by cases q <;> rfl
@[simp] theorem setProcQ_sSemAdd : (s.setProcQ q c).sSemAdd = s.sSemAdd := by cases q <;> rfl
@[simp] theorem setProcQ_sLink : (s.setProcQ q c).sLink = s.sLink := by cases q <;> rfl
@[simp] theorem setProcQ_aslh : (s.setProcQ q c).aslh = s.aslh := by cases q <;> rfl
@[simp] theorem setProcQ_semdFree : (s.setProcQ q c).semdFree = s.semdFree := by cases q <;> rfl
@[simp] theorem setProcQ_pList : (s.setProcQ q c).pList = c.next := by cases q <;> rfl

@[simp] theorem procQ_next : (s.procQ q).next = s.pList := by cases q <;> rfl

@[simp] theorem procQ_setProcQ : (s.setProcQ q c).procQ q = c := by
  cases q <;> simp [Queues.setProcQ, Queues.procQ]

theorem procQ_setProcQ_of_ne (h : r ≠ q) :
    (s.setProcQ q c).procQ r = ⟨(s.procQ r).tail, c.next⟩ := by
  cases q <;> cases r <;> simp_all [Queues.setProcQ, Queues.procQ, Function.update_of_ne]

/-- **Frame.**  A queue whose blocks are not touched is as it was. -/
theorem Queues.Queue.of_setProcQ (h : s.Queue r xs) (hr : r ≠ q)
    (hc : ∀ x ∈ xs, c.next x = s.pList x) : (s.setProcQ q c).Queue r xs := by
  rw [Queues.Queue, procQ_setProcQ_of_ne hr]
  exact Clist.Holds.congr h rfl (fun x hx => by rw [hc x hx, procQ_next])

/-! ### The queue functions -/

@[simp] theorem run_insertProcQ (q : ProcQ) (p : Fin n) (s : Queues n) :
    (insertProcQ q p).run s = some ((), s.setProcQ q ((s.procQ q).enqueue p)) := rfl

theorem run_headProcQ (h : s.Queue q xs) : (headProcQ q).run s = some (xs.head?, s) := by
  simp [headProcQ, h.head_eq]

theorem run_removeProcQ_nil (h : s.Queue q []) : (removeProcQ q).run s = some (none, s) := by
  have he : (s.procQ q).empty = true := h.empty_eq
  simp [removeProcQ, he]

/-- **`removeProcQ` takes the first block.** -/
theorem run_removeProcQ (h : s.Queue q (x :: xs)) :
    ∃ c, (removeProcQ q).run s = some (some x, s.setProcQ q c) ∧ c.Holds xs ∧
      Clist.SameOutside (x :: xs) (s.procQ q) c := by
  obtain ⟨c, hc, hholds, hout⟩ := Clist.Holds.dequeue h
  have he : (s.procQ q).empty = false := h.empty_eq
  refine ⟨c, ?_, hholds, hout⟩
  simp [removeProcQ, he, h.head_eq, hc]

/-- **`outProcQ` takes a block of the queue**, wherever it stands. -/
theorem run_outProcQ (h : s.Queue q xs) (hp : p ∈ xs) :
    ∃ c, (outProcQ q p).run s = some (some p, s.setProcQ q c) ∧ c.Holds (xs.erase p) ∧
      Clist.SameOutside xs (s.procQ q) c := by
  rcases Clist.Holds.foreach_cases (fun scan => scan == p) h h.length_lt with
    ⟨hall, _⟩ | ⟨pre, y, post, rfl, hpre, hy, hcur, hbrk⟩
  · exact absurd (hall p hp) (by simp)
  · obtain rfl : y = p := by simpa using hy
    have hnot : y ∉ pre := fun hm => by simpa using hpre y hm
    obtain ⟨c, hc, hholds, hout⟩ := Clist.Holds.foreachDelete h
    refine ⟨c, ?_, ?_, hout⟩
    · simp [outProcQ, hcur, hbrk, hc]
    · rwa [List.erase_append_right _ hnot, List.erase_cons_head]

theorem run_outProcQ_notMem (h : s.Queue q xs) (hp : p ∉ xs) :
    (outProcQ q p).run s = some (none, s) := by
  rcases Clist.Holds.foreach_cases (fun scan => scan == p) h h.length_lt with
    ⟨_, cur, hcur, hall⟩ | ⟨pre, y, post, rfl, hpre, hy, hcur, hbrk⟩
  · simp [outProcQ, hcur, hall]
  · obtain rfl : y = p := by simpa using hy
    exact absurd (List.mem_append_right pre List.mem_cons_self) hp

theorem run_insertProcQ_forM (l : List (Fin n)) :
    ∀ (s : Queues n) (xs : List (Fin n)), s.Queue q xs → (xs ++ l).Nodup →
      ∃ c, (l.forM fun elem => insertProcQ q elem).run s = some ((), s.setProcQ q c) ∧
        c.Holds (xs ++ l) := by
  induction l with
  | nil =>
    intro s xs hs _
    refine ⟨s.procQ q, ?_, by rw [List.append_nil]; exact hs⟩
    cases q <;> simp [Queues.setProcQ, Queues.procQ]
  | cons p l ih =>
    intro s xs hs hnd
    have hp : p ∉ xs := fun hm => List.disjoint_of_nodup_append hnd hm List.mem_cons_self
    have h1 : (s.setProcQ q ((s.procQ q).enqueue p)).Queue q (xs ++ [p]) := by
      rw [Queues.Queue, procQ_setProcQ]
      exact hs.enqueue hp
    obtain ⟨c, hc, hholds⟩ := ih _ _ h1 (by rwa [List.append_assoc])
    refine ⟨c, ?_, by rwa [List.append_assoc] at hholds⟩
    have hset : ∀ c', (s.setProcQ q c').setProcQ q c = s.setProcQ q c := by
      intro c'
      cases q <;> simp [Queues.setProcQ]
    rw [hset] at hc
    rw [List.forM_eq_forM, List.forM_cons, StateT.run_bind, run_insertProcQ]
    exact hc

theorem run_initPcbs (h : s.Queue .pcbFree []) :
    ∃ c, (initPcbs : Q n Unit).run s = some ((), s.setProcQ .pcbFree c) ∧
      c.Holds (List.finRange n) := by
  have := run_insertProcQ_forM (List.finRange n) s [] h (by simpa using List.nodup_finRange n)
  rw [List.nil_append] at this
  exact this

end JaeOS
