import JaeOS.Refine.ProcQ
import JaeOS.Model.Asl
import Mathlib.Data.Set.Card

/-!
# The active semaphore list as a map of queues

`AslRep s q asl free` compares the descriptors with a map `q` from addresses to
queues of blocks, empty where no process waits: `asl` and `free` are the
descriptors on `aslh` and on `semdFree`, in order.  The functions of `asl.c`
find, extend and shorten the queue of one address and keep the comparison.
-/

namespace JaeOS

open Function (update)

variable {n : ℕ} {s s' : Queues n} {q : Word → List (Fin n)} {asl free : List Semd}
  {a : Word} {d e : Semd} {p x : Fin n} {xs ys rest : List (Fin n)} {c : Clist (Fin n)}

/-- The descriptors represent the map `q`. -/
structure AslRep (s : Queues n) (q : Word → List (Fin n)) (asl free : List Semd) : Prop where
  aslh : s.asl.Holds asl
  semdFree : s.free.Holds free
  disjoint : asl.Disjoint free
  sorted : (asl.map s.sSemAdd).Pairwise (· < ·)
  procq : ∀ d ∈ asl, s.Queue (.sProcq d) (q (s.sSemAdd d))
  idle : ∀ d, d ∉ asl → s.sProcq d = none
  active : ∀ a, q a ≠ [] ↔ ∃ d ∈ asl, s.sSemAdd d = a
  cursem : ∀ d ∈ asl, ∀ p ∈ q (s.sSemAdd d), s.pCursem p = some d

/-- Only the links of the blocks in `ys` changed, and neither the free list nor
the ready queue has a new tail. -/
structure Queues.SameOutside (ys : List (Fin n)) (s s' : Queues n) : Prop where
  pList : ∀ x, x ∉ ys → s'.pList x = s.pList x
  pcbFree : s'.pcbFree = s.pcbFree
  gReadyQueue : s'.gReadyQueue = s.gReadyQueue

theorem Queues.SameOutside.queue_pcbFree (h : s.SameOutside ys s') (hq : s.Queue .pcbFree xs)
    (hd : ∀ x ∈ xs, x ∉ ys) : s'.Queue .pcbFree xs :=
  Clist.Holds.congr hq h.pcbFree (fun x hx => by simp [h.pList x (hd x hx)])

theorem Queues.SameOutside.queue_gReadyQueue (h : s.SameOutside ys s') (hq : s.Queue .gReadyQueue xs)
    (hd : ∀ x ∈ xs, x ∉ ys) : s'.Queue .gReadyQueue xs :=
  Clist.Holds.congr hq h.gReadyQueue (fun x hx => by simp [h.pList x (hd x hx)])

theorem semd_length_lt {l : Clist Semd} (h : l.Holds asl) : asl.length < maxProc + 1 := by
  have := h.nodup.length_le_card
  rw [Fintype.card_fin] at this
  omega

/-! ### Consequences of the comparison -/

namespace AslRep

theorem length_lt (h : AslRep s q asl free) : asl.length < maxProc + 1 := semd_length_lt h.aslh

theorem sSemAdd_injOn (h : AslRep s q asl free) (hd : d ∈ asl) (he : e ∈ asl)
    (heq : s.sSemAdd d = s.sSemAdd e) : d = e := by
  have hnd : (asl.map s.sSemAdd).Nodup := h.sorted.imp (fun hlt heq => by subst heq; bv_omega)
  exact List.inj_on_of_nodup_map hnd hd he heq

theorem queue_ne_nil (h : AslRep s q asl free) (hd : d ∈ asl) : q (s.sSemAdd d) ≠ [] :=
  (h.active _).mpr ⟨d, hd, rfl⟩

theorem exists_cursem (h : AslRep s q asl free) (hp : p ∈ q a) :
    ∃ d ∈ asl, s.sSemAdd d = a ∧ s.pCursem p = some d := by
  obtain ⟨d, hd, rfl⟩ := (h.active a).mp (List.ne_nil_of_mem hp)
  exact ⟨d, hd, rfl, h.cursem d hd p hp⟩

theorem queue_unique {b : Word} (h : AslRep s q asl free) (ha : p ∈ q a) (hb : p ∈ q b) : a = b := by
  obtain ⟨d, hd, rfl, hcd⟩ := h.exists_cursem ha
  obtain ⟨e, he, rfl, hce⟩ := h.exists_cursem hb
  rw [hcd] at hce
  rw [Option.some.inj hce]

theorem nodup (h : AslRep s q asl free) (a : Word) : (q a).Nodup := by
  by_cases hq : q a = []
  · rw [hq]
    exact List.nodup_nil
  · obtain ⟨d, hd, rfl⟩ := (h.active a).mp hq
    exact (h.procq d hd).nodup

theorem congr (h : AslRep s q asl free) (hasl : s'.asl.Holds asl) (hfree : s'.free.Holds free)
    (hadd : s'.sSemAdd = s.sSemAdd) (hprocq : s'.sProcq = s.sProcq)
    (hlist : ∀ a, ∀ p ∈ q a, s'.pList p = s.pList p)
    (hcur : ∀ a, ∀ p ∈ q a, s'.pCursem p = s.pCursem p) : AslRep s' q asl free where
  aslh := hasl
  semdFree := hfree
  disjoint := h.disjoint
  sorted := by rw [hadd]; exact h.sorted
  procq d hd := by
    rw [hadd]
    refine Clist.Holds.congr (h.procq d hd) (congrFun hprocq d) (fun p hp => ?_)
    simp [hlist _ p hp]
  idle d hd := by rw [hprocq]; exact h.idle d hd
  active a := by rw [hadd]; exact h.active a
  cursem d hd p hp := by
    rw [hadd] at hp
    rw [hcur _ p hp]
    exact h.cursem d hd p hp

end AslRep

/-! ### The search -/

/-- **The search finds the descriptor of the address**, with the cursor on it. -/
theorem run_searchAsl_found (h : AslRep s q asl free) (hd : d ∈ asl) :
    ∃ tmp, (searchAsl (s.sSemAdd d)).run s = some ((true, ⟨tmp, some d⟩), s) ∧
      Clist.foreachAll ⟨tmp, some d⟩ s.asl = false := by
  rcases Clist.Holds.foreach_cases
      (fun scan => s.sSemAdd scan == s.sSemAdd d || decide (s.sSemAdd d < s.sSemAdd scan))
      h.aslh h.length_lt with ⟨hall, _⟩ | ⟨pre, x, post, rfl, hpre, hx, hcur, hbrk⟩
  · exact absurd (hall d hd) (by simp)
  · have hxd : x = d := by
      by_contra hne
      have hlt : s.sSemAdd d < s.sSemAdd x := by
        simp only [Bool.or_eq_true, beq_iff_eq, decide_eq_true_eq] at hx
        exact hx.resolve_left (fun heq => hne (h.sSemAdd_injOn (by simp) hd heq))
      rcases List.mem_append.mp hd with hm | hm
      · exact absurd (hpre d hm) (by simp)
      · rcases List.mem_cons.mp hm with rfl | hm
        · exact hne rfl
        · have hs := h.sorted
          rw [List.map_append, List.map_cons, List.pairwise_append, List.pairwise_cons] at hs
          have := hs.2.1.1 _ (List.mem_map_of_mem hm)
          bv_omega
    subst hxd
    exact ⟨pre.getLast?, by simp [searchAsl, hcur, hbrk], hbrk⟩

theorem run_searchAsl_absent (h : AslRep s q asl free) (ha : q a = []) :
    ∃ cur, (searchAsl a : Q n _).run s = some ((false, cur), s) := by
  have hne : ∀ d ∈ asl, s.sSemAdd d ≠ a := fun d hd heq =>
    absurd ha (heq ▸ h.queue_ne_nil hd)
  rcases Clist.Holds.foreach_cases
      (fun scan => s.sSemAdd scan == a || decide (a < s.sSemAdd scan))
      h.aslh h.length_lt with ⟨_, cur, hcur, hall⟩ | ⟨pre, x, post, rfl, hpre, hx, hcur, hbrk⟩
  · exact ⟨cur, by simp [searchAsl, hcur, hall]⟩
  · have hxa : (s.sSemAdd x == a) = false := by simpa using hne x (by simp)
    exact ⟨⟨pre.getLast?, some x⟩, by simp [searchAsl, hcur, hxa]⟩

/-! ### `headBlocked` -/

/-- **`headBlocked` returns the first of the queue**, or `NULL`. -/
theorem run_headBlocked (h : AslRep s q asl free) (a : Word) :
    (headBlocked a).run s = some ((q a).head?, s) := by
  by_cases ha : q a = []
  · obtain ⟨cur, hcur⟩ := run_searchAsl_absent h ha
    simp [headBlocked, hcur, ha]
  · obtain ⟨d, hd, rfl⟩ := (h.active a).mp ha
    obtain ⟨tmp, hcur, hall⟩ := run_searchAsl_found h hd
    obtain ⟨y, _, hlink⟩ := CircList.next_mem h.aslh hd
    have hlink' : s.sLink d = some y := hlink
    have hhead := (h.procq d hd).head_eq
    simp [headBlocked, hcur, hall, hlink', hhead]

/-! ### Taking a process out -/

/-- The descriptors after the queue of `d` has become `rest`: an empty queue
gives its descriptor back. -/
def aslAfter (asl : List Semd) (d : Semd) (rest : List (Fin n)) : List Semd :=
  if rest = [] then asl.erase d else asl

def freeAfter (free : List Semd) (d : Semd) (rest : List (Fin n)) : List Semd :=
  if rest = [] then free ++ [d] else free

theorem mem_of_erase_middle {pre post : List Semd} (he : e ∈ pre ++ post) :
    e ∈ pre ++ d :: post := by
  rcases List.mem_append.mp he with hm | hm <;> simp [hm]

/-- **Writing back the queue of an active descriptor**, when the other queues
keep their links and their `p_cursem`. -/
theorem AslRep.rewrite {cs : Fin n → Option Semd} (h : AslRep s q asl free) (hd : d ∈ asl)
    (hc : c.Holds ys) (hys : ys ≠ [])
    (hnext : ∀ e ∈ asl, e ≠ d → ∀ x ∈ q (s.sSemAdd e), c.next x = s.pList x)
    (hcs : ∀ e ∈ asl, e ≠ d → ∀ x ∈ q (s.sSemAdd e), cs x = s.pCursem x)
    (hcd : ∀ x ∈ ys, cs x = some d) :
    AslRep { s.setProcQ (.sProcq d) c with pCursem := cs } (update q (s.sSemAdd d) ys)
      asl free := by
  have hother : ∀ e ∈ asl, e ≠ d → s.sSemAdd e ≠ s.sSemAdd d := fun e he hne heq =>
    hne (h.sSemAdd_injOn he hd heq)
  refine ⟨h.aslh, h.semdFree, h.disjoint, h.sorted, fun e he => ?_, fun e he => ?_, fun a => ?_,
    fun e he p hp => ?_⟩
  · show (s.setProcQ (.sProcq d) c).Queue (.sProcq e) (update q (s.sSemAdd d) ys (s.sSemAdd e))
    by_cases hed : e = d
    · subst hed
      rw [Function.update_self, Queues.Queue, procQ_setProcQ]
      exact hc
    · rw [Function.update_of_ne (hother e he hed)]
      exact (h.procq e he).of_setProcQ (by simpa using hed) (hnext e he hed)
  · have hed : e ≠ d := fun heq => he (heq ▸ hd)
    show update s.sProcq d c.tail e = none
    rw [Function.update_of_ne hed]
    exact h.idle e he
  · show update q (s.sSemAdd d) ys a ≠ [] ↔ ∃ e ∈ asl, s.sSemAdd e = a
    by_cases ha : a = s.sSemAdd d
    · subst ha
      rw [Function.update_self]
      exact ⟨fun _ => ⟨d, hd, rfl⟩, fun _ => hys⟩
    · rw [Function.update_of_ne ha]
      exact h.active a
  · have hp' : p ∈ update q (s.sSemAdd d) ys (s.sSemAdd e) := hp
    show cs p = some e
    by_cases hed : e = d
    · subst hed
      rw [Function.update_self] at hp'
      exact hcd p hp'
    · rw [Function.update_of_ne (hother e he hed)] at hp'
      rw [hcs e he hed p hp']
      exact h.cursem e he p hp'

section Shrink

variable (h : AslRep s q asl free) (hd : d ∈ asl)
  (hout : Clist.SameOutside (q (s.sSemAdd d)) (s.procQ (.sProcq d)) c) (hc : c.Holds rest)
include h hd hout

theorem AslRep.next_of_ne (he : e ∈ asl) (hne : e ≠ d) :
    ∀ x ∈ q (s.sSemAdd e), c.next x = s.pList x := fun x hx => by
  rw [hout x (fun hm => hne (h.sSemAdd_injOn he hd (h.queue_unique hx hm))), procQ_next]

include hc

/-- An empty queue: `delete` takes the descriptor off the list, and it goes to
the end of the free ones. -/
theorem AslRep.release (hrest : rest = []) :
    ∃ c', (s.setProcQ (.sProcq d) c).asl.delete (maxProc + 1) d = some (false, c') ∧
      AslRep (((s.setProcQ (.sProcq d) c).setAsl c').setFree
          (((s.setProcQ (.sProcq d) c).setAsl c').free.enqueue d))
        (update q (s.sSemAdd d) rest) (asl.erase d) (free ++ [d]) := by
  subst hrest
  obtain ⟨pre, post, rfl⟩ := List.append_of_mem hd
  have hother : ∀ e ∈ pre ++ d :: post, e ≠ d → s.sSemAdd e ≠ s.sSemAdd d := fun e he hne heq =>
    hne (h.sSemAdd_injOn he hd heq)
  have hnd := h.aslh.nodup
  have hdrest : d ∉ pre ++ post := (List.nodup_cons.mp (List.nodup_middle.mp hnd)).1
  have hdpre : d ∉ pre := fun hm => hdrest (List.mem_append_left _ hm)
  have hne : ∀ e ∈ pre ++ post, e ≠ d := fun e he heq => hdrest (heq ▸ he)
  have hold : (s.setProcQ (.sProcq d) c).asl.Holds (pre ++ d :: post) :=
    Clist.Holds.congr h.aslh rfl (fun _ _ => rfl)
  obtain ⟨c', hdel, hasl, hsame⟩ := hold.delete h.length_lt
  have hfree : ((s.setProcQ (.sProcq d) c).setAsl c').free.Holds free :=
    Clist.Holds.congr h.semdFree rfl (fun x hx => hsame x (fun hm => h.disjoint hm hx))
  refine ⟨c', hdel, ?_⟩
  rw [List.erase_append_right _ hdpre, List.erase_cons_head]
  refine ⟨?_, hfree.enqueue (fun hm => h.disjoint hd hm), ?_, ?_, fun e he => ?_, fun e he => ?_,
    fun a => ?_, fun e he p hp => ?_⟩
  · refine Clist.Holds.congr hasl rfl (fun x hx => hfree.enqueue_sameOutside x ?_)
    rw [List.mem_cons, not_or]
    exact ⟨hne x hx, h.disjoint (mem_of_erase_middle hx)⟩
  · intro x hx hm
    rcases List.mem_append.mp hm with hm | hm
    · exact h.disjoint (mem_of_erase_middle hx) hm
    · exact hne x hx (List.mem_singleton.mp hm)
  · exact h.sorted.sublist
      (List.Sublist.map _ (List.Sublist.append_left (List.sublist_cons_self d post) pre))
  · have he' := mem_of_erase_middle (d := d) he
    have := (h.procq e he').of_setProcQ (q := .sProcq d) (by simpa using hne e he)
      (h.next_of_ne hd hout he' (hne e he))
    rw [← Function.update_of_ne (hother e he' (hne e he)) [] q] at this
    exact this
  · show update s.sProcq d c.tail e = none
    by_cases hed : e = d
    · subst hed
      rw [Function.update_self]
      exact hc.tail_eq
    · rw [Function.update_of_ne hed]
      refine h.idle e (fun hm => he ?_)
      simpa [hed] using hm
  · show update q (s.sSemAdd d) [] a ≠ [] ↔ ∃ e ∈ pre ++ post, s.sSemAdd e = a
    by_cases ha : a = s.sSemAdd d
    · subst ha
      rw [Function.update_self]
      refine ⟨fun hn => absurd rfl hn, ?_⟩
      rintro ⟨e, he, heq⟩
      exact absurd heq (hother e (mem_of_erase_middle he) (hne e he))
    · rw [Function.update_of_ne ha, h.active a]
      constructor
      · rintro ⟨e, he, rfl⟩
        have hed : e ≠ d := fun heq => ha (by rw [heq])
        exact ⟨e, by simpa [hed] using he, rfl⟩
      · rintro ⟨e, he, rfl⟩
        exact ⟨e, mem_of_erase_middle he, rfl⟩
  · have hp' : p ∈ update q (s.sSemAdd d) [] (s.sSemAdd e) := hp
    rw [Function.update_of_ne (hother e (mem_of_erase_middle he) (hne e he))] at hp'
    exact h.cursem e (mem_of_erase_middle he) p hp'

/-- **Shrinking a queue.**  When the list head of an active descriptor has been
written back with fewer blocks, `releaseSemd` restores the comparison. -/
theorem run_releaseSemd (hsub : ∀ x ∈ rest, x ∈ q (s.sSemAdd d)) :
    ∃ s', (releaseSemd d).run (s.setProcQ (.sProcq d) c) = some ((), s') ∧
      AslRep s' (update q (s.sSemAdd d) rest) (aslAfter asl d rest) (freeAfter free d rest) ∧
      s'.pCursem = s.pCursem ∧ s'.sSemAdd = s.sSemAdd ∧
      s.SameOutside (q (s.sSemAdd d)) s' := by
  have hempty : c.empty = rest.isEmpty := hc.empty_eq
  have hnext : ∀ x, x ∉ q (s.sSemAdd d) → c.next x = s.pList x := fun x hx => by
    rw [hout x hx, procQ_next]
  by_cases hrest : rest = []
  · obtain ⟨c', hdel, hrep⟩ := h.release hd hout hc hrest
    have hrun : (releaseSemd d).run (s.setProcQ (.sProcq d) c) = some ((),
        ((s.setProcQ (.sProcq d) c).setAsl c').setFree
          (((s.setProcQ (.sProcq d) c).setAsl c').free.enqueue d)) := by
      simp [releaseSemd, hempty, hrest, hdel]
    rw [aslAfter, if_pos hrest, freeAfter, if_pos hrest]
    exact ⟨_, hrun, hrep, setProcQ_pCursem, setProcQ_sSemAdd, hnext, rfl, rfl⟩
  · refine ⟨s.setProcQ (.sProcq d) c, ?_, ?_, rfl, rfl, ⟨hnext, rfl, rfl⟩⟩
    · have hfalse : rest.isEmpty = false := by simpa using hrest
      simp [releaseSemd, hempty, hfalse]
    · rw [aslAfter, if_neg hrest, freeAfter, if_neg hrest]
      exact h.rewrite hd hc hrest (fun e he hne => h.next_of_ne hd hout he hne)
        (fun _ _ _ _ _ => rfl) (fun x hx => h.cursem d hd x (hsub x hx))

end Shrink

/-! ### `removeBlocked` and `outBlocked` -/

theorem run_removeBlocked_nil (h : AslRep s q asl free) (ha : q a = []) :
    (removeBlocked a).run s = some (none, s) := by
  obtain ⟨cur, hcur⟩ := run_searchAsl_absent h ha
  simp [removeBlocked, hcur]

/-- **`removeBlocked` takes the first of the queue.** -/
theorem run_removeBlocked (h : AslRep s q asl free) (ha : q a = p :: rest) :
    ∃ s' d, (removeBlocked a).run s = some (some p, s') ∧
      d ∈ asl ∧ s.sSemAdd d = a ∧ s.pCursem p = some d ∧
      AslRep s' (update q a rest) (aslAfter asl d rest) (freeAfter free d rest) ∧
      s'.pCursem = s.pCursem ∧ s'.sSemAdd = s.sSemAdd ∧ s.SameOutside (q a) s' := by
  obtain ⟨d, hd, rfl, hcursem⟩ := h.exists_cursem (a := a) (p := p) (by simp [ha])
  obtain ⟨tmp, hcur, hall⟩ := run_searchAsl_found h hd
  have hqueue := h.procq d hd
  rw [ha] at hqueue
  obtain ⟨c, hdeq, hc, hout⟩ := Clist.Holds.dequeue hqueue
  rw [← ha] at hout
  obtain ⟨s', hrel, hrep, hcs, hadd, hsame⟩ :=
    run_releaseSemd h hd hout hc (fun x hx => by simp [ha, hx])
  refine ⟨s', d, ?_, hd, rfl, hcursem, hrep, hcs, hadd, hsame⟩
  simp [removeBlocked, hcur, hall, hqueue.head_eq, hdeq, hrel]

/-- **`outBlocked` takes a waiting process out of its queue**, wherever it
stands. -/
theorem run_outBlocked (h : AslRep s q asl free) (hp : p ∈ q a) :
    ∃ s' d, (outBlocked p).run s = some (some p, s') ∧
      d ∈ asl ∧ s.sSemAdd d = a ∧ s.pCursem p = some d ∧
      AslRep s' (update q a ((q a).erase p)) (aslAfter asl d ((q a).erase p))
        (freeAfter free d ((q a).erase p)) ∧
      s'.pCursem = s.pCursem ∧ s'.sSemAdd = s.sSemAdd ∧ s.SameOutside (q a) s' := by
  obtain ⟨d, hd, rfl, hcursem⟩ := h.exists_cursem hp
  obtain ⟨c, hrun, hc, hout⟩ := run_outProcQ (h.procq d hd) hp
  obtain ⟨s', hrel, hrep, hcs, hadd, hsame⟩ :=
    run_releaseSemd h hd hout hc (fun x hx => List.mem_of_mem_erase hx)
  refine ⟨s', d, ?_, hd, rfl, hcursem, hrep, hcs, hadd, hsame⟩
  simp [outBlocked, hcursem, hrun, hrel]

/-- `outBlocked` of a process that is not on the queue its `p_cursem` points to:
while others wait there, nothing happens. -/
theorem run_outBlocked_busy (hcursem : s.pCursem p = some d) (hq : s.Queue (.sProcq d) xs)
    (hne : xs ≠ []) (hp : p ∉ xs) : (outBlocked p).run s = some (none, s) := by
  have hempty : (s.procQ (.sProcq d)).empty = false := by
    rw [Clist.Holds.empty_eq hq]
    simpa using hne
  simp [outBlocked, hcursem, run_outProcQ_notMem hq hp, releaseSemd, hempty]

/-- While nobody waits, a descriptor that is not active goes to the end of the free list. -/
theorem run_outBlocked_idle (hasl : s.asl.Holds asl) (hcursem : s.pCursem p = some d)
    (hq : s.Queue (.sProcq d) []) (hd : d ∉ asl) :
    (outBlocked p).run s = some (none, s.setFree (s.free.enqueue d)) := by
  have hempty : (s.procQ (.sProcq d)).empty = true := Clist.Holds.empty_eq hq
  have hdel : s.asl.delete (maxProc + 1) d = some (true, s.asl) :=
    hasl.delete_notMem hd (semd_length_lt hasl)
  have hset : s.setAsl s.asl = s := rfl
  simp [outBlocked, hcursem, run_outProcQ_notMem hq List.not_mem_nil, releaseSemd, hempty, hdel,
    hset]

/-- A free descriptor that is put on the free list once more: the list stays
well formed, but the descriptors behind it, or all the others if it is the last,
are lost. -/
theorem exists_holds_enqueue {f : Clist Semd} (h : f.Holds free) (d : Semd) :
    ∃ free', (f.enqueue d).Holds free' ∧ (∀ e ∈ free', e ∈ free ∨ e = d) ∧
      (free = [d] → free' = [d]) := by
  by_cases hmem : d ∈ free
  · obtain ⟨pre, post, rfl⟩ := List.append_of_mem hmem
    refine ⟨_, h.enqueue_mem, fun e he => ?_, fun heq => ?_⟩
    · split_ifs at he
      · exact .inr (List.mem_singleton.mp he)
      · rcases List.mem_append.mp he with he | he
        · exact .inl (List.mem_append_left _ he)
        · exact .inr (List.mem_singleton.mp he)
    · cases pre with
      | nil => simp
      | cons x pre => simp at heq
  · refine ⟨free ++ [d], h.enqueue hmem, fun e he => ?_, fun heq => ?_⟩
    · simpa using he
    · exact absurd (by simp [heq]) hmem

/-- `outBlocked` of a process whose `p_cursem` points to an unused descriptor:
the descriptor is put on the free list once more. -/
theorem run_outBlocked_stale (h : AslRep s q asl free) (hcursem : s.pCursem p = some d)
    (hd : d ∉ asl) :
    ∃ s' free', (outBlocked p).run s = some (none, s') ∧ AslRep s' q asl free' ∧
      (free = [d] → free' = [d]) ∧ s'.pCursem = s.pCursem ∧ s'.sSemAdd = s.sSemAdd ∧
      s.SameOutside [] s' := by
  have hrun := run_outBlocked_idle h.aslh hcursem (Clist.holds_nil (h.idle d hd)) hd
  obtain ⟨free', hfree, hmem, halone⟩ := exists_holds_enqueue h.semdFree d
  have hasl : (s.setFree (s.free.enqueue d)).asl.Holds asl := by
    refine h.aslh.congr rfl (fun x hx => h.semdFree.enqueue_sameOutside x ?_)
    rw [List.mem_cons, not_or]
    exact ⟨fun heq => hd (heq ▸ hx), h.disjoint hx⟩
  refine ⟨_, free', hrun, ?_, halone, rfl, rfl, fun x _ => rfl, rfl, rfl⟩
  refine ⟨hasl, hfree, fun e he hm => ?_, h.sorted, h.procq, h.idle, h.active, h.cursem⟩
  rcases hmem e hm with hm | rfl
  · exact h.disjoint he hm
  · exact hd he

/-! ### `insertBlocked` -/

theorem run_insertBlocked_found (h : AslRep s q asl free) (hp : ∀ b, p ∉ q b) (hd : d ∈ asl) :
    ∃ s', (insertBlocked (s.sSemAdd d) p).run s = some (0, s') ∧
      AslRep s' (update q (s.sSemAdd d) (q (s.sSemAdd d) ++ [p])) asl free ∧
      s'.pCursem = update s.pCursem p (some d) ∧ s'.sSemAdd = s.sSemAdd ∧
      s.SameOutside (p :: q (s.sSemAdd d)) s' := by
  obtain ⟨tmp, hcur, hall⟩ := run_searchAsl_found h hd
  have hout := (h.procq d hd).enqueue_sameOutside (e := p)
  have hnext : ∀ x, x ∉ p :: q (s.sSemAdd d) →
      ((s.procQ (.sProcq d)).enqueue p).next x = s.pList x := fun x hx => by
    rw [hout x hx, procQ_next]
  refine ⟨{ s.setProcQ (.sProcq d) ((s.procQ (.sProcq d)).enqueue p) with
      pCursem := update s.pCursem p (some d) }, ?_, ?_, rfl, rfl, hnext, rfl, rfl⟩
  · simp [insertBlocked, hcur, hall]
  · refine h.rewrite hd ((h.procq d hd).enqueue (hp _)) (by simp) (fun e he hne x hx => ?_)
      (fun e he hne x hx => ?_) (fun x hx => ?_)
    · refine hnext x (fun hm => ?_)
      rcases List.mem_cons.mp hm with rfl | hm
      · exact hp _ hx
      · exact hne (h.sSemAdd_injOn he hd (h.queue_unique hx hm))
    · exact Function.update_of_ne (ne_of_mem_of_not_mem hx (hp _)) _ _
    · by_cases hxp : x = p
      · rw [hxp, Function.update_self]
      · rw [Function.update_of_ne hxp]
        exact h.cursem d hd x (by simpa [hxp] using hx)

theorem run_insertSemd (hasl : s.asl.Holds asl) (hlen : asl.length < maxProc + 1)
    (hsorted : (asl.map s.sSemAdd).Pairwise (· < ·)) (hne : ∀ e ∈ asl, s.sSemAdd e ≠ a)
    (hd : d ∉ asl) :
    ∃ c pre post, (insertSemd a d : Q n Unit).run s = some ((), s.setAsl c) ∧
      asl = pre ++ post ∧ c.Holds (pre ++ d :: post) ∧ (∀ e ∈ pre, s.sSemAdd e < a) ∧
      (∀ e ∈ post, a < s.sSemAdd e) ∧ Clist.SameOutside (d :: asl) s.asl c := by
  have hlt : ∀ e ∈ asl, decide (a < s.sSemAdd e) = false → s.sSemAdd e < a := fun e he hnot => by
    have h1 := hne e he
    have h2 := of_decide_eq_false hnot
    bv_omega
  rcases Clist.Holds.foreach_cases (fun scan => decide (a < s.sSemAdd scan)) hasl hlen with
    ⟨hnot, cur, hcur, hall⟩ | ⟨pre, x, post, rfl, hpre, hx, hcur, hall⟩
  · refine ⟨s.asl.enqueue d, asl, [], by simp [insertSemd, hcur, hall], by simp, hasl.enqueue hd,
      fun e he => hlt e he (hnot e he), by simp, hasl.enqueue_sameOutside⟩
  · obtain ⟨c, hadd, hc, hout⟩ := hasl.foreachAdd hd
    refine ⟨c, pre, x :: post, by simp [insertSemd, hcur, hall, hadd], rfl, hc,
      fun e he => hlt e (by simp [he]) (hpre e he), fun e he => ?_, hout⟩
    have hax : a < s.sSemAdd x := of_decide_eq_true hx
    rw [List.map_append, List.map_cons, List.pairwise_append, List.pairwise_cons] at hsorted
    rcases List.mem_cons.mp he with rfl | he
    · exact hax
    · have := hsorted.2.1.1 _ (List.mem_map_of_mem he)
      bv_omega

theorem run_insertBlocked_new (h : AslRep s q asl (d :: free)) (hp : ∀ b, p ∉ q b)
    (ha : q a = []) :
    ∃ s' asl', (insertBlocked a p).run s = some (0, s') ∧
      AslRep s' (update q a [p]) asl' free ∧ (∀ e, e ∈ asl' ↔ e = d ∨ e ∈ asl) ∧
      s'.pCursem = update s.pCursem p (some d) ∧ s'.sSemAdd = update s.sSemAdd d a ∧
      s.SameOutside [p] s' := by
  have hne : ∀ e ∈ asl, s.sSemAdd e ≠ a := fun e he heq => absurd ha (heq ▸ h.queue_ne_nil he)
  have hd : d ∉ asl := fun hm => h.disjoint hm List.mem_cons_self
  obtain ⟨cur, hcur⟩ := run_searchAsl_absent h ha
  have hempty : s.free.empty = false := h.semdFree.empty_eq
  obtain ⟨f, hdeq, hf, hfout⟩ := Clist.Holds.dequeue h.semdFree
  have hasl : (s.setFree f).asl.Holds asl :=
    Clist.Holds.congr h.aslh rfl (fun x hx => hfout x (fun hm => h.disjoint hx hm))
  obtain ⟨c, pre, post, hins, rfl, hc, hpre, hpost, hcout⟩ :=
    run_insertSemd hasl h.length_lt h.sorted hne hd
  have hdfree : d ∉ free := (List.nodup_cons.mp h.semdFree.nodup).1
  have hupd : ∀ e ∈ pre ++ post, update s.sSemAdd d a e = s.sSemAdd e := fun e he =>
    Function.update_of_ne (ne_of_mem_of_not_mem he hd) _ _
  have hmem : ∀ e, e ∈ pre ++ d :: post ↔ e = d ∨ e ∈ pre ++ post := fun e => by
    simp only [List.mem_append, List.mem_cons]
    tauto
  let s₁ : Queues n := { (s.setFree f).setAsl c with
    sSemAdd := update s.sSemAdd d a
    sProcq := update s.sProcq d none
    pCursem := update s.pCursem p (some d) }
  have hqueue : s₁.Queue (.sProcq d) [] := Clist.holds_nil (Function.update_self ..)
  have hout := hqueue.enqueue_sameOutside (e := p)
  have hnext : ∀ x, x ≠ p → ((s₁.procQ (.sProcq d)).enqueue p).next x = s.pList x := fun x hx => by
    rw [hout x (by simpa using hx), procQ_next]
    rfl
  refine ⟨s₁.setProcQ (.sProcq d) ((s₁.procQ (.sProcq d)).enqueue p), pre ++ d :: post, ?_, ?_,
    hmem, rfl, rfl, fun x hx => hnext x (by simpa using hx), rfl, rfl⟩
  · simp [insertBlocked, hcur, hempty, h.semdFree.head_eq, hdeq, hins]
    rfl
  refine ⟨hc, ?_, ?_, ?_, fun e he => ?_, fun e he => ?_, fun b => ?_, fun e he x hx => ?_⟩
  · refine Clist.Holds.congr hf rfl (fun x hx => hcout x ?_)
    rw [List.mem_cons, not_or]
    exact ⟨ne_of_mem_of_not_mem hx hdfree, fun hm => h.disjoint hm (List.mem_cons_of_mem _ hx)⟩
  · intro e he hm
    rcases (hmem e).mp he with rfl | he
    · exact hdfree hm
    · exact h.disjoint he (List.mem_cons_of_mem _ hm)
  · show ((pre ++ d :: post).map (update s.sSemAdd d a)).Pairwise (· < ·)
    rw [List.map_append, List.map_cons, Function.update_self,
      List.map_congr_left (fun e he => hupd e (List.mem_append_left _ he)),
      List.map_congr_left (fun e he => hupd e (List.mem_append_right _ he))]
    have hs := h.sorted
    rw [List.map_append, List.pairwise_append] at hs
    refine List.pairwise_append.mpr ⟨hs.1, List.pairwise_cons.mpr ⟨?_, hs.2.1⟩, ?_⟩
    · intro b hb
      obtain ⟨e, he, rfl⟩ := List.mem_map.mp hb
      exact hpost e he
    · intro b hb b' hb'
      rcases List.mem_cons.mp hb' with rfl | hb'
      · obtain ⟨e, he, rfl⟩ := List.mem_map.mp hb
        exact hpre e he
      · exact hs.2.2 b hb b' hb'
  · show Clist.Holds _ (update q a [p] (update s.sSemAdd d a e))
    rcases (hmem e).mp he with rfl | he
    · rw [Function.update_self, Function.update_self, procQ_setProcQ]
      exact hqueue.enqueue (List.not_mem_nil)
    · have hed : e ≠ d := ne_of_mem_of_not_mem he hd
      rw [hupd e he, Function.update_of_ne (hne e he)]
      have hold : s₁.Queue (.sProcq e) (q (s.sSemAdd e)) := by
        refine Clist.Holds.congr (h.procq e he) ?_ (fun x _ => rfl)
        exact Function.update_of_ne hed _ _
      exact hold.of_setProcQ (by simpa using hed) (fun x hx =>
        hnext x (ne_of_mem_of_not_mem hx (hp _)))
  · have hed : e ≠ d := fun heq => he (by simp [heq])
    show update (update s.sProcq d none) d _ e = none
    rw [Function.update_of_ne hed, Function.update_of_ne hed]
    exact h.idle e (fun hm => he ((hmem e).mpr (.inr hm)))
  · show update q a [p] b ≠ [] ↔ ∃ e ∈ pre ++ d :: post, update s.sSemAdd d a e = b
    by_cases hb : b = a
    · subst hb
      rw [Function.update_self]
      exact ⟨fun _ => ⟨d, by simp, Function.update_self ..⟩, fun _ => by simp⟩
    · rw [Function.update_of_ne hb, h.active b]
      constructor
      · rintro ⟨e, he, rfl⟩
        exact ⟨e, (hmem e).mpr (.inr he), hupd e he⟩
      · rintro ⟨e, he, heq⟩
        rcases (hmem e).mp he with rfl | he
        · rw [Function.update_self] at heq
          exact absurd heq.symm hb
        · exact ⟨e, he, by rw [← hupd e he, heq]⟩
  · have hx' : x ∈ update q a [p] (update s.sSemAdd d a e) := hx
    show update s.pCursem p (some d) x = some e
    rcases (hmem e).mp he with rfl | he
    · rw [Function.update_self, Function.update_self, List.mem_singleton] at hx'
      rw [hx', Function.update_self]
    · rw [hupd e he, Function.update_of_ne (hne e he)] at hx'
      rw [Function.update_of_ne (ne_of_mem_of_not_mem hx' (hp _))]
      exact h.cursem e he x hx'

theorem run_insertBlocked_full (h : AslRep s q asl []) (ha : q a = []) :
    (insertBlocked a p).run s = some (1, s) := by
  obtain ⟨cur, hcur⟩ := run_searchAsl_absent h ha
  have hempty : s.free.empty = true := h.semdFree.empty_eq
  simp [insertBlocked, hcur, hempty]

/-- **`insertBlocked` appends to the queue of the address**, as long as there is
a descriptor for it. -/
theorem run_insertBlocked (h : AslRep s q asl free) (hp : ∀ b, p ∉ q b)
    (hroom : q a ≠ [] ∨ free ≠ []) :
    ∃ s' d asl' free', (insertBlocked a p).run s = some (0, s') ∧
      AslRep s' (update q a (q a ++ [p])) asl' free' ∧
      (∀ e, e ∈ asl' ∨ e ∈ free' ↔ e ∈ asl ∨ e ∈ free) ∧
      s'.pCursem = update s.pCursem p (some d) ∧ s'.sSemAdd d = a ∧
      s.SameOutside (p :: q a) s' := by
  by_cases ha : q a = []
  · obtain ⟨d, free, rfl⟩ := List.exists_cons_of_ne_nil (hroom.resolve_left (fun hn => hn ha))
    obtain ⟨s', asl', hrun, hrep, hmem, hcs, hadd, hsame⟩ := run_insertBlocked_new h hp ha
    refine ⟨s', d, asl', free, hrun, by rwa [ha, List.nil_append], fun e => ?_, hcs, ?_, ?_⟩
    · rw [hmem, List.mem_cons]
      tauto
    · rw [hadd, Function.update_self]
    · rwa [ha]
  · obtain ⟨d, hd, rfl⟩ := (h.active a).mp ha
    obtain ⟨s', hrun, hrep, hcs, hadd, hsame⟩ := run_insertBlocked_found h hp hd
    exact ⟨s', d, asl, free, hrun, hrep, fun e => Iff.rfl, hcs, congrFun hadd d, hsame⟩

/-! ### The descriptors -/

theorem mem_aslAfter_or_freeAfter (hnd : asl.Nodup) (hd : d ∈ asl) :
    e ∈ aslAfter asl d rest ∨ e ∈ freeAfter free d rest ↔ e ∈ asl ∨ e ∈ free := by
  rw [aslAfter, freeAfter]
  split_ifs
  · rw [hnd.mem_erase_iff, List.mem_append, List.mem_singleton]
    by_cases hed : e = d
    · simp [hed, hd]
    · simp [hed]
  · exact Iff.rfl

theorem AslRep.ncard_active (h : AslRep s q asl free) : {a | q a ≠ []}.ncard = asl.length := by
  have hset : {a | q a ≠ []} = ((asl.map s.sSemAdd).toFinset : Set Word) := by
    ext a
    simp [h.active a]
  have hnd : (asl.map s.sSemAdd).Nodup := h.sorted.imp (fun hlt heq => by subst heq; bv_omega)
  rw [hset, Set.ncard_coe_finset, List.toFinset_card_of_nodup hnd, List.length_map]

theorem AslRep.perm_finRange (h : AslRep s q asl free) (hall : ∀ d, d ∈ asl ∨ d ∈ free) :
    (asl ++ free).Perm (List.finRange maxProc) := by
  refine (List.perm_ext_iff_of_nodup ?_ (List.nodup_finRange _)).mpr (fun d => ?_)
  · exact h.aslh.nodup.append h.semdFree.nodup h.disjoint
  · simpa using hall d

theorem run_initASL (hfree : s.semdFree = none) :
    ∃ f, (initASL : Q n Unit).run s = some ((), s.setFree f) ∧ f.Holds (List.finRange maxProc) := by
  have aux : ∀ (l : List Semd) (s : Queues n) (xs : List Semd), s.free.Holds xs → (xs ++ l).Nodup →
      ∃ f, (l.forM fun d => (modify fun s => s.setFree (s.free.enqueue d) : Q n Unit)).run s =
        some ((), s.setFree f) ∧ f.Holds (xs ++ l) := by
    intro l
    induction l with
    | nil =>
      intro s xs hs _
      exact ⟨s.free, rfl, by rw [List.append_nil]; exact hs⟩
    | cons d l ih =>
      intro s xs hs hnd
      have hd : d ∉ xs := fun hm => List.disjoint_of_nodup_append hnd hm List.mem_cons_self
      obtain ⟨f, hf, hholds⟩ := ih (s.setFree (s.free.enqueue d)) (xs ++ [d]) (hs.enqueue hd)
        (by rwa [List.append_assoc])
      exact ⟨f, hf, by rwa [List.append_assoc] at hholds⟩
  have := aux (List.finRange maxProc) s [] (Clist.holds_nil hfree)
    (by simpa using List.nodup_finRange maxProc)
  rw [List.nil_append] at this
  exact this

theorem aslRep_initASL (hasl : s.aslh = none) (hfree : s.semdFree = none)
    (hidle : ∀ d, s.sProcq d = none) :
    ∃ s', (initASL : Q n Unit).run s = some ((), s') ∧
      AslRep s' (fun _ => []) [] (List.finRange maxProc) ∧
      s'.pList = s.pList ∧ s'.pcbFree = s.pcbFree ∧ s'.gReadyQueue = s.gReadyQueue ∧
      s'.pCursem = s.pCursem := by
  obtain ⟨f, hrun, hf⟩ := run_initASL (n := n) hfree
  refine ⟨_, hrun, ?_, rfl, rfl, rfl, rfl⟩
  exact ⟨Clist.holds_nil hasl, hf, by simp, by simp, by simp, fun d _ => hidle d, by simp, by simp⟩

end JaeOS
