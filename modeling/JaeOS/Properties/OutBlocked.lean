import JaeOS.Refine.Asl
import JaeOS.Model.Init

/-!
# `outBlocked` of a process that is not on the queue

When `outBlocked` does not find the process on the queue `p_cursem` points to, it returns
`NULL`, but it still looks whether that queue is empty, and if so it releases the descriptor.
A descriptor that was free already is put on `semdFree` a second time, and the descriptors
behind it are lost.
-/

namespace JaeOS

variable {n : ℕ} {s s' : Queues n} {asl free : List Semd} {d : Semd} {p : Fin n}
  {xs : List (Fin n)}

/-! ### The property -/

/-- `aslh` and `semdFree` are well formed and share no descriptor, and so are the process
queues of the descriptors. -/
structure Queues.WellFormed (s : Queues n) (asl free : List Semd) : Prop where
  aslh : s.asl.Holds asl
  semdFree : s.free.Holds free
  disjoint : asl.Disjoint free
  procq : ∀ e, ∃ xs, s.Queue (.sProcq e) xs

/-- `outBlocked` returns `NULL` and leaves the two lists and every process queue alone. -/
def OutBlockedFails (s : Queues n) (asl free : List Semd) (p : Fin n) : Prop :=
  ∃ s', (outBlocked p).run s = some (none, s') ∧ s'.asl.Holds asl ∧ s'.free.Holds free ∧
    ∀ e xs, s.Queue (.sProcq e) xs → s'.Queue (.sProcq e) xs

/-! ### The release of a descriptor -/

/-- Putting a descriptor on the free list leaves that list as it is only if it is the only one
there. -/
theorem Clist.Holds.enqueue_eq_iff {f : Clist Semd} (h : f.Holds free) :
    (f.enqueue d).Holds free ↔ free = [d] := by
  constructor
  · intro hsame
    by_cases hd : d ∈ free
    · obtain ⟨pre, post, rfl⟩ := List.append_of_mem hd
      have heq := hsame.unique h.enqueue_mem
      by_cases hpost : post = []
      · rwa [if_pos hpost] at heq
      · rw [if_neg hpost] at heq
        have hlen := congrArg List.length heq
        simp only [List.length_append, List.length_cons, List.length_nil] at hlen
        exact absurd (List.length_eq_zero_iff.mp (by omega)) hpost
    · have heq := hsame.unique (h.enqueue hd)
      exact absurd heq (by simp)
  · rintro rfl
    have hself : f.Holds ([] ++ d :: []) := h
    exact hself.enqueue_mem

/-- An active descriptor whose queue is empty leaves the active list. -/
theorem not_outBlockedFails_active (h : s.WellFormed asl free) (hcursem : s.pCursem p = some d)
    (hq : s.Queue (.sProcq d) []) (hd : d ∈ asl) : ¬ OutBlockedFails s asl free p := by
  rintro ⟨s', hrun, hasl, -⟩
  have hempty : (s.procQ (.sProcq d)).empty = true := Clist.Holds.empty_eq hq
  obtain ⟨pre, post, rfl⟩ := List.append_of_mem hd
  obtain ⟨c, hdel, hc, hsame⟩ := h.aslh.delete (semd_length_lt h.aslh)
  have hrun' : (outBlocked p).run s =
      some (none, (s.setAsl c).setFree ((s.setAsl c).free.enqueue d)) := by
    simp [outBlocked, hcursem, run_outProcQ_notMem hq List.not_mem_nil, releaseSemd, hempty, hdel]
  obtain ⟨-, rfl⟩ := Prod.mk.inj (Option.some.inj (hrun'.symm.trans hrun))
  have hfree : (s.setAsl c).free.Holds free :=
    h.semdFree.congr rfl (fun x hx => hsame x (fun hm => h.disjoint hm hx))
  have hdnot : d ∉ pre ++ post :=
    (List.nodup_cons.mp (List.nodup_middle.mp h.aslh.nodup)).1
  have hasl' : ((s.setAsl c).setFree ((s.setAsl c).free.enqueue d)).asl.Holds (pre ++ post) := by
    refine hc.congr rfl (fun x hx => hfree.enqueue_sameOutside x ?_)
    rw [List.mem_cons, not_or]
    exact ⟨ne_of_mem_of_not_mem hx hdnot, h.disjoint (mem_of_erase_middle hx)⟩
  exact hdnot (hasl'.unique hasl ▸ hd)

/-- A descriptor that is not active and whose queue is empty: nothing changes only if it is the
only free one. -/
theorem outBlockedFails_idle (h : s.WellFormed asl free) (hcursem : s.pCursem p = some d)
    (hq : s.Queue (.sProcq d) []) (hd : d ∉ asl) :
    OutBlockedFails s asl free p ↔ free = [d] := by
  have hrun := run_outBlocked_idle h.aslh hcursem hq hd
  constructor
  · rintro ⟨s', hrun', -, hfree, -⟩
    obtain ⟨-, rfl⟩ := Prod.mk.inj (Option.some.inj (hrun.symm.trans hrun'))
    exact h.semdFree.enqueue_eq_iff.mp hfree
  · intro heq
    refine ⟨_, hrun, ?_, h.semdFree.enqueue_eq_iff.mpr heq, fun e xs hxs => hxs⟩
    refine h.aslh.congr rfl (fun x hx => h.semdFree.enqueue_sameOutside x ?_)
    rw [List.mem_cons, not_or]
    exact ⟨ne_of_mem_of_not_mem hx hd, h.disjoint hx⟩

/-- **`outBlocked` fails without effect** exactly if another process waits on the descriptor, or
the descriptor is the only free one. -/
theorem outBlockedFails_iff (h : s.WellFormed asl free) (hcursem : s.pCursem p = some d)
    (hq : s.Queue (.sProcq d) xs) (hp : p ∉ xs) :
    OutBlockedFails s asl free p ↔ xs ≠ [] ∨ free = [d] := by
  by_cases hxs : xs = []
  · subst hxs
    rw [or_iff_right (fun hn => hn rfl)]
    by_cases hd : d ∈ asl
    · refine iff_of_false (not_outBlockedFails_active h hcursem hq hd) (fun heq => ?_)
      exact h.disjoint hd (by simp [heq])
    · exact outBlockedFails_idle h hcursem hq hd
  · refine iff_of_true ⟨s, run_outBlocked_busy hcursem hq hxs hp, h.aslh, h.semdFree,
      fun e ys hys => hys⟩ (.inl hxs)

/-! ### After `initASL` -/

instance : NeZero maxProc := ⟨by decide⟩

/-- Every descriptor is free, in the order of `initASL`, and one process names `d`. -/
def allFree (d : Semd) : Queues 1 :=
  { (Kernel.static 1).toQueues with
    pCursem := fun _ => some d
    semdFree := some 19
    sLink := fun e => some (e + 1) }

theorem allFree_wellFormed (d : Semd) :
    (allFree d).WellFormed [] (List.finRange maxProc) where
  aslh := Clist.holds_nil rfl
  semdFree := by
    have htail : some (19 : Semd) = (List.finRange maxProc).getLast? := by decide
    have hlinks : List.IsChain (fun a b : Semd => some (a + 1) = some b)
        (19 :: List.finRange maxProc) := by decide
    exact ⟨List.nodup_finRange _, htail, hlinks⟩
  disjoint := List.disjoint_nil_left _
  procq _ := ⟨[], Clist.holds_nil rfl⟩

/-- Of the first free descriptor. -/
theorem outBlockedFails_iff_allFree :
    OutBlockedFails (allFree 0) [] (List.finRange maxProc) 0 ↔
      ([] : List (Fin 1)) ≠ [] ∨ List.finRange maxProc = [0] :=
  outBlockedFails_iff (allFree_wellFormed 0) rfl (Clist.holds_nil rfl) List.not_mem_nil

/-- `outBlocked` of a process that names the first free descriptor, while all are free. -/
theorem not_outBlockedFails : ¬ ∀ (n : ℕ) (s : Queues n) (asl free : List Semd) (d : Semd)
    (p : Fin n) (xs : List (Fin n)), s.WellFormed asl free → s.pCursem p = some d →
      s.Queue (.sProcq d) xs → p ∉ xs → OutBlockedFails s asl free p := by
  intro h
  have hq : (allFree 0).Queue (.sProcq 0) [] := Clist.holds_nil rfl
  have hfails := h 1 _ _ _ 0 0 [] (allFree_wellFormed 0) rfl hq List.not_mem_nil
  have halone := (outBlockedFails_idle (allFree_wellFormed 0) rfl hq List.not_mem_nil).mp hfails
  exact absurd halone (by decide)

end JaeOS
