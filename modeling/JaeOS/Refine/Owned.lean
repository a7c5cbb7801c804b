import JaeOS.Lib.Placement
import JaeOS.Refine.Asl

/-!
# Who is on which list

`Owned s v asl free` compares the list heads for `p_list` with a placement `v`
of the blocks: on the free list, on the ready queue, waiting at an address, or in
hand, on none of these.  Each queue operation of the kernel moves one block.
-/

namespace JaeOS

open Function (update)

inductive Place
  | free
  | ready
  | sem (a : Word)
  | held
deriving DecidableEq

/-- The list head that is not in a descriptor. -/
def Place.procQ : Place → Option ProcQ
  | .free => some .pcbFree
  | .ready => some .gReadyQueue
  | _ => none

/-- A placement of the blocks. -/
abbrev View (n : ℕ) := Placement (Fin n) Place

variable {n : ℕ} {s s' : Queues n} {v v' : View n} {asl free asl' free' : List Semd} {a : Word}
  {d : Semd} {p x : Fin n} {pl : Place} {q : ProcQ} {c : Clist (Fin n)} {xs ys : List (Fin n)}

/-- The queue of every address. -/
def View.queues (v : View n) (a : Word) : List (Fin n) := v.list (.sem a)

/-- The pointers say what the placement says. -/
structure Owned (s : Queues n) (v : View n) (asl free : List Semd) : Prop where
  listed : ∀ pl q, pl.procQ = some q → s.Queue q (v.list pl)
  blocked : AslRep s v.queues asl free

theorem Place.procQ_injective {r : Place} (h : pl.procQ = some q) (hr : r.procQ = some q) :
    r = pl := by
  rw [← h] at hr
  cases pl <;> cases r <;> simp [Place.procQ] at h hr ⊢

theorem Place.procQ_ne_sProcq (h : pl.procQ = some q) (d : Semd) : q ≠ .sProcq d := by
  cases pl <;> simp_all [Place.procQ]
  all_goals subst h; simp

/-! ### One list head is written back -/

theorem AslRep.setProcQ {qs : Word → List (Fin n)} (h : AslRep s qs asl free)
    (hq : pl.procQ = some q) (hc : ∀ a, ∀ x ∈ qs a, c.next x = s.pList x) :
    AslRep (s.setProcQ q c) qs asl free := by
  refine h.congr ?_ ?_ setProcQ_sSemAdd ?_ (fun a x hx => ?_) (fun a x hx => ?_)
  · exact Clist.Holds.congr h.aslh setProcQ_aslh (fun _ _ => congrFun setProcQ_sLink _)
  · exact Clist.Holds.congr h.semdFree setProcQ_semdFree (fun _ _ => congrFun setProcQ_sLink _)
  · cases q with
    | sProcq d => exact absurd rfl (Place.procQ_ne_sProcq hq d)
    | _ => rfl
  · rw [setProcQ_pList]
    exact hc a x hx
  · rw [setProcQ_pCursem]

/-- **One block moves into or out of a list head.** -/
theorem Owned.of_setProcQ (v' : View n) (h : Owned s v asl free) (hq : pl.procQ = some q)
    (hc : c.Holds (v'.list pl)) (hout : ∀ x, x ≠ p → x ∉ v.list pl → c.next x = s.pList x)
    (hp : v.place p = pl ∨ v.place p = .held)
    (hother : ∀ r, r ≠ pl → r ≠ .held → v'.list r = v.list r) :
    Owned (s.setProcQ q c) v' asl free := by
  have hnext : ∀ r, r ≠ pl → r ≠ .held → ∀ x ∈ v.list r, c.next x = s.pList x := by
    intro r hr hheld x hx
    have hpr : v.place p ≠ r := fun heq => hp.elim (fun e => hr (heq ▸ e)) (fun e => hheld (heq ▸ e))
    refine hout x (fun hxp => ?_) (fun hm => v.disjoint hr hx hm)
    exact hpr (hxp ▸ (v.mem r x).mp hx)
  have hplheld : ∀ (r : Place) (q : ProcQ), r.procQ = some q → r ≠ .held := by
    rintro r q hr rfl
    simp [Place.procQ] at hr
  constructor
  · intro r q' hr
    by_cases hrpl : r = pl
    · subst hrpl
      obtain rfl : q' = q := Option.some.inj (hr.symm.trans hq)
      rw [Queues.Queue, procQ_setProcQ]
      exact hc
    · have hqq : q' ≠ q := fun heq => hrpl (Place.procQ_injective hq (heq ▸ hr))
      rw [hother r hrpl (hplheld r q' hr)]
      exact (h.listed r q' hr).of_setProcQ hqq (hnext r hrpl (hplheld r q' hr))
  · have hsem : v'.queues = v.queues := by
      funext b
      refine hother (.sem b) (fun heq => ?_) (by simp)
      subst heq
      simp [Place.procQ] at hq
    rw [hsem]
    refine h.blocked.setProcQ hq (fun b x hx => hnext (.sem b) ?_ (by simp) x hx)
    rintro rfl
    simp [Place.procQ] at hq

theorem Owned.of_blocked (h : Owned s v asl free) (hb : AslRep s' v'.queues asl' free')
    (hsame : s.SameOutside ys s') (hys : ∀ x ∈ ys, v.place x ≠ .free ∧ v.place x ≠ .ready)
    (hfree : v'.list .free = v.list .free) (hready : v'.list .ready = v.list .ready) :
    Owned s' v' asl' free' := by
  refine ⟨fun r q hr => ?_, hb⟩
  cases r with
  | free =>
    obtain rfl : ProcQ.pcbFree = q := Option.some.inj hr
    rw [hfree]
    exact hsame.queue_pcbFree (h.listed .free _ rfl)
      (fun x hx hm => (hys x hm).1 ((v.mem _ x).mp hx))
  | ready =>
    obtain rfl : ProcQ.gReadyQueue = q := Option.some.inj hr
    rw [hready]
    exact hsame.queue_gReadyQueue (h.listed .ready _ rfl)
      (fun x hx hm => (hys x hm).2 ((v.mem _ x).mp hx))
  | sem a => simp [Place.procQ] at hr
  | held => simp [Place.procQ] at hr

/-! ### The moves -/

/-- `p_cursem` and `s_semAdd` are as they were. -/
def Queues.SameSemd (s s' : Queues n) : Prop := s'.pCursem = s.pCursem ∧ s'.sSemAdd = s.sSemAdd

theorem sameSemd_setProcQ : s.SameSemd (s.setProcQ q c) := ⟨setProcQ_pCursem, setProcQ_sSemAdd⟩

theorem Queues.SameSemd.trans {s'' : Queues n} (h : s.SameSemd s') (h' : s'.SameSemd s'') :
    s.SameSemd s'' := ⟨h'.1.trans h.1, h'.2.trans h.2⟩

theorem Owned.run_headProcQ (h : Owned s v asl free) (hq : pl.procQ = some q) :
    (headProcQ q).run s = some ((v.list pl).head?, s) :=
  JaeOS.run_headProcQ (h.listed pl q hq)

theorem Owned.run_removeProcQ (h : Owned s v asl free) (hq : pl.procQ = some q)
    (hl : v.list pl = p :: xs) :
    ∃ s', (removeProcQ q).run s = some (some p, s') ∧ Owned s' (v.move p .held) asl free ∧
      s.SameSemd s' := by
  have hqueue := h.listed pl q hq
  have hpl : v.place p = pl := (v.mem pl p).mp (by simp [hl])
  have hheld : pl ≠ .held := by
    rintro rfl
    simp [Place.procQ] at hq
  rw [hl] at hqueue
  obtain ⟨c, hrun, hc, hout⟩ := JaeOS.run_removeProcQ hqueue
  refine ⟨_, hrun, ?_, sameSemd_setProcQ⟩
  refine h.of_setProcQ (v.move p .held) hq ?_ (fun x _ hx => ?_) (.inl hpl) (fun r hr hh => ?_)
  · rwa [Placement.move_list_of_ne hheld, hl, List.erase_cons_head]
  · rw [hout x (by rwa [← hl]), procQ_next]
  · exact Placement.move_list_other hh (fun heq => hr (heq ▸ hpl))

theorem Owned.run_headProcQ_ready (h : Owned s v asl free) :
    (headProcQ .gReadyQueue).run s = some ((v.list .ready).head?, s) :=
  h.run_headProcQ rfl

theorem Owned.run_removeProcQ_ready (h : Owned s v asl free) (hl : v.list .ready = p :: xs) :
    ∃ s', (removeProcQ .gReadyQueue).run s = some (some p, s') ∧
      Owned s' (v.move p .held) asl free ∧ s.SameSemd s' :=
  h.run_removeProcQ rfl hl

theorem Owned.run_outProcQ (h : Owned s v asl free) (hq : pl.procQ = some q)
    (hpl : v.place p = pl) :
    ∃ s', (outProcQ q p).run s = some (some p, s') ∧ Owned s' (v.move p .held) asl free ∧
      s.SameSemd s' := by
  have hheld : pl ≠ .held := by
    rintro rfl
    simp [Place.procQ] at hq
  obtain ⟨c, hrun, hc, hout⟩ := JaeOS.run_outProcQ (h.listed pl q hq) ((v.mem pl p).mpr hpl)
  refine ⟨_, hrun, ?_, sameSemd_setProcQ⟩
  refine h.of_setProcQ (v.move p .held) hq ?_ (fun x _ hx => ?_) (.inl hpl) (fun r hr hh => ?_)
  · rwa [Placement.move_list_of_ne hheld]
  · rw [hout x hx, procQ_next]
  · exact Placement.move_list_other hh (fun heq => hr (heq ▸ hpl))

theorem Owned.run_outProcQ_ready (h : Owned s v asl free) (hp : v.place p = .ready) :
    ∃ s', (outProcQ .gReadyQueue p).run s = some (some p, s') ∧
      Owned s' (v.move p .held) asl free ∧ s.SameSemd s' :=
  h.run_outProcQ rfl hp

theorem Owned.run_outProcQ_notReady (h : Owned s v asl free) (hp : v.place p ≠ .ready) :
    (outProcQ .gReadyQueue p).run s = some (none, s) :=
  run_outProcQ_notMem (h.listed .ready _ rfl) (fun hm => hp ((v.mem .ready p).mp hm))

theorem Owned.insertProcQ (h : Owned s v asl free) (hq : pl.procQ = some q)
    (hp : v.place p = .held) :
    Owned (s.setProcQ q ((s.procQ q).enqueue p)) (v.move p pl) asl free := by
  have hheld : v.place p ≠ pl := by
    rw [hp]
    rintro rfl
    simp [Place.procQ] at hq
  have hqueue := h.listed pl q hq
  refine h.of_setProcQ (v.move p pl) hq ?_ (fun x hxp hx => ?_) (.inr hp) (fun r hr hh => ?_)
  · rw [Placement.move_list_self hheld]
    exact hqueue.enqueue (fun hm => hheld ((v.mem pl p).mp hm))
  · rw [hqueue.enqueue_sameOutside x (by simp [hxp, hx]), procQ_next]
  · exact Placement.move_list_other hr (fun heq => hh (heq ▸ hp))

theorem Owned.insertProcQ_free (h : Owned s v asl free) (hp : v.place p = .held) :
    Owned (s.setProcQ .pcbFree ((s.procQ .pcbFree).enqueue p)) (v.move p .free) asl free :=
  h.insertProcQ rfl hp

theorem Owned.insertProcQ_ready (h : Owned s v asl free) (hp : v.place p = .held) :
    Owned (s.setProcQ .gReadyQueue ((s.procQ .gReadyQueue).enqueue p)) (v.move p .ready) asl free :=
  h.insertProcQ rfl hp

theorem Owned.run_headBlocked (h : Owned s v asl free) (a : Word) :
    (headBlocked a).run s = some ((v.list (.sem a)).head?, s) :=
  JaeOS.run_headBlocked h.blocked a

theorem update_queues_move (v : View n) (p : Fin n) (hpl : v.place p = .sem a) :
    update v.queues a ((v.queues a).erase p) = View.queues (v.move p .held) := by
  funext b
  show _ = (v.move p .held).list (.sem b)
  by_cases hb : b = a
  · subst hb
    rw [Function.update_self, Placement.move_list_of_ne (by simp)]
    rfl
  · have hne : v.place p ≠ .sem b := by simpa [hpl] using Ne.symm hb
    rw [Function.update_of_ne hb, Placement.move_list_other (by simp) hne]
    rfl

theorem Owned.run_removeBlocked (h : Owned s v asl free) (hl : v.list (.sem a) = p :: xs) :
    ∃ s' d asl' free', (removeBlocked a).run s = some (some p, s') ∧
      s.pCursem p = some d ∧ s.sSemAdd d = a ∧
      Owned s' (v.move p .held) asl' free' ∧
      (∀ e, e ∈ asl' ∨ e ∈ free' ↔ e ∈ asl ∨ e ∈ free) ∧ s.SameSemd s' := by
  have hpl : v.place p = .sem a := (v.mem _ p).mp (by simp [hl])
  obtain ⟨s', d, hrun, hd, hadd, hcs, hrep, hc, hs, hsame⟩ := JaeOS.run_removeBlocked h.blocked hl
  have hxs : xs = (v.queues a).erase p := by simp [View.queues, hl]
  rw [hxs, update_queues_move v p hpl] at hrep
  refine ⟨s', d, aslAfter asl d ((v.queues a).erase p), freeAfter free d ((v.queues a).erase p),
    hrun, hcs, hadd, ?_, fun e => ?_, hc, hs⟩
  · refine h.of_blocked hrep hsame (fun x hx => ?_) ?_ ?_
    · rw [(v.mem _ x).mp hx]
      simp
    · exact Placement.move_list_other (by simp) (by simp [hpl])
    · exact Placement.move_list_other (by simp) (by simp [hpl])
  · exact mem_aslAfter_or_freeAfter h.blocked.aslh.nodup hd

theorem Owned.run_outBlocked (h : Owned s v asl free) (hpl : v.place p = .sem a) :
    ∃ s' d asl' free', (outBlocked p).run s = some (some p, s') ∧
      s.pCursem p = some d ∧ s.sSemAdd d = a ∧
      Owned s' (v.move p .held) asl' free' ∧
      (∀ e, e ∈ asl' ∨ e ∈ free' ↔ e ∈ asl ∨ e ∈ free) ∧ s.SameSemd s' := by
  have hp : p ∈ v.queues a := (v.mem _ p).mpr hpl
  obtain ⟨s', d, hrun, hd, hadd, hcs, hrep, hc, hs, hsame⟩ := JaeOS.run_outBlocked h.blocked hp
  rw [update_queues_move v p hpl] at hrep
  refine ⟨s', d, aslAfter asl d ((v.queues a).erase p), freeAfter free d ((v.queues a).erase p),
    hrun, hcs, hadd, ?_, fun e => ?_, hc, hs⟩
  · refine h.of_blocked hrep hsame (fun x hx => ?_) ?_ ?_
    · rw [(v.mem _ x).mp hx]
      simp
    · exact Placement.move_list_other (by simp) (by simp [hpl])
    · exact Placement.move_list_other (by simp) (by simp [hpl])
  · exact mem_aslAfter_or_freeAfter h.blocked.aslh.nodup hd

theorem Owned.run_insertBlocked (h : Owned s v asl free) (hp : v.place p = .held)
    (hroom : v.list (.sem a) ≠ [] ∨ free ≠ []) :
    ∃ s' d asl' free', (insertBlocked a p).run s = some (0, s') ∧
      Owned s' (v.move p (.sem a)) asl' free' ∧
      (∀ e, e ∈ asl' ∨ e ∈ free' ↔ e ∈ asl ∨ e ∈ free) ∧
      s'.pCursem = update s.pCursem p (some d) := by
  have hnot : ∀ b, p ∉ v.queues b := fun b hm => by
    have := (v.mem _ p).mp hm
    rw [hp] at this
    exact Place.noConfusion this
  obtain ⟨s', d, asl', free', hrun, hrep, hmem, hcs, _, hsame⟩ :=
    JaeOS.run_insertBlocked h.blocked hnot hroom
  have hq : update v.queues a (v.queues a ++ [p]) = View.queues (v.move p (.sem a)) := by
    funext b
    show _ = (v.move p (.sem a)).list (.sem b)
    by_cases hb : b = a
    · subst hb
      rw [Function.update_self, Placement.move_list_self (by simp [hp])]
      rfl
    · rw [Function.update_of_ne hb, Placement.move_list_other (by simpa using hb) (by simp [hp])]
      rfl
  rw [hq] at hrep
  refine ⟨s', d, asl', free', hrun, ?_, hmem, hcs⟩
  refine h.of_blocked hrep hsame (fun x hx => ?_) ?_ ?_
  · rcases List.mem_cons.mp hx with rfl | hx
    · simp [hp]
    · rw [(v.mem _ x).mp hx]
      simp
  · exact Placement.move_list_other (by simp) (by simp [hp])
  · exact Placement.move_list_other (by simp) (by simp [hp])

/-- `outBlocked` of a block in hand finds nothing.  If the descriptor under
`p_cursem` is unused it is put on the free list once more, which does no harm
only when it is alone there. -/
theorem Owned.run_outBlocked_held (h : Owned s v asl free) (hp : v.place p = .held)
    (hcs : s.pCursem p = some d) :
    ∃ s' free', (outBlocked p).run s = some (none, s') ∧ Owned s' v asl free' ∧
      s.SameSemd s' ∧ (d ∈ asl ∨ free = [d] → free' = free) := by
  by_cases hd : d ∈ asl
  · have hnot : p ∉ v.queues (s.sSemAdd d) := fun hm => by
      have := (v.mem _ p).mp hm
      rw [hp] at this
      exact Place.noConfusion this
    have hrun := run_outBlocked_busy hcs (h.blocked.procq d hd) (h.blocked.queue_ne_nil hd) hnot
    exact ⟨s, free, hrun, h, ⟨rfl, rfl⟩, fun _ => rfl⟩
  · obtain ⟨s', free', hrun, hrep, halone, hc, hs, hsame⟩ := run_outBlocked_stale h.blocked hcs hd
    refine ⟨s', free', hrun, ?_, ⟨hc, hs⟩, fun hor => ?_⟩
    · exact h.of_blocked hrep hsame (fun x hx => nomatch hx) rfl rfl
    · have hf := hor.resolve_left hd
      rw [halone hf, hf]

end JaeOS
