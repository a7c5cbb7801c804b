import JaeOS.Properties.Ownership

/-!
# Semaphore descriptors

Descriptors go from the free list to the active list and back.  A process that
ends itself with a `p_cursem` from an earlier wait gives that descriptor back once
more: nothing is lost only if the descriptor is in use, or alone on the free list.
-/

namespace JaeOS

open Forest (Progeny)

variable {n : ℕ} {M : Machine} {k : Kernel n} {σ σ' : Snap n} {p q : Fin n} {e : Entry}
  {t : Task n} {stop : Stop} {d : Semd} {ds : List (Fin n)}
  {c : Config maxProc} {L : Set (Fin maxProc)}

/-! ### The property -/

/-- The process is on the queue of the descriptor. -/
def Kernel.Queued (k : Kernel n) (d : Semd) (q : Fin n) : Prop :=
  ∃ xs, k.Queue (.sProcq d) xs ∧ q ∈ xs

/-- Every descriptor is once on one of the two lists, on the active one exactly
when a live process is queued on it; and no `P` has found the free list empty. -/
def DescriptorsOwned (c : Config maxProc) (live : Set (Fin maxProc)) : Prop :=
  (∃ asl free, c.k.asl.Holds asl ∧ c.k.free.Holds free ∧
    (asl ++ free).Perm (List.finRange maxProc) ∧
    ∀ d, d ∈ asl ↔ ∃ p ∈ live, c.k.Queued d p) ∧
  c.stop ≠ .panic .noSemaphore

/-- A process that ends itself with `p_cursem` at `d`: `d` keeps a waiter, or all
other descriptors do. -/
def Kernel.Returns (k : Kernel n) (M : Machine) (e : Entry) : Prop :=
  ∀ p d, k.Dies M e p → k.gCurrentProcess = some p → k.pCursem p = some d →
    (∃ q, k.Queued d q ∧ ¬ k.Dies M e q) ∨
      ∀ d', d' ≠ d → ∃ q, k.Queued d' q ∧ ¬ k.Dies M e q

/-! ### Queues and places -/

/-- The queue of a descriptor is the queue of its address. -/
theorem Snap.queued_iff (hσ : σ.core = k.core) :
    k.Queued d q ↔ σ.view.place q = .sem (k.sSemAdd d) ∧ k.pCursem q = some d := by
  have h := Snap.owned_of_core hσ
  constructor
  · rintro ⟨xs, hxs, hq⟩
    have hd : d ∈ σ.asl := by
      by_contra hd
      have hnil : xs.getLast? = none := hxs.tail_eq.symm.trans (h.blocked.idle d hd)
      rw [List.getLast?_eq_none_iff.mp hnil] at hq
      exact nomatch hq
    have heq : xs = σ.view.list (.sem (k.sSemAdd d)) := hxs.unique (h.blocked.procq d hd)
    rw [heq] at hq
    exact ⟨(σ.view.mem _ q).mp hq, h.blocked.cursem d hd q hq⟩
  · rintro ⟨hplace, hcs⟩
    have hq := (σ.view.mem _ q).mpr hplace
    obtain ⟨d', hd', hadd, hcs'⟩ := h.blocked.exists_cursem hq
    obtain rfl : d' = d := Option.some.inj (hcs'.symm.trans hcs)
    exact ⟨_, h.blocked.procq d' hd', hq⟩

/-! ### No descriptor is lost -/

/-- Every descriptor is on one of the two lists. -/
def Snap.Complete (σ : Snap n) : Prop := ∀ d, d ∈ σ.asl ∨ d ∈ σ.free

theorem Snap.Conserves.complete (h : σ.Conserves σ') (hσ : σ.Complete) : σ'.Complete :=
  fun d => (h d).mpr (hσ d)

theorem Snap.Complete.congr (h : σ.Complete) (hasl : σ'.asl = σ.asl) (hfree : σ'.free = σ.free) :
    σ'.Complete := fun d => by
  rw [hasl, hfree]
  exact h d

/-- A process outside `ds` waits on the descriptor. -/
def Snap.Kept (σ : Snap n) (ds : List (Fin n)) (d : Semd) : Prop :=
  ∃ q, q ∉ ds ∧ σ.view.place q = .sem (σ.core.sSemAdd d) ∧ σ.core.pCursem q = some d

theorem Snap.Kept.mem_asl (h : σ.Kept ds d) : d ∈ σ.asl := by
  obtain ⟨q, _, hplace, hcs⟩ := h
  obtain ⟨d', hd', _, hcs'⟩ := σ.owned.blocked.exists_cursem ((σ.view.mem _ q).mpr hplace)
  obtain rfl : d' = d := Option.some.inj (hcs'.symm.trans hcs)
  exact hd'

theorem Snap.Kept.release (h : σ.Kept (q :: ds) d) (hr : Release M q σ σ') : σ'.Kept ds d := by
  obtain ⟨x, hx, hplace, hcs⟩ := h
  rw [List.mem_cons, not_or] at hx
  refine ⟨x, hx.2, ?_, by rw [hr.sameSemd.1, hcs]⟩
  rw [hr.view, Placement.move_place_of_ne hx.1, hr.sameSemd.2, hplace]

/-- **A series of releases loses no descriptor**, if the process in hand leaves its
old descriptor in use, or all others. -/
theorem Releases.complete (h : Releases M ds σ σ') (hσ : σ.Complete) (hnd : ds.Nodup)
    (hheld : ∀ p ∈ ds, σ.view.place p = .held → ∀ d, σ.core.pCursem p = some d →
      σ.Kept ds d ∨ ∀ d', d' ≠ d → σ.Kept ds d') : σ'.Complete := by
  induction h with
  | nil => exact hσ
  | aside _ _ _ ih => exact ih hσ hnd hheld
  | @cons q ds σ σ₁ _ h hs ih =>
    have hnd' := List.nodup_cons.mp hnd
    refine ih ((h.conserves (fun hp d hcs => ?_)).complete hσ) hnd'.2 (fun p hp hpl d hcs => ?_)
    · rcases hheld q List.mem_cons_self hp d hcs with hk | hk
      · exact .inl hk.mem_asl
      · refine (hσ d).imp id (fun hd => ?_)
        -- all the others are active, so nothing else is free
        have honly : ∀ d' ∈ σ.free, d' = d := fun d' hd' => by
          by_contra hne
          exact σ.owned.blocked.disjoint (hk d' hne).mem_asl hd'
        refine List.perm_singleton.mp ?_
        refine (List.perm_ext_iff_of_nodup σ.owned.blocked.semdFree.nodup
          (List.nodup_singleton d)).mpr (fun d' => ?_)
        rw [List.mem_singleton]
        exact ⟨honly d', fun heq => heq ▸ hd⟩
    · have hpq : p ≠ q := ne_of_mem_of_not_mem hp hnd'.1
      rw [h.view, Placement.move_place_of_ne hpq] at hpl
      rw [h.sameSemd.1] at hcs
      exact (hheld p (List.mem_cons_of_mem _ hp) hpl d hcs).imp (·.release h)
        (fun hk d' hne => (hk d' hne).release h)

/-- Blocks that are not in hand, or have no `p_cursem`, give back what they use. -/
theorem Releases.conserves (h : Releases M ds σ σ') (hnd : ds.Nodup)
    (hheld : ∀ p ∈ ds, σ.view.place p = .held → σ.core.pCursem p = none) : σ.Conserves σ' := by
  induction h with
  | nil => exact fun d => Iff.rfl
  | aside _ _ _ ih => exact ih hnd hheld
  | @cons q ds σ σ₁ _ h hs ih =>
    rw [List.nodup_cons] at hnd
    have hfirst : σ.Conserves σ₁ := by
      apply h.conserves
      intro hp d hcs
      rw [hheld q List.mem_cons_self hp] at hcs
      exact nomatch hcs
    have hrest := ih hnd.2 (fun p hp hpl => by
      have hpq : p ≠ q := ne_of_mem_of_not_mem hp hnd.1
      rw [h.view, Placement.move_place_of_ne hpq] at hpl
      rw [h.sameSemd.1]
      exact hheld p (List.mem_cons_of_mem _ hp) hpl)
    exact fun d => (hrest d).trans (hfirst d)

theorem Signals.complete {a : Word} (h : Signals M a σ σ') (hσ : σ.Complete) : σ'.Complete := by
  induction h with
  | refl => exact hσ
  | head _ h _ ih => exact ih (h.conserves.complete hσ)

theorem Does.complete_semop {a w : Word} (hI : σ.Complete) (h : Does M (.semop a w) σ σ') :
    σ'.Complete := by
  cases h with
  | signal _ h => exact h.conserves.complete hI
  | grant _ h => exact hI.congr h.asl h.free
  | block _ h => exact h.conserves.complete hI

theorem Does.complete (hσ : σ.core = k.core) (hc : Consistent σ) (hI : σ.Complete)
    (hret : k.Returns M e) (h : Does M (k.task M e) σ σ') : σ'.Complete := by
  obtain ⟨t, ht⟩ : ∃ t, k.task M e = t := ⟨_, rfl⟩
  rw [ht] at h
  cases h with
  | nothing => exact hI
  | full => exact hI
  | create h => exact hI.congr h.asl h.free
  | @kill root _ _ h =>
    obtain ⟨ds, hnd, hds, hrel⟩ := h.releases
    have hdies : ∀ q, q ∈ ds ↔ k.Dies M e q := fun q => by
      rw [hds q, Snap.pParent_eq hσ]
      refine ⟨fun hq => ⟨root, ht, hq⟩, fun ⟨r, hr, hq⟩ => ?_⟩
      rw [ht] at hr
      exact Task.kill.inj hr ▸ hq
    have hkept : ∀ d, (∃ q, k.Queued d q ∧ ¬ k.Dies M e q) → σ.Kept ds d := by
      rintro d ⟨q, hq, hnot⟩
      obtain ⟨hplace, hcs⟩ := (Snap.queued_iff hσ).mp hq
      exact ⟨q, fun hm => hnot ((hdies q).mp hm), by rw [hσ]; exact hplace, by rw [hσ]; exact hcs⟩
    refine hrel.complete hI hnd (fun p hp hpl d hcs => ?_)
    rw [hσ] at hcs
    have hcur : k.gCurrentProcess = some p := by
      have := (hc.current p).mp hpl
      rwa [hσ] at this
    exact (hret p d ((hdies p).mp hp) hcur hcs).imp (hkept d) (fun hk d' hne => hkept d' (hk d' hne))
  | signal _ h => exact h.conserves.complete hI
  | grant _ h => exact hI.congr h.asl h.free
  | block _ h => exact h.conserves.complete hI
  | command h hs => exact (h.complete_semop hI).congr hs.asl hs.free
  | store h => exact hI.congr h.asl h.free
  | tick h => exact h.complete hI
  | preempt hs h => exact (hs.complete hI).congr h.asl h.free
  | busy => exact hI
  | device _ h => exact h.conserves.complete hI

/-- A `P` finds a descriptor: there is one for every process but the one in hand. -/
theorem Snap.Complete.free_ne_nil_of_held {σ : Snap maxProc} {p : Fin maxProc} (hI : σ.Complete)
    (hheld : σ.view.place p = .held) : σ.free ≠ [] := by
  intro hfree
  have hasl : ∀ d, d ∈ σ.asl := fun d => (hI d).resolve_right (by simp [hfree])
  have hwaiter : ∀ d, ∃ q, σ.view.place q = .sem (σ.core.sSemAdd d) := fun d => by
    obtain ⟨q, hq⟩ := List.exists_mem_of_ne_nil _ (σ.owned.blocked.queue_ne_nil (hasl d))
    exact ⟨q, (σ.view.mem _ q).mp hq⟩
  choose f hf using hwaiter
  -- a waiter for each of the descriptors, and all of them different from `p`
  have hinj : Function.Injective f := fun d d' heq => by
    have hadd := (hf d).symm.trans (heq ▸ hf d')
    exact σ.owned.blocked.sSemAdd_injOn (hasl d) (hasl d') (Place.sem.inj hadd)
  obtain ⟨d, hd⟩ := Finite.injective_iff_surjective.mp hinj p
  rw [← hd, hf d] at hheld
  exact nomatch hheld

/-- **A `P` finds a descriptor**: there is one for every process but the current
one. -/
theorem Snap.Complete.free_ne_nil {σ : Snap maxProc} {p : Fin maxProc} (hI : σ.Complete)
    (hc : Consistent σ) (hp : σ.core.gCurrentProcess = some p) : σ.free ≠ [] :=
  hI.free_ne_nil_of_held ((hc.current p).mpr hp)

/-! ### Queues that lose waiters -/

/-- Some waiters have left their queues, and nothing else has happened to the
descriptors. -/
structure Snap.Shrinks (σ σ' : Snap n) : Prop where
  sub : ∀ a, ∀ q ∈ σ'.waiting a, q ∈ σ.waiting a
  sameSemd : σ.core.SameSemd σ'.core.toQueues
  conserves : σ.Conserves σ'

theorem Snap.Shrinks.mem_asl (h : σ.Shrinks σ') (hd : d ∈ σ'.asl) : d ∈ σ.asl := by
  obtain ⟨q, hq⟩ := List.exists_mem_of_ne_nil _ (σ'.owned.blocked.queue_ne_nil hd)
  have hcs := σ'.owned.blocked.cursem d hd q hq
  obtain ⟨e, he, -, hcs'⟩ := σ.owned.blocked.exists_cursem (h.sub _ q hq)
  rw [h.sameSemd.1, hcs'] at hcs
  obtain rfl : e = d := Option.some.inj hcs
  exact he

/-- **A descriptor goes back to the free list when its queue is empty**, and not
before. -/
theorem Snap.Shrinks.mem_asl_iff (h : σ.Shrinks σ') (hd : d ∈ σ.asl) :
    d ∈ σ'.asl ↔ σ'.waiting (σ.core.sSemAdd d) ≠ [] := by
  constructor
  · intro hd'
    have hne := σ'.owned.blocked.queue_ne_nil hd'
    rw [h.sameSemd.2] at hne
    exact hne
  · intro hne
    obtain ⟨q, hq⟩ := List.exists_mem_of_ne_nil _ hne
    obtain ⟨e, he, -, hcs⟩ := σ'.owned.blocked.exists_cursem hq
    have hcs' := σ.owned.blocked.cursem d hd q (h.sub _ q hq)
    rw [h.sameSemd.1, hcs'] at hcs
    obtain rfl : d = e := Option.some.inj hcs
    exact he

theorem Snap.Shrinks.mem_free_iff (h : σ.Shrinks σ') (hd : d ∈ σ.asl) :
    d ∈ σ'.free ↔ σ'.waiting (σ.core.sSemAdd d) = [] := by
  have hone : d ∈ σ'.asl ∨ d ∈ σ'.free := (h.conserves d).mpr (.inl hd)
  have hasl := h.mem_asl_iff hd
  constructor
  · intro hfree
    by_contra hne
    exact σ'.owned.blocked.disjoint (hasl.mpr hne) hfree
  · intro hnil
    exact hone.resolve_left (fun hd' => hasl.mp hd' hnil)

theorem Snap.Shrinks.mem_free (h : σ.Shrinks σ') (hd : d ∈ σ.free) : d ∈ σ'.free := by
  have hone : d ∈ σ'.asl ∨ d ∈ σ'.free := (h.conserves d).mpr (.inr hd)
  refine hone.resolve_left ?_
  intro hd'
  exact σ.owned.blocked.disjoint (h.mem_asl hd') hd

theorem Ends.complete {k : Kernel maxProc} {σ σ' : Snap maxProc} (hσ : σ.core = k.core)
    (hc : Consistent σ) (hI : σ.Complete) (hret : k.Returns M e)
    (h : Ends M (k.task M e) σ stop σ') : σ'.Complete ∧ stop ≠ .panic .noSemaphore := by
  cases h with
  | fail hf =>
    refine ⟨hI, ?_⟩
    rintro ⟨⟩
    generalize k.task M e = t at hf
    cases hf with
    | full _ hp _ hfree => exact hI.free_ne_nil hc hp hfree
    | command hf =>
      cases hf with
      | full _ hp _ hfree => exact hI.free_ne_nil hc hp hfree
  | back hd _ => exact ⟨hd.complete hσ hc hI hret, by simp⟩
  | dispatch hd _ h => exact ⟨(hd.complete hσ hc hI hret).congr h.asl h.free, by simp⟩
  | idle hd _ _ =>
    refine ⟨hd.complete hσ hc hI hret, ?_⟩
    rcases σ'.verdict_cases with hv | hv | hv <;> rw [hv] <;> simp

theorem Initial.complete (h : Initial M p σ) : σ.Complete := fun d => .inr (by
  rw [h.free]
  exact List.mem_finRange d)

/-! ### Runs -/

/-- The entries after which no descriptor is lost. -/
structure Kernel.KeepsDescriptors (k : Kernel n) (M : Machine) (e : Entry) : Prop
    extends k.Admits M e where
  returns : k.Returns M e

theorem Between.descriptorsOwned {σ : Snap maxProc} (h : Between c L σ) (hI : σ.Complete)
    (hstop : c.stop ≠ .panic .noSemaphore) : DescriptorsOwned c L := by
  have hown := Snap.owned_of_core h.core
  refine ⟨⟨σ.asl, σ.free, hown.blocked.aslh, hown.blocked.semdFree, ?_, fun d => ?_⟩, hstop⟩
  · exact hown.blocked.perm_finRange hI
  · constructor
    · intro hd
      obtain ⟨q, hq⟩ := List.exists_mem_of_ne_nil _ (hown.blocked.queue_ne_nil hd)
      refine ⟨q, (h.live q).mp ?_, _, hown.blocked.procq d hd, hq⟩
      rw [(σ.view.mem _ q).mp hq]
      simp
    · rintro ⟨q, _, hq⟩
      obtain ⟨hplace, hcs⟩ := (Snap.queued_iff h.core).mp hq
      obtain ⟨d', hd', _, hcs'⟩ := hown.blocked.exists_cursem ((σ.view.mem _ q).mpr hplace)
      obtain rfl : d' = d := Option.some.inj (hcs'.symm.trans hcs)
      exact hd'

theorem Reaches.complete (hL : Layout M) (h : Reaches M (fun k e => k.KeepsDescriptors M e) c L) :
    ∃ σ, Between c L σ ∧ σ.Complete ∧ c.stop ≠ .panic .noSemaphore :=
  h.between (I := fun stop σ => σ.Complete ∧ stop ≠ .panic .noSemaphore) hL (fun _ _ h => h.toAdmits)
    (fun s σ hi => ⟨hi.complete, by simp⟩)
    (fun k ev _ _ _ _ hσ hc hI hok hends =>
      hends.complete (Snap.atEntry_core hσ) (hc.atEntry M ev.mem) hI.1 hok.returns)

/-- **Conservation of the descriptors.**  In every run in which a process that ends
itself leaves the descriptor of its last wait, or all others, in use, every
descriptor is on one of the two lists between two entries, the active ones are
those with a live process in their queue, and every `P` finds one. -/
theorem reaches_descriptorsOwned (hL : Layout M)
    (h : Reaches M (fun k e => k.KeepsDescriptors M e) c L) : DescriptorsOwned c L := by
  obtain ⟨σ, hb, hI, hstop⟩ := h.complete hL
  exact hb.descriptorsOwned hI hstop

/-- A tame entry by which no process with a `p_cursem` ends itself. -/
def Kernel.keepsDescriptors (M : Machine) (k : Kernel n) (e : Entry) : Bool :=
  k.tame M e &&
    match k.task M e with
    | .kill _ => k.gCurrentProcess.all fun p => (k.pCursem p).isNone
    | _ => true

theorem Kernel.KeepsDescriptors.of_test (h : k.keepsDescriptors M e = true) :
    k.KeepsDescriptors M e := by
  rw [Kernel.keepsDescriptors, Bool.and_eq_true] at h
  refine ⟨.of_tame h.1, ?_⟩
  rintro p d ⟨root, hroot, -⟩ hp hcs
  have hkill := h.2
  rw [hroot, hp, Option.all_some, hcs] at hkill
  exact absurd hkill (by simp)

/-- Two descriptors are active, and each has its waiter. -/
theorem reaches_descriptorsOwned_comeAndGo : ∃ L,
    (afterAll uarm comeAndGo).stop = .wait ∧
      DescriptorsOwned (afterAll uarm comeAndGo) L := by
  have htest : ∀ (k : Kernel maxProc) e, k.keepsDescriptors uarm e = true →
      k.KeepsDescriptors uarm e := fun _ _ h => .of_test h
  obtain ⟨L, hreach, hwait⟩ := reaches_afterAll (M := uarm) htest comeAndGo
    (fun c => c.stop == .wait) (by decide +kernel)
  exact ⟨L, beq_iff_eq.mp hwait, reaches_descriptorsOwned layout_uarm hreach⟩

/-- A child waits for a unit at `0x20000`, gets it from its parent, and ends itself
when it runs again: the descriptor of `0x20000` is given back twice. -/
def waitThenEnd : List Event :=
  [sys 1 0 0 0, timerInterrupt, sys 3 0x20000 (-1) 0, sys 3 0x20000 1 0, timerInterrupt,
    sys 2 0 0 0]

/-- The state after it: one descriptor links to itself. -/
theorem not_descriptorsOwned_of_legal :
    ¬ ∀ c L, Reaches uarm (fun k e => k.Legal uarm e) c L → DescriptorsOwned c L := by
  intro hall
  obtain ⟨c, L, hreach, hc⟩ := reaches_legal waitThenEnd
    (fun c => c.k.aslh == none && c.k.semdFree == some ⟨0, by decide⟩ &&
      c.k.sLink ⟨0, by decide⟩ == some ⟨0, by decide⟩) (by decide +kernel)
  obtain ⟨⟨asl, free, hasl, hfree, hperm, -⟩, -⟩ := hall c L hreach
  simp only [Bool.and_eq_true, beq_iff_eq] at hc
  have hnil : asl = [] := hasl.unique (Clist.holds_nil hc.1.1)
  have hone : c.k.free.Holds [⟨0, by decide⟩] :=
    ⟨List.nodup_singleton _, hc.1.2, by
      show Links c.k.sLink (c.k.semdFree.toList ++ _)
      rw [hc.1.2]
      exact links_cons_cons.mpr ⟨hc.2, links_singleton _ _⟩⟩
  have hlen := hperm.length_eq
  rw [hnil, hfree.unique hone] at hlen
  exact absurd hlen (by decide)

theorem reaches_calm (es : List Event) (P : Config maxProc → Bool)
    (hP : trace uarm (fun k e => k.calm uarm e) P (boot uarm) es = true) :
    ∃ c L, Reaches uarm (fun k e => k.KeepsDescriptors uarm e) c L ∧ P c = true := by
  refine reaches_trace (fun k e h => ?_) es P .boot hP
  obtain ⟨hadmits, hkill⟩ := Kernel.Admits.of_calm h
  refine ⟨hadmits, ?_⟩
  rintro p d ⟨root, hroot, -⟩ _ _
  exact absurd hroot (hkill root)

end JaeOS
