import JaeOS.Properties.SemopRuns
import JaeOS.Properties.Waiters
import JaeOS.Refine.Effect

/-!
# Critical sections

A semaphore whose units are taken and given back by their holders only, over whole runs of
the kernel, with all that happens in between: processes are created, preempted and ended,
other semaphores are used, the clock ticks and devices interrupt.  The units in hand never
exceed those the semaphore started with, so two processes are never in a critical section
that is guarded by one unit.
-/

namespace JaeOS

open Function (update)
open Forest (Progeny)

variable {n : ℕ} {M : Machine} {k k' : Kernel n} {σ σ' : Snap n} {a w : Word} {p q : Fin n}
  {e : Entry} {t : Task n} {held : Fin n → ℕ}

/-! ### Who holds what -/

/-- The units a task asks for at an address. -/
def Task.asked (a : Word) : Task n → ℕ
  | .semop b w => if b = a ∧ w.toInt < 0 then (-w).toNat else 0
  | _ => 0

/-- The units a task gives back. -/
def Task.returned (a : Word) : Task n → ℕ
  | .semop b w => if b = a ∧ 0 < w.toInt then w.toNat else 0
  | _ => 0

open Classical in
/-- The units of the semaphore at `a` that a process holds after an entry.  A waiter that is
woken up gets what it has asked for, the caller of a `P` that is granted too, and the caller
of a `V` gives up its weight. -/
noncomputable def Kernel.books (k k' : Kernel n) (M : Machine) (a : Word) (e : Entry)
    (held : Fin n → ℕ) (q : Fin n) : ℕ :=
  if k.Dies M e q then 0
  else if k.WaitsAt a q ∧ ¬ k'.WaitsAt a q then held q + (k.resRequested q).toNat
  else if k.gCurrentProcess = some q ∧ ¬ k'.WaitsAt a q then
    held q + (k.task M e).asked a - (k.task M e).returned a
  else held q

/-- The semaphore is used by SYS3 alone, and nobody gives back more than it holds. -/
structure Kernel.Honest (k : Kernel n) (M : Machine) (a : Word) (e : Entry) (held : Fin n → ℕ) :
    Prop where
  named : (k.task M e).Names M a → ∃ w, k.task M e = .semop a w
  own : ∀ p, k.gCurrentProcess = some p → (k.task M e).returned a ≤ held p

theorem books_caller (hdies : ¬ k.Dies M e p) (hbefore : ¬ k.WaitsAt a p)
    (hp : k.gCurrentProcess = some p) (hafter : ¬ k'.WaitsAt a p) :
    k.books k' M a e held p = held p + (k.task M e).asked a - (k.task M e).returned a := by
  rw [Kernel.books, if_neg hdies, if_neg (fun hq => hbefore hq.1), if_pos ⟨hp, hafter⟩]

/-! ### One entry -/

theorem Task.asked_of_not (h : ¬ t.Names M a) : t.asked a = 0 := by
  cases t with
  | semop b w => exact if_neg (fun hb => h hb.1)
  | _ => rfl

theorem Task.returned_of_not (h : ¬ t.Names M a) : t.returned a = 0 := by
  cases t with
  | semop b w => exact if_neg (fun hb => h hb.1)
  | _ => rfl

/-- **An entry that has nothing to do with the semaphore** may end holders and waiters, but
wakes up nobody. -/
theorem Does.aloof (hσ : σ.core = k.core) (hc : Consistent σ) (hn : ¬ (k.task M e).Names M a)
    (h : Does M (k.task M e) σ σ') : σ'.core.mem a = σ.core.mem a ∧
      ∀ q, q ∈ σ.waiting a → ¬ k.Dies M e q → q ∈ σ'.waiting a := by
  obtain ⟨t, ht⟩ : ∃ t, k.task M e = t := ⟨_, rfl⟩
  rw [ht] at h hn
  by_cases hkill : ∃ root, t = .kill root
  · obtain ⟨root, rfl⟩ := hkill
    cases h with
    | kill hterm =>
      obtain ⟨ds, -, hds, hrel⟩ := hterm.releases
      refine ⟨by rw [hrel.mem], fun q hq hlives => ?_⟩
      rw [Snap.waiting, hrel.list (by simp), List.mem_filter]
      refine ⟨hq, decide_eq_true (fun hd => hlives ⟨root, ht, ?_⟩)⟩
      rw [← Snap.pParent_eq hσ]
      exact (hds q).mp hd
  · have hsame : σ.SameAt σ' a :=
      h.sameAt hc hn (fun root hroot => absurd ⟨root, hroot⟩ hkill)
    refine ⟨hsame.value, fun q hq _ => ?_⟩
    rw [hsame.waiting]
    exact hq

theorem Snap.service_sum (hr : (σ.core.mem a).toNat + w.toNat < 2 ^ 32) :
    (σ.service a w).left.toNat +
      ((σ.service a w).woken.map fun q => (σ.core.resRequested q).toNat).sum =
      (σ.core.mem a).toNat + w.toNat := by
  have hsum := serve_sum Prod.snd ((σ.fifo .none a).value + w.toNat) (σ.fifo .none a).queue
  rw [Snap.serve_fifo hr, List.map_map] at hsum
  exact hsum

theorem semop_current (ht : k.task M e = .semop a w) : ∃ p, k.gCurrentProcess = some p := by
  rcases Option.eq_none_or_eq_some k.gCurrentProcess with hnone | hp
  · have hno : ∀ {x : Task n}, x = .stuck → x ≠ .semop a w := by
      rintro _ rfl
      simp
    cases e with
    | sysBP old => exact absurd ht (hno (by rw [Kernel.task, hnone]; rfl))
    | pgmTrap old => exact absurd ht (hno (by rw [Kernel.task, hnone]; rfl))
    | tlb old => exact absurd ht (hno (by rw [Kernel.task, hnone]; rfl))
    | interrupt old cause =>
      rw [Kernel.task, Machine.interruptTask] at ht
      split at ht
      · cases ht
      · split_ifs at ht
        split at ht <;> cases ht
  · exact hp

section Books

variable (hσ : σ.core = k.core) (hwaits : ∀ q, k'.WaitsAt a q ↔ q ∈ σ'.waiting a)

include hσ hwaits

theorem Does.books_aloof (hc : Consistent σ) (hn : ¬ (k.task M e).Names M a)
    (h : Does M (k.task M e) σ σ') :
    units (σ'.core.mem a).toNat (k.books k' M a e held) ≤ units (σ.core.mem a).toNat held := by
  obtain ⟨hmem, hstay⟩ := h.aloof hσ hc hn
  rw [hmem]
  refine units_mono (fun q => ?_)
  rw [Kernel.books, Task.asked_of_not hn, Task.returned_of_not hn]
  split_ifs with hdies hwoken
  · exact Nat.zero_le _
  · refine absurd ?_ hwoken.2
    rw [hwaits]
    exact hstay q ((Snap.mem_waiting hσ).mpr hwoken.1) hdies
  · exact Nat.le_refl _
  · exact Nat.le_refl _

/-- **A `V`** gives its units to the waiters it wakes up, or to the semaphore. -/
theorem Signal.books (ht : k.task M e = .semop a w) (hp : k.gCurrentProcess = some p)
    (hheld : σ.view.place p = .held) (hw : 0 < w.toInt) (hown : w.toNat ≤ held p)
    (hr : (σ.core.mem a).toNat + w.toNat < 2 ^ 32) (h : Signal M a w σ σ') :
    units (σ'.core.mem a).toNat (k.books k' M a e held) = units (σ.core.mem a).toNat held := by
  have hnotp : p ∉ σ.waiting a := Snap.not_mem_waiting hheld (by simp)
  have hasked : (k.task M e).asked a = 0 := by
    rw [ht]
    exact if_neg (fun hneg => by omega)
  have hreturned : (k.task M e).returned a = w.toNat := by
    rw [ht]
    exact if_pos ⟨rfl, hw⟩
  have happ : (σ.service a w).woken ++ (σ.service a w).rest = σ.waiting a :=
    serve_append σ.core.resRequested (w + σ.core.mem a) (σ.waiting a)
  have hnd : ((σ.service a w).woken ++ (σ.service a w).rest).Nodup := by
    rw [happ]
    exact σ.view.nodup _
  have hwoken : ∀ q, k.WaitsAt a q ∧ ¬ k'.WaitsAt a q ↔ q ∈ (σ.service a w).woken := by
    intro q
    rw [hwaits, h.waiting, ← Snap.mem_waiting hσ, ← happ, List.mem_append]
    refine ⟨fun hq => hq.1.resolve_right hq.2, fun hq => ⟨.inl hq, fun hrest => ?_⟩⟩
    exact (List.nodup_append'.mp hnd).2.2 hq hrest
  have hdies : ∀ q, ¬ k.Dies M e q := by
    rintro q ⟨root, hroot, -⟩
    rw [ht] at hroot
    cases hroot
  have hbook : ∀ q, k.books k' M a e held q + (if q = p then w.toNat else 0) =
      held q + (if q ∈ (σ.service a w).woken then (σ.core.resRequested q).toNat else 0) := by
    intro q
    rw [Kernel.books, if_neg (hdies q), hasked, hreturned]
    simp only [hwoken]
    by_cases hq : q ∈ (σ.service a w).woken
    · have hqp : q ≠ p := by
        rintro rfl
        exact hnotp (happ ▸ List.mem_append_left _ hq)
      rw [if_pos hq, if_pos hq, if_neg hqp, hσ]
      rfl
    · rw [if_neg hq, if_neg hq]
      by_cases hqp : q = p
      · subst hqp
        have hidle : ¬ k'.WaitsAt a q := by
          rw [hwaits, h.waiting]
          exact fun hrest => hnotp (happ ▸ List.mem_append_right _ hrest)
        rw [if_pos ⟨hp, hidle⟩, if_pos rfl]
        omega
      · rw [if_neg (fun hcur => hqp (Option.some.inj (hp.symm.trans hcur.1)).symm), if_neg hqp]
  refine units_exchange hbook ?_
  rw [sum_of_waiters _ (List.nodup_append'.mp hnd).1, Finset.sum_ite_eq', if_pos (Finset.mem_univ p),
    h.mem, Function.update_self]
  exact Snap.service_sum hr

/-- **A `P` that is granted** takes its units. -/
theorem Grant.books (ht : k.task M e = .semop a w) (hp : k.gCurrentProcess = some p)
    (hw : w.toInt < 0) (hv : 0 ≤ (σ.core.mem a).toInt) (h : Grant a w σ σ') :
    units (σ'.core.mem a).toNat (k.books k' M a e held) = units (σ.core.mem a).toNat held := by
  have hle : (-w).toNat ≤ (σ.core.mem a).toNat := (enough_iff hv hw).mp h.enough
  have hasked : (k.task M e).asked a = (-w).toNat := by
    rw [ht]
    exact if_pos ⟨rfl, hw⟩
  have hreturned : (k.task M e).returned a = 0 := by
    rw [ht]
    exact if_neg (fun hpos => by omega)
  have hdies : ∀ q, ¬ k.Dies M e q := by
    rintro q ⟨root, hroot, -⟩
    rw [ht] at hroot
    cases hroot
  have hnobody : ∀ q, ¬ k.WaitsAt a q := by
    intro q
    rw [← Snap.mem_waiting hσ, h.nobody]
    exact List.not_mem_nil
  have hnobody' : ∀ q, ¬ k'.WaitsAt a q := by
    intro q
    rw [hwaits, Snap.waiting, h.view]
    intro hq
    exact hnobody q ((Snap.mem_waiting hσ).mp hq)
  have hbook : ∀ q, k.books k' M a e held q + 0 =
      held q + (if q = p then (-w).toNat else 0) := by
    intro q
    rw [Kernel.books, if_neg (hdies q), if_neg (fun hq => hnobody q hq.1), hasked, hreturned]
    by_cases hqp : q = p
    · subst hqp
      rw [if_pos ⟨hp, hnobody' q⟩, if_pos rfl, Nat.sub_zero, Nat.add_zero]
    · rw [if_neg (fun hcur => hqp (Option.some.inj (hp.symm.trans hcur.1)).symm), if_neg hqp]
  refine units_exchange hbook ?_
  rw [Finset.sum_ite_eq', if_pos (Finset.mem_univ p), Finset.sum_const_zero, h.core]
  dsimp only
  rw [Function.update_self, BitVec.toNat_sub_of_le hle]
  omega

/-- **A `P` that is not granted** takes nothing. -/
theorem Block.books (ht : k.task M e = .semop a w) (hp : k.gCurrentProcess = some p)
    (h : Block M a w p σ σ') :
    units (σ'.core.mem a).toNat (k.books k' M a e held) = units (σ.core.mem a).toNat held := by
  have hdies : ∀ q, ¬ k.Dies M e q := by
    rintro q ⟨root, hroot, -⟩
    rw [ht] at hroot
    cases hroot
  have hbook : k.books k' M a e held = held := by
    funext q
    rw [Kernel.books, if_neg (hdies q), if_neg, if_neg]
    · rintro ⟨hcur, hnot⟩
      obtain rfl : p = q := Option.some.inj (hp.symm.trans hcur)
      rw [hwaits, h.waiting] at hnot
      exact hnot (by simp)
    · rintro ⟨hq, hnot⟩
      rw [hwaits, h.waiting] at hnot
      exact hnot (List.mem_append_left _ ((Snap.mem_waiting hσ).mpr hq))
  rw [hbook, h.mem]

/-- **No task makes units.** -/
theorem Does.books (hc : Consistent σ) (huse : k.Honest M a e held)
    (hv : 0 ≤ (σ.core.mem a).toInt) (hmax : units (σ.core.mem a).toNat held < 2 ^ 31)
    (h : Does M (k.task M e) σ σ') :
    units (σ'.core.mem a).toNat (k.books k' M a e held) ≤ units (σ.core.mem a).toNat held := by
  by_cases hn : (k.task M e).Names M a
  · obtain ⟨w, ht⟩ := huse.named hn
    have hcur : ∀ {p}, σ.core.gCurrentProcess = some p → k.gCurrentProcess = some p := by
      intro p hp
      rw [hσ] at hp
      exact hp
    rw [ht] at h
    cases h with
    | signal hw hs =>
      obtain ⟨p, hp⟩ : ∃ p, k.gCurrentProcess = some p := semop_current ht
      have hheld : σ.view.place p = .held := by
        rw [hc.current p, hσ]
        exact hp
      have hown := huse.own p hp
      have hreturned : (k.task M e).returned a = w.toNat := by
        rw [ht]
        exact if_pos ⟨rfl, hw⟩
      rw [hreturned] at hown
      have hroom := held_le_units (σ.core.mem a).toNat held p
      exact (hs.books hσ hwaits ht hp hheld hw hown (by omega)).le
    | grant hw hg =>
      obtain ⟨p, hp⟩ : ∃ p, k.gCurrentProcess = some p := semop_current ht
      exact (hg.books hσ hwaits ht hp hw hv).le
    | block hw hb => exact (hb.books hσ hwaits ht (hcur hb.current)).le
  · exact h.books_aloof hσ hwaits hc hn

end Books

/-! ### Runs -/

theorem Ends.does_of_live {stop : Stop} (h : Ends M t σ stop σ') (hlive : stop.Live)
    (hpid : a ≠ 0x00011114) : ∃ σ₁, Does M t σ σ₁ ∧ σ₁.SameAt σ' a := by
  rcases h.does hpid with ⟨site, hfail, rfl⟩ | hdoes
  · cases h with
    | fail => exact absurd hlive (by rintro (⟨x, hx⟩ | hx) <;> cases hx)
    | back hd _ => exact ⟨_, hd, .refl _ a⟩
    | dispatch hd _ hdis => exact ⟨_, hd, hdis.sameAt hpid⟩
    | idle hd _ _ => exact ⟨_, hd, .refl _ a⟩
  · exact hdoes

/-- Runs from a state in which nobody holds units of the semaphore at `a`, with the books. -/
inductive Sharing (M : Machine) (a : Word) (c₀ : Config maxProc) (L₀ : Set (Fin maxProc)) :
    Config maxProc → Set (Fin maxProc) → (Fin maxProc → ℕ) → Prop
  | refl : Sharing M a c₀ L₀ c₀ L₀ fun _ => 0
  | step {c : Config maxProc} {L : Set (Fin maxProc)} {held : Fin maxProc → ℕ} {ev : Event}
      (h : Sharing M a c₀ L₀ c L held) (htake : CanTake c ev)
      (hok : (c.k.atEntry M ev).Admits M ev.entry)
      (hmem : (c.k.atEntry M ev).mem a = c.k.mem a)
      (huse : (c.k.atEntry M ev).Honest M a ev.entry held) (hlive : (step M c ev).stop.Live) :
      Sharing M a c₀ L₀ (step M c ev)
        {q | (q ∈ L ∨ (c.k.atEntry M ev).born M ev.entry = some q) ∧
          ¬ (c.k.atEntry M ev).Dies M ev.entry q}
        ((c.k.atEntry M ev).books (step M c ev).k M a ev.entry held)

variable {c c₀ : Config maxProc} {L L₀ : Set (Fin maxProc)} {units₀ : Fin maxProc → ℕ}
  {ev : Event}

theorem Sharing.reaches (h : Sharing M a c₀ L₀ c L units₀)
    (h₀ : Reaches M (fun k e => k.Admits M e) c₀ L₀) :
    Reaches M (fun k e => k.Admits M e) c L := by
  induction h with
  | refl => exact h₀
  | step _ htake hok _ _ _ ih => exact ih.step htake hok

/-- **One entry makes no units.** -/
theorem Between.books {σ : Snap maxProc} (hL : Layout M) (hpid : a ≠ 0x00011114)
    (h : Between c L σ) (htake : CanTake c ev) (hok : (c.k.atEntry M ev).Admits M ev.entry)
    (hmem : (c.k.atEntry M ev).mem a = c.k.mem a)
    (huse : (c.k.atEntry M ev).Honest M a ev.entry units₀)
    (hlive : (JaeOS.step M c ev).stop.Live) (hmax : units (c.k.mem a).toNat units₀ < 2 ^ 31) :
    units ((JaeOS.step M c ev).k.mem a).toNat
        ((c.k.atEntry M ev).books (JaeOS.step M c ev).k M a ev.entry units₀) ≤
      units (c.k.mem a).toNat units₀ := by
  obtain ⟨σ', hb', hends, -⟩ := h.step hL htake hok
  have hcore : (σ.atEntry M ev.mem).core = (c.k.atEntry M ev).core := Snap.atEntry_core h.core
  have hval : (σ.atEntry M ev.mem).core.mem a = c.k.mem a := by
    rw [hcore]
    exact hmem
  obtain ⟨σ₁, hdoes, hsame⟩ := hends.does_of_live hlive hpid
  have hwaits : ∀ q, (JaeOS.step M c ev).k.WaitsAt a q ↔ q ∈ σ₁.waiting a := by
    intro q
    rw [← Snap.mem_waiting hb'.core, hsame.waiting]
  have hval' : (JaeOS.step M c ev).k.mem a = σ₁.core.mem a := by
    rw [← hsame.value, hb'.core]
    rfl
  have hle := Nat.le_add_right (c.k.mem a).toNat (∑ q, units₀ q)
  have hnonneg : 0 ≤ (c.k.mem a).toInt := by
    rw [BitVec.toInt_eq_toNat_of_lt (by rw [units] at hmax; omega)]
    exact Int.natCast_nonneg _
  rw [hval', ← hval]
  refine hdoes.books hcore hwaits (h.consistent.atEntry M ev.mem) huse ?_ ?_
  · rw [hval]
    exact hnonneg
  · rw [hval]
    exact hmax

/-- **Critical sections exclude each other.**  However the processes are scheduled, blocked,
woken up and ended in between, the units in hand and those in the semaphore are never more
than the semaphore started with, and only live processes hold any; so two processes never
hold more than that together. -/
theorem sections_exclude (hL : Layout M) (hpid : a ≠ 0x00011114)
    (h₀ : Reaches M (fun k e => k.Admits M e) c₀ L₀) (hv : 0 ≤ (c₀.k.mem a).toInt)
    (h : Sharing M a c₀ L₀ c L units₀) :
    (c.k.mem a).toNat + ∑ q, units₀ q ≤ (c₀.k.mem a).toNat ∧ (∀ q, 0 < units₀ q → q ∈ L) ∧
      ∀ p q, p ≠ q → units₀ p + units₀ q ≤ (c₀.k.mem a).toNat := by
  obtain ⟨-, hmax⟩ := toInt_of_nonneg hv
  have hinv : units (c.k.mem a).toNat units₀ ≤ (c₀.k.mem a).toNat ∧
      ∀ q, 0 < units₀ q → q ∈ L := by
    induction h with
    | refl => exact ⟨by simp [units], fun q hq => absurd hq (Nat.lt_irrefl 0)⟩
    | @step c L units₀ ev hrest htake hok hmem huse hlive ih =>
      obtain ⟨hsum, hholders⟩ := ih
      obtain ⟨σ, hb⟩ := (hrest.reaches h₀).exists_between hL
      refine ⟨(hb.books hL hpid htake hok hmem huse hlive (by omega)).trans hsum, fun q hq => ?_⟩
      -- a holder held units before, or was waiting or running
      have hcore : (σ.atEntry M ev.mem).core = (c.k.atEntry M ev).core := Snap.atEntry_core hb.core
      have hplace : σ.view.place q ≠ .free → q ∈ L := (hb.live q).mp
      rw [Kernel.books] at hq
      split_ifs at hq with hdies hwoken hcur
      · exact absurd hq (Nat.lt_irrefl 0)
      · refine ⟨.inl (hplace ?_), hdies⟩
        have hmem : q ∈ (σ.atEntry M ev.mem).waiting a := (Snap.mem_waiting hcore).mpr hwoken.1
        have hsem : σ.view.place q = .sem a := (σ.view.mem _ q).mp hmem
        rw [hsem]
        simp
      · refine ⟨.inl (hplace ?_), hdies⟩
        have hheld : σ.view.place q = .held := by
          refine (hb.consistent.current q).mpr ?_
          rw [hb.core]
          exact hcur.1
        rw [hheld]
        simp
      · exact ⟨.inl (hholders q hq), hdies⟩
  exact ⟨hinv.1, hinv.2, fun p q hne => (held_add_held_le _ _ hne).trans hinv.1⟩

theorem Reaches.current_not_waiting (hL : Layout M) {p : Fin maxProc}
    (h : Reaches M (fun k e => k.Admits M e) c L) (hp : c.k.gCurrentProcess = some p) :
    ¬ c.k.WaitsAt a p := by
  obtain ⟨σ, hb⟩ := h.exists_between hL
  have hheld : σ.view.place p = .held := by
    refine (hb.consistent.current p).mpr ?_
    rw [hb.core]
    exact hp
  rw [← Snap.mem_waiting hb.core]
  exact Snap.not_mem_waiting hheld (by simp)

theorem Sharing.first (hL : Layout M) {p : Fin maxProc} (htake : CanTake c ev)
    (h : Reaches M (fun k e => k.Admits M e) c L) (hok : (c.k.atEntry M ev).Admits M ev.entry)
    (hmem : (c.k.atEntry M ev).mem a = c.k.mem a)
    (ht : (c.k.atEntry M ev).task M ev.entry = .semop a w) (hw : w.toInt < 0)
    (hp : c.k.gCurrentProcess = some p) (hp' : (JaeOS.step M c ev).k.gCurrentProcess = some p)
    (hlive : (JaeOS.step M c ev).stop.Live) :
    ∃ L' u, Sharing M a c L (JaeOS.step M c ev) L' u ∧ u p = (-w).toNat := by
  have hdies : ¬ (c.k.atEntry M ev).Dies M ev.entry p := by
    rintro ⟨root, hroot, -⟩
    rw [ht] at hroot
    cases hroot
  have hreturned : (Task.semop a w : Task maxProc).returned a = 0 :=
    if_neg (fun hpos => by omega)
  have hbefore : ¬ (c.k.atEntry M ev).WaitsAt a p := h.current_not_waiting hL hp
  have hafter := (h.step htake hok).current_not_waiting hL hp' (a := a)
  refine ⟨_, _, .step .refl htake hok hmem ⟨fun _ => ⟨w, ht⟩, fun _ _ => ?_⟩ hlive, ?_⟩
  · rw [ht, hreturned]
  · rw [books_caller hdies hbefore hp hafter, ht, hreturned, Nat.zero_add, Nat.sub_zero]
    exact if_pos ⟨rfl, hw⟩

/-- The first process takes the only unit of a semaphore: nobody else holds any. -/
theorem sections_exclude_one : ∃ (c : Config maxProc) (u : Fin maxProc → ℕ),
    c.k.mem 0x2000 = 0 ∧ u proc0 = 1 ∧ ∀ q, q ≠ proc0 → u q = 0 := by
  let fill : Event := { sys 1 0 0 0 with mem := fun _ => 1 }
  let wait : Event := { sys 3 0x2000 (-1) 0 with mem := fun _ => 1 }
  let c₁ : Config maxProc := step uarm (boot uarm) fill
  have h₁ : Reaches uarm (fun k e => k.Admits uarm e) c₁ _ :=
    .step .boot (Config.canTake_iff.mp (by decide +kernel)) (.of_tame (by decide +kernel))
  have hnext : CanTake (step uarm c₁ wait) wait := Config.canTake_iff.mp (by decide +kernel)
  obtain ⟨L, u, hshare, hone⟩ : ∃ L u, Sharing uarm 0x2000 c₁ _ (step uarm c₁ wait) L u ∧
      u proc0 = (-(-1 : Word)).toNat :=
    Sharing.first layout_uarm (Config.canTake_iff.mp (by decide +kernel)) h₁
      (.of_tame (by decide +kernel)) (by decide +kernel) (by decide +kernel) (by decide)
      (by decide +kernel) (by decide +kernel) hnext.live
  obtain ⟨-, -, hpair⟩ :=
    sections_exclude layout_uarm (by decide) h₁ (by decide +kernel) hshare
  refine ⟨step uarm c₁ wait, u, by decide +kernel, hone, fun q hq => ?_⟩
  have hle := hpair proc0 q (Ne.symm hq)
  have hval : (-(-1 : Word)).toNat = 1 := by decide
  have hstart : (c₁.k.mem 0x2000).toNat = 1 := by decide +kernel
  omega

end JaeOS
