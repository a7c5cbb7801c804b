import JaeOS.Properties.Descriptors

/-!
# The verdict of the scheduler

`g_soft_block_count` is to count the processes that wait for the pseudo-clock or a
device.  Blocking and waking up go by the address of the semaphore, termination
by the address of the descriptor: the count is right as long as the two agree.
-/

namespace JaeOS

open Function (update)
open Forest (Progeny)

variable {n : ℕ} {M : Machine} {k : Kernel n} {σ σ' : Snap n} {p q : Fin n} {e : Entry}
  {stop : Stop} {a w : Word} {d : Semd} {ds : List (Fin n)}
  {c : Config maxProc} {L : Set (Fin maxProc)}

/-! ### The property -/

/-- The process waits on a semaphore of the nucleus, or on another one. -/
def Kernel.WaitsOn (k : Kernel n) (M : Machine) (nucleus : Bool) (p : Fin n) : Prop :=
  ∃ d, k.Queued d p ∧ M.nucleus (k.sSemAdd d) = nucleus

/-- The scheduler has found no ready process. -/
def Stop.NothingReady (s : Stop) : Prop := s = .halt ∨ s = .wait ∨ s = .panic .deadlock

/-- The counter counts the processes that wait for the nucleus, and with nothing
ready the scheduler halts, waits or panics as it should. -/
def VerdictRight (M : Machine) (c : Config maxProc) (live : Set (Fin maxProc)) : Prop :=
  c.k.gSoftBlockCount.toNat = {p | p ∈ live ∧ c.k.WaitsOn M true p}.ncard ∧
  (c.stop.NothingReady →
    (c.stop = .halt ↔ live = ∅) ∧
    (c.stop = .wait ↔ ∃ p ∈ live, c.k.WaitsOn M true p) ∧
    (c.stop = .panic .deadlock ↔ live ≠ ∅ ∧ ∀ p ∈ live, c.k.WaitsOn M false p))

/-- The entries that keep the counter right: the processes that block do so where
`isDev` tells the semaphores of the nucleus from the others, and those that die do
not wait for the nucleus, unless `isDev` says so of their descriptor. -/
structure Kernel.Classifies (k : Kernel n) (M : Machine) (e : Entry) : Prop
    extends k.Admits M e where
  blocks : ∀ a w, (k.task M e).Operates a w → w.toInt < 0 → (k.mem a + w).toInt < 0 →
    M.isDev a = M.nucleus a
  dies : ∀ q, k.Dies M e q →
    ((∃ d, k.pCursem q = some d ∧ M.isDev (M.semdTable d) = true) ↔ k.WaitsOn M true q)

/-! ### Counting -/

/-- The place is the queue of a semaphore of the nucleus. -/
def Place.nucleus (M : Machine) : Place → Bool
  | .sem a => M.nucleus a
  | _ => false

def Snap.softWaiters (σ : Snap n) (M : Machine) : Finset (Fin n) :=
  Finset.univ.filter fun p => (σ.view.place p).nucleus M = true

theorem Snap.mem_softWaiters : p ∈ σ.softWaiters M ↔ (σ.view.place p).nucleus M = true := by
  simp [Snap.softWaiters]

/-- The counter is right, and nobody waits where `isDev` is wrong. -/
structure Snap.Counted (σ : Snap n) (M : Machine) : Prop where
  soft : σ.core.gSoftBlockCount.toNat = (σ.softWaiters M).card
  classified : ∀ p a, σ.view.place p = .sem a → M.isDev a = M.nucleus a

theorem softWaiters_eq (h : ∀ q, (σ'.view.place q).nucleus M = (σ.view.place q).nucleus M) :
    σ'.softWaiters M = σ.softWaiters M := by
  ext q
  rw [Snap.mem_softWaiters, Snap.mem_softWaiters, h]

theorem Snap.Counted.congr (hI : σ.Counted M) (hview : σ'.view = σ.view)
    (hsoft : σ'.core.gSoftBlockCount = σ.core.gSoftBlockCount) : σ'.Counted M := by
  refine ⟨?_, fun p a => by rw [hview]; exact hI.classified p a⟩
  rw [hsoft, hI.soft, softWaiters_eq (fun q => by rw [hview])]

theorem Snap.Counted.move (hI : σ.Counted M) {pl : Place} (hview : σ'.view = σ.view.move p pl)
    (hfrom : (σ.view.place p).nucleus M = false) (hto : ∀ a, pl ≠ .sem a)
    (hsoft : σ'.core.gSoftBlockCount = σ.core.gSoftBlockCount) : σ'.Counted M := by
  have hpl : pl.nucleus M = false := by
    cases pl with
    | sem a => exact absurd rfl (hto a)
    | _ => rfl
  refine ⟨?_, fun q a hq => ?_⟩
  · rw [hsoft, hI.soft, softWaiters_eq (fun q => ?_)]
    rw [hview]
    by_cases hqp : q = p
    · rw [hqp, Placement.move_place_self, hpl, hfrom]
    · rw [Placement.move_place_of_ne hqp]
  · rw [hview] at hq
    by_cases hqp : q = p
    · rw [hqp, Placement.move_place_self] at hq
      exact absurd hq (hto a)
    · rw [Placement.move_place_of_ne hqp] at hq
      exact hI.classified q a hq

theorem Signal.counted (h : Signal M a w σ σ') (hI : σ.Counted M) : σ'.Counted M := by
  have hplace := fun q => congrArg (fun v : View n => v.place q) h.view
  simp only [View.wake_place] at hplace
  have hnd : (σ.service a w).woken.Nodup := by
    have happ := serve_append σ.core.resRequested (w + σ.core.mem a) (σ.waiting a)
    have : (σ.waiting a).Nodup := σ.view.nodup _
    rw [← happ] at this
    exact (List.nodup_append.mp this).1
  refine ⟨?_, fun q b hq => ?_⟩
  · have hsub : σ'.softWaiters M = σ.softWaiters M \ (σ.service a w).woken.toFinset := by
      ext q
      rw [Finset.mem_sdiff, Snap.mem_softWaiters, Snap.mem_softWaiters, hplace q, List.mem_toFinset]
      by_cases hq : q ∈ (σ.service a w).woken <;> simp [hq, Place.nucleus]
    have hwoken : ∀ x ∈ (σ.service a w).woken, (σ.view.place x).nucleus M = M.nucleus a :=
      fun x hx => by rw [Snap.place_of_woken hx]; rfl
    have hcard : (σ.service a w).woken.toFinset.card = (σ.service a w).woken.length :=
      List.toFinset_card_of_nodup hnd
    rw [h.soft, hsub]
    by_cases hnil : (σ.service a w).woken = []
    · simp [hnil, hI.soft]
    obtain ⟨x, hx⟩ := List.exists_mem_of_ne_nil _ hnil
    rw [hI.classified x a (Snap.place_of_woken hx)]
    by_cases hnuc : M.nucleus a = true
    · have hsubset : (σ.service a w).woken.toFinset ⊆ σ.softWaiters M := fun y hy => by
        rw [Snap.mem_softWaiters, hwoken y (List.mem_toFinset.mp hy), hnuc]
      have hle := Finset.card_le_card hsubset
      rw [hcard, ← hI.soft] at hle
      have hlen : (BitVec.ofNat 32 (σ.service a w).woken.length).toNat =
          (σ.service a w).woken.length := by
        rw [BitVec.toNat_ofNat]
        exact Nat.mod_eq_of_lt (hle.trans_lt σ.core.gSoftBlockCount.isLt)
      have hle' : BitVec.ofNat 32 (σ.service a w).woken.length ≤ σ.core.gSoftBlockCount := by
        rw [BitVec.le_def, hlen]
        exact hle
      rw [if_pos hnuc, BitVec.toNat_sub_of_le hle', hlen, Finset.card_sdiff_of_subset hsubset, hcard,
        hI.soft]
    · rw [if_neg hnuc, hI.soft, Finset.sdiff_eq_self_of_disjoint]
      rw [Finset.disjoint_left]
      intro y hy hy'
      rw [Snap.mem_softWaiters, hwoken y (List.mem_toFinset.mp hy')] at hy
      exact hnuc hy
  · rw [hplace q] at hq
    split_ifs at hq
    exact hI.classified q b hq

theorem Signals.counted (h : Signals M a σ σ') (hI : σ.Counted M) : σ'.Counted M := by
  induction h with
  | refl => exact hI
  | head _ h _ ih => exact ih (h.counted hI)

theorem Block.counted (h : Block M a w p σ σ') (hn : n = maxProc) (hI : σ.Counted M)
    (hclass : (σ.core.mem a + w).toInt < 0 → M.isDev a = M.nucleus a) : σ'.Counted M := by
  have hdev : M.isDev a = M.nucleus a := by
    rcases h.short with hwait | hless
    · obtain ⟨x, hx⟩ := List.exists_mem_of_ne_nil _ hwait
      exact hI.classified x a ((σ.view.mem _ x).mp hx)
    · exact hclass hless
  have hplace : ∀ q, q ≠ p → σ'.view.place q = σ.view.place q := fun q hq => by
    rw [h.view, Placement.move_place_of_ne hq]
  have hself : σ'.view.place p = .sem a := by
    rw [h.view, Placement.move_place_self]
  refine ⟨?_, fun q b hq => ?_⟩
  · have hp : p ∉ σ.softWaiters M := by
      rw [Snap.mem_softWaiters, h.held]
      simp [Place.nucleus]
    rw [h.soft, hdev]
    by_cases hnuc : M.nucleus a = true
    · have hins : σ'.softWaiters M = insert p (σ.softWaiters M) := by
        ext q
        rw [Finset.mem_insert, Snap.mem_softWaiters, Snap.mem_softWaiters]
        by_cases hq : q = p
        · rw [hq, hself]
          simp [Place.nucleus, hnuc]
        · rw [hplace q hq]
          simp [hq]
      have hlt : σ.core.gSoftBlockCount.toNat < maxProc := by
        have hle := Finset.card_le_univ (insert p (σ.softWaiters M))
        rw [Finset.card_insert_of_notMem hp, Fintype.card_fin, ← hI.soft] at hle
        omega
      rw [if_pos hnuc, count_succ hlt, hins, Finset.card_insert_of_notMem hp, hI.soft]
    · rw [if_neg hnuc, hI.soft, softWaiters_eq (fun q => ?_)]
      by_cases hq : q = p
      · rw [hq, hself, h.held]
        simpa [Place.nucleus] using hnuc
      · rw [hplace q hq]
  · by_cases hqp : q = p
    · rw [hqp, hself] at hq
      rw [← Place.sem.inj hq]
      exact hdev
    · rw [hplace q hqp] at hq
      exact hI.classified q b hq

/-- A release counts right if the descriptor is classified like the address. -/
theorem Release.counted (h : Release M q σ σ') (hI : σ.Counted M)
    (hclass : (σ.core.pCursem q).any (fun d => M.isDev (M.semdTable d)) =
      (σ.view.place q).nucleus M) : σ'.Counted M := by
  have hplace : ∀ x, x ≠ q → σ'.view.place x = σ.view.place x := fun x hx => by
    rw [h.view, Placement.move_place_of_ne hx]
  have hself : σ'.view.place q = .free := by
    rw [h.view, Placement.move_place_self]
  refine ⟨?_, fun x b hx => ?_⟩
  · have herase : σ'.softWaiters M = (σ.softWaiters M).erase q := by
      ext x
      rw [Finset.mem_erase, Snap.mem_softWaiters, Snap.mem_softWaiters]
      by_cases hx : x = q
      · rw [hx, hself]
        simp [Place.nucleus]
      · rw [hplace x hx]
        simp [hx]
    rw [h.soft, hclass, herase]
    by_cases hnuc : (σ.view.place q).nucleus M = true
    · have hq : q ∈ σ.softWaiters M := Snap.mem_softWaiters.mpr hnuc
      have hpos := Finset.card_pos.mpr ⟨q, hq⟩
      have hle : (1 : Word) ≤ σ.core.gSoftBlockCount := by
        show 1 ≤ σ.core.gSoftBlockCount.toNat
        rw [hI.soft]
        exact hpos
      rw [if_pos hnuc, BitVec.toNat_sub_of_le hle, Finset.card_erase_of_mem hq, hI.soft]
      rfl
    · rw [if_neg hnuc, hI.soft, Finset.erase_eq_of_notMem]
      rwa [Snap.mem_softWaiters]
  · by_cases hxq : x = q
    · rw [hxq, hself] at hx
      exact nomatch hx
    · rw [hplace x hxq] at hx
      exact hI.classified x b hx

theorem Releases.counted (h : Releases M ds σ σ') (hI : σ.Counted M) (hnd : ds.Nodup)
    (hclass : ∀ q ∈ ds, (σ.core.pCursem q).any (fun d => M.isDev (M.semdTable d)) =
      (σ.view.place q).nucleus M) : σ'.Counted M := by
  induction h with
  | nil => exact hI
  | aside t c _ ih => exact ih ⟨hI.soft, hI.classified⟩ hnd hclass
  | @cons q ds σ σ₁ _ h hs ih =>
    rw [List.nodup_cons] at hnd
    refine ih (h.counted hI (hclass q List.mem_cons_self)) hnd.2 (fun x hx => ?_)
    have hxq : x ≠ q := ne_of_mem_of_not_mem hx hnd.1
    rw [h.sameSemd.1, h.view, Placement.move_place_of_ne hxq]
    exact hclass x (List.mem_cons_of_mem _ hx)

/-! ### Entries -/

theorem Snap.waitsOn_iff {b : Bool} (hσ : σ.core = k.core) :
    k.WaitsOn M b q ↔ ∃ a, σ.view.place q = .sem a ∧ M.nucleus a = b := by
  constructor
  · rintro ⟨d, hq, hb⟩
    exact ⟨_, ((Snap.queued_iff hσ).mp hq).1, hb⟩
  · rintro ⟨a, hplace, hb⟩
    obtain ⟨d, _, hadd, hcs⟩ :=
      (Snap.owned_of_core hσ).blocked.exists_cursem ((σ.view.mem _ q).mpr hplace)
    refine ⟨d, (Snap.queued_iff hσ).mpr ⟨by rw [hplace, hadd], hcs⟩, by rw [hadd]; exact hb⟩

theorem Place.nucleus_iff {pl : Place} :
    pl.nucleus M = true ↔ ∃ a, pl = .sem a ∧ M.nucleus a = true := by
  cases pl <;> simp [Place.nucleus]

theorem Does.counted_semop (hn : n = maxProc) (hI : σ.Counted M)
    (hclass : w.toInt < 0 → (σ.core.mem a + w).toInt < 0 → M.isDev a = M.nucleus a)
    (h : Does M (.semop a w) σ σ') : σ'.Counted M := by
  cases h with
  | signal _ h => exact h.counted hI
  | grant _ h => exact hI.congr h.view (by rw [h.core])
  | block hw h => exact h.counted hn hI (hclass hw)

theorem Does.counted (hn : n = maxProc) (hσ : σ.core = k.core) (hc : Consistent σ)
    (hI : σ.Counted M) (hok : k.Classifies M e) (h : Does M (k.task M e) σ σ') :
    σ'.Counted M := by
  obtain ⟨t, ht⟩ : ∃ t, k.task M e = t := ⟨_, rfl⟩
  rw [ht] at h
  cases h with
  | nothing => exact hI
  | full => exact hI
  | @create p c _ _ h =>
    refine hI.move h.view ?_ (by simp) h.soft
    rw [Snap.place_of_head h.first]
    rfl
  | @kill root _ _ h =>
    obtain ⟨ds, hnd, hds, hrel⟩ := h.releases
    refine hrel.counted hI hnd (fun q hq => ?_)
    have hdies : k.Dies M e q := ⟨root, ht, by
      rw [← Snap.pParent_eq hσ]
      exact (hds q).mp hq⟩
    have hiff := (hok.dies q hdies).trans (Snap.waitsOn_iff hσ)
    rw [← Place.nucleus_iff] at hiff
    rw [Bool.eq_iff_iff, Option.any_eq_true, ← hiff, hσ]
    rfl
  | signal _ h => exact h.counted hI
  | grant _ h => exact hI.congr h.view (by rw [h.core])
  | block hw h =>
    refine h.counted hn hI (fun hless => hok.blocks _ _ (by rw [ht]; exact ⟨rfl, rfl⟩) hw ?_)
    rw [hσ] at hless
    exact hless
  | command h hs =>
    obtain ⟨x, y, hcore⟩ := hs.core
    refine (h.counted_semop hn hI (fun hw hless => ?_)).congr hs.view (by rw [hcore])
    refine hok.blocks _ _ (by rw [ht]; exact ⟨rfl, rfl⟩) hw ?_
    rw [hσ] at hless
    exact hless
  | store h =>
    obtain ⟨x, y, hcore⟩ := h.core
    exact hI.congr h.view (by rw [hcore])
  | tick h => exact h.counted hI
  | @preempt p _ σ₁ _ hs h =>
    refine (hs.counted hI).move h.view ?_ (by simp) h.soft
    rw [((hs.consistent hc).current p).mpr h.current]
    rfl
  | busy => exact hI
  | device _ h => exact h.counted hI

/-- With nothing ready, the scheduler goes by its two counters. -/
def Snap.Judged (σ : Snap n) (stop : Stop) : Prop :=
  stop.NothingReady →
    stop = σ.verdict ∧ σ.core.gCurrentProcess = none ∧ σ.view.list .ready = []

theorem Ends.counted (hn : n = maxProc) (hσ : σ.core = k.core) (hc : Consistent σ)
    (hI : σ.Counted M) (hok : k.Classifies M e) (h : Ends M (k.task M e) σ stop σ') :
    σ'.Counted M ∧ σ'.Judged stop := by
  cases h with
  | @fail site hf =>
    refine ⟨hI, fun hnone => ?_⟩
    have hsite := hf.site_ne_deadlock
    rcases hnone with hs | hs | hs
    · cases hs
    · cases hs
    · exact absurd (Stop.panic.inj hs) hsite
  | back hd _ =>
    exact ⟨hd.counted hn hσ hc hI hok,
      fun hnone => by rcases hnone with hs | hs | hs <;> exact nomatch hs⟩
  | dispatch hd _ h =>
    refine ⟨(hd.counted hn hσ hc hI hok).move h.view ?_ (by simp) h.soft, fun hnone => ?_⟩
    · rw [Snap.place_of_head h.first]
      rfl
    · rcases hnone with hs | hs | hs <;> exact nomatch hs
  | idle hd hidle hready => exact ⟨hd.counted hn hσ hc hI hok, fun _ => ⟨rfl, hidle, hready⟩⟩

/-! ### Runs -/

theorem Between.verdictRight {σ : Snap maxProc} (h : Between c L σ) (hI : σ.Counted M)
    (hj : σ.Judged c.stop) : VerdictRight M c L := by
  have hset : {p | p ∈ L ∧ c.k.WaitsOn M true p} = (σ.softWaiters M : Set (Fin maxProc)) := by
    ext p
    rw [Finset.mem_coe, Snap.mem_softWaiters, Place.nucleus_iff, ← Snap.waitsOn_iff h.core]
    refine ⟨fun hp => hp.2, fun hp => ⟨(h.live p).mp ?_, hp⟩⟩
    obtain ⟨a, hplace, _⟩ := (Snap.waitsOn_iff h.core).mp hp
    rw [hplace]
    simp
  have hsoft : c.k.gSoftBlockCount.toNat = (σ.softWaiters M).card := by
    rw [← hI.soft, h.core]
    rfl
  refine ⟨by rw [hset, Set.ncard_coe_finset]; exact hsoft, fun hnone => ?_⟩
  obtain ⟨hstop, hidle, hready⟩ := hj hnone
  have hcount := h.count
  have hle : L.ncard ≤ maxProc := by
    have := Set.ncard_le_card L
    rwa [Nat.card_eq_fintype_card, Fintype.card_fin] at this
  have hempty : L = ∅ ↔ c.k.gProcessCount.toNat = 0 := by
    rw [hcount, Set.ncard_eq_zero]
  have hsome : (∃ p ∈ L, c.k.WaitsOn M true p) ↔ 0 < c.k.gSoftBlockCount.toNat := by
    rw [hsoft, Finset.card_pos, ← Finset.coe_nonempty, ← hset]
    exact Iff.rfl
  have hwaits : ∀ p ∈ L, c.k.WaitsOn M true p ∨ c.k.WaitsOn M false p := by
    intro p hp
    have hfree := (h.live p).mpr hp
    cases hplace : σ.view.place p with
    | free => exact absurd hplace hfree
    | ready =>
      have := (σ.view.mem _ p).mpr hplace
      rw [hready] at this
      cases this
    | held =>
      have := (h.consistent.current p).mp hplace
      cases hidle.symm.trans this
    | sem a =>
      cases hnuc : M.nucleus a with
      | true => exact .inl ((Snap.waitsOn_iff h.core).mpr ⟨a, hplace, hnuc⟩)
      | false => exact .inr ((Snap.waitsOn_iff h.core).mpr ⟨a, hplace, hnuc⟩)
  have hverdict : c.stop =
      if c.k.gProcessCount.toNat ≤ 0 ∨ maxProc < c.k.gProcessCount.toNat then .halt
      else if 0 < c.k.gSoftBlockCount.toNat then .wait else .panic .deadlock := by
    rw [hstop, Snap.verdict, h.core]
    rfl
  by_cases hzero : c.k.gProcessCount.toNat = 0
  · have hnil := hempty.mpr hzero
    rw [if_pos (.inl (Nat.le_zero.mpr hzero))] at hverdict
    simp [hverdict, hnil]
  rw [if_neg (by omega)] at hverdict
  have hne : L ≠ ∅ := fun hnil => hzero (hempty.mp hnil)
  by_cases hpos : 0 < c.k.gSoftBlockCount.toNat
  · obtain ⟨p, hp, hw⟩ := hsome.mpr hpos
    rw [if_pos hpos] at hverdict
    refine ⟨?_, ?_, ?_⟩
    · simp [hverdict, hne]
    · simp only [hverdict, true_iff]
      exact ⟨p, hp, hw⟩
    · rw [hverdict]
      refine iff_of_false (by simp) ?_
      rintro ⟨-, hall⟩
      obtain ⟨a, hpl, hnuc⟩ := (Snap.waitsOn_iff h.core).mp hw
      obtain ⟨b, hpl', hnuc'⟩ := (Snap.waitsOn_iff h.core).mp (hall p hp)
      rw [hpl] at hpl'
      rw [Place.sem.inj hpl', hnuc'] at hnuc
      cases hnuc
  · have hnone : ¬ ∃ p ∈ L, c.k.WaitsOn M true p := fun hex => hpos (hsome.mp hex)
    rw [if_neg hpos] at hverdict
    refine ⟨?_, ?_, ?_⟩
    · simp [hverdict, hne]
    · rw [hverdict]
      exact iff_of_false (by simp) hnone
    · simp only [hverdict, true_iff]
      exact ⟨hne, fun p hp => (hwaits p hp).resolve_left (fun hw => hnone ⟨p, hp, hw⟩)⟩

theorem Initial.counted (h : Initial M p σ) : σ.Counted M := by
  have hplace : ∀ q a, σ.view.place q ≠ .sem a := fun q a => by
    rw [h.place]
    split_ifs <;> simp
  refine ⟨?_, fun q a hq => absurd hq (hplace q a)⟩
  have hnone : σ.softWaiters M = ∅ := by
    ext q
    rw [Snap.mem_softWaiters, Place.nucleus_iff]
    simp [hplace q]
  rw [hnone, h.soft]
  rfl

/-- **The verdict of the scheduler.**  In every run in which `isDev` classifies the
semaphores alike when a process blocks and when it is terminated,
`g_soft_block_count` is the number of live processes that wait for the clock or a
device, and the scheduler halts, waits and panics as it should. -/
theorem reaches_verdictRight (hL : Layout M)
    (h : Reaches M (fun k e => k.Classifies M e) c L) : VerdictRight M c L := by
  obtain ⟨σ, hb, hI, hj⟩ := h.between (I := fun stop σ => σ.Counted M ∧ σ.Judged stop) hL
    (fun _ _ h => h.toAdmits)
    (fun s σ hi => ⟨hi.counted, fun hnone => by rcases hnone with hs | hs | hs <;> exact nomatch hs⟩)
    (fun k ev _ _ _ _ hσ hc hI hok hends =>
      hends.counted rfl (Snap.atEntry_core hσ) (hc.atEntry M ev.mem) ⟨hI.1.soft, hI.1.classified⟩
        hok)
  exact hb.verdictRight hI hj

/-- A tame entry at which `isDev` is asked about a semaphore of the nucleus or one it does not
take for one, and nobody is ended while a descriptor has an address of the nucleus. -/
def Kernel.classifies (M : Machine) (k : Kernel n) (e : Entry) : Bool :=
  k.tame M e &&
    match k.task M e with
    | .semop a _ | .command a _ => M.isDev a == M.nucleus a
    | .kill _ => decide (∀ d, M.isDev (M.semdTable d) = false ∧ M.nucleus (k.sSemAdd d) = false)
    | _ => true

theorem Kernel.Classifies.of_test (h : k.classifies M e = true) : k.Classifies M e := by
  rw [Kernel.classifies, Bool.and_eq_true] at h
  refine ⟨.of_tame h.1, fun a w hop _ _ => ?_, ?_⟩
  · have hkind := h.2
    cases htask : k.task M e with
    | semop b v =>
      rw [htask] at hkind hop
      obtain ⟨rfl, -⟩ := hop
      exact beq_iff_eq.mp hkind
    | command b r =>
      rw [htask] at hkind hop
      obtain ⟨rfl, -⟩ := hop
      exact beq_iff_eq.mp hkind
    | _ =>
      rw [htask] at hop
      exact hop.elim
  · rintro q ⟨root, hroot, -⟩
    have hkind := h.2
    rw [hroot, decide_eq_true_eq] at hkind
    refine iff_of_false ?_ ?_
    · rintro ⟨d, -, hdev⟩
      exact absurd ((hkind d).1.symm.trans hdev) (by simp)
    · rintro ⟨d, -, hnuc⟩
      exact absurd ((hkind d).2.symm.trans hnuc) (by simp)

/-- The parent waits for the pseudo-clock, and the scheduler for an interrupt. -/
theorem reaches_verdictRight_comeAndGo : ∃ L,
    (afterAll uarm comeAndGo).stop = .wait ∧
      VerdictRight uarm (afterAll uarm comeAndGo) L := by
  have htest : ∀ (k : Kernel maxProc) e, k.classifies uarm e = true → k.Classifies uarm e :=
    fun _ _ h => .of_test h
  obtain ⟨L, hreach, hwait⟩ := reaches_afterAll (M := uarm) htest comeAndGo
    (fun c => c.stop == .wait) (by decide +kernel)
  exact ⟨L, beq_iff_eq.mp hwait, reaches_verdictRight layout_uarm hreach⟩

/-- A child waits for the clock and is terminated by its parent, which then waits
for a unit nobody will give: the scheduler waits for an interrupt. -/
def killClockWaiter : List Event :=
  [sys 1 0 0 0, timerInterrupt, sys 9 0 0 0, sys 2 66 0 0, sys 3 0x20000 (-1) 0]

/-- Legal entries alone do not keep the counter right. -/
theorem not_verdictRight_of_legal :
    ¬ ∀ c L, Reaches uarm (fun k e => k.Legal uarm e) c L → VerdictRight uarm c L := by
  intro hall
  obtain ⟨c, L, hreach, hc⟩ := reaches_legal killClockWaiter
    (fun c => c.stop == .wait && (List.finRange maxProc).all fun d =>
      (c.k.sProcq d).isNone || !uarm.nucleus (c.k.sSemAdd d)) (by decide +kernel)
  rw [Bool.and_eq_true, beq_iff_eq, List.all_eq_true] at hc
  have hwait := (hall c L hreach).2 (.inr (.inl hc.1))
  obtain ⟨p, -, d, ⟨xs, hxs, hp⟩, hnuc⟩ := hwait.2.1.mp hc.1
  have hd := hc.2 d (List.mem_finRange d)
  rw [hnuc, Bool.not_true, Bool.or_false, Option.isNone_iff_eq_none] at hd
  have hnil := hxs.tail_eq.symm.trans hd
  rw [List.getLast?_eq_none_iff.mp hnil] at hp
  exact nomatch hp

end JaeOS
