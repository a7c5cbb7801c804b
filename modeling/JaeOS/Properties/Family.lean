import JaeOS.Properties.Ownership
import JaeOS.Refine.System

/-!
# The family of the first process

The process tree over whole runs: the live processes are one tree below the first process,
everybody's parent is its creator for as long as both live, and the end of the first
process is the end of all.
-/

namespace JaeOS

open Forest (Progeny)

variable {M : Machine} {c : Config maxProc} {L : Set (Fin maxProc)} {σ : Snap maxProc} {ev : Event}
  {q : Fin maxProc}

/-- The live processes between two entries. -/
structure Family (c : Config maxProc) (live : Set (Fin maxProc)) : Prop where
  descends : ∀ q ∈ live, Progeny c.k.pParent proc0 q
  parent : ∀ q ∈ live, q ≠ proc0 → ∃ p ∈ live, c.k.pParent q = some p
  apart : ∀ q, q ∉ live → c.k.pParent q = none ∧ ∀ r, c.k.pParent r ≠ some q
  free : ∃ ps, c.k.Queue .pcbFree ps ∧ ∀ q, q ∈ ps ↔ q ∉ live
  halt : c.stop = .halt ↔ proc0 ∉ live
  reclaimed : proc0 ∉ live → live = ∅ ∧ (∃ ps, c.k.Queue .pcbFree ps ∧ ∀ q, q ∈ ps) ∧
    c.k.Queue .gReadyQueue [] ∧ c.k.asl.Holds []

/-- The parents of those that live after an entry: as before, and the creator of the new
process. -/
def Kernel.Inherits (k k' : Kernel maxProc) (live live' : Set (Fin maxProc)) : Prop :=
  ∀ q ∈ live', (q ∈ live → k'.pParent q = k.pParent q) ∧
    (q ∉ live → k'.pParent q = k.gCurrentProcess)

/-! ### The end of all -/

/-- **Without a live process, the scheduler halts**, and only then. -/
theorem Ends.halt {t : Task maxProc} {σ' : Snap maxProc} {stop : Stop} {c' : Config maxProc}
    {L' : Set (Fin maxProc)} (h : Ends M t σ stop σ') (hb : Between c' L' σ')
    (hfail : ∀ site, Fails σ t site → σ.core.gCurrentProcess ≠ none) :
    stop = .halt ↔ L' = ∅ := by
  have hcount := hb.count
  have hle : L'.ncard ≤ maxProc := by
    have hcard := Set.ncard_le_card L'
    rwa [Nat.card_eq_fintype_card, Fintype.card_fin] at hcard
  have hlive : σ'.core.gCurrentProcess ≠ none → L' ≠ ∅ := by
    intro hne hempty
    obtain ⟨p, hp⟩ := Option.ne_none_iff_exists'.mp hne
    have hheld := (hb.consistent.current p).mpr hp
    have hmem := (hb.live p).mp (by rw [hheld]; simp)
    rw [hempty] at hmem
    exact hmem
  cases h with
  | fail hf => exact iff_of_false (by simp) (hlive (hfail _ hf))
  | back _ hp => exact iff_of_false (by simp) (hlive (by rw [hp]; simp))
  | dispatch _ _ hd => exact iff_of_false (by simp) (hlive (by rw [hd.current]; simp))
  | idle _ _ _ =>
    have hcore : σ'.core.gProcessCount = c'.k.gProcessCount := congrArg Core.gProcessCount hb.core
    rw [← Set.ncard_eq_zero (Set.toFinite L'), ← hcount, Snap.verdict, hcore]
    constructor
    · intro hverdict
      split_ifs at hverdict with hnone hsoft
      omega
    · intro hzero
      exact if_pos (.inl hzero.le)

theorem Between.reclaimed (h : Between c L σ) (hempty : L = ∅) :
    (∃ ps, c.k.Queue .pcbFree ps ∧ ∀ q, q ∈ ps) ∧ c.k.Queue .gReadyQueue [] ∧
      c.k.asl.Holds [] := by
  have howned := Snap.owned_of_core h.core
  have hfree : ∀ q, σ.view.place q = .free := by
    intro q
    by_contra hne
    have hmem := (h.live q).mp hne
    rw [hempty] at hmem
    exact hmem
  have hnil : ∀ pl, pl ≠ .free → σ.view.list pl = [] := by
    intro pl hpl
    refine List.eq_nil_iff_forall_not_mem.mpr (fun q hq => hpl ?_)
    rw [← (σ.view.mem pl q).mp hq, hfree]
  refine ⟨⟨σ.view.list .free, howned.listed .free _ rfl, fun q => (σ.view.mem _ q).mpr (hfree q)⟩,
    ?_, ?_⟩
  · have hready := howned.listed .ready _ rfl
    rwa [hnil .ready (by simp)] at hready
  · have hasl : σ.asl = [] := by
      refine List.eq_nil_iff_forall_not_mem.mpr (fun d hd => ?_)
      exact (howned.blocked.active _).mpr ⟨d, hd, rfl⟩ (hnil (.sem _) (by simp))
    rw [← hasl]
    exact howned.blocked.aslh

/-! ### Who inherits -/

theorem Between.born_free {b : Fin maxProc} {e : Entry} (h : Between c L σ)
    (hborn : (c.k.atEntry M ev).born M e = some b) : b ∉ L := by
  rw [← h.live b]
  exact not_not.mpr (Snap.place_born (σ := σ.atEntry M ev.mem) (Snap.atEntry_core h.core) hborn)

theorem Between.inherits (hL : Layout M) (h : Between c L σ) (htake : CanTake c ev)
    (hok : (c.k.atEntry M ev).Admits M ev.entry) :
    c.k.Inherits (JaeOS.step M c ev).k L
      {q | (q ∈ L ∨ (c.k.atEntry M ev).born M ev.entry = some q) ∧
        ¬ (c.k.atEntry M ev).Dies M ev.entry q} := by
  rintro q ⟨halive, hdies⟩
  have hpar := h.lineage hL htake hok
  obtain ⟨t, ht⟩ : ∃ t, (c.k.atEntry M ev).task M ev.entry = t := ⟨_, rfl⟩
  rw [Kernel.lineage, ht] at hpar
  rw [hpar]
  have hold : (c.k.atEntry M ev).born M ev.entry = none → q ∈ L := fun hborn =>
    halive.resolve_right (by simp [hborn])
  have hnone : t ≠ .create → (c.k.atEntry M ev).born M ev.entry = none := by
    intro hne
    rw [Kernel.born, ht]
    cases t with
    | create => exact absurd rfl hne
    | _ => rfl
  cases t with
  | create =>
    cases hborn : (c.k.atEntry M ev).born M ev.entry with
    | none => exact ⟨fun _ => rfl, fun hq => absurd (hold hborn) hq⟩
    | some b =>
      have hb := h.born_free hborn
      refine ⟨fun hq => Function.update_of_ne (ne_of_mem_of_not_mem hq hb) _ _, fun hq => ?_⟩
      obtain rfl : b = q := Option.some.inj (hborn.symm.trans (halive.resolve_left hq))
      exact Function.update_self ..
  | kill root =>
    have hnot : ¬ Progeny (c.k.atEntry M ev).pParent root q := fun hq => hdies ⟨root, ht, hq⟩
    exact ⟨fun _ => Forest.prune_of_not hnot, fun hq => absurd (hold (hnone (by simp))) hq⟩
  | nothing | semop _ _ | command _ _ | store _ _ | tick | device _ _ | fail _ | stuck =>
    exact ⟨fun _ => rfl, fun hq => absurd (hold (hnone (by simp))) hq⟩

/-! ### Runs -/

theorem Reaches.halt_iff (hL : Layout M) (h : Reaches M (fun k e => k.Admits M e) c L) :
    c.stop = .halt ↔ L = ∅ := by
  cases h with
  | boot =>
    obtain ⟨σ, s, -, hs, -⟩ := between_boot hL
    rw [hs]
    exact iff_of_false (by simp) (Set.singleton_ne_empty _)
  | @step c L ev h htake hok =>
    obtain ⟨σ, hb⟩ := h.exists_between hL
    obtain ⟨σ', hb', hends, -⟩ := hb.step hL htake hok
    have hcore : (σ.atEntry M ev.mem).core = (c.k.atEntry M ev).core := Snap.atEntry_core hb.core
    refine hends.halt hb' (fun site hf => ?_)
    rw [hcore]
    exact hf.current

/-- **One tree.**  In every state that is reached, the live processes are the first process
and its descendants, and the parent of each is alive; the kernel halts exactly when the
first process has ended, and then all blocks are free and nothing is queued.  An entry
leaves the parents of those that live on alone and gives a new process its creator. -/
theorem reaches_family (hL : Layout M) (h : Reaches M (fun k e => k.Admits M e) c L) :
    Family c L ∧ ∀ ev, CanTake c ev → (c.k.atEntry M ev).Admits M ev.entry →
      c.k.Inherits (step M c ev).k L {q | (q ∈ L ∨ (c.k.atEntry M ev).born M ev.entry = some q) ∧
        ¬ (c.k.atEntry M ev).Dies M ev.entry q} := by
  obtain ⟨s, hs, hsound⟩ := h.represents hL
  have halive : ∀ q, q ∈ s.alive ↔ q ∈ L := fun q => by rw [hs.alive]
  have hempty : proc0 ∉ L ↔ L = ∅ := by
    rw [← hs.alive]
    exact hsound.alive_eq_empty.symm
  refine ⟨⟨fun q hq => ?_, fun q hq hne => ?_, fun q hq => ?_, ?_, ?_, fun hroot => ?_⟩, ?_⟩
  · rw [← hs.parent]
    exact hsound.family q ((halive q).mpr hq)
  · obtain ⟨p, hp, hpar⟩ := hsound.parent_alive ((halive q).mpr hq) hne
    exact ⟨p, (halive p).mp hp, by rw [← hs.parent]; exact hpar⟩
  · rw [← hs.parent]
    refine ⟨?_, fun r hr => hq ((halive q).mp (hsound.linked r q hr).2)⟩
    by_contra hne
    obtain ⟨p, hp⟩ := Option.ne_none_iff_exists'.mp hne
    exact hq ((halive q).mp (hsound.linked q p hp).1)
  · obtain ⟨ps, hps, hfree⟩ := hs.free
    exact ⟨ps, hps, fun q => by rw [hfree, halive]⟩
  · rw [h.halt_iff hL, hempty]
  · obtain ⟨σ, hb⟩ := h.exists_between hL
    exact ⟨hempty.mp hroot, hb.reclaimed (hempty.mp hroot)⟩
  · intro ev htake hok
    obtain ⟨σ, hb⟩ := h.exists_between hL
    exact hb.inherits hL htake hok

/-- The first process creates a child, which creates another one when its turn comes; then
the first process ends itself. -/
theorem reaches_family_halt : ∃ (c : Config maxProc) (L : Set (Fin maxProc)),
    c.stop = .halt ∧ Family c L ∧ L = ∅ := by
  obtain ⟨c, L, hreach, hstop⟩ := reaches_tame
    [sys 1 0 0 0, timerInterrupt, sys 1 0 0 0, timerInterrupt, sys 2 0 0 0]
    (fun c => decide (c.stop = .halt)) (by decide +kernel)
  have hhalt : c.stop = .halt := of_decide_eq_true hstop
  obtain ⟨hfamily, -⟩ := reaches_family layout_uarm hreach
  exact ⟨c, L, hhalt, hfamily, (hfamily.reclaimed (hfamily.halt.mp hhalt)).1⟩

end JaeOS
