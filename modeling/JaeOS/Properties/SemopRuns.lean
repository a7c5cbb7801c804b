import JaeOS.Refine.Bystander

/-!
# Runs of `semop`

Processes take turns in any order, and call `semop` on some semaphores.  Each semaphore is a
`FifoSem`: a word in memory and a queue in the table of descriptors, with the history of the
calls on it.
-/

namespace JaeOS

open Function (update)

variable {n : ℕ} {M : Machine} {k k' : Kernel n} {σ σ' : Snap n} {a b w : Word} {p q : Fin n}

/-! ### One semaphore -/

/-- What the calls on a semaphore have asked for and got. -/
structure History (n : ℕ) where
  supplied : ℕ
  issued : List (Fin n × ℕ)
  granted : List (Fin n × ℕ)

namespace History

def none : History n := ⟨0, [], []⟩

/-- A `V` of weight `w` has woken up some waiters. -/
def signal (h : History n) (w : Word) (woken : List (Fin n × ℕ)) : History n :=
  { h with supplied := h.supplied + w.toNat, granted := h.granted ++ woken }

/-- A `P` of weight `w` has been granted at once. -/
def grant (h : History n) (p : Fin n) (w : Word) : History n :=
  { h with issued := h.issued ++ [(p, (-w).toNat)], granted := h.granted ++ [(p, (-w).toNat)] }

/-- A `P` of weight `w` has blocked its caller. -/
def block (h : History n) (p : Fin n) (w : Word) : History n :=
  { h with issued := h.issued ++ [(p, (-w).toNat)] }

end History

def Core.request (c : Core n) (q : Fin n) : Fin n × ℕ := (q, (c.resRequested q).toNat)

/-- The semaphore at an address, with its history. -/
def Snap.fifo (σ : Snap n) (h : History n) (a : Word) : FifoSem (Fin n) where
  value := (σ.core.mem a).toNat
  queue := (σ.waiting a).map σ.core.request
  supplied := h.supplied
  issued := h.issued
  granted := h.granted

variable {h : History n}

theorem Snap.SameAt.fifo (hs : σ.SameAt σ' a) : σ'.fifo h a = σ.fifo h a := by
  have hqueue : (σ'.waiting a).map σ'.core.request = (σ.waiting a).map σ.core.request := by
    rw [hs.waiting]
    refine List.map_congr_left (fun q hq => ?_)
    rw [Core.request, Core.request, hs.requests q hq]
  rw [Snap.fifo, Snap.fifo, hqueue, hs.value]

theorem Snap.serve_fifo (hr : (σ.core.mem a).toNat + w.toNat < 2 ^ 32) :
    serve Prod.snd ((σ.fifo h a).value + w.toNat) (σ.fifo h a).queue =
      ⟨(σ.service a w).woken.map σ.core.request, (σ.service a w).rest.map σ.core.request,
        (σ.service a w).left.toNat⟩ := by
  have hadd : (w + σ.core.mem a).toNat = (σ.core.mem a).toNat + w.toNat := by
    rw [BitVec.toNat_add, Nat.mod_eq_of_lt (by omega), Nat.add_comm]
  have hmap : serve (fun p => (σ.core.resRequested p).toNat) (w + σ.core.mem a).toNat
      (σ.waiting a) = _ :=
    serve_map (fun x : Word => x.toNat) (fun _ _ => Iff.rfl) (fun _ _ h => BitVec.toNat_sub_of_le h)
  have hpairs : serve Prod.snd (w + σ.core.mem a).toNat ((σ.waiting a).map σ.core.request) = _ :=
    serve_pairs
  rw [hmap, hadd] at hpairs
  exact hpairs

/-- **A `V` releases its weight.** -/
theorem Signal.fifo (hs : Signal M a w σ σ') (hr : (σ.core.mem a).toNat + w.toNat < 2 ^ 32) :
    σ'.fifo (h.signal w ((σ.service a w).woken.map σ.core.request)) a =
      (σ.fifo h a).signal w.toNat := by
  have hvalue : σ'.core.mem a = (σ.service a w).left := by
    rw [hs.mem, Function.update_self]
  have hqueue : (σ'.waiting a).map σ'.core.request = (σ.service a w).rest.map σ.core.request := by
    rw [hs.waiting]
    refine List.map_congr_left (fun q hq => ?_)
    have hnd : ((σ.service a w).woken ++ (σ.service a w).rest).Nodup := by
      rw [Snap.service, serve_append]
      exact σ.view.nodup _
    have hnot : q ∉ (σ.service a w).woken := fun hm => (List.nodup_append'.mp hnd).2.2 hm hq
    rw [Core.request, Core.request, hs.resRequested, clearRequests_apply, if_neg hnot]
  rw [FifoSem.signal, Snap.serve_fifo hr, Snap.fifo, hvalue, hqueue]
  rfl

/-! ### Amounts -/

theorem enough_iff {v : Word} (hv : 0 ≤ v.toInt) (hw : w.toInt < 0) :
    0 ≤ (v + w).toInt ↔ (-w).toNat ≤ v.toNat := by
  rw [toInt_add_of_signs hv hw]
  obtain ⟨hint, hlt⟩ := toInt_of_nonneg hv
  have hneg : (-w).toNat = 2 ^ 32 - w.toNat := by
    rw [BitVec.toNat_neg, Nat.mod_eq_of_lt]
    have hpos : 0 < w.toNat := by
      by_contra hzero
      have : w.toInt = w.toNat := BitVec.toInt_eq_toNat_of_lt (by omega)
      omega
    omega
  have hwint : w.toInt = (w.toNat : ℤ) - 2 ^ 32 := by
    rw [BitVec.toInt_eq_toNat_cond] at hw ⊢
    split_ifs at hw ⊢ with hc
    · omega
    · omega
  have hwlt := w.isLt
  omega

/-! ### A `P` -/

theorem Grant.fifo (hg : Grant a w σ σ') (hv : 0 ≤ (σ.core.mem a).toInt) (hw : w.toInt < 0) :
    σ'.fifo (h.grant p w) a = (σ.fifo h a).wait p (-w).toNat := by
  have hle : (-w).toNat ≤ (σ.core.mem a).toNat := (enough_iff hv hw).mp hg.enough
  have hgrants : (σ.fifo h a).Grants (-w).toNat := ⟨by rw [Snap.fifo, hg.nobody]; rfl, hle⟩
  have hvalue : (σ'.core.mem a).toNat = (σ.core.mem a).toNat - (-w).toNat := by
    rw [hg.core]
    dsimp only
    rw [Function.update_self, BitVec.toNat_sub_of_le hle]
  have hwait : σ'.waiting a = σ.waiting a := by rw [Snap.waiting, hg.view, Snap.waiting]
  rw [FifoSem.wait, if_pos hgrants, Snap.fifo, hvalue, hwait, hg.nobody]
  rw [Snap.fifo, hg.nobody]
  rfl

theorem Block.fifo (hb : Block M a w p σ σ') (hv : 0 ≤ (σ.core.mem a).toInt) (hw : w.toInt < 0) :
    σ'.fifo (h.block p w) a = (σ.fifo h a).wait p (-w).toNat := by
  have hnot : ¬ (σ.fifo h a).Grants (-w).toNat := by
    rintro ⟨hnil, hle⟩
    rcases hb.short with hwait | hshort
    · exact hwait (List.map_eq_nil_iff.mp hnil)
    · exact absurd ((enough_iff hv hw).mpr hle) (by omega)
  have hqueue : (σ'.waiting a).map σ'.core.request =
      (σ.waiting a).map σ.core.request ++ [(p, (-w).toNat)] := by
    have hp : p ∉ σ.waiting a := Snap.not_mem_waiting hb.held (by simp)
    rw [hb.waiting, List.map_append, List.map_singleton]
    refine congrArg₂ _ (List.map_congr_left (fun q hq => ?_)) ?_
    · rw [Core.request, Core.request, hb.resRequested,
        Function.update_of_ne (ne_of_mem_of_not_mem hq hp)]
    · rw [Core.request, hb.resRequested, Function.update_self]
  rw [FifoSem.wait, if_neg hnot, Snap.fifo, hqueue, hb.mem]
  rfl

/-! ### Turns -/

/-- The processes take turns in any order: the current one goes to the end of the ready queue,
and any ready one becomes current.  Registers and clocks may change. -/
inductive Switch (k k' : Kernel n) : Prop
  | yield {p : Fin n} {s : Queues n} (hp : k.gCurrentProcess = some p)
      (hrun : (insertProcQ .gReadyQueue p).run k.toQueues = some ((), s))
      (hk' : k'.core = Kernel.core { k with toQueues := s, gCurrentProcess := none })
  | pick {q : Fin n} {s : Queues n} (hidle : k.gCurrentProcess = none)
      (hrun : (outProcQ .gReadyQueue q).run k.toQueues = some (some q, s))
      (hk' : k'.core = Kernel.core { k with toQueues := s, gCurrentProcess := some q })

/-- A snapshot of a state between two calls. -/
structure Paused (k : Kernel n) (σ : Snap n) : Prop where
  core : σ.core = k.core
  consistent : Consistent σ

theorem Paused.yield {s : Queues n} (h : Paused k σ) (hp : k.gCurrentProcess = some p)
    (hrun : (insertProcQ .gReadyQueue p).run k.toQueues = some ((), s))
    (hk' : k'.core = Kernel.core { k with toQueues := s, gCurrentProcess := none }) :
    ∃ σ', Paused k' σ' ∧ (σ.Complete → σ'.Complete) ∧ ∀ a, σ.SameAt σ' a := by
  have howned := Snap.owned_of_core h.core
  have hp' : σ.core.gCurrentProcess = some p := by
    rw [h.core]
    exact hp
  have hheld : σ.view.place p = .held := (h.consistent.current p).mpr hp'
  rw [run_insertProcQ] at hrun
  obtain ⟨-, rfl⟩ := Prod.mk.inj (Option.some.inj hrun)
  let σ' : Snap n := ⟨Kernel.core { k with
    toQueues := k.toQueues.setProcQ .gReadyQueue ((k.toQueues.procQ .gReadyQueue).enqueue p)
    gCurrentProcess := none }, σ.view.move p .ready, σ.asl, σ.free,
    howned.insertProcQ_ready hheld⟩
  have hpre : Preempt p σ σ' := by
    refine ⟨hp', rfl, rfl, rfl, rfl, ?_, ?_, ?_, ?_, ?_, ?_⟩
    all_goals rw [h.core]
    all_goals first | rfl | exact sameSemd_setProcQ
  exact ⟨σ', ⟨hk'.symm, hpre.consistent h.consistent⟩, fun hI => hI.congr rfl rfl,
    fun a => hpre.sameAt h.consistent⟩

theorem Paused.pick {s : Queues n} (h : Paused k σ) (hidle : k.gCurrentProcess = none)
    (hrun : (outProcQ .gReadyQueue q).run k.toQueues = some (some q, s))
    (hk' : k'.core = Kernel.core { k with toQueues := s, gCurrentProcess := some q }) :
    ∃ σ', Paused k' σ' ∧ (σ.Complete → σ'.Complete) ∧ ∀ a, σ.SameAt σ' a := by
  have howned := Snap.owned_of_core h.core
  have hready : σ.view.place q = .ready := by
    by_contra hne
    rw [howned.run_outProcQ_notReady hne] at hrun
    exact absurd (congrArg Prod.fst (Option.some.inj hrun)) (by simp)
  obtain ⟨s', hrun', howned', hsame⟩ := howned.run_outProcQ_ready hready
  obtain rfl : s' = s := congrArg Prod.snd (Option.some.inj (hrun'.symm.trans hrun))
  let σ' : Snap n := ⟨Kernel.core { k with toQueues := s', gCurrentProcess := some q },
    σ.view.move q .held, σ.asl, σ.free, howned'⟩
  have hidle' : σ.core.gCurrentProcess = none := by
    rw [h.core]
    exact hidle
  have hcons : Consistent σ' := by
    refine h.consistent.of_move (by simp [hready]) (by simp) rfl ?_ ?_ (fun r => ?_)
    · rw [h.core]
      rfl
    · rw [h.core]
      rfl
    · change (σ.view.move q .held).place r = .held ↔ some q = some r
      by_cases hr : r = q
      · simp [hr]
      · rw [Placement.move_place_of_ne hr, h.consistent.current r, hidle']
        exact iff_of_false (by simp) (fun heq => hr (Option.some.inj heq).symm)
  refine ⟨σ', ⟨hk'.symm, hcons⟩, fun hI => hI.congr rfl rfl, fun a => ?_⟩
  refine .of_move rfl (Snap.not_mem_waiting hready (by simp)) (by simp) ?_ (fun r _ => ?_)
  · rw [h.core]
    rfl
  · rw [h.core]
    rfl

/-- **A turn** leaves all semaphores alone. -/
theorem Switch.paused (hs : Switch k k') (h : Paused k σ) :
    ∃ σ', Paused k' σ' ∧ (σ.Complete → σ'.Complete) ∧ ∀ a, σ.SameAt σ' a := by
  cases hs with
  | yield hp hrun hk' => exact h.yield hp hrun hk'
  | pick hidle hrun hk' => exact h.pick hidle hrun hk'

/-! ### One call -/

theorem Does.semop_complete (h : Does M (.semop a w) σ σ') (hI : σ.Complete) : σ'.Complete := by
  cases h with
  | signal _ hd => exact hd.conserves.complete hI
  | grant _ hd => exact hI.congr hd.asl hd.free
  | block _ hd => exact hd.conserves.complete hI

theorem Does.semop_sameAt (h : Does M (.semop a w) σ σ') (hc : Consistent σ) (hb : b ≠ a) :
    σ.SameAt σ' b :=
  h.sameAt hc (Ne.symm hb) (fun _ hkill => by cases hkill)

namespace Paused

theorem held (h : Paused k σ) (hp : k.gCurrentProcess = some p) : σ.view.place p = .held := by
  refine (h.consistent.current p).mpr ?_
  rw [h.core]
  exact hp

/-- **A call that returns** has done what it is for. -/
theorem semop (h : Paused k σ) (hp : k.gCurrentProcess = some p) (ha : M.kernelData a = false)
    (hrun : JaeOS.semop M a w k = .ok () k') : ∃ σ', Paused k' σ' ∧ Does M (.semop a w) σ σ' := by
  have hwp : wp (JaeOS.semop M a w) (fun _ k' => ∃ σ', Paused k' σ' ∧ Does M (.semop a w) σ σ')
      (fun _ _ => True) k := by
    refine wp_semop h.core ha (fun _ => ⟨p, hp, h.held hp⟩) (fun hpos k' σ' hσ' _ hs => ?_)
      (fun hneg k' σ' hσ' _ hg => ?_) (fun hneg q _ k' σ' hσ' _ hb => ?_) (fun _ => trivial)
      (fun _ _ _ => trivial)
    · exact ⟨σ', ⟨hσ', hs.consistent h.consistent⟩, .signal hpos hs⟩
    · exact ⟨σ', ⟨hσ', hg.consistent h.consistent⟩, .grant hneg hg⟩
    · exact ⟨σ', ⟨hσ', hb.consistent h.consistent⟩, .block hneg hb⟩
  rw [wp, hrun] at hwp
  exact hwp

/-- **A call returns** if there is a descriptor for every process. -/
theorem returns {k : Kernel maxProc} {σ : Snap maxProc} {p : Fin maxProc} (h : Paused k σ)
    (hI : σ.Complete) (hp : k.gCurrentProcess = some p) (ha : M.kernelData a = false) (hw : w ≠ 0) :
    ∃ k', JaeOS.semop M a w k = .ok () k' := by
  have hzero : w.toInt ≠ 0 := fun hz => hw (BitVec.eq_of_toInt_eq hz)
  have hwp : wp (JaeOS.semop M a w) (fun _ _ => True) (fun _ _ => False) k := by
    refine wp_semop h.core ha (fun _ => ⟨p, hp, h.held hp⟩) (fun _ _ _ _ _ _ => trivial)
      (fun _ _ _ _ _ _ => trivial) (fun _ _ _ _ _ _ _ _ => trivial) (fun hz => absurd hz hzero)
      (fun _ _ hfree => hI.free_ne_nil_of_held (h.held hp) hfree)
  obtain ⟨_, k', hrun, -⟩ := wp_false hwp
  exact ⟨k', hrun⟩

end Paused

/-! ### Runs of calls -/

/-- The runs from `k₀`: turns of the processes and calls with weights other than 0 on semaphores
of `A`, whose values stay words.  Each call is entered in the history of its semaphore; a `V` has
granted the requests of the waiters that it makes ready. -/
inductive Semops (M : Machine) (A : Set Word) (k₀ : Kernel maxProc) :
    Kernel maxProc → (Word → History maxProc) → Prop
  | start : Semops M A k₀ k₀ fun _ => .none
  | turn {k k' : Kernel maxProc} {H : Word → History maxProc} (h : Semops M A k₀ k H)
      (hs : Switch k k') : Semops M A k₀ k' H
  | signal {k k' : Kernel maxProc} {H : Word → History maxProc} {a w : Word} {p : Fin maxProc}
      {rs ws : List (Fin maxProc)} (h : Semops M A k₀ k H) (ha : a ∈ A)
      (hp : k.gCurrentProcess = some p) (hw : 0 < w.toInt)
      (hmax : (k₀.mem a).toInt + (H a).supplied + w.toInt ≤ 2147483647)
      (hrun : semop M a w k = .ok () k') (hrs : k.Queue .gReadyQueue rs)
      (hws : k'.Queue .gReadyQueue (rs ++ ws)) :
      Semops M A k₀ k' (update H a ((H a).signal w (ws.map k.core.request)))
  | grant {k k' : Kernel maxProc} {H : Word → History maxProc} {a w : Word} {p : Fin maxProc}
      (h : Semops M A k₀ k H) (ha : a ∈ A) (hp : k.gCurrentProcess = some p) (hw : w.toInt < 0)
      (hrun : semop M a w k = .ok () k') (hstay : k'.gCurrentProcess = some p) :
      Semops M A k₀ k' (update H a ((H a).grant p w))
  | block {k k' : Kernel maxProc} {H : Word → History maxProc} {a w : Word} {p : Fin maxProc}
      (h : Semops M A k₀ k H) (ha : a ∈ A) (hp : k.gCurrentProcess = some p) (hw : w.toInt < 0)
      (hrun : semop M a w k = .ok () k') (hleave : k'.gCurrentProcess = none) :
      Semops M A k₀ k' (update H a ((H a).block p w))

/-- A weight that the semaphore can take. -/
def History.Takes (h : History n) (v w : Word) : Prop :=
  w ≠ 0 ∧ (0 < w.toInt → v.toInt + h.supplied + w.toInt ≤ 2147483647)

/-- The next call on `a` returns, is entered in the history of `a`, and no other semaphore, its
value or its queue changes. -/
structure NextCall (M : Machine) (A : Set Word) (k₀ k : Kernel maxProc) (H : Word → History maxProc)
    (σ : Snap maxProc) (a w : Word) (k' : Kernel maxProc) (H' : Word → History maxProc)
    (σ' : Snap maxProc) : Prop where
  returns : semop M a w k = .ok () k'
  run : Semops M A k₀ k' H'
  core : σ'.core = k'.core
  others : ∀ b, b ≠ a → k'.mem b = k.mem b ∧ σ'.waiting b = σ.waiting b ∧ H' b = H b

/-- What a run has kept: no value is negative, no unit is created or lost, and the requests on a
semaphore are granted in the order of their issue, each once and in full. -/
structure SemopsSafe (M : Machine) (A : Set Word) (k₀ k : Kernel maxProc)
    (H : Word → History maxProc) (σ : Snap maxProc) : Prop where
  core : σ.core = k.core
  nonneg : ∀ a ∈ A, 0 ≤ (k.mem a).toInt
  account : ∀ a ∈ A, (k.mem a).toInt =
    (k₀.mem a).toInt + (H a).supplied - (((H a).granted.map Prod.snd).sum : ℕ)
  order : ∀ a ∈ A, (H a).issued = (H a).granted ++ (σ.waiting a).map k.core.request
  next : ∀ a ∈ A, ∀ w p, k.gCurrentProcess = some p → (H a).Takes (k₀.mem a) w →
    ∃ k' H' σ', NextCall M A k₀ k H σ a w k' H' σ'

/-- The semaphores of `A`, between two calls of a run. -/
structure Semaphores (A : Set Word) (k₀ k : Kernel maxProc) (H : Word → History maxProc)
    (σ : Snap maxProc) : Prop where
  paused : Paused k σ
  complete : σ.Complete
  sound : ∀ a ∈ A, (σ.fifo (H a) a).Sound (k₀.mem a).toNat
  bounded : ∀ a ∈ A, (k₀.mem a).toNat + (H a).supplied ≤ 2147483647

section Runs

variable {A : Set Word} {k k' k₀ : Kernel maxProc} {σ σ' σ₀ : Snap maxProc} {p : Fin maxProc}
  {H : Word → History maxProc} {h' : History maxProc} {rs ws : List (Fin maxProc)}

namespace Semaphores

theorem nonneg (h : Semaphores A k₀ k H σ) (ha : a ∈ A) : 0 ≤ (k.mem a).toInt := by
  have hacc := (h.sound a ha).account
  have hmax := h.bounded a ha
  have hvalue : (σ.fifo (H a) a).value = (k.mem a).toNat := by
    rw [Snap.fifo, h.paused.core]
    rfl
  have hsupplied : (σ.fifo (H a) a).supplied = (H a).supplied := rfl
  have hint : (k.mem a).toInt = (k.mem a).toNat := BitVec.toInt_eq_toNat_of_lt (by omega)
  omega

theorem core_nonneg (h : Semaphores A k₀ k H σ) (ha : a ∈ A) : 0 ≤ (σ.core.mem a).toInt := by
  rw [h.paused.core]
  exact h.nonneg ha

theorem turn (h : Semaphores A k₀ k H σ) (hs : Switch k k') : ∃ σ', Semaphores A k₀ k' H σ' := by
  obtain ⟨σ', hpaused, hcomplete, hsame⟩ := hs.paused h.paused
  refine ⟨σ', hpaused, hcomplete h.complete, fun a ha => ?_, h.bounded⟩
  rw [(hsame a).fifo]
  exact h.sound a ha

/-- A call leaves the other semaphores alone, so that only its own counts. -/
theorem call (h : Semaphores A k₀ k H σ) (hs : Paused k' σ') (hd : Does M (.semop a w) σ σ')
    (hsound : (σ'.fifo h' a).Sound (k₀.mem a).toNat)
    (hmax : (k₀.mem a).toNat + h'.supplied ≤ 2147483647) :
    Semaphores A k₀ k' (update H a h') σ' := by
  refine ⟨hs, hd.semop_complete h.complete, fun b hb => ?_, fun b hb => ?_⟩
  · by_cases hba : b = a
    · subst hba
      rw [Function.update_self]
      exact hsound
    · rw [Function.update_of_ne hba, (hd.semop_sameAt h.paused.consistent hba).fifo]
      exact h.sound b hb
  · by_cases hba : b = a
    · subst hba
      rw [Function.update_self]
      exact hmax
    · rw [Function.update_of_ne hba]
      exact h.bounded b hb

theorem value (h : Semaphores A k₀ k H σ) (ha : a ∈ A) :
    (σ.core.mem a).toNat ≤ (k₀.mem a).toNat + (H a).supplied := by
  have hacc : (k₀.mem a).toNat + (H a).supplied = (σ.core.mem a).toNat + _ := (h.sound a ha).account
  omega

end Semaphores

theorem Signal.woken_eq (hd : Signal M a w σ σ') (hσ : σ.core = k.core) (hσ' : σ'.core = k'.core)
    (hrs : k.Queue .gReadyQueue rs) (hws : k'.Queue .gReadyQueue (rs ++ ws)) :
    ws = (σ.service a w).woken := by
  have hold := hrs.unique ((Snap.owned_of_core hσ).listed .ready _ rfl)
  have hnew := hws.unique ((Snap.owned_of_core hσ').listed .ready _ rfl)
  rw [hd.ready, ← hold] at hnew
  exact List.append_cancel_left hnew

namespace Semaphores

theorem signal (h : Semaphores A k₀ k H σ) (ha : a ∈ A) (hdata : M.kernelData a = false)
    (hv : 0 ≤ (k₀.mem a).toInt) (hp : k.gCurrentProcess = some p) (hw : 0 < w.toInt)
    (hmax : (k₀.mem a).toInt + (H a).supplied + w.toInt ≤ 2147483647)
    (hrun : semop M a w k = .ok () k') (hrs : k.Queue .gReadyQueue rs)
    (hws : k'.Queue .gReadyQueue (rs ++ ws)) :
    ∃ σ', Semaphores A k₀ k' (update H a ((H a).signal w (ws.map k.core.request))) σ' := by
  obtain ⟨σ', hs', hdoes⟩ := h.paused.semop hp hdata hrun
  refine ⟨σ', h.call hs' hdoes ?_ ?_⟩
  · cases hdoes with
    | signal _ hd =>
      have hvalue := h.value ha
      obtain ⟨hvint, -⟩ := toInt_of_nonneg hv
      obtain ⟨hwint, -⟩ := toInt_of_nonneg hw.le
      rw [hd.woken_eq h.paused.core hs'.core hrs hws, ← h.paused.core, hd.fifo (by omega)]
      exact (h.sound a ha).signal _
    | grant hneg => omega
    | block hneg => omega
  · obtain ⟨hvint, -⟩ := toInt_of_nonneg hv
    obtain ⟨hwint, -⟩ := toInt_of_nonneg hw.le
    change (k₀.mem a).toNat + ((H a).supplied + w.toNat) ≤ 2147483647
    omega

theorem grant (h : Semaphores A k₀ k H σ) (ha : a ∈ A) (hdata : M.kernelData a = false)
    (hp : k.gCurrentProcess = some p) (hw : w.toInt < 0) (hrun : semop M a w k = .ok () k')
    (hstay : k'.gCurrentProcess = some p) :
    ∃ σ', Semaphores A k₀ k' (update H a ((H a).grant p w)) σ' := by
  obtain ⟨σ', hs', hdoes⟩ := h.paused.semop hp hdata hrun
  refine ⟨σ', h.call hs' hdoes ?_ (h.bounded a ha)⟩
  cases hdoes with
  | signal hpos => omega
  | grant _ hd =>
    rw [hd.fifo (h.core_nonneg ha) hw]
    exact (h.sound a ha).wait _ _
  | block _ hd =>
    have hidle := hd.idle
    rw [hs'.core] at hidle
    exact absurd (hstay.symm.trans hidle) (by simp)

theorem block (h : Semaphores A k₀ k H σ) (ha : a ∈ A) (hdata : M.kernelData a = false)
    (hp : k.gCurrentProcess = some p) (hw : w.toInt < 0) (hrun : semop M a w k = .ok () k')
    (hleave : k'.gCurrentProcess = none) :
    ∃ σ', Semaphores A k₀ k' (update H a ((H a).block p w)) σ' := by
  obtain ⟨σ', hs', hdoes⟩ := h.paused.semop hp hdata hrun
  refine ⟨σ', h.call hs' hdoes ?_ (h.bounded a ha)⟩
  have hcur : σ.core.gCurrentProcess = some p := by
    rw [h.paused.core]
    exact hp
  cases hdoes with
  | signal hpos => omega
  | grant _ hd =>
    have hstay : σ'.core.gCurrentProcess = some p := by
      rw [hd.core]
      exact hcur
    rw [hs'.core] at hstay
    exact absurd (hleave.symm.trans hstay) (by simp)
  | @block q _ _ _ _ _ hd =>
    obtain rfl : q = p := Option.some.inj (hd.current.symm.trans hcur)
    rw [hd.fifo (h.core_nonneg ha) hw]
    exact (h.sound a ha).wait _ _

end Semaphores

/-- **The invariant of the runs.** -/
theorem Semops.semaphores (h : Semops M A k₀ k H) (hs : Paused k₀ σ₀) (hI : σ₀.Complete)
    (hA : ∀ a ∈ A, M.kernelData a = false ∧ 0 ≤ (k₀.mem a).toInt ∧ σ₀.waiting a = []) :
    ∃ σ, Semaphores A k₀ k H σ := by
  induction h with
  | start =>
    refine ⟨σ₀, hs, hI, fun a ha => ?_, fun a ha => ?_⟩
    · have hinit : σ₀.fifo .none a = .init (k₀.mem a).toNat := by
        rw [Snap.fifo, (hA a ha).2.2, hs.core]
        rfl
      rw [hinit]
      exact .init
    · have := toInt_of_nonneg (hA a ha).2.1
      simp only [History.none]
      omega
  | turn _ hturn ih =>
    obtain ⟨σ, h⟩ := ih
    exact h.turn hturn
  | signal _ ha hp hw hmax hrun hrs hws ih =>
    obtain ⟨σ, h⟩ := ih
    exact h.signal ha (hA _ ha).1 (hA _ ha).2.1 hp hw hmax hrun hrs hws
  | grant _ ha hp hw hrun hstay ih =>
    obtain ⟨σ, h⟩ := ih
    exact h.grant ha (hA _ ha).1 hp hw hrun hstay
  | block _ ha hp hw hrun hleave ih =>
    obtain ⟨σ, h⟩ := ih
    exact h.block ha (hA _ ha).1 hp hw hrun hleave

theorem Semops.next (h : Semops M A k₀ k H) (hσ : Semaphores A k₀ k H σ) (ha : a ∈ A)
    (hdata : M.kernelData a = false) (hp : k.gCurrentProcess = some p)
    (hw : (H a).Takes (k₀.mem a) w) : ∃ k' H' σ', NextCall M A k₀ k H σ a w k' H' σ' := by
  obtain ⟨hne, hmax⟩ := hw
  obtain ⟨k', hrun⟩ := hσ.paused.returns hσ.complete hp hdata hne
  obtain ⟨σ', hs, hdoes⟩ := hσ.paused.semop hp hdata hrun
  have hsame : ∀ b, b ≠ a → σ.SameAt σ' b := fun b hb =>
    hdoes.semop_sameAt hσ.paused.consistent hb
  have hnext : ∀ h', Semops M A k₀ k' (update H a h') →
      ∃ k' H' σ', NextCall M A k₀ k H σ a w k' H' σ' := by
    intro h' hrun'
    refine ⟨k', _, σ', hrun, hrun', hs.core, fun b hb => ⟨?_, (hsame b hb).waiting, ?_⟩⟩
    · have hmem := (hsame b hb).value
      rw [hs.core, hσ.paused.core] at hmem
      exact hmem
    · exact Function.update_of_ne hb _ _
  cases hdoes with
  | signal hpos hd =>
    have hrs := (Snap.owned_of_core hσ.paused.core).listed .ready _ rfl
    have hws := (Snap.owned_of_core hs.core).listed .ready _ rfl
    rw [hd.ready] at hws
    exact hnext _ (.signal h ha hp hpos (hmax hpos) hrun hrs hws)
  | grant hneg hd =>
    have hstay : σ'.core.gCurrentProcess = σ.core.gCurrentProcess := by rw [hd.core]
    rw [hs.core, hσ.paused.core] at hstay
    exact hnext _ (.grant h ha hp hneg hrun (hstay.trans hp))
  | block hneg hd =>
    have hleave := hd.idle
    rw [hs.core] at hleave
    exact hnext _ (.block h ha hp hneg hrun hleave)

end Runs

/-- **Semaphores are safe over whole runs**: whatever the processes do with the semaphores of
`A`, in any order. -/
theorem semops_safe {A : Set Word} {k₀ k : Kernel maxProc} {σ₀ : Snap maxProc}
    {H : Word → History maxProc} (hs : Paused k₀ σ₀) (hI : σ₀.Complete)
    (hA : ∀ a ∈ A, M.kernelData a = false ∧ 0 ≤ (k₀.mem a).toInt ∧ σ₀.waiting a = [])
    (h : Semops M A k₀ k H) : ∃ σ, SemopsSafe M A k₀ k H σ := by
  obtain ⟨σ, hσ⟩ := h.semaphores hs hI hA
  refine ⟨σ, hσ.paused.core, fun a ha => hσ.nonneg ha, fun a ha => ?_, fun a ha => ?_, ?_⟩
  · have hacc : (k₀.mem a).toNat + (H a).supplied =
        (σ.core.mem a).toNat + ((H a).granted.map Prod.snd).sum := (hσ.sound a ha).account
    rw [hσ.paused.core] at hacc
    obtain ⟨hv, -⟩ := toInt_of_nonneg (hσ.nonneg ha)
    obtain ⟨hv₀, -⟩ := toInt_of_nonneg (hA a ha).2.1
    rw [hv, hv₀]
    have hacc' : (k₀.mem a).toNat + (H a).supplied =
        (k.mem a).toNat + ((H a).granted.map Prod.snd).sum := hacc
    omega
  · rw [← hσ.paused.core]
    exact (hσ.sound a ha).order
  · intro a ha w p hp hw
    exact h.next hσ ha (hA a ha).1 hp hw

/-! ### Calls that return -/

/-- The state a program leaves behind. -/
def after (x : K n Unit) (k : Kernel n) : Kernel n :=
  match x k with
  | .ok _ k' => k'
  | .error _ k' => k'

def returned (x : K n Unit) (k : Kernel n) : Bool :=
  match x k with
  | .ok _ _ => true
  | .error _ _ => false

theorem run_after {x : K n Unit} (h : returned x k = true) : x k = .ok () (after x k) := by
  rw [returned] at h
  rw [after]
  cases hx : x k with
  | ok u k' => rfl
  | error e k' => simp [hx] at h

theorem Initial.waiting (h : Initial M p σ) (a : Word) : σ.waiting a = [] := by
  refine List.eq_nil_iff_forall_not_mem.mpr (fun q hq => ?_)
  have hplace := (σ.view.mem _ q).mp hq
  rw [h.place] at hplace
  split_ifs at hplace

/-- The first process signals a semaphore once, and waits for two units. -/
theorem semops_safe_boot : ∃ (k : Kernel maxProc) (H : Word → History maxProc) (σ : Snap maxProc),
    (H 0x20000).supplied = 1 ∧ (H 0x20000).issued = [(proc0, 2)] ∧ (H 0x20000).granted = [] ∧
      SemopsSafe uarm {0x20000} (boot uarm : Config maxProc).k k H σ := by
  obtain ⟨σ₀, -, hb, -, hi⟩ := between_boot layout_uarm
  have hp : (boot uarm : Config maxProc).k.gCurrentProcess = some proc0 := by decide +kernel
  let k₁ := after (semop uarm 0x20000 1) (boot uarm : Config maxProc).k
  let k₂ := after (semop uarm 0x20000 (-2)) k₁
  have hready : (boot uarm : Config maxProc).k.Queue .gReadyQueue [] :=
    Clist.holds_nil (by decide +kernel)
  have hready₁ : k₁.Queue .gReadyQueue ([] ++ []) := Clist.holds_nil (by decide +kernel)
  have h₁ := Semops.signal (A := {0x20000}) .start rfl hp (w := 1) (by decide)
    (by decide +kernel) (run_after (by decide +kernel)) hready hready₁
  have h₂ := h₁.block rfl (w := -2) (p := proc0) (by decide +kernel) (by decide)
    (run_after (by decide +kernel)) (by decide +kernel)
  obtain ⟨σ, hsafe⟩ := semops_safe ⟨hb.core, hb.consistent⟩ hi.complete (by
    rintro a rfl
    refine ⟨by decide, by decide +kernel, ?_⟩
    exact hi.waiting _) h₂
  refine ⟨k₂, _, σ, ?_, ?_, ?_, hsafe⟩
  all_goals decide +kernel

end JaeOS
