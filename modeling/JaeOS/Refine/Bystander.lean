import JaeOS.Properties.SemopEffect

/-!
# Semaphores an entry does not name

A task touches the semaphores it names, and a termination those its victims wait at.  At any
other address the queue, the value and the requests of the waiters stay as they are.
-/

namespace JaeOS

open Function (update)
open Forest (Progeny)

variable {n : ℕ} {M : Machine} {k k' : Kernel n} {σ σ' σ₁ : Snap n} {a b w : Word} {p q : Fin n}
  {t : Task n} {stop : Stop} {ds : List (Fin n)}

/-! ### Waiting -/

/-- The process is queued at the address. -/
def Kernel.WaitsAt (k : Kernel n) (a : Word) (q : Fin n) : Prop :=
  ∃ d, k.Queued d q ∧ k.sSemAdd d = a

theorem Snap.mem_waiting (hσ : σ.core = k.core) : q ∈ σ.waiting a ↔ k.WaitsAt a q := by
  rw [Snap.waiting, σ.view.mem]
  constructor
  · intro hplace
    obtain ⟨d, _, hadd, hcs⟩ :=
      (Snap.owned_of_core hσ).blocked.exists_cursem ((σ.view.mem _ q).mpr hplace)
    exact ⟨d, (Snap.queued_iff hσ).mpr ⟨by rw [hplace, hadd], hcs⟩, hadd⟩
  · rintro ⟨d, hq, rfl⟩
    exact ((Snap.queued_iff hσ).mp hq).1

theorem Snap.waiting_perm (hσ : σ.core = k.core) (hσ' : σ'.core = k.core) :
    (σ'.waiting a).Perm (σ.waiting a) := by
  refine (List.perm_ext_iff_of_nodup (σ'.view.nodup _) (σ.view.nodup _)).mpr (fun q => ?_)
  exact (Snap.mem_waiting hσ').trans (Snap.mem_waiting hσ).symm

/-- Nothing has happened at an address. -/
structure Snap.SameAt (σ σ' : Snap n) (a : Word) : Prop where
  waiting : σ'.waiting a = σ.waiting a
  value : σ'.core.mem a = σ.core.mem a
  requests : ∀ q ∈ σ.waiting a, σ'.core.resRequested q = σ.core.resRequested q

namespace Snap.SameAt

theorem refl (σ : Snap n) (a : Word) : σ.SameAt σ a := ⟨rfl, rfl, fun _ _ => rfl⟩

theorem trans (h : σ.SameAt σ₁ a) (h' : σ₁.SameAt σ' a) : σ.SameAt σ' a := by
  refine ⟨h'.waiting.trans h.waiting, h'.value.trans h.value, fun q hq => ?_⟩
  have hq₁ : q ∈ σ₁.waiting a := by
    rw [h.waiting]
    exact hq
  exact (h'.requests q hq₁).trans (h.requests q hq)

theorem of_move {pl : Place} (hview : σ'.view = σ.view.move p pl) (hp : p ∉ σ.waiting a)
    (hpl : pl ≠ .sem a) (hmem : σ'.core.mem a = σ.core.mem a)
    (hreq : ∀ q, q ≠ p → σ'.core.resRequested q = σ.core.resRequested q) : σ.SameAt σ' a := by
  refine ⟨?_, hmem, fun q hq => hreq q (ne_of_mem_of_not_mem hq hp)⟩
  rw [Snap.waiting, hview, Placement.move_list_of_ne (Ne.symm hpl)]
  exact List.erase_of_not_mem hp

end Snap.SameAt

theorem Snap.not_mem_waiting {pl : Place} (h : σ.view.place p = pl) (hpl : ∀ a, pl ≠ .sem a) :
    p ∉ σ.waiting a := by
  intro hp
  exact hpl a (h.symm.trans ((σ.view.mem _ p).mp hp))

/-! ### What an entry does -/

theorem Signal.sameAt (h : Signal M b w σ σ') (ha : a ≠ b) : σ.SameAt σ' a := by
  refine ⟨h.waiting_of_ne ha, ?_, fun q hq => ?_⟩
  · rw [h.mem, Function.update_of_ne ha]
  · have hq' : q ∉ (σ.service b w).woken := by
      intro hwoken
      have hplace := (σ.view.mem _ q).mp hq
      rw [Snap.place_of_woken hwoken] at hplace
      exact ha (Place.sem.inj hplace).symm
    rw [h.resRequested, clearRequests_apply, if_neg hq']

theorem Signals.sameAt (h : Signals M b σ σ') (ha : a ≠ b) : σ.SameAt σ' a := by
  induction h with
  | refl => exact .refl _ a
  | head _ h _ ih => exact (h.sameAt ha).trans ih

theorem Release.sameAt (h : Release M p σ σ') (hp : p ∉ σ.waiting a) : σ.SameAt σ' a :=
  .of_move h.view hp (by simp) (by rw [h.mem]) (fun _ _ => by rw [h.resRequested])

theorem Releases.sameAt (h : Releases M ds σ σ') (hds : ∀ p ∈ ds, p ∉ σ.waiting a) :
    σ.SameAt σ' a := by
  induction h with
  | nil => exact .refl _ a
  | aside t c _ ih =>
    have hrest := ih hds
    exact ⟨hrest.waiting, hrest.value, hrest.requests⟩
  | cons h _ ih =>
    have hfirst := h.sameAt (hds _ List.mem_cons_self)
    refine hfirst.trans (ih (fun p hp => ?_))
    rw [hfirst.waiting]
    exact hds p (List.mem_cons_of_mem _ hp)

theorem Create.sameAt {c : Fin n} (h : Create p c σ σ') : σ.SameAt σ' a := by
  refine .of_move h.view (Snap.not_mem_waiting (Snap.place_of_head h.first) (by simp)) (by simp)
    (by rw [h.mem]) (fun q hq => ?_)
  rw [h.resRequested, Function.update_of_ne hq]

theorem Block.sameAt (h : Block M b w p σ σ') (ha : a ≠ b) : σ.SameAt σ' a := by
  refine .of_move h.view (Snap.not_mem_waiting h.held (by simp)) (by simp [Ne.symm ha])
    (by rw [h.mem]) (fun q hq => ?_)
  rw [h.resRequested, Function.update_of_ne hq]

theorem Preempt.sameAt (h : Preempt p σ σ') (hc : Consistent σ) : σ.SameAt σ' a :=
  .of_move h.view (Snap.not_mem_waiting ((hc.current p).mpr h.current) (by simp)) (by simp)
    (by rw [h.mem]) (fun _ _ => by rw [h.resRequested])

theorem Dispatch.sameAt (h : Dispatch p σ σ') (ha : a ≠ 0x00011114) : σ.SameAt σ' a := by
  obtain ⟨x, hmem⟩ := h.mem
  refine .of_move h.view (Snap.not_mem_waiting (Snap.place_of_head h.first) (by simp)) (by simp)
    ?_ (fun _ _ => by rw [h.resRequested])
  rw [hmem, Function.update_of_ne ha]

theorem Dispatch.waiting (h : Dispatch p σ σ') : σ'.waiting a = σ.waiting a := by
  rw [Snap.waiting, h.view, Placement.move_list_of_ne (by simp)]
  refine List.erase_of_not_mem (fun hp => ?_)
  exact Snap.not_mem_waiting (Snap.place_of_head h.first) (by simp) hp

/-- The task names the address. -/
def Task.Names (M : Machine) (a : Word) : Task n → Prop
  | .semop b _ => b = a
  | .command b r => b = a ∨ r = a
  | .store b c => b = a ∨ c = a
  | .tick => M.gPcTimerS = a
  | .device b _ => b = a
  | _ => False

instance (t : Task n) : Decidable (t.Names M a) :=
  match t with
  | .semop b _ => inferInstanceAs (Decidable (b = a))
  | .command b r => inferInstanceAs (Decidable (b = a ∨ r = a))
  | .store b c => inferInstanceAs (Decidable (b = a ∨ c = a))
  | .tick => inferInstanceAs (Decidable (M.gPcTimerS = a))
  | .device b _ => inferInstanceAs (Decidable (b = a))
  | .nothing | .create | .kill _ | .fail _ | .stuck => inferInstanceAs (Decidable False)

theorem Grant.sameAt (h : Grant b w σ σ') (ha : a ≠ b) : σ.SameAt σ' a := by
  refine ⟨by rw [Snap.waiting, h.view]; rfl, ?_, fun q _ => by rw [h.core]⟩
  rw [h.core]
  exact Function.update_of_ne ha _ _

theorem Does.sameAt_semop (h : Does M (.semop b w) σ σ') (ha : a ≠ b) : σ.SameAt σ' a := by
  cases h with
  | signal _ h => exact h.sameAt ha
  | grant _ h => exact h.sameAt ha
  | block _ h => exact h.sameAt ha

theorem Store.sameAt {c : Word} (h : Store b c σ σ') (hb : a ≠ b) (hc : a ≠ c) : σ.SameAt σ' a := by
  obtain ⟨x, y, hcore⟩ := h.core
  refine ⟨by rw [Snap.waiting, h.view]; rfl, ?_, fun q _ => by rw [hcore]⟩
  rw [hcore]
  exact (Function.update_of_ne hc _ _).trans (Function.update_of_ne hb _ _)

/-- **A semaphore that is not named** and whose waiters live on is left alone. -/
theorem Does.sameAt (hc : Consistent σ) (h : Does M t σ σ') (ha : ¬ t.Names M a)
    (hdies : ∀ root, t = .kill root → ∀ q, Progeny σ.core.pParent root q → q ∉ σ.waiting a) :
    σ.SameAt σ' a := by
  cases h with
  | nothing => exact .refl σ a
  | full => exact .refl σ a
  | create h => exact h.sameAt
  | kill h =>
    obtain ⟨ds, -, hds, hrel⟩ := h.releases
    exact hrel.sameAt (fun p hp => hdies _ rfl p ((hds p).mp hp))
  | signal _ h => exact h.sameAt (Ne.symm ha)
  | grant _ h => exact h.sameAt (Ne.symm ha)
  | block _ h => exact h.sameAt (Ne.symm ha)
  | command h hs =>
    rw [Task.Names, not_or] at ha
    exact (h.sameAt_semop (Ne.symm ha.1)).trans (hs.sameAt (Ne.symm ha.2) (Ne.symm ha.2))
  | store h =>
    rw [Task.Names, not_or] at ha
    exact h.sameAt (Ne.symm ha.1) (Ne.symm ha.2)
  | tick h => exact h.sameAt (Ne.symm ha)
  | preempt hs h => exact (hs.sameAt (Ne.symm ha)).trans (h.sameAt (hs.consistent hc))
  | busy => exact .refl σ a
  | device _ h => exact h.sameAt (Ne.symm ha)

/-- The queue is left alone even where the scheduler writes the pid. -/
theorem Ends.waiting (hc : Consistent σ) (h : Ends M t σ stop σ') (ha : ¬ t.Names M a)
    (hdies : ∀ root, t = .kill root → ∀ q, Progeny σ.core.pParent root q → q ∉ σ.waiting a) :
    σ'.waiting a = σ.waiting a := by
  cases h with
  | fail => rfl
  | back hd _ => exact (hd.sameAt hc ha hdies).waiting
  | dispatch hd _ h => exact h.waiting.trans (hd.sameAt hc ha hdies).waiting
  | idle hd _ _ => exact (hd.sameAt hc ha hdies).waiting

theorem Ends.sameAt (hc : Consistent σ) (h : Ends M t σ stop σ') (hpid : a ≠ 0x00011114)
    (ha : ¬ t.Names M a)
    (hdies : ∀ root, t = .kill root → ∀ q, Progeny σ.core.pParent root q → q ∉ σ.waiting a) :
    σ.SameAt σ' a := by
  cases h with
  | fail => exact .refl σ a
  | back hd _ => exact hd.sameAt hc ha hdies
  | dispatch hd _ h => exact (hd.sameAt hc ha hdies).trans (h.sameAt hpid)
  | idle hd _ _ => exact hd.sameAt hc ha hdies

/-- The end of an entry: behind its task nothing happens at the address any more. -/
theorem Ends.does (h : Ends M t σ stop σ') (hpid : a ≠ 0x00011114) :
    (∃ site, Fails σ t site ∧ σ' = σ) ∨ ∃ σ₁, Does M t σ σ₁ ∧ σ₁.SameAt σ' a := by
  cases h with
  | fail hf => exact .inl ⟨_, hf, rfl⟩
  | back hd _ => exact .inr ⟨σ', hd, .refl σ' a⟩
  | dispatch hd _ hdis => exact .inr ⟨_, hd, hdis.sameAt hpid⟩
  | idle hd _ _ => exact .inr ⟨σ', hd, .refl σ' a⟩

/-! ### A `P` that is not granted -/

theorem Block.waiting (h : Block M a w p σ σ') : σ'.waiting a = σ.waiting a ++ [p] := by
  rw [Snap.waiting, h.view, Placement.move_list_self (by simp [h.held])]
  rfl

theorem Does.blocks (hw : w.toInt < 0) (hshort : (σ.core.mem a + w).toInt < 0)
    (h : Does M (.semop a w) σ σ') : ∃ p, Block M a w p σ σ' := by
  cases h with
  | signal hpos => omega
  | grant _ hg =>
    have := hg.enough
    omega
  | block _ hb => exact ⟨_, hb⟩

/-- **A `P` blocks** when there are too few units, if there is a descriptor left. -/
theorem Ends.block (hfree : σ.free ≠ []) (hw : w.toInt < 0)
    (hp : σ.core.gCurrentProcess = some p) (hshort : (σ.core.mem a + w).toInt < 0)
    (hpid : a ≠ 0x00011114) (h : Ends M (.semop a w) σ stop σ') :
    ∃ σ₁, Block M a w p σ σ₁ ∧ σ₁.SameAt σ' a := by
  rcases h.does hpid with ⟨site, hf, rfl⟩ | ⟨σ₁, hd, hsame⟩
  · cases hf with
    | zero hzero => omega
    | full _ _ _ hnil => exact absurd hnil hfree
  · obtain ⟨q, hb⟩ := hd.blocks hw hshort
    obtain rfl : q = p := Option.some.inj (hb.current.symm.trans hp)
    exact ⟨σ₁, hb, hsame⟩

end JaeOS
