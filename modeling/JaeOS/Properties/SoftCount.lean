import JaeOS.Properties.ValueRange

/-!
# Whose waiters are counted

`g_soft_block_count` counts the processes that wait for a device or for the pseudo-clock.
`semop` asks `isDev`, which takes the nine words behind `g_dev_s` for elements of it: a
semaphore there is counted as soon as somebody waits on it.
-/

namespace JaeOS

open Function (update)

variable {n : ℕ} {M : Machine} {k k' : Kernel n} {σ σ' : Snap n} {a w : Word} {p : Fin n}

/-! ### The property -/

/-- However `semop` ends, `g_soft_block_count` is what it was. -/
def SoftKept (M : Machine) (k : Kernel n) (a w : Word) : Prop :=
  wp (semop M a w) (fun _ k' => k'.gSoftBlockCount = k.gSoftBlockCount)
    (fun _ k' => k'.gSoftBlockCount = k.gSoftBlockCount) k

/-- A `V` that is enough for the first waiter. -/
def Kernel.Wakes (k : Kernel n) (σ : Snap n) (a w : Word) : Prop :=
  0 < w.toInt ∧ ∃ q ∈ (σ.waiting a).head?, k.resRequested q ≤ w + k.mem a

/-- A `P` whose caller has to wait, and can. -/
def Kernel.Stalls (k : Kernel n) (σ : Snap n) (a w : Word) : Prop :=
  w.toInt < 0 ∧ (σ.waiting a ≠ [] ∨ (k.mem a + w).toInt < 0 ∧ σ.free ≠ [])

/-! ### The two branches -/

theorem Snap.service_woken_eq_nil (hσ : σ.core = k.core) (hw : 0 < w.toInt) :
    (σ.service a w).woken = [] ↔ ¬ k.Wakes σ a w := by
  have hserve : σ.service a w = serve k.resRequested (w + k.mem a) (σ.waiting a) := by
    rw [Snap.service, hσ]
    rfl
  rw [hserve, Kernel.Wakes]
  cases hq : σ.waiting a with
  | nil => simp [serve]
  | cons q xs =>
    by_cases hle : k.resRequested q ≤ w + k.mem a
    · rw [serve_cons_of_le hle]
      simp [hw, hle]
    · rw [serve_cons_of_not_le hle]
      simp [hle]

theorem Signal.soft_eq_iff (hn : n ≤ maxProc) (h : Signal M a w σ σ') :
    σ'.core.gSoftBlockCount = σ.core.gSoftBlockCount ↔
      M.isDev a = false ∨ (σ.service a w).woken = [] := by
  have hlen : (σ.service a w).woken.length ≤ n := by
    have hnd : (σ.service a w).woken.Nodup := by
      rw [Snap.service_woken]
      exact (σ.view.nodup _).sublist (List.take_sublist _ _)
    have hle := hnd.length_le_card
    rwa [Fintype.card_fin] at hle
  rw [h.soft]
  cases M.isDev a with
  | false => simp
  | true =>
    rw [if_pos rfl, ← List.length_eq_zero_iff]
    have hmax : maxProc = 20 := rfl
    constructor
    · intro heq
      right
      bv_omega
    · rintro (hfalse | hzero)
      · exact absurd hfalse (by decide)
      · rw [hzero]
        exact BitVec.sub_zero _

theorem Block.soft_eq_iff (h : Block M a w p σ σ') :
    σ'.core.gSoftBlockCount = σ.core.gSoftBlockCount ↔ M.isDev a = false := by
  rw [h.soft]
  cases M.isDev a with
  | false => simp
  | true =>
    rw [if_pos rfl]
    refine iff_of_false (fun heq => ?_) (by decide)
    bv_omega

/-! ### The count -/

/-- A condition that decides about every end decides about the run. -/
theorem wp_iff_of_forall {ε σ α : Type} {x : EStateM ε σ α} {P : σ → Prop} {c : Prop} {s : σ}
    (h : wp x (fun _ s' => P s' ↔ c) (fun _ s' => P s' ↔ c) s) :
    wp x (fun _ s' => P s') (fun _ s' => P s') s ↔ c := by
  cases hx : x s with
  | ok a s' => rwa [wp_of_ok hx] at h ⊢
  | error e s' => rwa [wp_of_error hx] at h ⊢

/-- **`semop` leaves `g_soft_block_count` alone if and only if** `isDev` does not take the address
for a nucleus semaphore, or nobody is woken up or blocked. -/
theorem softKept_iff (hn : n ≤ maxProc) (hσ : σ.core = k.core) (hk : M.kernelData a = false)
    (hw : w ≠ 0)
    (hcur : w.toInt < 0 → ∃ p, k.gCurrentProcess = some p ∧ σ.view.place p = .held) :
    SoftKept M k a w ↔ M.isDev a = false ∨ ¬ k.Wakes σ a w ∧ ¬ k.Stalls σ a w := by
  have hsoft : σ.core.gSoftBlockCount = k.gSoftBlockCount := by rw [hσ]; rfl
  have hmem : σ.core.mem = k.mem := by rw [hσ]; rfl
  have hafter : ∀ {k' : Kernel n} {σ' : Snap n}, σ'.core = k'.core →
      (k'.gSoftBlockCount = k.gSoftBlockCount ↔
        σ'.core.gSoftBlockCount = σ.core.gSoftBlockCount) := by
    intro k' σ' hσ'
    rw [hsoft, hσ']
    rfl
  refine wp_iff_of_forall (wp_semop hσ hk hcur (fun hpos k' σ' hσ' _ h => ?_)
    (fun hneg k' σ' hσ' _ h => ?_) (fun hneg p hroom k' σ' hσ' _ h => ?_) (fun hzero => ?_)
    (fun hneg hnil hfull => ?_))
  · have hstall : ¬ k.Stalls σ a w := fun hs => by
      have := hs.1
      omega
    rw [hafter hσ', h.soft_eq_iff hn, Snap.service_woken_eq_nil hσ hpos]
    exact or_congr Iff.rfl (and_iff_left hstall).symm
  · have hsame : σ'.core.gSoftBlockCount = σ.core.gSoftBlockCount := by rw [h.core]
    refine iff_of_true ((hafter hσ').mpr hsame) (.inr ⟨fun hwk => ?_, fun hs => ?_⟩)
    · have := hwk.1
      omega
    · have henough := h.enough
      rw [hmem] at henough
      rcases hs.2 with hne | ⟨hless, -⟩
      · exact hne h.nobody
      · omega
  · have hs : k.Stalls σ a w := by
      refine ⟨hneg, ?_⟩
      have hshort := h.short
      rw [hmem] at hshort
      tauto
    rw [hafter hσ', h.soft_eq_iff]
    exact ⟨.inl, fun hor => hor.resolve_right (fun hno => hno.2 hs)⟩
  · exact absurd (BitVec.eq_of_toInt_eq (hzero.trans BitVec.toInt_zero.symm)) hw
  · refine iff_of_true rfl (.inr ⟨fun hwk => ?_, fun hs => ?_⟩)
    · have := hwk.1
      omega
    · rcases hs.2 with hne | ⟨-, hroom⟩
      · exact hne hnil
      · exact hroom hfull

/-- Which words `isDev` takes for nucleus semaphores though they are not: the nine behind the
array. -/
theorem isDev_iff_behind (hend : M.gDevS.toNat + 224 < 2 ^ 32) (ha : M.nucleus a = false)
    (haligned : (a - M.gDevS).toNat % 4 = 0) :
    M.isDev a = true ↔ M.gDevS.toNat + 192 ≤ a.toNat ∧ a.toNat ≤ M.gDevS.toNat + 224 := by
  have hlast : M.devSem nDevTypes nDevPerIl = M.gDevS + 224 := rfl
  have hsize : 4 * (nDevTypes * nDevPerIl).toNat = 192 := rfl
  rw [Machine.nucleus, Bool.or_eq_false_iff, Machine.devCell, hsize, haligned] at ha
  obtain ⟨hclock, hcell⟩ := ha
  have hout : ¬ (a - M.gDevS).toNat < 192 := by simpa using hcell
  rw [Machine.isDev, hclock, Bool.false_or, Bool.and_eq_true, decide_eq_true_iff,
    decide_eq_true_iff, hlast]
  have hdiff : (a - M.gDevS).toNat = (2 ^ 32 - M.gDevS.toNat + a.toNat) % 2 ^ 32 :=
    BitVec.toNat_sub _ _
  have hlt := a.isLt
  rw [BitVec.le_def, BitVec.le_def]
  have hsum : (M.gDevS + 224).toNat = M.gDevS.toNat + 224 := by
    rw [BitVec.toNat_add]
    exact Nat.mod_eq_of_lt hend
  rw [hsum]
  omega

/-! ### The word behind `g_dev_s` -/

theorem SoftKept.run (h : SoftKept M k a w) :
    (runToStop (semop M a w) k).k.gSoftBlockCount = k.gSoftBlockCount := by
  rw [SoftKept] at h
  rw [runToStop]
  cases hx : semop M a w k with
  | ok u s' => exact (wp_of_ok hx).mp h
  | error e s' => exact (wp_of_error hx).mp h

theorem exists_boot_current : ∃ σ : Snap maxProc, σ.core = (boot uarm).k.core ∧
    (boot uarm : Config maxProc).k.gCurrentProcess = some proc0 ∧ σ.view.place proc0 = .held := by
  obtain ⟨σ, s, hb, -, hi⟩ := between_boot layout_uarm
  refine ⟨σ, hb.core, ?_, by rw [hi.place, if_pos rfl]⟩
  have hcur := hi.current
  rw [hb.core] at hcur
  exact hcur

/-- A child waits at a semaphore of the user: a `V` wakes it up, and a `P` blocks the parent. -/
theorem softKept_withWaiter : ∃ (σ : Snap maxProc) (p : Fin maxProc),
    σ.core = (withWaiter 0).core ∧ σ.waiting 0x20000 = [p] ∧
      ((withWaiter 0).Wakes σ 0x20000 1 ∧ SoftKept uarm (withWaiter 0) 0x20000 1) ∧
      (withWaiter 0).Stalls σ 0x20000 (-1) ∧ SoftKept uarm (withWaiter 0) 0x20000 (-1) := by
  obtain ⟨σ, p, hσ, -, hwait, hreq, hcur, hheld⟩ := exists_withWaiter 0
  have hout : uarm.isDev 0x20000 = false := by decide
  refine ⟨σ, p, hσ, hwait, ⟨⟨by decide, p, by rw [hwait]; rfl, ?_⟩, ?_⟩, ⟨by decide, .inl ?_⟩, ?_⟩
  · rw [hreq, withWaiter_mem]
    decide
  · exact (softKept_iff le_rfl hσ (by decide) (by decide) (fun hneg => absurd hneg (by decide))).mpr
      (.inl hout)
  · rw [hwait]
    exact List.cons_ne_nil _ _
  · exact (softKept_iff le_rfl hσ (by decide) (by decide) (fun _ => ⟨proc0, hcur, hheld⟩)).mpr
      (.inl hout)

/-- The first process waits on the word behind the last row of `g_dev_s`. -/
theorem not_softKept : ¬ ∀ (M : Machine) (k : Kernel maxProc) (σ : Snap maxProc) (a w : Word),
    σ.core = k.core → M.kernelData a = false → M.nucleus a = false → w ≠ 0 →
      (w.toInt < 0 → ∃ p, k.gCurrentProcess = some p ∧ σ.view.place p = .held) →
      SoftKept M k a w := by
  intro hall
  obtain ⟨σ, hσ, hcur⟩ := exists_boot_current
  have hkept := hall uarm (boot uarm).k σ 0x100C0 (-1) hσ (by decide) (by decide) (by decide)
    (fun _ => ⟨proc0, hcur⟩)
  have hcount : (runToStop (semop uarm 0x100C0 (-1)) (boot uarm : Config maxProc).k).k.gSoftBlockCount ≠
      (boot uarm : Config maxProc).k.gSoftBlockCount := by decide +kernel
  exact hcount hkept.run

end JaeOS
