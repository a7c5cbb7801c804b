import JaeOS.Properties.SemopEffect

/-!
# The value of a semaphore is an `int`

`semop` adds the weight to the value and subtracts the requests it serves.  The sum is exact as
an unsigned word, but it is stored as an `int`, and nothing checks that it is one.
-/

namespace JaeOS

open Function (update)

variable {n : ℕ} {M : Machine} {k k' : Kernel n} {σ σ' : Snap n} {a w : Word} {j : ℕ}

/-! ### The property -/

/-- After SYS3 with the weight `w` the value is the integer `v + w` without the requests of the
`j` processes awakened, and a later request that is not larger is granted at once when nobody
waits. -/
structure Exact (M : Machine) (a w : Word) (j : ℕ) (k k' : Kernel n) (σ σ' : Snap n) : Prop where
  served : Served M (M.isDev a) a w j k k' σ σ'
  nonneg : 0 ≤ (k'.mem a).toInt
  value : (k'.mem a).toInt = (k.mem a).toInt + w.toInt - k.asked σ a j
  later : ∀ y : Word, y.toInt < 0 → -y.toInt ≤ (k.mem a).toInt + w.toInt - k.asked σ a j →
    σ'.waiting a = [] →
    semop M a y k' = .ok () (k'.put M a (k'.mem a + y))

/-- SYS3 keeps the arithmetic exact. -/
def SemopExact (M : Machine) (k : Kernel n) (σ : Snap n) (a w : Word) : Prop :=
  ∃ k' σ' j, semop M a w k = .ok () k' ∧ Exact M a w j k k' σ σ'

/-! ### When it is exact -/

theorem toInt_of_lt {x : Word} (h : x.toNat < 2 ^ 31) : x.toInt = x.toNat :=
  BitVec.toInt_eq_toNat_of_lt (by omega)

theorem Served.exact_iff (h : Served M (M.isDev a) a w j k k' σ σ') (ha : M.kernelData a = false)
    (hv : 0 ≤ (k.mem a).toInt) (hw : 0 < w.toInt) :
    Exact M a w j k k' σ σ' ↔ (k.mem a).toInt + w.toInt - k.asked σ a j ≤ 2147483647 := by
  have hsum := h.value
  have hvn := toInt_of_nonneg hv
  have hwn := toInt_of_nonneg hw.le
  constructor
  · intro hex
    have hlt := (k'.mem a).toInt_lt
    have := hex.value
    omega
  · intro hle
    have hint : (k'.mem a).toInt = (k'.mem a).toNat := toInt_of_lt (by omega)
    refine ⟨h, by omega, by omega, fun y hy hless hnil => ?_⟩
    refine semop_grant h.core ha hy hnil ?_
    rw [toInt_add_of_signs (by omega) hy]
    omega

/-- **The arithmetic of SYS3 is exact if and only if the sum is an `int`**: the value and the
weight, without the requests of the longest part of the queue they are enough for. -/
theorem semopExact_iff (hσ : σ.core = k.core) (ha : M.kernelData a = false)
    (hv : 0 ≤ (k.mem a).toInt) (hw : 0 < w.toInt) :
    SemopExact M k σ a w ↔
      ∀ j, IsGreatest (k.Affordable σ a ((k.mem a).toNat + w.toNat)) j →
        (k.mem a).toInt + w.toInt - k.asked σ a j ≤ 2147483647 := by
  obtain ⟨k', σ', j, hrun, h⟩ := semop_served hσ ha hw (toNat_add_lt hv hw)
  constructor
  · rintro ⟨k₁, σ₁, i, -, hex⟩ j' hj'
    obtain rfl : i = j' := hex.served.most.unique hj'
    exact (hex.served.exact_iff ha hv hw).mp hex
  · intro hle
    exact ⟨k', σ', j, hrun, (h.exact_iff ha hv hw).mpr (hle j h.most)⟩

/-! ### Two values -/

/-- The first process runs, and has left `v` in every word of its memory. -/
def startWith (v : Word) : Kernel maxProc :=
  (boot uarm : Config maxProc).k.atEntry uarm { timerInterrupt with mem := fun _ => v }

theorem exists_startWith (v : Word) : ∃ σ : Snap maxProc, σ.core = (startWith v).core ∧
    σ.waiting 0x20000 = [] := by
  obtain ⟨σ, s, hb, -, hi⟩ := between_boot layout_uarm
  refine ⟨σ.atEntry uarm _, Snap.atEntry_core hb.core, List.eq_nil_iff_forall_not_mem.mpr ?_⟩
  intro q hq
  have hpl : σ.view.place q = .sem 0x20000 := (σ.view.mem _ q).mp hq
  rw [hi.place q] at hpl
  split_ifs at hpl

theorem asked_one {p : Fin n} (hwait : σ.waiting a = [p]) :
    k.asked σ a 1 = (k.resRequested p).toNat := by
  simp [Kernel.asked, hwait]

/-- One waiter, and enough for it. -/
theorem affordable_one {p : Fin n} {r : ℕ} (hwait : σ.waiting a = [p])
    (hr : (k.resRequested p).toNat ≤ r) : IsGreatest (k.Affordable σ a r) 1 := by
  refine ⟨⟨by simp [hwait], fun i hi => ?_⟩, fun i hi => by simpa [hwait] using hi.1⟩
  have hcases : i = 0 ∨ i = 1 := by omega
  rcases hcases with rfl | rfl
  · simp [Kernel.asked]
  · rwa [asked_one hwait]

/-- The value is 1 and the weight the largest `int`, and the waiter takes a unit. -/
theorem semopExact_served : ∃ (σ : Snap maxProc) (p : Fin maxProc),
    σ.core = (withWaiter 1).core ∧ σ.waiting 0x20000 = [p] ∧ (withWaiter 1).resRequested p = 1 ∧
      SemopExact uarm (withWaiter 1) σ 0x20000 0x7FFFFFFF := by
  obtain ⟨σ, p, hσ, -, hwait, hreq, -⟩ := exists_withWaiter 1
  refine ⟨σ, p, hσ, hwait, hreq, ?_⟩
  refine (semopExact_iff hσ (by decide) (by rw [withWaiter_mem]; decide) (by decide)).mpr ?_
  intro j hj
  have hone : (withWaiter 1).asked σ 0x20000 1 = 1 := by
    rw [asked_one hwait, hreq]
    rfl
  obtain rfl : j = 1 := hj.unique (affordable_one hwait (by rw [hreq, withWaiter_mem]; decide))
  rw [withWaiter_mem, hone]
  decide

/-- A `V` on a semaphore with the largest value. -/
theorem not_semopExact : ¬ ∀ (M : Machine) (n : ℕ) (k : Kernel n) (σ : Snap n) (a w : Word),
    σ.core = k.core → M.kernelData a = false → 0 ≤ (k.mem a).toInt → 0 < w.toInt →
      SemopExact M k σ a w := by
  intro hall
  obtain ⟨σ, hσ, hnil⟩ := exists_startWith 0x7FFFFFFF
  have hv : (startWith 0x7FFFFFFF).mem 0x20000 = 0x7FFFFFFF := by decide +kernel
  obtain ⟨k', σ', j, -, hex⟩ :=
    hall uarm maxProc (startWith 0x7FFFFFFF) σ 0x20000 1 hσ (by decide) (by rw [hv]; decide) (by decide)
  have hasked : (startWith 0x7FFFFFFF).asked σ 0x20000 j = 0 := by
    rw [Kernel.asked, hnil, List.take_nil]
    rfl
  have hvalue := hex.value
  have hlt := (k'.mem 0x20000).toInt_lt
  rw [hv, hasked] at hvalue
  have hone : (0x7FFFFFFF : Word).toInt + (1 : Word).toInt = 2147483648 := by decide
  rw [hone] at hvalue
  omega

end JaeOS
