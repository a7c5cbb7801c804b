import JaeOS.Refine.Effect
import JaeOS.Properties.Uarm

/-!
# Time slices

`p_time_slice` is an unsigned counter, and every entry takes the time since the last one
off it.  Only the interval timer looks at the result.  An entry that comes later than the
end of the slice, and does not take the processor away from the process, leaves the
counter far above `SCHED_TIME_SLICE`.
-/

namespace JaeOS

variable {n : ℕ} {M : Machine} {c : Config maxProc} {ok : Kernel maxProc → Entry → Prop} {used : ℕ}

/-! ### The property -/

/-- The microseconds from the last time hook of a handler to the first one of the next. -/
def Kernel.ran (M : Machine) (k : Kernel n) : ℕ := M.tod k.tods - M.tod (k.tods - 1)

/-- **The runs of the kernel**, with the time that the current process has been running
since its last dispatch.  A process is dispatched when the one before it has left, or when
there was none. -/
inductive Slices (M : Machine) (ok : Kernel maxProc → Entry → Prop) : Config maxProc → ℕ → Prop
  | boot : Slices M ok (boot M) 0
  | stay {c : Config maxProc} {used : ℕ} {ev : Event} {p : Fin maxProc} (h : Slices M ok c used)
      (htake : CanTake c ev) (hok : ok (c.k.atEntry M ev) ev.entry)
      (hp : c.k.gCurrentProcess = some p) (hstay : ¬ (c.k.atEntry M ev).Leaves M p ev.entry) :
      Slices M ok (step M c ev) (used + c.k.ran M)
  | dispatch {c : Config maxProc} {used : ℕ} {ev : Event} (h : Slices M ok c used)
      (htake : CanTake c ev) (hok : ok (c.k.atEntry M ev) ev.entry)
      (hleft : ∀ p, c.k.gCurrentProcess = some p → (c.k.atEntry M ev).Leaves M p ev.entry) :
      Slices M ok (step M c ev) 0

/-- Control is given to a process with the unused part of its time slice, and the timer
set to it or to the rest of the pseudo-clock interval, whichever comes first. -/
def Config.Sliced (c : Config n) (used : ℕ) : Prop :=
  ∀ x, c.stop = .ldst x → ∃ p, c.k.gCurrentProcess = some p ∧
    (c.k.pcb p).pTimeSlice.toNat + used = schedTimeSlice.toNat ∧
    c.k.timer.toNat = min c.k.gLeftTo100.toNat (c.k.pcb p).pTimeSlice.toNat

/-- An entry that comes before the end of the time slice, or takes the processor away; and
that does not hand out the block of the process it comes from. -/
def Kernel.InTime (k : Kernel n) (M : Machine) (e : Entry) : Prop :=
  ∀ p, k.gCurrentProcess = some p → ¬ k.Leaves M p e →
    k.ran M ≤ (k.pcb p).pTimeSlice.toNat ∧ k.born M e ≠ some p

/-! ### One entry -/

theorem Handed.timer_eq {s : Stop} {k : Kernel n} {p : Fin n} (h : Handed M s k)
    (hp : k.gCurrentProcess = some p) :
    k.timer.toNat = min k.gLeftTo100.toNat (k.pcb p).pTimeSlice.toNat := by
  have hshot : k.shot =
      if k.gLeftTo100 < (k.pcb p).pTimeSlice then k.gLeftTo100 else (k.pcb p).pTimeSlice := by
    rw [Kernel.shot, hp]
  rw [h.timer, hshot]
  split_ifs with hlt
  · exact (Nat.min_eq_left (BitVec.le_of_lt hlt)).symm
  · exact (Nat.min_eq_right (BitVec.not_lt.mp hlt)).symm

/-- What the first time hook computes is the time the process has been running. -/
theorem Handed.elapsed {s : Stop} {k : Kernel n} (hmono : Monotone M.tod) (h : Handed M s k) :
    k.elapsed M = BitVec.ofNat 32 (k.ran M) := by
  rw [Kernel.elapsed, h.hooked, ofNat_sub_ofNat (hmono (Nat.sub_le _ 1)), Kernel.ran]

theorem toNat_sub_ofNat {x : Word} {d : ℕ} (h : d ≤ x.toNat) :
    (x - BitVec.ofNat 32 d).toNat = x.toNat - d := by
  have hlt : d < 2 ^ 32 := h.trans_lt x.isLt
  have hd : (BitVec.ofNat 32 d).toNat = d := Nat.mod_eq_of_lt hlt
  rw [BitVec.toNat_sub_of_le (by rw [BitVec.le_def, hd]; exact h), hd]

/-- **An entry in time** leaves the process what is left of its time slice. -/
theorem Config.Sliced.stay {ev : Event} {p : Fin maxProc} (hmono : Monotone M.tod) (hr : Ready M c)
    (h : c.Sliced used) (htake : CanTake c ev) (hp : c.k.gCurrentProcess = some p)
    (hstay : ¬ (c.k.atEntry M ev).Leaves M p ev.entry)
    (hok : (c.k.atEntry M ev).InTime M ev.entry) :
    (step M c ev).Sliced (used + c.k.ran M) := by
  obtain ⟨hle, hborn⟩ := hok p hp hstay
  have hhanded := hr.handed htake.live
  have hrun : ∃ x, c.stop = .ldst x := by
    rcases htake.live with hx | hw
    · exact hx
    · exact absurd ((hhanded.idle hw).symm.trans hp) (by simp)
  obtain ⟨x₀, hx₀⟩ := hrun
  obtain ⟨q, hq, hslice, -⟩ := h x₀ hx₀
  obtain rfl : p = q := Option.some.inj (hp.symm.trans hq)
  intro x hx
  have hpass := hr.step htake (.inl ⟨x, hx⟩)
  obtain ⟨hcur, hkeep⟩ := hpass.stays p hp hstay
  refine ⟨p, hcur, ?_, hpass.timer_eq hcur⟩
  have helapsed : c.k.elapsed M = BitVec.ofNat 32 (c.k.ran M) := hhanded.elapsed hmono
  have hentered : ((Kernel.onEnter M (c.k.atEntry M ev)).pcb p).pTimeSlice =
      (c.k.pcb p).pTimeSlice - BitVec.ofNat 32 (c.k.ran M) := by
    have hp' : (c.k.atEntry M ev).gCurrentProcess = some p := hp
    rw [onEnter_pcb, if_pos hp', ← helapsed]
    rfl
  have hle' : c.k.ran M ≤ (c.k.pcb p).pTimeSlice.toNat := hle
  rw [hkeep hborn, hentered, toNat_sub_ofNat hle']
  omega

/-- An entry that comes later, and returns to the process, leaves it more than it had. -/
theorem Config.Sliced.late {ev : Event} {p : Fin maxProc} {x x' : ProcState} (h : c.Sliced used)
    (hx : c.stop = .ldst x) (hp : c.k.gCurrentProcess = some p)
    (hlate : (c.k.pcb p).pTimeSlice.toNat < c.k.ran M) (hx' : (step M c ev).stop = .ldst x') :
    ¬ (step M c ev).Sliced (used + c.k.ran M) := by
  intro h'
  obtain ⟨q, hq, hslice, -⟩ := h x hx
  obtain rfl : p = q := Option.some.inj (hp.symm.trans hq)
  obtain ⟨q', -, hslice', -⟩ := h' x' hx'
  omega

/-! ### Runs -/

theorem slices_ready (h : Slices M ok c used) : Ready M c := by
  induction h with
  | boot => exact ready_boot
  | stay _ htake _ _ _ ih => exact ih.next htake
  | dispatch _ htake _ _ ih => exact ih.next htake

/-- **The time-slice bound.**  In every run in which each entry comes before the end of the
time slice or takes the processor away, control is given to a process with the unused part
of its slice. -/
theorem slices_sliced (hmono : Monotone M.tod)
    (h : Slices M (fun k e => k.InTime M e) c used) : c.Sliced used := by
  induction h with
  | boot =>
    intro x hx
    have hb := booted_boot (n := maxProc) (M := M) (.inl ⟨x, hx⟩)
    obtain ⟨p, hp⟩ := hb.running x hx
    exact ⟨p, hp, by rw [hb.fresh p hp, Nat.add_zero], hb.timer_eq hp⟩
  | @stay c used ev p hrun htake hok hp hstay ih =>
    exact ih.stay hmono (slices_ready hrun) htake hp hstay hok
  | @dispatch c used ev hrun htake hok hleft ih =>
    intro x hx
    have hpass := (slices_ready hrun).step htake (.inl ⟨x, hx⟩)
    obtain ⟨p, hp⟩ := hpass.running x hx
    exact ⟨p, hp, by rw [hpass.fresh hleft p hp, Nat.add_zero], hpass.timer_eq hp⟩

theorem not_leaves_getPid {k : Kernel n} {p : Fin n} :
    ¬ k.Leaves uarm p (sys getPidNr 0 0 0).entry := by
  let old : ProcState := { ProcState.zero with
    a1 := getPidNr, a2 := 0, a3 := 0, a4 := 0, cpsr := 0x1F, cp15Cause := 8 }
  have hsys : uarm.causeExcCodeGet old.cp15Cause = uarm.excSyscall ∧ createProcessNr ≤ old.a1 ∧
      old.a1 ≤ getPidNr := by decide
  have hmode : uarm.kernelMode old.cpsr = true := by decide
  change ¬ k.Leaves uarm p (.sysBP old)
  rw [Kernel.Leaves, if_pos hsys, if_pos hmode]
  exact not_false

/-- `uarm`, with `d` microseconds between two readings of the clock. -/
def uarmEvery (d : ℕ) : Machine := { uarm with tod := fun i => d * i }

/-- The first process asks for its pid, well before the end of its time slice. -/
theorem slices_sliced_getPid : ∃ c : Config maxProc, (∃ x, c.stop = .ldst x) ∧ c.Sliced 100 := by
  have hp : (boot (uarmEvery 100) : Config maxProc).k.gCurrentProcess = some proc0 := by decide +kernel
  have htake : CanTake (boot (uarmEvery 100) : Config maxProc) (sys getPidNr 0 0 0) :=
    Config.canTake_iff.mp (by decide +kernel)
  have hok : ((boot (uarmEvery 100) : Config maxProc).k.atEntry (uarmEvery 100) (sys getPidNr 0 0 0)).InTime
      (uarmEvery 100) (sys getPidNr 0 0 0).entry := by
    intro p hp' _
    obtain rfl : proc0 = p := Option.some.inj (hp.symm.trans hp')
    exact ⟨by decide +kernel, by decide +kernel⟩
  have hrun : Slices (uarmEvery 100) (fun k e => k.InTime (uarmEvery 100) e) _ _ :=
    .stay .boot htake hok hp not_leaves_getPid
  refine ⟨step (uarmEvery 100) (boot (uarmEvery 100)) (sys getPidNr 0 0 0), ?_, ?_⟩
  · have hnext : CanTake (step (uarmEvery 100) (boot (uarmEvery 100) : Config maxProc) (sys getPidNr 0 0 0))
        (sys getPidNr 0 0 0) := Config.canTake_iff.mp (by decide +kernel)
    exact hnext.resolve_right (fun h => absurd h.2 (by decide))
  · have hused : 0 + (boot (uarmEvery 100) : Config maxProc).k.ran (uarmEvery 100) = 100 := by decide +kernel
    rw [← hused]
    exact slices_sliced (fun _ _ h => Nat.mul_le_mul_left 100 h) hrun

/-- The same question after the end of the time slice: the rest of the slice wraps around. -/
theorem not_sliced : ¬ ∀ (M : Machine) (c : Config maxProc) (used : ℕ), Monotone M.tod →
    Slices M (fun _ _ => True) c used → c.Sliced used := by
  intro hall
  have hp : (boot uarm : Config maxProc).k.gCurrentProcess = some proc0 := by decide +kernel
  have htake : CanTake (boot uarm : Config maxProc) (sys getPidNr 0 0 0) :=
    Config.canTake_iff.mp (by decide +kernel)
  have hrun : Slices uarm (fun _ _ => True) _ _ := .stay .boot htake trivial hp not_leaves_getPid
  have hnext : CanTake (step uarm (boot uarm : Config maxProc) (sys getPidNr 0 0 0))
      (sys getPidNr 0 0 0) := Config.canTake_iff.mp (by decide +kernel)
  obtain ⟨x, hx⟩ := hnext.resolve_right (fun h => absurd h.2 (by decide))
  obtain ⟨p, -, hslice, -⟩ := hall _ _ _ (fun _ _ h => Nat.mul_le_mul_left 6000 h) hrun x hx
  have hused : (boot uarm : Config maxProc).k.ran uarm = 6000 := by decide +kernel
  have hslot : schedTimeSlice.toNat = 5000 := rfl
  omega

end JaeOS
