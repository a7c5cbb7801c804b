import JaeOS.Refine.Handler

/-!
# What handlers leave alone

A `Footprint` is a property of the blocks and of the current process alone: it does not
look at the times, so it survives the time hooks by itself, and the walks of the last
modules carry it through whatever a handler does.
-/

namespace JaeOS

open Function (update)

variable {n : ℕ} {M : Machine} {k k' k₁ k₂ : Kernel n} {p q b : Fin n} {e : Entry}
  {cur : Option (Fin n)} {R R₀ : Kernel n → Prop} {E : Stop → Kernel n → Prop}
  {a w : Word}

/-- The same blocks, the same current process, and nothing read through `NULL`. -/
structure Face (k k' : Kernel n) : Prop where
  pcb : k'.pcb = k.pcb
  current : k'.gCurrentProcess = k.gCurrentProcess
  nullRead : k'.nullRead = k.nullRead

/-- Properties of the blocks and the current process that survive the changes of
the current process's own block, apart from its saved state. -/
structure Stable (R : Kernel n → Prop) : Prop where
  face : ∀ {k k'}, R k → Face k k' → R k'
  own : ∀ {k p f}, R k → k.gCurrentProcess = some p → (∀ c : Pcb, (f c).pS = c.pS) →
    R (k.setPcb p f)

/-- A property that survives the work of a handler, and leads to `E` on every way
out. -/
structure Footprint (M : Machine) (R : Kernel n → Prop) (E : Stop → Kernel n → Prop) : Prop
    extends Stable R where
  idle : ∀ {k}, R k → R { k with gCurrentProcess := none }
  stop : ∀ {k s}, R k → s.Plain → E s k
  back : ∀ {k p s}, R k → k.gCurrentProcess = some p → E (.ldst s) k
  leave : ∀ {k}, R k → k.gCurrentProcess = none → wp (scheduler M) (fun _ _ => False) E k

theorem Face.of_rest (h : k'.rest = k.rest) : Face k k' :=
  ⟨congrArg Rest.pcb h, congrArg Rest.gCurrentProcess h, congrArg Rest.nullRead h⟩

/-! ### The time hooks -/

namespace Stable

variable (hR : Stable R)

include hR

theorem charge {f : Pcb → Pcb} {t x : Word} (h : R k) (hp : k.gCurrentProcess = some p)
    (hf : ∀ c : Pcb, (f c).pS = c.pS) : R ((k.setPcb p f).updateTimer t x) :=
  hR.face (hR.own h hp hf) ⟨rfl, rfl, rfl⟩

theorem onEnter (h : R k) : R (k.onEnter M) := by
  rcases Option.eq_none_or_eq_some k.gCurrentProcess with hp | ⟨p, hp⟩
  · rw [onEnter_none hp]
    exact hR.face h ⟨rfl, rfl, rfl⟩
  · rw [onEnter_some hp]
    have htods : R { k with tods := k.tods + 1 } := hR.face h ⟨rfl, rfl, rfl⟩
    exact hR.charge htods hp (fun _ => rfl)

theorem onExit (flag : Bool) (h : R k) : R (k.onExit M flag) := by
  rcases onExit_cases k flag with hfree | ⟨rfl, p, hp⟩
  · rw [onExit_free hfree]
    exact hR.face h ⟨rfl, rfl, rfl⟩
  · rw [onExit_some hp]
    have htods : R { k with tods := k.tods + 1 } := hR.face h ⟨rfl, rfl, rfl⟩
    exact hR.charge htods hp (fun _ => rfl)

theorem enter (h : With R cur k) :
    wp (getTODLO M >>= onHandlerEnter)
      (fun _ k' => With R cur k' ∧ k'.core = k.core ∧ Beside k k') E k := by
  refine wp_and ?_ (wp_enter (fun k' hcore hb => ⟨hcore, hb⟩))
  exact wp_onEnter.mpr ⟨hR.onEnter h.1, onEnter_current.trans h.2⟩

end Stable

/-! ### Functions -/

namespace Footprint

/-- **A footprint is a walk.** -/
theorem walk (hF : Footprint M R E) : Walk M Set.univ Set.univ R E where
  rest h hr := hF.face h (.of_rest hr)
  read h := hF.face h ⟨rfl, rfl, rfl⟩
  exit flag h := hF.toStable.onExit flag h
  own := by
    intro k p f h hp hf
    have hset : k.setPcb p f = k.setPcb p fun c => { f (k.pcb p) with pS := c.pS } := by
      rw [Kernel.setPcb, Kernel.setPcb, ← hf.pS]
    rw [hset]
    exact hF.own h hp (fun _ => rfl)
  idle := hF.idle
  stop := hF.stop

theorem handleTimer (hF : Footprint M R E) (h : With R cur k)
    (hnone : cur = none → (∀ k', R k' → R { k' with nullRead := true }) ∧
      ∀ k', R k' → E (.fault .nullQueued) k') :
    wp (handleTimer M) (fun _ => R) E k := by
  have ho : TickOpen R := ⟨fun _ h => hF.face h ⟨rfl, rfl, rfl⟩, fun _ h => hF.face h ⟨rfl, rfl, rfl⟩⟩
  rw [JaeOS.handleTimer]
  apply (hF.walk.pseudoClock ho).seq h
  intro _ k₁ h₁
  cases cur with
  | none =>
    obtain ⟨hnull, hqueued⟩ := hnone rfl
    exact wp_mono (hF.walk.timeSlice_none h₁ hnull hqueued) (fun _ _ h => h.1) (fun _ _ h => h)
  | some p => exact wp_mono (hF.walk.timeSlice h₁) (fun _ _ h => h.keeps) (fun _ _ h => h)

/-- **The eleven system calls.** -/
theorem defSys (hF : Footprint M R E) (h : With R (some p) k)
    (hspare : k.sysbold.a1 = createProcessNr →
      ∀ b, k.core.spare = some b → ∀ k' f, R k' → R (k'.setPcb b f)) :
    wp (defSys M) (fun _ => R) E k := by
  have ho : SysOpen Set.univ Set.univ R k k.sysbold :=
    ⟨hspare, fun _ _ h => hF.face h ⟨rfl, rfl, rfl⟩, fun _ _ _ => trivial, fun _ _ => trivial,
      fun _ _ h => hF.face h ⟨rfl, rfl, rfl⟩⟩
  exact wp_mono (hF.walk.defSys h ho) (fun _ _ h => h.keeps) (fun _ _ h => h)

theorem sysAboveBP (hF : Footprint M R E) (h : With R (some p) k) :
    wp (sysAboveBP M) (fun _ => R) E k :=
  wp_mono (hF.walk.sysAboveBP h trivial) (fun _ _ h => h.keeps) (fun _ _ h => h)

theorem leaveHandler (hF : Footprint M R E) (h : R k) :
    wp (leaveHandler M) (fun _ _ => False) E k := by
  rw [JaeOS.leaveHandler, wp_bind, wp_get]
  cases hp : k.gCurrentProcess with
  | none => exact hF.leave h hp
  | some p =>
    simp only [ldstStateLoaded, wp_bind, wp_get]
    split
    · exact hF.back h hp
    · exact hF.stop h trivial

theorem exit (hF : Footprint M R E) {flag : Bool} (h : R k) :
    wp (getTODLO M >>= fun t => onHandlerExit t flag) (fun _ => R) E k :=
  wp_onExit.mpr (hF.toStable.onExit flag h)

/-- **The sub-handler of program traps and TLB exceptions.** -/
theorem commonSubHandler (hR : Stable R₀) (hF : Footprint M R E) {check : Hdl} (h : R₀ k)
    (hsave : ∀ k' q, R₀ k' → k'.gCurrentProcess = some q → k'.romArea check = k.romArea check →
      R (k'.setPcb q fun c => { c with pS := k'.romArea check }))
    (hlost : ∀ k', R₀ k' → k'.gCurrentProcess = none → E (.fault .noCurrent) k') :
    wp (commonSubHandler M check) (fun _ => R) E k := by
  have hrest : ∀ k', R₀ k' → k'.romArea check = k.romArea check →
      wp (passUp M check >>= fun _ => getTODLO M >>= fun t => onHandlerExit t false)
        (fun _ => R) E k' := by
    intro k' h' hrom
    rw [wp_bind]
    cases hp : k'.gCurrentProcess with
    | none =>
      rw [passUp, wp_bind, wp_current_none hp]
      exact hlost k' h' hp
    | some p =>
      refine wp_mono (hF.walk.passUp hp (hsave k' p h' hp hrom) trivial) ?_ (fun _ _ h => h)
      intro _ k₁ h₁
      exact hF.exit h₁.keeps
  cases hby : k.bySysHdl with
  | true =>
    rw [wp_commonSubHandler_true hby]
    exact hrest _ (hR.face h ⟨rfl, rfl, rfl⟩) (by cases check <;> rfl)
  | false =>
    rw [wp_commonSubHandler_false hby]
    exact hrest _ (hR.onEnter h) (onEnter_romArea check)

theorem userModeSys (hF : Footprint M R E) (h : With R (some p) k)
    (huser : ∀ k' q x, R k' → k'.gCurrentProcess = some q →
      R (k'.setPcb q fun c => { c with pS := x })) :
    wp (userModeSys M) (fun _ => R) E k := by
  have hback : Backs M R E p := fun k' s flag h' hp =>
    hF.back (hF.toStable.onExit flag h') ((onExit_current flag).trans hp)
  exact wp_mono (hF.walk.userModeSys h trivial (fun _ h => hF.face h ⟨rfl, rfl, rfl⟩)
    (fun k' x h' => huser k' p x h'.1 h'.2) (fun _ => hback) (fun _ _ h hp => hF.leave h hp))
    (fun _ _ h => h.elim) (fun _ _ h => h)

/-- **The `EXC_SYSCALL` branch of `sysBP_Handler`.** -/
theorem sysCall (hF : Footprint M R E) (h : With R (some p) k)
    (huser : (createProcessNr ≤ k.sysbold.a1 ∧ k.sysbold.a1 ≤ getPidNr) →
      M.kernelMode k.sysbold.cpsr = false → ∀ k' q x, R k' → k'.gCurrentProcess = some q →
      R (k'.setPcb q fun c => { c with pS := x }))
    (hspare : M.kernelMode k.sysbold.cpsr = true → k.sysbold.a1 = createProcessNr →
      ∀ b, k.core.spare = some b → ∀ k' f, R k' → R (k'.setPcb b f)) :
    wp (sysCall M) (fun _ => R) E k := by
  rw [JaeOS.sysCall, ← bind_assoc, wp_bind]
  refine wp_mono (hF.toStable.enter h) ?_ (fun _ _ h => h)
  rintro _ k₁ ⟨h₁, hcore, hb⟩
  have hspare₁ : k₁.core.spare = k.core.spare := congrArg Core.spare hcore
  rw [← hb.sysbold] at huser hspare
  rw [wp_bind, wp_get, wp_bind]
  refine wp_mono (Q := fun _ => R) ?_ (fun _ k₂ h₂ => hF.exit h₂) (fun _ _ h => h)
  split_ifs with hrange hmode
  · exact hF.defSys h₁ (by rw [hspare₁]; exact hspare hmode)
  · exact hF.userModeSys h₁ (huser hrange (by simpa using hmode))
  · exact hF.sysAboveBP h₁

theorem breakpoint (hF : Footprint M R E) (h : With R (some p) k) :
    wp (breakpoint M) (fun _ => R) E k := by
  rw [JaeOS.breakpoint, ← bind_assoc, wp_bind]
  refine wp_mono (hF.toStable.enter h) ?_ (fun _ _ h => h)
  rintro _ k₁ ⟨h₁, -, -⟩
  rw [wp_bind]
  exact wp_mono (hF.sysAboveBP h₁) (fun _ k₂ h₂ => hF.exit h₂) (fun _ _ h => h)

end Footprint

end JaeOS
