import JaeOS.Lib.Exec

/-!
# Two runs that end alike

`Twin E S x y s t` says that the run of `x` from `s` and the run of `y` from `t` both
return, the same value, in states related by `S`, or both stop with the same exception, in
states related by `E`.  A program is in `Lockstep` if two runs of it do, from any two states
related by `R`.
-/

variable {ε σ α β : Type}

/-- The run of `x` from `s` ends as the run of `y` from `t`. -/
def Twin (E : σ → σ → Prop) (S : α → σ → σ → Prop) (x y : EStateM ε σ α) (s t : σ) : Prop :=
  wp x (fun a s' => wp y (fun b t' => a = b ∧ S a s' t') (fun _ _ => False) t)
    (fun e s' => wp y (fun _ _ => False) (fun e' t' => e = e' ∧ E s' t') t) s

/-- Two runs of `x` from related states end alike. -/
def Lockstep (E R : σ → σ → Prop) (S : α → σ → σ → Prop) (x : EStateM ε σ α) : Prop :=
  ∀ s t, R s t → Twin E S x x s t

section Twin

variable {E : σ → σ → Prop} {S : α → σ → σ → Prop} {S' : β → σ → σ → Prop}
  {x y z : EStateM ε σ α} {f g : α → EStateM ε σ β} {s t s' t' : σ}

/-- **Sequence.** -/
theorem Twin.bind (h : Twin E S x y s t)
    (hf : ∀ a s' t', S a s' t' → Twin E S' (f a) (g a) s' t') :
    Twin E S' (x >>= f) (y >>= g) s t := by
  rw [Twin, wp_bind]
  refine wp_mono h (fun a s' hs => ?_) (fun e s' hs => ?_)
  · obtain ⟨b, t', hyt, rfl, hst⟩ := wp_false hs
    have hrun : ∀ {Q : β → σ → Prop} {F : ε → σ → Prop},
        wp (y >>= g) Q F t ↔ wp (g a) Q F t' := by
      intro Q F
      rw [wp_bind, wp_of_ok hyt]
    exact wp_mono (hf a s' t' hst) (fun _ _ => hrun.mpr) (fun _ _ => hrun.mpr)
  · rw [wp_bind]
    exact wp_mono hs (fun _ _ h => h.elim) (fun _ _ h => h)

theorem Twin.of_run (h : Twin E S z z s' t') (hx : ∀ Q F, wp z Q F s' → wp x Q F s)
    (hy : ∀ Q F, wp z Q F t' → wp y Q F t) : Twin E S x y s t := by
  refine hx _ _ (wp_mono h (fun a s'' hs => ?_) (fun e s'' hs => ?_))
  · exact hy _ _ hs
  · exact hy _ _ hs

theorem Twin.stops (h : Twin E (fun _ _ _ => False) x y s t) :
    ∃ e s' t', x s = .error e s' ∧ y t = .error e t' ∧ E s' t' := by
  rw [Twin] at h
  cases hx : x s with
  | ok a s' =>
    rw [wp_of_ok hx] at h
    obtain ⟨b, t', -, -, hfalse⟩ := wp_false h
    exact hfalse.elim
  | error e s' =>
    rw [wp_of_error hx] at h
    cases hy : y t with
    | ok b t' =>
      rw [wp_of_ok hy] at h
      exact h.elim
    | error e' t' =>
      rw [wp_of_error hy] at h
      obtain ⟨rfl, hE⟩ := h
      exact ⟨e, s', t', rfl, rfl, hE⟩

end Twin

namespace Lockstep

variable {E R R' : σ → σ → Prop} {S : α → σ → σ → Prop} {S' : β → σ → σ → Prop}
  {x y : EStateM ε σ α} {f : α → EStateM ε σ β} {a : α} {e : ε}

theorem pure (h : ∀ s t, R s t → S a s t) : Lockstep E R S (pure a : EStateM ε σ α) :=
  fun s t hst => ⟨rfl, h s t hst⟩

theorem throw (h : ∀ s t, R s t → E s t) : Lockstep E R S (throw e : EStateM ε σ α) :=
  fun s t hst => ⟨rfl, h s t hst⟩

theorem modify {g : σ → σ} {S : PUnit → σ → σ → Prop} (h : ∀ s t, R s t → S ⟨⟩ (g s) (g t)) :
    Lockstep E R S (modify g : EStateM ε σ PUnit) :=
  fun s t hst => ⟨rfl, h s t hst⟩

/-- **Sequence.** -/
theorem bind (hx : Lockstep E R S x) (hf : ∀ a, Lockstep E (S a) S' (f a)) :
    Lockstep E R S' (x >>= f) :=
  fun s t hst => (hx s t hst).bind hf

theorem get_twin {f : σ → EStateM ε σ α} (heq : ∀ s t, R s t → f s = f t)
    (hf : ∀ s t, R s t → Twin E S (f s) (f s) s t) : Lockstep E R S (MonadState.get >>= f) := by
  intro s t hst
  have hrun := hf s t hst
  rw [Twin, wp_bind, wp_get]
  refine wp_mono hrun (fun a s' h => ?_) (fun e s' h => ?_)
  · rw [wp_bind, wp_get, ← heq s t hst]
    exact h
  · rw [wp_bind, wp_get, ← heq s t hst]
    exact h

theorem get_bind {f : σ → EStateM ε σ α} (heq : ∀ s t, R s t → f s = f t)
    (hf : ∀ s, Lockstep E R S (f s)) : Lockstep E R S (MonadState.get >>= f) :=
  get_twin heq fun s t => hf s s t

theorem ite {c : Prop} [Decidable c] (hx : c → Lockstep E R S x) (hy : ¬ c → Lockstep E R S y) :
    Lockstep E R S (if c then x else y) := by
  split
  · exact hx ‹_›
  · exact hy ‹_›

end Lockstep
