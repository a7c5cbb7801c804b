import JaeOS.Lib.Exec

/-!
# Two programs side by side

`Both S E x y s t` says that the run of `x` from `s` and the run of `y` from `t` both return,
with values and states related by `S`, or both stop, with exceptions and states related by
`E`.  `Relates R S E x y` says so for all states related by `R`.  The rules take the two programs
apart step by step.  Unlike in a lockstep, neither the programs nor what they return and stop
with have to be the same.
-/

variable {ε ε' σ τ α α' β β' : Type}

/-- The run of `x` from `s` and the run of `y` from `t` end in related states. -/
def Both (S : α → α' → σ → τ → Prop) (E : ε → ε' → σ → τ → Prop) (x : EStateM ε σ α)
    (y : EStateM ε' τ α') (s : σ) (t : τ) : Prop :=
  wp x (fun a s' => wp y (fun b t' => S a b s' t') (fun _ _ => False) t)
    (fun e s' => wp y (fun _ _ => False) (fun e' t' => E e e' s' t') t) s

/-- Runs of `x` and `y` from related states end in related states. -/
def Relates (R : σ → τ → Prop) (S : α → α' → σ → τ → Prop) (E : ε → ε' → σ → τ → Prop)
    (x : EStateM ε σ α) (y : EStateM ε' τ α') : Prop :=
  ∀ s t, R s t → Both S E x y s t

namespace Both

variable {S S' : α → α' → σ → τ → Prop} {T : β → β' → σ → τ → Prop}
  {E E' : ε → ε' → σ → τ → Prop} {x z : EStateM ε σ α} {y w : EStateM ε' τ α'}
  {f : α → EStateM ε σ β} {g : α' → EStateM ε' τ β'} {s s' : σ} {t t' : τ}

/-- **Consequence.** -/
theorem mono (h : Both S E x y s t) (hS : ∀ a b s t, S a b s t → S' a b s t)
    (hE : ∀ e e' s t, E e e' s t → E' e e' s t) : Both S' E' x y s t := by
  refine wp_mono h (fun a s' hs => ?_) (fun e s' hs => ?_)
  · exact wp_mono hs (fun b t' ht => hS a b s' t' ht) (fun _ _ h => h)
  · exact wp_mono hs (fun _ _ h => h) (fun e' t' ht => hE e e' s' t' ht)

/-- **Sequence.** -/
theorem bind (h : Both S E x y s t) (hf : ∀ a b s' t', S a b s' t' → Both T E (f a) (g b) s' t') :
    Both T E (x >>= f) (y >>= g) s t := by
  rw [Both, wp_bind]
  refine wp_mono h (fun a s' hs => ?_) (fun e s' hs => ?_)
  · obtain ⟨b, t', hyt, hst⟩ := wp_false hs
    have hrun : ∀ {Q : β' → τ → Prop} {F : ε' → τ → Prop},
        wp (y >>= g) Q F t ↔ wp (g b) Q F t' := by
      intro Q F
      rw [wp_bind, wp_of_ok hyt]
    exact wp_mono (hf a b s' t' hst) (fun _ _ => hrun.mpr) (fun _ _ => hrun.mpr)
  · rw [wp_bind]
    exact wp_mono hs (fun _ _ h => h.elim) (fun _ _ h => h)

theorem of_run (h : Both S E z w s' t') (hx : ∀ Q F, wp z Q F s' → wp x Q F s)
    (hy : ∀ Q F, wp w Q F t' → wp y Q F t) : Both S E x y s t := by
  refine hx _ _ (wp_mono h (fun a s'' hs => ?_) (fun e s'' hs => ?_))
  · exact hy _ _ hs
  · exact hy _ _ hs

theorem get_bind {f : σ → EStateM ε σ β} {g : τ → EStateM ε' τ β'} (h : Both T E (f s) (g t) s t) :
    Both T E (MonadState.get >>= f) (MonadState.get >>= g) s t := by
  refine h.of_run (fun Q F hf => ?_) (fun Q F hg => ?_)
  · rw [wp_bind, wp_get]
    exact hf
  · rw [wp_bind, wp_get]
    exact hg

theorem modify_bind {m : σ → σ} {m' : τ → τ} {f : PUnit → EStateM ε σ β} {g : PUnit → EStateM ε' τ β'}
    (h : Both T E (f ⟨⟩) (g ⟨⟩) (m s) (m' t)) :
    Both T E (modify m >>= f) (modify m' >>= g) s t := by
  refine h.of_run (fun Q F hf => ?_) (fun Q F hg => ?_)
  · rw [wp_bind, wp_modify]
    exact hf
  · rw [wp_bind, wp_modify]
    exact hg

theorem ite {c : Prop} [Decidable c] (hx : c → Both S E x y s t) (hz : ¬ c → Both S E z w s t) :
    Both S E (if c then x else z) (if c then y else w) s t := by
  by_cases h : c
  · rw [if_pos h, if_pos h]
    exact hx h
  · rw [if_neg h, if_neg h]
    exact hz h

theorem stops (h : Both (fun _ _ _ _ => False) E x y s t) :
    ∃ e e' s' t', x s = .error e s' ∧ y t = .error e' t' ∧ E e e' s' t' := by
  rw [Both] at h
  cases hx : x s with
  | ok a s' =>
    rw [wp_of_ok hx] at h
    obtain ⟨b, t', -, hfalse⟩ := wp_false h
    exact hfalse.elim
  | error e s' =>
    rw [wp_of_error hx] at h
    cases hy : y t with
    | ok b t' =>
      rw [wp_of_ok hy] at h
      exact h.elim
    | error e' t' =>
      rw [wp_of_error hy] at h
      exact ⟨e, e', s', t', rfl, rfl, h⟩

end Both

namespace Relates

variable {R R' : σ → τ → Prop} {S : α → α' → σ → τ → Prop} {T : β → β' → σ → τ → Prop}
  {E : ε → ε' → σ → τ → Prop} {x z : EStateM ε σ α} {y w : EStateM ε' τ α'}
  {f : α → EStateM ε σ β} {g : α' → EStateM ε' τ β'} {a : α} {b : α'} {e : ε} {e' : ε'}

theorem pure (h : ∀ s t, R s t → S a b s t) :
    Relates R S E (pure a : EStateM ε σ α) (pure b : EStateM ε' τ α') := h

theorem throw (h : ∀ s t, R s t → E e e' s t) :
    Relates R S E (throw e : EStateM ε σ α) (throw e' : EStateM ε' τ α') := h

theorem modify {S : PUnit → PUnit → σ → τ → Prop} {m : σ → σ} {m' : τ → τ}
    (h : ∀ s t, R s t → S ⟨⟩ ⟨⟩ (m s) (m' t)) :
    Relates R S E (modify m : EStateM ε σ PUnit) (modify m' : EStateM ε' τ PUnit) := h

/-- **Sequence.** -/
theorem bind (hx : Relates R S E x y) (hf : ∀ a b s t, S a b s t → Both T E (f a) (g b) s t) :
    Relates R T E (x >>= f) (y >>= g) :=
  fun s t hst => (hx s t hst).bind hf

/-- **Sequence**, when the first programs return equal values. -/
theorem seq {U : α → σ → τ → Prop} {g : α → EStateM ε' τ β'} {y : EStateM ε' τ α}
    (hx : Relates R (fun a b s t => a = b ∧ U a s t) E x y) (hf : ∀ a, Relates (U a) T E (f a) (g a)) :
    Relates R T E (x >>= f) (y >>= g) := by
  intro s t hst
  refine (hx s t hst).bind (fun a b s' t' h => ?_)
  obtain ⟨rfl, h⟩ := h
  exact hf a s' t' h

theorem get_bind {f : σ → EStateM ε σ β} {g : τ → EStateM ε' τ β'}
    (h : ∀ s t, R s t → Both T E (f s) (g t) s t) :
    Relates R T E (MonadState.get >>= f) (MonadState.get >>= g) :=
  fun s t hst => (h s t hst).get_bind

theorem get_same {R : σ → σ → Prop} {T : β → β → σ → σ → Prop} {E : ε → ε → σ → σ → Prop}
    {f : σ → EStateM ε σ β} (heq : ∀ s t, R s t → f s = f t) (hf : ∀ s, Relates R T E (f s) (f s)) :
    Relates R T E (MonadState.get >>= f) (MonadState.get >>= f) := by
  refine get_bind (fun s t hst => ?_)
  rw [← heq s t hst]
  exact hf s s t hst

theorem ite {c : Prop} [Decidable c] (hx : c → Relates R S E x y) (hy : ¬ c → Relates R S E z w) :
    Relates R S E (if c then x else z) (if c then y else w) :=
  fun s t hst => Both.ite (fun h => hx h s t hst) (fun h => hy h s t hst)

end Relates
