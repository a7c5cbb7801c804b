import Mathlib.Logic.Basic

/-!
# Weakest preconditions of programs with state and exceptions

`wp x Q E s` says that the program `x`, started in the state `s`, either returns
a value and a state that satisfy `Q`, or stops with an exception and a state
that satisfy `E`.  The rules follow the program text.  `Keeps P E x` is the special
case of an invariant that holds at every return.
-/

variable {ε σ α β : Type}

/-- The weakest precondition of `x`. -/
def wp (x : EStateM ε σ α) (Q : α → σ → Prop) (E : ε → σ → Prop) (s : σ) : Prop :=
  match x s with
  | .ok a s' => Q a s'
  | .error e s' => E e s'

section Rules

variable {Q Q' : α → σ → Prop} {R : β → σ → Prop} {E E' : ε → σ → Prop} {s s' : σ} {a : α} {e : ε}
  {x y : EStateM ε σ α} {f : α → EStateM ε σ β}

theorem wp_of_ok (h : x s = .ok a s') : wp x Q E s ↔ Q a s' := by
  rw [wp, h]

theorem wp_of_error (h : x s = .error e s') : wp x Q E s ↔ E e s' := by
  rw [wp, h]

/-- **Consequence.** -/
theorem wp_mono (h : wp x Q E s) (hQ : ∀ a s, Q a s → Q' a s) (hE : ∀ e s, E e s → E' e s) :
    wp x Q' E' s := by
  rw [wp] at h ⊢
  split at h
  · exact hQ _ _ h
  · exact hE _ _ h

@[simp] theorem wp_pure : wp (pure a : EStateM ε σ α) Q E s ↔ Q a s := Iff.rfl

/-- **Sequence.** -/
@[simp] theorem wp_bind : wp (x >>= f) R E s ↔ wp x (fun a s => wp (f a) R E s) E s := by
  simp only [wp, bind, EStateM.bind]
  cases x s <;> rfl

@[simp] theorem wp_get {Q : σ → σ → Prop} : wp (get : EStateM ε σ σ) Q E s ↔ Q s s := Iff.rfl

@[simp] theorem wp_set {Q : PUnit → σ → Prop} : wp (set s' : EStateM ε σ PUnit) Q E s ↔ Q ⟨⟩ s' :=
  Iff.rfl

@[simp] theorem wp_modify {Q : PUnit → σ → Prop} {g : σ → σ} :
    wp (modify g : EStateM ε σ PUnit) Q E s ↔ Q ⟨⟩ (g s) := Iff.rfl

@[simp] theorem wp_throw : wp (throw e : EStateM ε σ α) Q E s ↔ E e s := Iff.rfl

@[simp] theorem wp_ite {c : Prop} [Decidable c] :
    wp (if c then x else y) Q E s ↔ if c then wp x Q E s else wp y Q E s := by
  split <;> rfl

theorem wp_if {c : Prop} [Decidable c] (hx : c → wp x Q E s) (hy : ¬ c → wp y Q E s) :
    wp (if c then x else y) Q E s := by
  by_cases h : c
  · rw [if_pos h]
    exact hx h
  · rw [if_neg h]
    exact hy h

end Rules

theorem wp_false {Q : α → σ → Prop} {s : σ} {x : EStateM ε σ α}
    (h : wp x Q (fun _ _ => False) s) : ∃ a s', x s = .ok a s' ∧ Q a s' := by
  rw [wp] at h
  split at h
  · exact ⟨_, _, ‹_›, h⟩
  · exact h.elim

theorem wp_and {Q Q' : α → σ → Prop} {E : ε → σ → Prop} {s : σ} {x : EStateM ε σ α}
    (h : wp x Q E s) (h' : wp x Q' E s) : wp x (fun a s => Q a s ∧ Q' a s) E s := by
  rw [wp] at h h' ⊢
  cases hx : x s with
  | ok a s' =>
    rw [hx] at h h'
    exact ⟨h, h'⟩
  | error e s' =>
    rw [hx] at h
    exact h

theorem wp_both {Q Q' : α → σ → Prop} {E E' : ε → σ → Prop} {s : σ} {x : EStateM ε σ α}
    (h : wp x Q E s) (h' : wp x Q' E' s) :
    wp x (fun a s => Q a s ∧ Q' a s) (fun e s => E e s ∧ E' e s) s := by
  rw [wp] at h h' ⊢
  cases hx : x s with
  | ok a s' =>
    rw [hx] at h h'
    exact ⟨h, h'⟩
  | error e s' =>
    rw [hx] at h h'
    exact ⟨h, h'⟩

/-- A postcondition may say that the program has ended there. -/
theorem wp_run {Q : α → σ → Prop} {E : ε → σ → Prop} {s : σ} {x : EStateM ε σ α}
    (h : wp x Q E s) :
    wp x (fun a s' => Q a s' ∧ x s = .ok a s') (fun e s' => E e s' ∧ x s = .error e s') s := by
  rw [wp] at h ⊢
  cases hx : x s with
  | ok a s' =>
    rw [hx] at h
    exact ⟨h, rfl⟩
  | error e s' =>
    rw [hx] at h
    exact ⟨h, rfl⟩

theorem wp_iff_eq {s : σ} {x : EStateM ε σ α} {r : EStateM.Result ε σ α} :
    wp x (fun a s' => r = .ok a s') (fun e s' => r = .error e s') s ↔ r = x s := by
  rw [wp]
  cases x s <;> rfl

/-! ### Invariants -/

/-- `P` holds when `x` returns if it holds at its start, and `E` if `x` stops. -/
def Keeps (P : σ → Prop) (E : ε → σ → Prop) (x : EStateM ε σ α) : Prop :=
  ∀ s, P s → wp x (fun _ => P) E s

namespace Keeps

variable {P : σ → Prop} {E : ε → σ → Prop} {Q : β → σ → Prop} {x y : EStateM ε σ α}
  {f : α → EStateM ε σ β} {a : α} {e : ε} {s : σ}

theorem pure : Keeps P E (pure a : EStateM ε σ α) := fun _ h => h

theorem throw (h : ∀ s, P s → E e s) : Keeps P E (throw e : EStateM ε σ α) := h

theorem modify {g : σ → σ} (h : ∀ s, P s → P (g s)) :
    Keeps P E (modify g : EStateM ε σ PUnit) := h

theorem bind (hx : Keeps P E x) (hf : ∀ a, Keeps P E (f a)) : Keeps P E (x >>= f) := by
  intro s hs
  rw [wp_bind]
  exact wp_mono (hx s hs) (fun a s' h => hf a s' h) (fun _ _ h => h)

theorem get_bind {f : σ → EStateM ε σ β} (hf : ∀ s, Keeps P E (f s)) :
    Keeps P E (MonadState.get >>= f) := fun s hs => hf s s hs

theorem ite {c : Prop} [Decidable c] (hx : Keeps P E x) (hy : Keeps P E y) :
    Keeps P E (if c then x else y) := by
  split
  · exact hx
  · exact hy

theorem seq (hx : Keeps P E x) (hs : P s) (hf : ∀ a s', P s' → wp (f a) Q E s') :
    wp (x >>= f) Q E s := by
  rw [wp_bind]
  exact wp_mono (hx s hs) hf (fun _ _ h => h)

end Keeps
