import JaeOS.Lib.Relational
import JaeOS.Refine.Handler

/-!
# Two runs of the kernel with different registers

The kernel copies the registers of the processes, but it decides by few of them.  Two states
are alike if they agree on everything else; the functions of the kernel are walked through
with two such states, and for the processes in a set `O` nothing of the others may show.
-/

namespace JaeOS

open Function (update)

variable {n : ℕ} {M : Machine} {k k' : Kernel n} {p q : Fin n} {O : Set (Fin n)} {W : Set Word}

/-! ### What the kernel decides by -/

/-- An area without the saved registers, but for the `pc` that says whether there is a handler. -/
def PcbArea.outline (a : PcbArea) : PcbArea := ⟨.zero, { ProcState.zero with pc := a.newArea.pc }⟩

def Pcb.outline (c : Pcb) : Pcb :=
  { c with pS := .zero, sysbp := c.sysbp.outline, pgmtr := c.pgmtr.outline, tlb := c.tlb.outline }

/-- A state without the saved registers, the old areas and the memory. -/
def Kernel.outline (k : Kernel n) : Kernel n :=
  { k with
    pcb := fun p => (k.pcb p).outline, mem := fun _ => 0
    sysbold := .zero, pgmold := .zero, tlbold := .zero, intold := .zero }

/-- How an entry ends, without the registers it loads. -/
def Stop.outline : Stop → Stop
  | .ldst _ => .ldst .zero
  | s => s

/-- The old areas, and `m_state_loaded`. -/
structure Rom (n : ℕ) where
  sysbold : ProcState
  pgmold : ProcState
  tlbold : ProcState
  intold : ProcState
  mStateLoaded : Option (StatePtr n)

def Kernel.rom (k : Kernel n) : Rom n := ⟨k.sysbold, k.pgmold, k.tlbold, k.intold, k.mStateLoaded⟩

/-- The states agree but for registers of processes that are not in `O`, and words of memory
that are not in `W`. -/
structure Akin (O : Set (Fin n)) (W : Set Word) (k k' : Kernel n) : Prop where
  outline : k.outline = k'.outline
  mem : ∀ a ∈ W, k.mem a = k'.mem a
  own : ∀ q ∈ O, k.pcb q = k'.pcb q

/-- The states are akin, and while a process runs, its old areas are in the relation `P`. -/
structure Along (O : Set (Fin n)) (W : Set Word) (P : Fin n → Rom n → Rom n → Prop)
    (k k' : Kernel n) : Prop where
  akin : Akin O W k k'
  rom : ∀ q, k.gCurrentProcess = some q → P q k.rom k'.rom

/-- Two entries that end alike: the states are, and a process in `O` goes on with the same
registers. -/
structure EndAkin (O : Set (Fin n)) (W : Set Word) (s s' : Stop) (k k' : Kernel n) : Prop where
  akin : Akin O W k k'
  stop : s.outline = s'.outline
  own : ∀ q ∈ O, k.gCurrentProcess = some q → s = s'

theorem outline_setPcb (k : Kernel n) (p : Fin n) (f : Pcb → Pcb) : (k.setPcb p f).outline =
    { k.outline with pcb := update k.outline.pcb p (f (k.pcb p)).outline } := by
  have hpcb : (fun q => (update k.pcb p (f (k.pcb p)) q).outline) =
      update (fun q => (k.pcb q).outline) p (f (k.pcb p)).outline := by
    funext q
    by_cases hq : q = p
    · rw [hq, Function.update_self, Function.update_self]
    · rw [Function.update_of_ne hq, Function.update_of_ne hq]
  exact congrArg (fun b => { k.outline with pcb := b }) hpcb

namespace Akin

variable (h : Akin O W k k')

include h

theorem congr_field {α : Type} (f : Kernel n → α) (hf : ∀ k : Kernel n, f k.outline = f k) :
    f k = f k' := by
  rw [← hf k, ← hf k', h.outline]

theorem toQueues : k.toQueues = k'.toQueues := h.congr_field Kernel.toQueues fun _ => rfl

theorem toTree : k.toTree = k'.toTree := h.congr_field Kernel.toTree fun _ => rfl

theorem current : k.gCurrentProcess = k'.gCurrentProcess :=
  h.congr_field Kernel.gCurrentProcess fun _ => rfl

theorem block (q : Fin n) : (k.pcb q).outline = (k'.pcb q).outline :=
  congrFun (congrArg Kernel.pcb h.outline) q

theorem pcb_field {α : Type} (f : Pcb → α) (hf : ∀ c : Pcb, f c.outline = f c) (q : Fin n) :
    f (k.pcb q) = f (k'.pcb q) := by
  rw [← hf (k.pcb q), ← hf (k'.pcb q), h.block q]

theorem map {g : Kernel n → Kernel n} (hg : ∀ k : Kernel n, (g k).outline = g k.outline)
    (hrest : ∀ k, (g k).mem = k.mem ∧ (g k).pcb = k.pcb) : Akin O W (g k) (g k') := by
  refine ⟨?_, fun a ha => ?_, fun q hq => ?_⟩
  · rw [hg, hg, h.outline]
  · rw [(hrest k).1, (hrest k').1]
    exact h.mem a ha
  · rw [(hrest k).2, (hrest k').2]
    exact h.own q hq

theorem setPcb (p : Fin n) {f f' : Pcb → Pcb}
    (hout : ∀ c c' : Pcb, c.outline = c'.outline → (f c).outline = (f' c').outline)
    (hown : p ∈ O → ∀ c, f c = f' c) : Akin O W (k.setPcb p f) (k'.setPcb p f') := by
  refine ⟨?_, h.mem, fun q hq => ?_⟩
  · rw [outline_setPcb, outline_setPcb, h.outline, hout _ _ (h.block p)]
  · by_cases heq : q = p
    · subst heq
      rw [setPcb_pcb_self, setPcb_pcb_self, h.own q hq]
      exact hown hq _
    · rw [setPcb_pcb_of_ne _ _ heq, setPcb_pcb_of_ne _ _ heq]
      exact h.own q hq

theorem store (a v : Word) :
    Akin O W { k with mem := update k.mem a v } { k' with mem := update k'.mem a v } := by
  refine ⟨h.outline, fun b hb => ?_, h.own⟩
  change update k.mem a v b = update k'.mem a v b
  by_cases heq : b = a
  · rw [heq, Function.update_self, Function.update_self]
  · rw [Function.update_of_ne heq, Function.update_of_ne heq]
    exact h.mem b hb

end Akin

namespace Along

variable {P P' : Fin n → Rom n → Rom n → Prop} (h : Along O W P k k')

include h

theorem map {g : Kernel n → Kernel n} (hg : ∀ k : Kernel n, (g k).outline = g k.outline)
    (hrest : ∀ k, (g k).mem = k.mem ∧ (g k).pcb = k.pcb)
    (hrom : ∀ k, (g k).rom = k.rom ∧
      ∀ q, (g k).gCurrentProcess = some q → k.gCurrentProcess = some q) :
    Along O W P (g k) (g k') := by
  refine ⟨h.akin.map hg hrest, fun q hq => ?_⟩
  rw [(hrom k).1, (hrom k').1]
  exact h.rom q ((hrom k).2 q hq)

theorem setPcb (p : Fin n) {f f' : Pcb → Pcb}
    (hout : ∀ c c' : Pcb, c.outline = c'.outline → (f c).outline = (f' c').outline)
    (hown : p ∈ O → ∀ c, f c = f' c) : Along O W P (k.setPcb p f) (k'.setPcb p f') :=
  ⟨h.akin.setPcb p hout hown, h.rom⟩

theorem weaken (hP : ∀ q r r', P q r r' → P' q r r') : Along O W P' k k' :=
  ⟨h.akin, fun q hq => hP q _ _ (h.rom q hq)⟩

theorem updateTimer (t x : Word) : Along O W P (k.updateTimer t x) (k'.updateTimer t x) := by
  refine h.map (g := fun k => k.updateTimer t x) (fun k => ?_) (fun _ => ⟨rfl, rfl⟩)
    (fun _ => ⟨rfl, fun _ hq => hq⟩)
  rfl

theorem tick : Along O W P { k with tods := k.tods + 1 } { k' with tods := k'.tods + 1 } :=
  h.map (g := fun k => { k with tods := k.tods + 1 }) (fun _ => rfl) (fun _ => ⟨rfl, rfl⟩)
    (fun _ => ⟨rfl, fun _ hq => hq⟩)

theorem ends (s : Stop) : EndAkin O W s s k k' := ⟨h.akin, rfl, fun _ _ _ => rfl⟩

end Along

/-! ### Pieces -/

/-- Two runs of a program go the same way. -/
abbrev Unseen {α : Type} (O : Set (Fin n)) (W : Set Word) (P : Fin n → Rom n → Rom n → Prop)
    (x : K n α) : Prop :=
  Relates (Along O W P) (fun a b k k' => a = b ∧ Along O W P k k') (EndAkin O W) x x

namespace Unseen

variable {P : Fin n → Rom n → Rom n → Prop} {α : Type}

theorem pure {v : α} : Unseen O W P (pure v : K n α) := Relates.pure fun _ _ h => ⟨rfl, h⟩

theorem throw {s : Stop} : Unseen O W P (throw s : K n α) := Relates.throw fun _ _ h => h.ends s

theorem stop {s : Stop} {S : α → α → Kernel n → Kernel n → Prop} :
    Relates (Along O W P) S (EndAkin O W) (MonadExcept.throw s : K n α) (MonadExcept.throw s) :=
  Relates.throw fun _ _ h => h.ends s

theorem modify {g : Kernel n → Kernel n} (hg : ∀ k : Kernel n, (g k).outline = g k.outline)
    (hrest : ∀ k, (g k).mem = k.mem ∧ (g k).pcb = k.pcb)
    (hrom : ∀ k, (g k).rom = k.rom ∧
      ∀ q, (g k).gCurrentProcess = some q → k.gCurrentProcess = some q) :
    Unseen O W P (modify g : K n PUnit) :=
  Relates.modify fun _ _ h => ⟨rfl, h.map hg hrest hrom⟩

theorem liftQ_run (x : Q n α) (h : Along O W P k k') :
    Both (fun a b k₁ k₁' => (a = b ∧ ∃ s, x.run k.toQueues = some (a, s)) ∧ Along O W P k₁ k₁')
      (EndAkin O W) (liftM x : K n α) (liftM x) k k' := by
  rw [Both, wp_liftQ]
  cases hx : x.run k.toQueues with
  | none =>
    rw [wp_liftQ, ← h.akin.toQueues, hx]
    exact h.ends _
  | some r =>
    dsimp only
    rw [wp_liftQ, ← h.akin.toQueues, hx]
    exact ⟨⟨rfl, _, rfl⟩, h.map (g := fun k => { k with toQueues := r.2 }) (fun _ => rfl)
      (fun _ => ⟨rfl, rfl⟩) (fun _ => ⟨rfl, fun _ hq => hq⟩)⟩

theorem liftQ (x : Q n α) : Unseen O W P (liftM x : K n α) := fun _ _ h =>
  (liftQ_run x h).mono (fun _ _ _ _ h => ⟨h.1.1, h.2⟩) (fun _ _ _ _ h => h)

theorem liftT (x : T n α) : Unseen O W P (liftM x : K n α) := by
  intro k k' h
  rw [Both, wp_liftT]
  cases hx : x.run k.toTree with
  | none =>
    rw [wp_liftT, ← h.akin.toTree, hx]
    exact h.ends _
  | some r =>
    dsimp only
    rw [wp_liftT, ← h.akin.toTree, hx]
    exact ⟨rfl, h.map (g := fun k => { k with toTree := r.2 }) (fun _ => rfl)
      (fun _ => ⟨rfl, rfl⟩) (fun _ => ⟨rfl, fun _ hq => hq⟩)⟩

theorem current : Unseen O W P (current : K n (Fin n)) := by
  refine Relates.get_same (fun k k' h => ?_) (fun k => ?_)
  · rw [h.akin.current]
  · cases k.gCurrentProcess with
    | none => exact throw
    | some q => exact pure

theorem current_bind {β : Type} {S : β → β → Kernel n → Kernel n → Prop} {f g : Fin n → K n β}
    (h : Along O W P k k')
    (hf : ∀ p, k.gCurrentProcess = some p → Both S (EndAkin O W) (f p) (g p) k k') :
    Both S (EndAkin O W) (JaeOS.current >>= f) (JaeOS.current >>= g) k k' := by
  cases hcur : k.gCurrentProcess with
  | none =>
    have hstop : Both S (EndAkin O W) (MonadExcept.throw (Stop.fault .noCurrent) : K n β)
        (MonadExcept.throw (Stop.fault .noCurrent)) k k' := h.ends _
    refine hstop.of_run (fun Q F hF => ?_) (fun Q F hF => ?_)
    · rw [wp_bind, wp_current_none hcur]
      exact hF
    · rw [wp_bind, wp_current_none (h.akin.current.symm.trans hcur)]
      exact hF
  | some p =>
    refine (hf p hcur).of_run (fun Q F hF => ?_) (fun Q F hF => ?_)
    · rw [wp_bind, wp_current hcur]
      exact hF
    · rw [wp_bind, wp_current (h.akin.current.symm.trans hcur)]
      exact hF

theorem readInt {a : Word} (ha : a ∈ W) : Unseen O W P (readInt M a : K n Word) := by
  refine Relates.ite (fun _ => throw) (fun _ => Relates.get_bind (fun k k' h => ?_))
  exact ⟨h.akin.mem a ha, h⟩

theorem writeWord {a v : Word} : Unseen O W P (writeWord M a v : K n Unit) :=
  Relates.ite (fun _ => throw) (fun _ => Relates.modify fun _ _ h => ⟨rfl, h.akin.store a v, h.rom⟩)

theorem writeInt {a v : Word} : Unseen O W P (writeInt M a v : K n Unit) := by
  refine Relates.ite (fun _ => throw) (fun _ => Relates.modify fun k k' h => ⟨rfl, ?_⟩)
  have hstore : Along O W P { k with mem := update k.mem a v } { k' with mem := update k'.mem a v } :=
    ⟨h.akin.store a v, h.rom⟩
  exact hstore.map (g := fun k => { k with reg := M.regStore k.reg a v }) (fun _ => rfl)
    (fun _ => ⟨rfl, rfl⟩) (fun _ => ⟨rfl, fun _ hq => hq⟩)

theorem writeReg {a v : Word} : Unseen O W P (writeReg M a v : K n Unit) :=
  Relates.ite (fun _ => Relates.ite (fun _ => throw) (fun _ =>
    modify (fun _ => rfl) (fun _ => ⟨rfl, rfl⟩) (fun _ => ⟨rfl, fun _ hq => hq⟩))) (fun _ => writeWord)

theorem getTODLO : Unseen O W P (getTODLO M : K n Word) := by
  refine Relates.get_bind (fun k k' h => ?_)
  have htods : k.tods = k'.tods := h.akin.congr_field Kernel.tods fun _ => rfl
  refine ⟨?_, h.tick⟩
  rw [htods]

theorem onHandlerEnter {t : Word} : Unseen O W P (onHandlerEnter t : K n Unit) := by
  refine Relates.modify fun k k' h => ⟨rfl, ?_⟩
  have hlast : k.gLastUpdate = k'.gLastUpdate := h.akin.congr_field Kernel.gLastUpdate fun _ => rfl
  rw [hlast, h.akin.current]
  cases k'.gCurrentProcess with
  | none => exact h.updateTimer _ _
  | some p =>
    refine Along.updateTimer (h.setPcb p (fun c c' hc => ?_) (fun _ _ => rfl)) _ _
    exact congrArg (fun c : Pcb => { c with
      pGlobalTime := c.pGlobalTime + (t - k'.gLastUpdate)
      pUserTime := c.pUserTime + (t - k'.gLastUpdate)
      pTimeSlice := c.pTimeSlice - (t - k'.gLastUpdate) }) hc

theorem onHandlerExit {t : Word} {flag : Bool} : Unseen O W P (onHandlerExit t flag : K n Unit) := by
  refine Relates.modify fun k k' h => ⟨rfl, ?_⟩
  have hlast : k.gLastUpdate = k'.gLastUpdate := h.akin.congr_field Kernel.gLastUpdate fun _ => rfl
  rw [hlast, h.akin.current]
  cases flag with
  | false => exact h.updateTimer _ _
  | true =>
    cases k'.gCurrentProcess with
    | none => exact h.updateTimer _ _
    | some p =>
      refine Along.updateTimer (h.setPcb p (fun c c' hc => ?_) (fun _ _ => rfl)) _ _
      exact congrArg (fun c : Pcb => { c with
        pGlobalTime := c.pGlobalTime + (t - k'.gLastUpdate) }) hc

theorem enter : Unseen O W P (JaeOS.getTODLO M >>= fun t => JaeOS.onHandlerEnter t) :=
  Relates.seq getTODLO (fun _ => onHandlerEnter)

theorem exit {flag : Bool} : Unseen O W P (JaeOS.getTODLO M >>= fun t => JaeOS.onHandlerExit t flag) :=
  Relates.seq getTODLO (fun _ => onHandlerExit)

/-! ### Termination -/

theorem releasePcb (q : Fin n) : Unseen O W P (releasePcb M q) := by
  refine Relates.get_same (fun k k' h => ?_) (fun k => ?_)
  · rw [h.akin.toQueues]
  · refine Relates.seq (U := fun _ => Along O W P) ?_ (fun _ => Relates.seq (liftQ _) (fun _ =>
      modify (fun _ => rfl) (fun _ => ⟨rfl, rfl⟩) (fun _ => ⟨rfl, fun _ hq => hq⟩)))
    cases k.pCursem q with
    | none => exact Relates.seq (liftQ _) (fun _ => pure)
    | some d =>
      refine Relates.seq (U := fun _ => Along O W P) ?_ (fun _ => Relates.seq (liftQ _) (fun _ => pure))
      exact Relates.ite (fun _ =>
        modify (fun _ => rfl) (fun _ => ⟨rfl, rfl⟩) (fun _ => ⟨rfl, fun _ hq => hq⟩)) (fun _ => pure)

theorem killChildren {kill : Fin n → K n Unit} (hkill : ∀ q, Unseen O W P (kill q)) (fuel : ℕ)
    (q : Fin n) : Unseen O W P (killChildren kill fuel q) := by
  induction fuel with
  | zero => exact throw
  | succ fuel ih =>
    refine Relates.get_same (fun k k' h => ?_) (fun k => ?_)
    · rw [h.akin.toTree]
    · refine Relates.ite (fun _ => pure) (fun _ => Relates.seq (liftT _) (fun r => ?_))
      cases r with
      | none => exact throw
      | some c => exact Relates.seq (hkill c) (fun _ => ih)

theorem terminateProgeny (fuel : ℕ) (q : Fin n) : Unseen O W P (terminateProgeny M fuel q) := by
  induction fuel generalizing q with
  | zero => exact throw
  | succ fuel ih =>
    exact Relates.seq (liftT _) (fun _ => Relates.seq (killChildren ih (n + 1) q)
      (fun _ => releasePcb q))

end Unseen

/-- `childByPid` compares pids only. -/
theorem outline_childByPid (k : Kernel n) (fuel : ℕ) (q : Fin n) (pid : Word) :
    k.outline.childByPid fuel q pid = k.childByPid fuel q pid := by
  induction fuel generalizing q with
  | zero => rfl
  | succ fuel ih =>
    rw [Kernel.childByPid, Kernel.childByPid]
    simp only [ih]
    rfl

namespace Unseen

variable {P : Fin n → Rom n → Rom n → Prop} {α : Type}

theorem terminateProcess (pid : Word) : Unseen O W P (terminateProcess M pid : K n Unit) := by
  refine Relates.seq current (fun p => Relates.ite (fun _ => ?_) (fun _ => ?_))
  · refine Relates.get_same (fun k k' h => ?_) (fun k => ?_)
    · rw [h.akin.toTree, h.akin.congr_field (fun k => k.childByPid (n + 1) p pid)
      (fun k => outline_childByPid k (n + 1) p pid)]
    · refine Relates.ite (fun _ => pure) (fun _ => ?_)
      cases k.childByPid (n + 1) p pid with
      | none => exact throw
      | some r =>
        cases r with
        | none => exact pure
        | some child => exact terminateProgeny _ _
  · exact Relates.seq (terminateProgeny _ _) (fun _ => modify (fun _ => rfl) (fun _ => ⟨rfl, rfl⟩)
      (fun _ => ⟨rfl, fun _ hq => absurd hq (by simp)⟩))

/-! ### Semaphores -/

theorem semopWake {a : Word} (fuel : ℕ) (r : Word) : Unseen O W P (semopWake M a fuel r : K n Word) := by
  induction fuel generalizing r with
  | zero => exact throw
  | succ fuel ih =>
    refine Relates.seq (liftQ _) (fun head => ?_)
    cases head with
    | none => exact pure
    | some head =>
      refine Relates.get_same (fun k k' h => ?_) (fun k => ?_)
      · rw [h.akin.congr_field Kernel.resRequested fun _ => rfl]
      refine Relates.ite (fun _ => ?_) (fun _ => pure)
      refine Relates.seq (U := fun _ => Along O W P) (modify (fun _ => rfl) (fun _ => ⟨rfl, rfl⟩)
        (fun _ => ⟨rfl, fun _ hq => hq⟩))
        (fun _ => Relates.seq (liftQ _) (fun _ => Relates.seq (liftQ _) (fun _ => ?_)))
      refine Relates.get_same (fun k k' h => ?_) (fun k => ?_)
      · rw [h.akin.toQueues]
      cases k.pCursem head with
      | none => exact throw
      | some d =>
        refine Relates.seq (U := fun _ => Along O W P) ?_ (fun _ => ih _)
        exact Relates.ite (fun _ =>
          modify (fun _ => rfl) (fun _ => ⟨rfl, rfl⟩) (fun _ => ⟨rfl, fun _ hq => hq⟩)) (fun _ => pure)

theorem semopV {a w : Word} (ha : a ∈ W) : Unseen O W P (semopV M a w : K n Unit) :=
  Relates.seq (readInt ha) (fun _ => Relates.seq (semopWake _ _) (fun _ => writeInt))

theorem semopBlock {a w : Word} : Unseen O W P (semopBlock M a w : K n Unit) := by
  refine Relates.seq current (fun p => Relates.seq (liftQ _)
    (fun full => Relates.ite (fun _ => ?_) (fun _ => throw)))
  refine Relates.seq (U := fun _ => Along O W P) (modify (fun _ => rfl) (fun _ => ⟨rfl, rfl⟩)
    (fun _ => ⟨rfl, fun _ hq => hq⟩)) (fun _ => ?_)
  refine Relates.seq getTODLO (fun _ => Relates.seq onHandlerExit (fun _ => ?_))
  refine Relates.seq (U := fun _ => Along O W P) (modify (fun _ => rfl) (fun _ => ⟨rfl, rfl⟩)
    (fun _ => ⟨rfl, fun _ hq => absurd hq (by simp)⟩)) (fun _ => ?_)
  exact Relates.ite (fun _ =>
    modify (fun _ => rfl) (fun _ => ⟨rfl, rfl⟩) (fun _ => ⟨rfl, fun _ hq => hq⟩)) (fun _ => pure)

theorem semop {a w : Word} (ha : a ∈ W) : Unseen O W P (semop M a w : K n Unit) := by
  refine Relates.ite (fun _ => semopV ha) (fun _ => Relates.ite (fun _ => ?_) (fun _ => throw))
  exact Relates.seq (liftQ _) (fun _ => Relates.seq (readInt ha) (fun _ =>
    Relates.ite (fun _ => semopBlock) (fun _ => writeInt)))

end Unseen

/-! ### System calls -/

/-- The old area of the system calls is what the process goes on with. -/
def Called (O : Set (Fin n)) (q : Fin n) (r r' : Rom n) : Prop :=
  r.mStateLoaded = some .sysbold ∧ (q ∈ O → r.sysbold = r'.sysbold)

/-- The process goes on with the old area of the system calls, or an area of its own. -/
def Goes (O : Set (Fin n)) (q : Fin n) (r r' : Rom n) : Prop :=
  match r.mStateLoaded with
  | some .sysbold => q ∈ O → r.sysbold = r'.sysbold
  | some (.newArea _ p) | some (.oldArea _ p) => p = q
  | none => True

theorem Called.goes {r r' : Rom n} (h : Called O q r r') : Goes O q r r' := by
  rw [Goes, h.1]
  exact h.2

theorem Pcb.outline_setArea (c : Pcb) (t : Hdl) (a : PcbArea) :
    (c.setArea t a).outline = c.outline.setArea t a.outline := by
  cases t <;> rfl

theorem Pcb.pc_of_outline {c c' : Pcb} (h : c.outline = c'.outline) (t : Hdl) :
    (c.area t).newArea.pc = (c'.area t).newArea.pc := by
  have hpc : ∀ c : Pcb, (c.outline.area t).newArea.pc = (c.area t).newArea.pc := by
    intro c
    cases t <;> rfl
  rw [← hpc c, ← hpc c', h]

theorem Along.answer (h : Along O W (Called O) k k') (v : Word) :
    Along O W (Called O) { k with sysbold := { k.sysbold with a1 := v } }
      { k' with sysbold := { k'.sysbold with a1 := v } } := by
  refine ⟨⟨h.akin.outline, h.akin.mem, h.akin.own⟩, fun q hq => ⟨(h.rom q hq).1, fun hO => ?_⟩⟩
  exact congrArg (fun x : ProcState => { x with a1 := v }) ((h.rom q hq).2 hO)

theorem Akin.aim {x : StatePtr n} (h : Akin O W k k') (hp : k.gCurrentProcess = some p)
    (hx : ∃ t, x = .newArea t p ∨ x = .oldArea t p) :
    Along O W (Goes O) { k with mStateLoaded := some x } { k' with mStateLoaded := some x } := by
  refine ⟨h.map (g := fun k => { k with mStateLoaded := some x }) (fun _ => rfl)
    (fun _ => ⟨rfl, rfl⟩), fun q hq => ?_⟩
  obtain rfl : p = q := Option.some.inj (hp.symm.trans hq)
  obtain ⟨t, rfl | rfl⟩ := hx
  · exact rfl
  · exact rfl

/-- An area of `p` changes, in both runs in the same way if `p` is in `O`. -/
theorem Akin.setArea (h : Akin O W k k') (p : Fin n) (t : Hdl) {f f' : Pcb → PcbArea}
    (hpc : ∀ c c' : Pcb, c.outline = c'.outline → (f c).newArea.pc = (f' c').newArea.pc)
    (hown : p ∈ O → ∀ c, f c = f' c) :
    Akin O W (k.setPcb p fun c => c.setArea t (f c)) (k'.setPcb p fun c => c.setArea t (f' c)) := by
  refine h.setPcb p (fun c c' hc => ?_) (fun hO c => ?_)
  · rw [Pcb.outline_setArea, Pcb.outline_setArea, hc, PcbArea.outline, PcbArea.outline, hpc c c' hc]
  · rw [hown hO c]

theorem Along.memset {P : Fin n → Rom n → Rom n → Prop} (h : Along O W P k k') (p : Fin n) :
    Along O W P (k.memset p) (k'.memset p) := by
  have hclear : Along O W P (k.setPcb p fun _ => .zero) (k'.setPcb p fun _ => .zero) :=
    h.setPcb p (fun _ _ _ => rfl) (fun _ _ => rfl)
  exact hclear.map (g := fun k => { k with
    pParent := update k.pParent p none
    pCursem := update k.pCursem p none
    resRequested := update k.resRequested p 0
    pList := update k.pList p none
    pChildren := update k.pChildren p none
    pSiblings := update k.pSiblings p none }) (fun _ => rfl) (fun _ => ⟨rfl, rfl⟩)
    (fun _ => ⟨rfl, fun _ hq => hq⟩)

namespace Unseen

variable {P : Fin n → Rom n → Rom n → Prop} {α : Type}

theorem allocPcb (h : Along O W P k k') (hroom : k.gProcessCount.toNat < maxProc) :
    Both (fun a b k₁ k₁' => (a = b ∧ ∀ p, a = some p → k.core.spare = some p) ∧ Along O W P k₁ k₁')
      (EndAkin O W) allocPcb allocPcb k k' := by
  refine (liftQ_run _ h).bind (fun r r' k₁ k₁' h₁ => ?_)
  obtain ⟨⟨rfl, s, hrun⟩, h₁⟩ := h₁
  have hhead : k.core.spare = r := by
    have hjoin : (k.toQueues.procQ .pcbFree).head.join = r := by
      rw [run_removeProcQ_head hrun, Option.join_some]
    exact (if_pos hroom).trans hjoin
  cases r with
  | none => exact ⟨⟨rfl, fun _ hp => absurd hp (by simp)⟩, h₁⟩
  | some p =>
    refine ⟨⟨rfl, fun q hq => ?_⟩, h₁.memset p⟩
    rw [hhead, hq]

theorem pidSelector : Unseen O W P (pidSelector : K n Word) := by
  rw [JaeOS.pidSelector]
  refine Relates.seq (U := fun _ => Along O W P) ?_ (fun _ => Relates.get_bind (fun k k' h => ⟨?_, h⟩))
  · exact modify (fun _ => rfl) (fun _ => ⟨rfl, rfl⟩) (fun _ => ⟨rfl, fun _ hq => hq⟩)
  · rw [h.akin.congr_field Kernel.absProcessCount fun _ => rfl,
      h.akin.congr_field Kernel.gProcessCount fun _ => rfl]

/-- **SYS1**: the state the process starts with matters only if its block is in `O`. -/
theorem createProcess {x x' : ProcState} (h : Along O W (Called O) k k')
    (hx : ∀ b ∈ O, k.core.spare = some b → x = x') :
    Both (fun a b k₁ k₁' => a = b ∧ Along O W (Called O) k₁ k₁') (EndAkin O W) (createProcess x)
      (createProcess x') k k' := by
  have hcount : k.gProcessCount = k'.gProcessCount :=
    h.akin.congr_field Kernel.gProcessCount fun _ => rfl
  apply Both.get_bind
  rw [← hcount]
  by_cases hroom : k.gProcessCount.toNat < maxProc
  · rw [if_pos hroom, if_pos hroom]
    refine (allocPcb h hroom).bind (fun r r' k₁ k₁' h₁ => ?_)
    obtain ⟨⟨rfl, hr⟩, h₁⟩ := h₁
    cases r with
    | none => exact h₁.ends _
    | some b =>
      have hb : b ∈ O → x = x' := fun hO => hx b hO (hr b rfl)
      refine Relates.seq (U := fun _ => Along O W (Called O)) ?_
        (fun _ => Relates.seq pidSelector (fun pid => ?_)) k₁ k₁' h₁
      · exact modify (fun _ => rfl) (fun _ => ⟨rfl, rfl⟩) (fun _ => ⟨rfl, fun _ hq => hq⟩)
      refine Relates.seq (U := fun _ => Along O W (Called O))
        (Relates.modify fun k k' h => ⟨rfl, h.setPcb b (fun c c' hc => ?_) (fun hO c => ?_)⟩) (fun _ => ?_)
      · exact congrArg (fun c : Pcb => { c with pPid := pid }) hc
      · rw [hb hO]
      refine Relates.seq current (fun p => Relates.seq (liftT _)
        (fun _ => Relates.seq (liftQ _) (fun _ => ?_)))
      refine Relates.modify fun k k' h => ⟨rfl, ?_⟩
      have hpid : (k.pcb b).pPid = (k'.pcb b).pPid := h.akin.pcb_field Pcb.pPid (fun _ => rfl) b
      rw [hpid]
      exact h.answer _
  · rw [if_neg hroom, if_neg hroom]
    exact ⟨rfl, h.answer _⟩

/-- **SYS4, SYS5, SYS6**: the `pc` of the handler shows, the rest of it goes to the area only. -/
theorem commonSys {t : Hdl} {pc sp sp' flags flags' : Word} (h : Along O W P k k')
    (hown : ∀ p ∈ O, k.gCurrentProcess = some p → sp = sp' ∧ flags = flags') :
    Both (fun a b k k' => a = b ∧ Along O W P k k') (EndAkin O W) (commonSys M t pc sp flags : K n Unit)
      (JaeOS.commonSys M t pc sp' flags') k k' := by
  refine current_bind h (fun p hp => Both.get_bind ?_)
  have hpc := Pcb.pc_of_outline (h.akin.block p) t
  dsimp only
  by_cases hzero : ((k.pcb p).area t).newArea.pc = 0
  · rw [if_pos hzero, if_pos (hpc.symm.trans hzero)]
    refine ⟨rfl, h.akin.setArea p t (fun _ _ _ => rfl) (fun hO c => ?_), h.rom⟩
    obtain ⟨rfl, rfl⟩ := hown p hO hp
    rw [h.akin.own p hO]
  · rw [if_neg hzero, if_neg (fun h => hzero (hpc.trans h))]
    exact terminateProcess 0 k k' h

/-- **SYS7**: the value that is returned goes to the old area only. -/
theorem exitTrap {excptype retval retval' : Word} (h : Along O W (Called O) k k')
    (hown : ∀ p ∈ O, k.gCurrentProcess = some p → retval = retval') :
    Both (fun a b k k' => a = b ∧ Along O W (Goes O) k k') (EndAkin O W)
      (exitTrap excptype retval : K n Unit) (JaeOS.exitTrap excptype retval') k k' := by
  rw [JaeOS.exitTrap, JaeOS.exitTrap]
  cases trapType excptype with
  | none => exact h.weaken (fun _ _ _ h => h.goes) |>.ends _
  | some t =>
    refine current_bind h (fun p hp => Both.modify_bind ⟨rfl, Akin.aim ?_ hp ⟨t, .inr rfl⟩⟩)
    refine h.akin.setArea p t (fun _ _ hc => Pcb.pc_of_outline hc t) (fun hO c => ?_)
    rw [hown p hO hp]

/-- **SYS8.** -/
theorem getCpuTime {global user : Word} : Unseen O W P (getCpuTime M global user : K n Unit) := by
  refine Relates.seq current (fun p => Relates.get_same (fun k k' h => ?_) (fun k =>
    Relates.seq writeInt (fun _ => Relates.get_same (fun k k' h => ?_) (fun k => writeInt))))
  · rw [h.akin.pcb_field Pcb.pGlobalTime fun _ => rfl]
  · rw [h.akin.pcb_field Pcb.pUserTime fun _ => rfl]

/-- **SYS9.** -/
theorem waitClock (hclock : M.gPcTimerS ∈ W) : Unseen O W P (waitClock M : K n Unit) :=
  Relates.seq (semop hclock) (fun _ => modify (fun _ => rfl) (fun _ => ⟨rfl, rfl⟩)
    (fun _ => ⟨rfl, fun _ hq => hq⟩))

/-- **SYS10.** -/
theorem ioDevop {command int1No dnum : Word} (hsem : ioSem M int1No dnum ∈ W) :
    Unseen O W P (ioDevop M command int1No dnum : K n Unit) :=
  Relates.seq (semop hsem) (fun _ => writeReg)

/-- **SYS11.** -/
theorem getPid : Unseen O W (Called O) (getPid : K n Unit) := by
  refine Relates.seq current (fun p => Relates.modify fun k k' h => ⟨rfl, ?_⟩)
  have hpid : (k.pcb p).pPid = (k'.pcb p).pPid := h.akin.pcb_field Pcb.pPid (fun _ => rfl) p
  rw [hpid]
  exact h.answer _

end Unseen

/-- The arguments of a system call that the kernel looks at.  The state for SYS1, the `sp` and
the flags for SYS4 to SYS6 and the value for SYS7 are only copied. -/
def ProcState.args (x : ProcState) : List Word :=
  if x.a1 = createProcessNr ∨ x.a1 = waitClockNr ∨ x.a1 = getPidNr then [x.a1]
  else if x.a1 = semopNr ∨ x.a1 = getCpuTimeNr then [x.a1, x.a2, x.a3]
  else if x.a1 = ioDevopNr then [x.a1, x.a2, x.a3, x.a4]
  else [x.a1, x.a2]

/-- What equal arguments have in common. -/
structure SameArgs (x y : ProcState) : Prop where
  a1 : x.a1 = y.a1
  a2 : ¬ (x.a1 = createProcessNr ∨ x.a1 = waitClockNr ∨ x.a1 = getPidNr) → x.a2 = y.a2
  a3 : x.a1 = semopNr ∨ x.a1 = getCpuTimeNr ∨ x.a1 = ioDevopNr → x.a3 = y.a3
  a4 : x.a1 = ioDevopNr → x.a4 = y.a4

theorem ProcState.head_args (x : ProcState) : x.args.head? = some x.a1 := by
  rw [ProcState.args]
  split_ifs <;> rfl

theorem sameArgs {x y : ProcState} (h : x.args = y.args) : SameArgs x y := by
  have h1 : x.a1 = y.a1 := by
    have hhead := congrArg List.head? h
    rw [x.head_args, y.head_args] at hhead
    exact Option.some.inj hhead
  rw [ProcState.args, ProcState.args, ← h1] at h
  have hnumbers : ∀ a : Word, a = createProcessNr ∨ a = waitClockNr ∨ a = getPidNr →
      ¬ (a = semopNr ∨ a = getCpuTimeNr ∨ a = ioDevopNr) := by
    rintro a (rfl | rfl | rfl) <;> decide
  split_ifs at h with hone hthree hfour
  · exact ⟨h1, fun hn => absurd hone hn, fun hn => absurd hn (hnumbers _ hone),
      fun hn => absurd (.inr (.inr hn)) (hnumbers _ hone)⟩
  · simp only [List.cons.injEq] at h
    refine ⟨h1, fun _ => h.2.1, fun _ => h.2.2.1, fun hn => ?_⟩
    rw [hn] at hthree
    exact absurd hthree (by decide)
  · simp only [List.cons.injEq] at h
    exact ⟨h1, fun _ => h.2.1, fun _ => h.2.2.1, fun _ => h.2.2.2.1⟩
  · simp only [List.cons.injEq] at h
    refine ⟨h1, fun _ => h.2.1, fun hn => ?_, fun hn => absurd hn hfour⟩
    rcases hn with hn | hn | hn
    · exact absurd (.inl hn) hthree
    · exact absurd (.inr hn) hthree
    · exact absurd hn hfour

/-- The semaphore a system call works on. -/
def callSem (M : Machine) (old : ProcState) : Option Word :=
  if old.a1 = semopNr then some old.a2
  else if old.a1 = waitClockNr then some M.gPcTimerS
  else if old.a1 = ioDevopNr then some (ioSem M old.a3 old.a4)
  else none

namespace Unseen

variable {P P' : Fin n → Rom n → Rom n → Prop} {α : Type}

/-- **The system calls** look at their arguments only. -/
theorem defSys (h : Along O W (Called O) k k') (hargs : k.sysbold.args = k'.sysbold.args)
    (hsem : ∀ a, callSem M k.sysbold = some a → a ∈ W)
    (hbirth : k.sysbold.a1 = createProcessNr → ∀ b ∈ O, k.core.spare = some b →
      M.readState k.mem k.sysbold.a2 = M.readState k'.mem k'.sysbold.a2) :
    Both (fun a b k k' => a = b ∧ Along O W (Goes O) k k') (EndAkin O W) (defSys M) (defSys M) k k' := by
  obtain ⟨h1, h2, h3, h4⟩ := sameArgs hargs
  have hold : ∀ p ∈ O, k.gCurrentProcess = some p → k.sysbold = k'.sysbold :=
    fun p hO hp => (h.rom p hp).2 hO
  have hrest : ∀ p ∈ O, k.gCurrentProcess = some p →
      k.sysbold.a3 = k'.sysbold.a3 ∧ k.sysbold.a4 = k'.sysbold.a4 := by
    intro p hO hp
    rw [hold p hO hp]
    exact ⟨rfl, rfl⟩
  have hgoes : ∀ {x y : K n Unit}, Both (fun a b k k' => a = b ∧ Along O W (Called O) k k')
      (EndAkin O W) x y k k' →
      Both (fun a b k k' => a = b ∧ Along O W (Goes O) k k') (EndAkin O W) x y k k' := fun hx =>
    hx.mono (fun _ _ _ _ h => ⟨h.1, h.2.weaken fun _ _ _ h => h.goes⟩) (fun _ _ _ _ h => h)
  apply Both.get_bind
  dsimp only
  rw [← h1]
  refine Both.ite (fun hnr => Both.get_bind (hgoes (createProcess h (hbirth hnr)))) (fun hne1 => ?_)
  refine Both.ite (fun hnr => ?_) (fun _ => ?_)
  · rw [← h2 (by rw [hnr]; decide)]
    exact hgoes (terminateProcess _ k k' h)
  refine Both.ite (fun hnr => ?_) (fun hne3 => ?_)
  · rw [← h2 (by rw [hnr]; decide), ← h3 (.inl hnr)]
    refine hgoes (semop (hsem _ ?_) k k' h)
    rw [callSem, if_pos hnr]
  have hspec : ∀ t, k.sysbold.a2 = k'.sysbold.a2 →
      Both (fun a b k k' => a = b ∧ Along O W (Goes O) k k') (EndAkin O W)
        (JaeOS.commonSys M t k.sysbold.a2 k.sysbold.a3 k.sysbold.a4 : K n Unit)
        (JaeOS.commonSys M t k'.sysbold.a2 k'.sysbold.a3 k'.sysbold.a4) k k' := by
    intro t heq
    rw [← heq]
    exact hgoes (commonSys h hrest)
  refine Both.ite (fun hnr => hspec .sbk (h2 (by rw [hnr]; decide))) (fun _ => ?_)
  refine Both.ite (fun hnr => hspec .tlb (h2 (by rw [hnr]; decide))) (fun _ => ?_)
  refine Both.ite (fun hnr => hspec .pgm (h2 (by rw [hnr]; decide))) (fun _ => ?_)
  refine Both.ite (fun hnr => ?_) (fun _ => ?_)
  · rw [← h2 (by rw [hnr]; decide)]
    exact exitTrap h (fun p hO hp => (hrest p hO hp).1)
  refine Both.ite (fun hnr => ?_) (fun _ => ?_)
  · rw [← h2 (by rw [hnr]; decide), ← h3 (.inr (.inl hnr))]
    exact hgoes (getCpuTime k k' h)
  refine Both.ite (fun hnr => hgoes (waitClock (hsem _ ?_) k k' h)) (fun hne9 => ?_)
  · rw [callSem, if_neg hne3, if_pos hnr]
  refine Both.ite (fun hnr => ?_) (fun _ => ?_)
  · rw [← h2 (by rw [hnr]; decide), ← h3 (.inr (.inr hnr)), ← h4 hnr]
    refine hgoes (ioDevop (hsem _ ?_) k k' h)
    rw [callSem, if_neg hne3, if_neg hne9, if_pos hnr]
  refine Both.ite (fun _ => hgoes (getPid k k' h)) (fun _ => ?_)
  exact ⟨rfl, h.weaken fun _ _ _ h => h.goes⟩

/-- **SYS2 of the current process**: nobody runs behind it. -/
theorem terminateSelf : Relates (Along O W P) (fun a b k k' => a = b ∧ Along O W P' k k') (EndAkin O W)
    (JaeOS.terminateProcess M 0 : K n Unit) (JaeOS.terminateProcess M 0) := by
  refine Relates.seq current (fun p => ?_)
  rw [if_neg (by simp)]
  refine Relates.seq (terminateProgeny _ _) (fun _ => Relates.modify fun k k' h => ⟨rfl, ?_, ?_⟩)
  · exact h.akin.map (g := fun k => { k with gCurrentProcess := none }) (fun _ => rfl)
      (fun _ => ⟨rfl, rfl⟩)
  · exact fun q hq => absurd hq (by simp)

/-! ### Exceptions -/

/-- **System calls above 11 and breakpoints.** -/
theorem sysAboveBP (h : Along O W (Called O) k k') :
    Both (fun a b k k' => a = b ∧ Along O W (Goes O) k k') (EndAkin O W) (sysAboveBP M) (sysAboveBP M)
      k k' := by
  refine current_bind h (fun p hp => Both.get_bind ?_)
  have hpc : (k.pcb p).sysbp.newArea.pc = (k'.pcb p).sysbp.newArea.pc :=
    Pcb.pc_of_outline (h.akin.block p) .sbk
  by_cases hzero : (k.pcb p).sysbp.newArea.pc = 0
  · dsimp only
    rw [if_pos hzero, if_pos (hpc.symm.trans hzero)]
    exact terminateSelf k k' h
  · dsimp only
    rw [if_neg hzero, if_neg (fun h => hzero (hpc.trans h))]
    refine Both.modify_bind ⟨rfl, Akin.aim ?_ hp ⟨.sbk, .inl rfl⟩⟩
    refine h.akin.setArea p .sbk (fun _ _ _ => hpc) (fun hO c => ?_)
    have hold : k.sysbold = k'.sysbold := (h.rom p hp).2 hO
    rw [h.akin.own p hO, hold]

end Unseen

/-- The old area the exception is passed up from. -/
def Traps (O : Set (Fin n)) (t : Hdl) (q : Fin n) (r r' : Rom n) : Prop :=
  match t with
  | .sbk => q ∈ O → r.sysbold = r'.sysbold
  | .tlb => q ∈ O → r.tlbold = r'.tlbold
  | .pgm => q ∈ O → r.pgmold = r'.pgmold

theorem Along.romArea {t : Hdl} (h : Along O W (Traps O t) k k') (hp : k.gCurrentProcess = some p)
    (hO : p ∈ O) : k.romArea t = k'.romArea t := by
  have hrom := h.rom p hp
  cases t with
  | sbk => exact hrom hO
  | tlb => exact hrom hO
  | pgm => exact hrom hO

namespace Unseen

variable {P P' : Fin n → Rom n → Rom n → Prop} {α : Type} {t : Hdl}

/-- **A pass-up.** -/
theorem passUp (h : Along O W (Traps O t) k k') :
    Both (fun a b k k' => a = b ∧ Along O W (Goes O) k k') (EndAkin O W) (passUp M t) (passUp M t)
      k k' := by
  refine current_bind h (fun p hp => Both.modify_bind (Both.get_bind ?_))
  have hold : p ∈ O → k.romArea t = k'.romArea t := h.romArea hp
  have hsaved : ∀ (k : Kernel n) f, (k.setPcb p f).romArea t = k.romArea t := by
    intro k f
    cases t <;> rfl
  have h₁ : Along O W (Traps O t)
      (k.setPcb p fun c => { c with pS := copyState (k.romArea t) c.pS })
      (k'.setPcb p fun c => { c with pS := copyState (k'.romArea t) c.pS }) := by
    refine h.setPcb p (fun _ _ hc => hc) (fun hO c => ?_)
    rw [hold hO]
  generalize hk₁ : (k.setPcb p fun c => { c with pS := copyState (k.romArea t) c.pS }) = k₁ at h₁ ⊢
  generalize hk₁' : (k'.setPcb p fun c => { c with pS := copyState (k'.romArea t) c.pS }) = k₁' at h₁ ⊢
  have hp₁ : k₁.gCurrentProcess = some p := by
    rw [← hk₁]
    exact hp
  have hpc := Pcb.pc_of_outline (h₁.akin.block p) t
  dsimp only
  by_cases hzero : ((k₁.pcb p).area t).newArea.pc = 0
  · rw [if_pos hzero, if_pos (hpc.symm.trans hzero)]
    exact terminateSelf k₁ k₁' h₁
  · rw [if_neg hzero, if_neg (fun h => hzero (hpc.trans h))]
    refine Both.modify_bind ⟨rfl, Akin.aim ?_ hp₁ ⟨t, .inl rfl⟩⟩
    refine h₁.akin.setArea p t (fun _ _ _ => hpc) (fun hO c => ?_)
    rw [h₁.akin.own p hO, h₁.romArea hp₁ hO]

theorem commonSubHandler (h : Along O W (Traps O t) k k') :
    Both (fun a b k k' => a = b ∧ Along O W (Goes O) k k') (EndAkin O W) (commonSubHandler M t)
      (commonSubHandler M t) k k' := by
  have hby : k.bySysHdl = k'.bySysHdl := h.akin.congr_field Kernel.bySysHdl fun _ => rfl
  have hrest : Relates (Along O W (Traps O t)) (fun a b k k' => a = b ∧ Along O W (Goes O) k k')
      (EndAkin O W)
      (JaeOS.passUp M t >>= fun _ => JaeOS.getTODLO M >>= fun t => JaeOS.onHandlerExit t false)
      (JaeOS.passUp M t >>= fun _ => JaeOS.getTODLO M >>= fun t => JaeOS.onHandlerExit t false) :=
    Relates.seq (fun _ _ h => passUp h) (fun _ => exit)
  apply Both.get_bind
  rw [← hby]
  cases k.bySysHdl with
  | true =>
    refine Both.modify_bind (hrest _ _ ?_)
    exact h.map (g := fun k => { k with bySysHdl := false }) (fun _ => rfl) (fun _ => ⟨rfl, rfl⟩)
      (fun _ => ⟨rfl, fun _ hq => hq⟩)
  | false =>
    exact (enter k k' h).bind (fun _ _ k₁ k₁' h₁ => hrest _ _ h₁.2)

/-! ### The way out -/

/-- **The scheduler** shows a process in `O` its own registers. -/
theorem scheduler : Relates (Along O W P) (fun _ _ _ _ => False) (EndAkin O W) (scheduler M : K n Unit)
    (JaeOS.scheduler M) := by
  refine Relates.seq (liftQ _) (fun r => ?_)
  cases r with
  | some _ =>
    refine Relates.seq (liftQ _) (fun p => ?_)
    refine Relates.seq (U := fun _ => Along O W fun q _ _ => p = some q)
      (Relates.modify fun k k' h => ⟨rfl, ?_, fun q hq => hq⟩)
      (fun _ k k' h => current_bind h (fun q hq => ?_))
    · exact h.akin.map (g := fun k => { k with gCurrentProcess := p }) (fun _ => rfl)
        (fun _ => ⟨rfl, rfl⟩)
    have hpq : p = some q := h.rom q hq
    have hslice : Along O W (fun q _ _ => p = some q)
        (k.setPcb q fun c => { c with pTimeSlice := schedTimeSlice })
        (k'.setPcb q fun c => { c with pTimeSlice := schedTimeSlice }) :=
      h.setPcb q (fun c c' hc => congrArg (fun c : Pcb => { c with pTimeSlice := schedTimeSlice }) hc)
        (fun _ _ => rfl)
    refine Both.modify_bind ?_
    refine Relates.seq getTODLO (fun tod => Relates.seq onHandlerExit (fun _ => ?_)) _ _ hslice
    refine Relates.get_same (fun k k' h => ?_) (fun k => Relates.seq writeWord (fun _ => ?_))
    · rw [h.akin.pcb_field Pcb.pPid fun _ => rfl]
    · refine Relates.get_bind (fun k k' h => ⟨h.akin, rfl, fun r hr hcur => ?_⟩)
      obtain rfl : q = r := Option.some.inj (hpq.symm.trans (h.rom r hcur))
      exact congrArg (fun c : Pcb => Stop.ldst c.pS) (h.akin.own q hr)
  | none =>
    refine Relates.get_same (fun k k' h => ?_) (fun k => ?_)
    · rw [h.akin.congr_field Kernel.gProcessCount fun _ => rfl,
        h.akin.congr_field Kernel.gSoftBlockCount fun _ => rfl]
    · refine Relates.ite (fun _ => stop) (fun _ => Relates.ite (fun _ => ?_) (fun _ => stop))
      exact Relates.seq getTODLO (fun _ => Relates.seq onHandlerExit (fun _ => stop))

theorem leaveHandler : Relates (Along O W (Goes O)) (fun _ _ _ _ => False) (EndAkin O W)
    (leaveHandler M : K n Unit) (JaeOS.leaveHandler M) := by
  refine Relates.get_bind (fun k k' h => ?_)
  rw [← h.akin.current]
  cases hcur : k.gCurrentProcess with
  | none => exact scheduler k k' h
  | some q =>
    refine Both.get_bind ?_
    have hload : k.mStateLoaded = k'.mStateLoaded := h.akin.congr_field Kernel.mStateLoaded fun _ => rfl
    rw [← hload]
    cases hx : k.mStateLoaded with
    | none => exact h.ends _
    | some x =>
      refine ⟨h.akin, rfl, fun r hr hq => ?_⟩
      have hgoes := h.rom r hq
      rw [Goes, show k.rom.mStateLoaded = some x from hx] at hgoes
      cases x with
      | sysbold => exact congrArg Stop.ldst (hgoes hr)
      | newArea t p =>
        obtain rfl : p = r := hgoes
        exact congrArg (fun c : Pcb => Stop.ldst (c.area t).newArea) (h.akin.own p hr)
      | oldArea t p =>
        obtain rfl : p = r := hgoes
        exact congrArg (fun c : Pcb => Stop.ldst (c.area t).oldArea) (h.akin.own p hr)

theorem trapHandler : Relates (Along O W (Traps O t)) (fun _ _ _ _ => False) (EndAkin O W)
    (JaeOS.commonSubHandler M t >>= fun _ => JaeOS.leaveHandler M)
    (JaeOS.commonSubHandler M t >>= fun _ => JaeOS.leaveHandler M) :=
  Relates.seq (fun _ _ h => commonSubHandler h) (fun _ => leaveHandler)

/-- **A system call from user mode.** -/
theorem userModeSys (h : Along O W (Called O) k k') :
    Both (fun _ _ _ _ => False) (EndAkin O W) (userModeSys M : K n Unit) (JaeOS.userModeSys M) k k' := by
  refine Both.modify_bind (Both.modify_bind (Both.modify_bind ?_))
  refine Relates.seq getTODLO (fun tod => Relates.seq onHandlerExit (fun _ => trapHandler)) _ _ ⟨?_, ?_⟩
  · exact ⟨congrArg (fun k : Kernel n => { k with bySysHdl := true }) h.akin.outline, h.akin.mem,
      h.akin.own⟩
  · intro q hq hO
    have hold : k.sysbold = k'.sysbold := (h.rom q hq).2 hO
    exact congrArg (fun x : ProcState =>
      { x with cp15Cause := M.causeExcCodeSet x.cp15Cause M.excReservedInstr }) hold

end Unseen

/-! ### Interrupts -/

/-- `W` contains the semaphores of the pseudo-clock and of the devices, with the rows that
`handleDevices` takes for the receiving half of a terminal. -/
structure HasNucleus (M : Machine) (W : Set Word) : Prop where
  clock : M.gPcTimerS ∈ W
  device : ∀ row dev : Word, row ≤ ilTerminal → dev < nDevPerIl → M.devSem row dev ∈ W

/-- The old area of the interrupts is what the process goes on with. -/
def Breaks (O : Set (Fin n)) (q : Fin n) (r r' : Rom n) : Prop := q ∈ O → r.intold = r'.intold

namespace Unseen

variable {P P' : Fin n → Rom n → Rom n → Prop} {α : Type} {t : Hdl}

theorem tickLoop (hclock : M.gPcTimerS ∈ W) (fuel : ℕ) : Unseen O W P (tickLoop M fuel : K n Unit) := by
  induction fuel with
  | zero => exact throw
  | succ fuel ih =>
    refine Relates.get_same (fun k k' h => ?_) (fun k => ?_)
    · rw [h.akin.congr_field Kernel.gPseudoClockBlk fun _ => rfl]
    · refine Relates.ite (fun _ => Relates.seq (semop hclock) (fun _ => ?_)) (fun _ => pure)
      refine Relates.seq (U := fun _ => Along O W P) ?_ (fun _ => ih)
      exact modify (fun _ => rfl) (fun _ => ⟨rfl, rfl⟩) (fun _ => ⟨rfl, fun _ hq => hq⟩)

theorem pseudoClock (hclock : M.gPcTimerS ∈ W) : Unseen O W P (pseudoClock M : K n Unit) := by
  refine Relates.seq getTODLO (fun tod => Relates.get_same (fun k k' h => ?_) (fun k => ?_))
  · rw [h.akin.congr_field Kernel.gLastUpdate fun _ => rfl,
      h.akin.congr_field Kernel.gLeftTo100 fun _ => rfl,
      h.akin.congr_field Kernel.gPseudoClockBlk fun _ => rfl]
  · refine Relates.ite (fun _ => ?_) (fun _ => pure)
    refine Relates.seq (U := fun _ => Along O W P) ?_ (fun _ => tickLoop hclock _)
    exact modify (fun _ => rfl) (fun _ => ⟨rfl, rfl⟩) (fun _ => ⟨rfl, fun _ hq => hq⟩)

theorem currentSlice : Unseen O W P (currentSlice : K n Word) := by
  refine Relates.get_same (fun k k' h => ?_) (fun k => ?_)
  · have hslice : (fun p => (k.pcb p).pTimeSlice) = fun p => (k'.pcb p).pTimeSlice :=
      funext fun p => h.akin.pcb_field Pcb.pTimeSlice (fun _ => rfl) p
    rw [h.akin.current, h.akin.congr_field Kernel.nullSlice fun _ => rfl]
    cases k'.gCurrentProcess with
    | none => rfl
    | some p => exact congrArg (fun f => (Pure.pure (f p) : K n Word)) hslice
  · cases k.gCurrentProcess with
    | some p => exact pure
    | none =>
      refine Relates.seq (U := fun _ => Along O W P) ?_ (fun _ => pure)
      exact modify (fun _ => rfl) (fun _ => ⟨rfl, rfl⟩) (fun _ => ⟨rfl, fun _ hq => hq⟩)

theorem timeSlice : Unseen O W P (timeSlice M : K n Unit) := by
  refine Relates.seq currentSlice (fun slice => Relates.ite (fun _ => ?_) (fun _ => pure))
  refine Relates.seq getTODLO (fun tod => Relates.seq onHandlerExit (fun _ =>
    Relates.get_same (fun k k' h => ?_) (fun k => ?_)))
  · rw [h.akin.current]
  · cases k.gCurrentProcess with
    | none => exact throw
    | some p =>
      exact Relates.seq (liftQ _) (fun _ => modify (fun _ => rfl) (fun _ => ⟨rfl, rfl⟩)
        (fun _ => ⟨rfl, fun _ hq => absurd hq (by simp)⟩))

theorem findDevice {bitMap : Word} {left : ℕ} (hleft : left ≤ 8) :
    Relates (Along O W P) (fun r r' k k' => r = r' ∧ Along O W P k k' ∧ ∀ d, r = some d → d < nDevPerIl)
      (EndAkin O W) (findDevice M bitMap left : K n (Option Word)) (JaeOS.findDevice M bitMap left) := by
  induction left with
  | zero => exact Relates.pure fun k k' h => ⟨rfl, h, fun d hd => absurd hd (by simp)⟩
  | succ left ih =>
    refine Relates.get_same (fun k k' h => ?_) (fun k => Relates.ite (fun _ => ?_) (fun _ => ?_))
    · rw [h.akin.congr_field Kernel.reg fun _ => rfl]
    · refine Relates.pure fun k k' h => ⟨rfl, h, ?_⟩
      rintro d ⟨rfl⟩
      rw [nDevPerIl]
      bv_omega
    · refine Relates.seq (U := fun _ => Along O W P) ?_ (fun _ => ih (by omega))
      exact modify (fun _ => rfl) (fun _ => ⟨rfl, rfl⟩) (fun _ => ⟨rfl, fun _ hq => hq⟩)

theorem ackDevice {line dev : Word} (hline : devIlStart ≤ line ∧ line ≤ ilTerminal) :
    Relates (Along O W P) (fun r r' k k' => r = r' ∧ Along O W P k k' ∧ r.1 ≤ ilTerminal) (EndAkin O W)
      (ackDevice M line dev : K n (Word × Option Word)) (JaeOS.ackDevice M line dev) := by
  have hrow : line - devIlStart ≤ ilTerminal := by
    rw [devIlStart, ilTerminal] at *
    bv_omega
  have hreg : ∀ k k', Along O W P k k' → k.reg = k'.reg := fun k k' h =>
    h.akin.congr_field Kernel.reg fun _ => rfl
  refine Relates.ite (fun _ => ?_) (fun _ => ?_)
  · refine Relates.get_same (fun k k' h => ?_)
      (fun k => Relates.get_same (fun k k' h => ?_) (fun k => ?_))
    · rw [hreg k k' h]
    · rw [hreg k k' h]
    refine Relates.ite (fun _ => ?_) (fun _ => Relates.ite (fun _ => ?_) (fun _ => ?_))
    · exact Relates.seq writeReg (fun _ => Relates.pure fun k k' h =>
        ⟨rfl, h, (by decide : nDevTypes ≤ ilTerminal)⟩)
    · exact Relates.seq writeReg (fun _ => Relates.pure fun k k' h => ⟨rfl, h, hrow⟩)
    · exact Relates.pure fun k k' h => ⟨rfl, h, hline.2⟩
  · refine Relates.seq writeReg (fun _ => Relates.get_same (fun k k' h => ?_) (fun k => ?_))
    · rw [hreg k k' h]
    · exact Relates.pure fun k k' h => ⟨rfl, h, hrow⟩

theorem signalDevice {sem : Word} {st : Option Word} (hsem : sem ∈ W) :
    Unseen O W P (signalDevice M sem st : K n Unit) := by
  refine Relates.seq (liftQ _) (fun before => Relates.seq (readInt hsem) (fun value => ?_))
  refine Relates.seq (U := fun _ => Along O W P) ?_ (fun _ => Relates.seq (liftQ _) (fun after => ?_))
  · exact Relates.ite (fun _ => semop hsem) (fun _ => pure)
  refine Relates.ite (fun _ => ?_) (fun _ => pure)
  cases before with
  | none => exact throw
  | some p =>
    cases st with
    | none => exact throw
    | some x => exact Relates.modify fun k k' h => ⟨rfl, h.setPcb p (fun _ _ hc => hc) (fun _ _ => rfl)⟩

/-- **`handleDevices`.** -/
theorem handleDevices (hW : HasNucleus M W) {line : Word} (hline : devIlStart ≤ line ∧ line ≤ ilTerminal) :
    Unseen O W P (handleDevices M line : K n Unit) := by
  refine Relates.bind (findDevice (by decide)) (fun r r' k k' h => ?_)
  obtain ⟨rfl, h, hdev⟩ := h
  cases r with
  | none => exact h.ends _
  | some dev =>
    refine (ackDevice hline k k' h).bind (fun a b k₁ k₁' h₁ => ?_)
    obtain ⟨rfl, h₁, hrow⟩ := h₁
    exact signalDevice (hW.device _ dev hrow (hdev dev rfl)) k₁ k₁' h₁

theorem dispatchInterrupt (hW : HasNucleus M W) {cause : Word} :
    Unseen O W P (dispatchInterrupt M cause : K n Unit) := by
  refine Relates.ite (fun _ => pure) (fun _ => Relates.ite (fun _ => pure) (fun _ => ?_))
  refine Relates.ite (fun _ => Relates.seq (pseudoClock hW.clock) (fun _ => timeSlice)) (fun _ => ?_)
  refine Relates.ite (fun _ => handleDevices hW (by decide)) (fun _ => ?_)
  refine Relates.ite (fun _ => handleDevices hW (by decide)) (fun _ => ?_)
  refine Relates.ite (fun _ => handleDevices hW (by decide)) (fun _ => ?_)
  refine Relates.ite (fun _ => handleDevices hW (by decide)) (fun _ => ?_)
  exact Relates.ite (fun _ => handleDevices hW (by decide)) (fun _ => pure)

/-- **The interrupt handler.** -/
theorem interruptExceptionHandler (hW : HasNucleus M W) {cause : Word} (h : Along O W (Breaks O) k k') :
    Both (fun _ _ _ _ => False) (EndAkin O W) (interruptExceptionHandler M cause : K n Unit)
      (JaeOS.interruptExceptionHandler M cause) k k' := by
  refine Both.modify_bind ?_
  have h₁ : Along O W (Breaks O) { k with intold := { k.intold with pc := k.intold.pc - 4 } }
      { k' with intold := { k'.intold with pc := k'.intold.pc - 4 } } := by
    refine ⟨⟨h.akin.outline, h.akin.mem, h.akin.own⟩, fun q hq hO => ?_⟩
    exact congrArg (fun x : ProcState => { x with pc := x.pc - 4 }) (h.rom q hq hO)
  refine Relates.seq getTODLO (fun tod => Relates.seq onHandlerEnter (fun _ => ?_)) _ _ h₁
  refine Relates.seq (U := fun _ => Along O W (Breaks O))
    (Relates.modify fun k k' h => ⟨rfl, ?_⟩) (fun _ => ?_)
  · rw [← h.akin.current]
    cases hcur : k.gCurrentProcess with
    | none => exact h
    | some p =>
      refine h.setPcb p (fun _ _ hc => hc) (fun hO c => ?_)
      rw [show k.intold = k'.intold from h.rom p hcur hO]
  refine Relates.seq (dispatchInterrupt hW) (fun _ => Relates.seq getTODLO (fun tod =>
    Relates.seq onHandlerExit (fun _ => Relates.get_bind (fun k k' h => ?_))))
  rw [← h.akin.current]
  cases hcur : k.gCurrentProcess with
  | none => exact scheduler k k' h
  | some p =>
    refine Both.get_bind ⟨h.akin, rfl, fun q hO hq => ?_⟩
    exact congrArg Stop.ldst (h.rom q hq hO)

end Unseen

end JaeOS
