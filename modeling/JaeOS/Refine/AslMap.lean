import JaeOS.Refine.Asl
import JaeOS.Model.Init

/-!
# `asl.c` implements a bounded map of FIFO queues

The abstract side knows addresses and queues only: a map `q` from addresses to
queues of blocks, in which an address is present if its queue is not empty, and
at most `maxProc` addresses are present.  The four operations run in lockstep on
the pointers and on the map, for as long as the caller respects their
preconditions.
-/

namespace JaeOS

open Function (update)

variable {n : ℕ} {s s' s₀ : Queues n} {q q' : Word → List (Fin n)} {asl free : List Semd}

/-- The calls of `asl.c`. -/
inductive AslOp (n : ℕ)
  | insertBlocked (semAdd : Word) (p : Fin n)
  | removeBlocked (semAdd : Word)
  | headBlocked (semAdd : Word)
  | outBlocked (p : Fin n)

/-- What a call returns: an `int`, or a block. -/
inductive AslResult (n : ℕ)
  | code (r : ℕ)
  | block (p : Option (Fin n))
deriving DecidableEq

namespace AslOp

/-- A call, on the pointers. -/
def exec : AslOp n → Q n (AslResult n)
  | insertBlocked a p => do return .code (← JaeOS.insertBlocked a p)
  | removeBlocked a => do return .block (← JaeOS.removeBlocked a)
  | headBlocked a => do return .block (← JaeOS.headBlocked a)
  | outBlocked p => do return .block (← JaeOS.outBlocked p)

/-- `insertBlocked` takes a block that is on no queue, `outBlocked` one that is. -/
def Enabled (q : Word → List (Fin n)) : AslOp n → Prop
  | insertBlocked _ p => ∀ b, p ∉ q b
  | removeBlocked _ => True
  | headBlocked _ => True
  | outBlocked p => ∃ b, p ∈ q b

/-- The address is absent, and there is no room for it. -/
def Full (q : Word → List (Fin n)) (a : Word) : Prop :=
  q a = [] ∧ {b | q b ≠ []}.ncard = maxProc

open Classical in
/-- A call, on the map. -/
noncomputable def spec (q : Word → List (Fin n)) :
    AslOp n → AslResult n × (Word → List (Fin n))
  | insertBlocked a p => if Full q a then (.code 1, q) else (.code 0, update q a (q a ++ [p]))
  | removeBlocked a => (.block (q a).head?, update q a (q a).tail)
  | headBlocked a => (.block (q a).head?, q)
  | outBlocked p => (.block (some p), fun b => (q b).erase p)

/-- The descriptor of `a` has left the list and is the last of the free ones. -/
def GivenBack (s s' : Queues n) (asl free : List Semd) (a : Word) : Prop :=
  ∃ d ∈ asl, s.sSemAdd d = a ∧ s'.asl.Holds (asl.erase d) ∧ s'.free.Holds (free ++ [d])

/-- What a call does besides its result and the change of the map: which state
it leaves alone, what becomes of `p_cursem`, and when it gives a descriptor
back. -/
def Effect (s s' : Queues n) (q : Word → List (Fin n)) (asl free : List Semd) : AslOp n → Prop
  | insertBlocked a p =>
    (Full q a → s' = s) ∧
    (¬ Full q a → ∃ d, s'.sSemAdd d = a ∧ s'.pCursem = update s.pCursem p (some d))
  | removeBlocked a =>
    (q a = [] → s' = s) ∧ ∀ p, q a = [p] → GivenBack s s' asl free a
  | headBlocked _ => s' = s
  | outBlocked p => ∀ a, q a = [p] → GivenBack s s' asl free a

end AslOp

/-- The state `initASL` starts from: the static variables of `asl.c` are clear,
everything else is arbitrary. -/
def Queues.clearAsl (s : Queues n) : Queues n :=
  { s with aslh := none, semdFree := none, sProcq := fun _ => none }

/-- The pointers and the map after `initASL` and any sequence of calls. -/
inductive AslReach (s₀ : Queues n) : Queues n → (Word → List (Fin n)) → Prop
  | init {s : Queues n} (h : (initASL : Q n Unit).run s₀.clearAsl = some ((), s)) :
      AslReach s₀ s (fun _ => [])
  | call {s s' : Queues n} {q : Word → List (Fin n)} {r : AslResult n} (op : AslOp n)
      (h : AslReach s₀ s q) (he : op.Enabled q) (hrun : op.exec.run s = some (r, s')) :
      AslReach s₀ s' (op.spec q).2

/-! ### One call -/

theorem AslRep.full_iff {a : Word} (h : AslRep s q asl free)
    (hall : ∀ d, d ∈ asl ∨ d ∈ free) : AslOp.Full q a ↔ q a = [] ∧ free = [] := by
  have hlen := (h.perm_finRange hall).length_eq
  rw [List.length_append, List.length_finRange] at hlen
  rw [AslOp.Full, h.ncard_active]
  refine and_congr_right (fun _ => ⟨fun heq => ?_, fun heq => ?_⟩)
  · exact List.length_eq_zero_iff.mp (by omega)
  · rw [heq, List.length_nil] at hlen
    omega

theorem update_erase {p : Fin n} {a : Word} (h : AslRep s q asl free) (hp : p ∈ q a) :
    update q a ((q a).erase p) = fun b => (q b).erase p := by
  funext b
  by_cases hb : b = a
  · rw [hb, Function.update_self]
  · rw [Function.update_of_ne hb]
    exact (List.erase_of_not_mem (fun hm => hb (h.queue_unique hm hp))).symm

/-- **Every enabled call agrees with the map**, and loses no descriptor. -/
theorem AslRep.call (h : AslRep s q asl free) (hall : ∀ d, d ∈ asl ∨ d ∈ free) (op : AslOp n)
    (he : op.Enabled q) :
    ∃ s' asl' free', op.exec.run s = some ((op.spec q).1, s') ∧
      AslRep s' (op.spec q).2 asl' free' ∧ (∀ d, d ∈ asl' ∨ d ∈ free') ∧
      op.Effect s s' q asl free := by
  cases op with
  | insertBlocked a p =>
    by_cases hfull : AslOp.Full q a
    · obtain ⟨ha, hfree⟩ := (h.full_iff hall).mp hfull
      have hrun := run_insertBlocked_full (p := p) (hfree ▸ h) ha
      refine ⟨s, asl, free, ?_, ?_, hall, fun _ => rfl, fun hn => absurd hfull hn⟩
      · simp [AslOp.exec, AslOp.spec, hfull, hrun]
      · simpa [AslOp.spec, hfull] using h
    · have hroom : q a ≠ [] ∨ free ≠ [] := by
        by_contra hno
        rw [not_or, not_not, not_not] at hno
        exact hfull ((h.full_iff hall).mpr hno)
      obtain ⟨s', d, asl', free', hrun, hrep, hmem, hcs, hadd, _⟩ := run_insertBlocked h he hroom
      refine ⟨s', asl', free', ?_, ?_, fun e => (hmem e).mpr (hall e), fun hf => absurd hf hfull,
        fun _ => ⟨d, hadd, hcs⟩⟩
      · simp [AslOp.exec, AslOp.spec, hfull, hrun]
      · simpa [AslOp.spec, hfull] using hrep
  | removeBlocked a =>
    cases ha : q a with
    | nil =>
      have hrun := run_removeBlocked_nil h ha
      have hq : update q a [] = q := by rw [← ha, Function.update_eq_self]
      refine ⟨s, asl, free, ?_, ?_, hall, fun _ => rfl, fun p hp => ?_⟩
      · simp [AslOp.exec, AslOp.spec, ha, hrun]
      · simpa [AslOp.spec, ha, hq] using h
      · simp [ha] at hp
    | cons p rest =>
      obtain ⟨s', d, hrun, hd, hadd, _, hrep, _⟩ := run_removeBlocked h ha
      refine ⟨s', aslAfter asl d rest, freeAfter free d rest, ?_, ?_, fun e => ?_, fun hn => ?_,
        fun x hx => ?_⟩
      · simp [AslOp.exec, AslOp.spec, ha, hrun]
      · simpa [AslOp.spec, ha] using hrep
      · exact (mem_aslAfter_or_freeAfter h.aslh.nodup hd).mpr (hall e)
      · simp [ha] at hn
      · obtain ⟨-, rfl⟩ : p = x ∧ rest = [] := by simpa [ha] using hx
        refine ⟨d, hd, hadd, ?_, ?_⟩
        · simpa [aslAfter] using hrep.aslh
        · simpa [freeAfter] using hrep.semdFree
  | headBlocked a =>
    refine ⟨s, asl, free, ?_, h, hall, rfl⟩
    simp [AslOp.exec, AslOp.spec, run_headBlocked h a]
  | outBlocked p =>
    obtain ⟨a, hp⟩ := he
    obtain ⟨s', d, hrun, hd, hadd, _, hrep, _⟩ := run_outBlocked h hp
    rw [update_erase h hp] at hrep
    refine ⟨s', _, _, ?_, hrep, fun e => ?_, fun b hb => ?_⟩
    · simp [AslOp.exec, AslOp.spec, hrun]
    · exact (mem_aslAfter_or_freeAfter h.aslh.nodup hd).mpr (hall e)
    · obtain rfl : a = b := h.queue_unique hp (by simp [hb])
      have hrest : (q a).erase p = [] := by simp [hb]
      refine ⟨d, hd, hadd, ?_, ?_⟩
      · simpa [aslAfter, hrest] using hrep.aslh
      · simpa [freeAfter, hrest] using hrep.semdFree

/-! ### Runs -/

theorem AslReach.exists_rep (h : AslReach s₀ s q) :
    ∃ asl free, AslRep s q asl free ∧ ∀ d, d ∈ asl ∨ d ∈ free := by
  induction h with
  | init hrun =>
    obtain ⟨s', hrun', hrep, _⟩ := aslRep_initASL (s := s₀.clearAsl) rfl rfl (fun _ => rfl)
    rw [hrun] at hrun'
    obtain rfl : _ = s' := congrArg Prod.snd (Option.some.inj hrun')
    exact ⟨[], List.finRange maxProc, hrep, fun d => .inr (List.mem_finRange d)⟩
  | call op _ he hrun ih =>
    obtain ⟨asl, free, hrep, hall⟩ := ih
    obtain ⟨s'', asl', free', hrun', hrep', hall', _⟩ := hrep.call hall op he
    rw [hrun] at hrun'
    obtain rfl : _ = s'' := congrArg Prod.snd (Option.some.inj hrun')
    exact ⟨asl', free', hrep', hall'⟩

/-- **The active semaphore list simulates a map of FIFO queues.**  In every
state reached from `initASL`, `aslh` and `semdFree` are well formed, hold each
descriptor exactly once between them, and `aslh` is in strictly ascending order
of addresses; and every enabled call returns what the map says, leads to a state
that represents the map after the call, and has its stated effect. -/
theorem asl_simulates_queue_map (h : AslReach s₀ s q) :
    ∃ asl free, AslRep s q asl free ∧ (asl ++ free).Perm (List.finRange maxProc) ∧
      ∀ op : AslOp n, op.Enabled q →
        ∃ s', op.exec.run s = some ((op.spec q).1, s') ∧ AslReach s₀ s' (op.spec q).2 ∧
          op.Effect s s' q asl free := by
  obtain ⟨asl, free, hrep, hall⟩ := h.exists_rep
  refine ⟨asl, free, hrep, hrep.perm_finRange hall, fun op he => ?_⟩
  obtain ⟨s', _, _, hrun, _, _, heffect⟩ := hrep.call hall op he
  exact ⟨s', hrun, .call op h he hrun, heffect⟩

/-! ### A sequence of calls -/

namespace AslOp

/-- A sequence of calls, on the pointers. -/
def execAll : List (AslOp n) → Q n Unit
  | [] => pure ()
  | op :: ops => do
    let _ ← op.exec
    execAll ops

/-- Each call is enabled when its turn comes. -/
def AllEnabled (q : Word → List (Fin n)) : List (AslOp n) → Prop
  | [] => True
  | op :: ops => op.Enabled q ∧ AllEnabled (op.spec q).2 ops

theorem not_full {a : Word} {F : Finset Word} (hF : ∀ b, b ∉ F → q b = [])
    (hcard : F.card < maxProc) : ¬ Full q a := by
  rintro ⟨-, hfull⟩
  have hsub : {b | q b ≠ []} ⊆ (F : Set Word) := fun b hb => by
    by_contra hnot
    exact hb (hF b hnot)
  have hle := Set.ncard_le_ncard hsub F.finite_toSet
  rw [Set.ncard_coe_finset, hfull] at hle
  omega

end AslOp

theorem AslReach.calls {ops : List (AslOp n)} (h : AslReach s₀ s q)
    (he : AslOp.AllEnabled q ops) :
    ∃ s', (AslOp.execAll ops).run s = some ((), s') ∧
      AslReach s₀ s' (ops.foldl (fun q op => (op.spec q).2) q) := by
  induction ops generalizing s q with
  | nil => exact ⟨s, rfl, h⟩
  | cons op ops ih =>
    obtain ⟨asl, free, hrep, hall⟩ := h.exists_rep
    obtain ⟨s', _, _, hrun, _⟩ := hrep.call hall op he.1
    obtain ⟨s'', hrest, hreach⟩ := ih (.call op h he.1 hrun) he.2
    refine ⟨s'', ?_, hreach⟩
    rw [AslOp.execAll, StateT.run_bind, hrun]
    exact hrest

/-- `a` and `c` wait at `x`, `b` at `y`; then `a` is served and `b` taken out. -/
def aslCalls (x y : Word) (a b c : Fin n) : List (AslOp n) :=
  [.insertBlocked x a, .insertBlocked y b, .insertBlocked x c, .removeBlocked x, .outBlocked b]

theorem aslCalls_map {x y : Word} {a b c : Fin n} (hxy : x ≠ y) (hab : a ≠ b) (hac : a ≠ c)
    (hbc : b ≠ c) :
    AslOp.AllEnabled (fun _ => []) (aslCalls x y a b c) ∧
      (aslCalls x y a b c).foldl (fun q op => (op.spec q).2) (fun _ => []) =
        update (fun _ => []) x [c] := by
  have hroom : ∀ (q : Word → List (Fin n)) z,
      (∀ w, w ∉ ({x, y} : Finset Word) → q w = []) → ¬ AslOp.Full q z :=
    fun q z hq => AslOp.not_full hq (Finset.card_le_two.trans_lt (by decide))
  have h0 : ¬ AslOp.Full (fun _ => ([] : List (Fin n))) x := hroom _ _ (fun _ _ => rfl)
  have h1 : ¬ AslOp.Full (update (fun _ => []) x [a]) y := hroom _ _ (by simp_all)
  have h2 : ¬ AslOp.Full (update (update (fun _ => []) x [a]) y [b]) x :=
    hroom _ _ (by simp_all)
  have hat : ∀ (q : Word → List (Fin n)) z l w, update q z l w = if w = z then l else q w :=
    fun q z l w => by simp [Function.update_apply]
  simp only [aslCalls, AslOp.AllEnabled, AslOp.Enabled, AslOp.spec, h0, h1, h2, if_false, hxy,
    List.foldl_cons, List.foldl_nil, List.nil_append, hat, hxy.symm]
  refine ⟨⟨by simp, fun w => ?_, fun w => ?_, trivial, ⟨y, by simp [hxy.symm]⟩, trivial⟩, ?_⟩
  · by_cases hw : w = x <;> simp [hw, hab.symm]
  · by_cases hw : w = y <;> by_cases hw' : w = x <;> simp [hw, hw', hxy, hbc.symm, hac.symm]
  · funext w
    by_cases hw : w = x <;> by_cases hw' : w = y <;> simp [hw, hw', hbc.symm, hxy.symm]

/-- The theorem after five calls, from the state the kernel itself starts
`asl.c` from. -/
theorem asl_simulates_queue_map_calls :
    ∃ (s : Queues maxProc) (a b c : Fin maxProc), a ≠ b ∧ a ≠ c ∧ b ≠ c ∧
      (do initASL; AslOp.execAll (aslCalls 0x30 0x20 a b c) : Q maxProc Unit).run
        (Kernel.static maxProc).toQueues = some ((), s) ∧
      ∃ asl free, AslRep s (update (fun _ => []) 0x30 [c]) asl free ∧
        (asl ++ free).Perm (List.finRange maxProc) ∧
        ∀ op : AslOp maxProc, op.Enabled (update (fun _ => []) 0x30 [c]) →
          ∃ s', op.exec.run s = some ((op.spec (update (fun _ => []) 0x30 [c])).1, s') ∧
            AslReach (Kernel.static maxProc).toQueues s'
              (op.spec (update (fun _ => []) 0x30 [c])).2 ∧
            op.Effect s s' (update (fun _ => []) 0x30 [c]) asl free := by
  have hab : (⟨1, by decide⟩ : Fin maxProc) ≠ ⟨2, by decide⟩ := by decide
  have hac : (⟨1, by decide⟩ : Fin maxProc) ≠ ⟨3, by decide⟩ := by decide
  have hbc : (⟨2, by decide⟩ : Fin maxProc) ≠ ⟨3, by decide⟩ := by decide
  obtain ⟨henabled, hmap⟩ := aslCalls_map (show (0x30 : Word) ≠ 0x20 by decide) hab hac hbc
  obtain ⟨s₁, hinit, _⟩ := aslRep_initASL (s := (Kernel.static maxProc).toQueues) rfl rfl
    (fun _ => rfl)
  have hstart : AslReach (Kernel.static maxProc).toQueues s₁ (fun _ => []) := .init hinit
  obtain ⟨s, hcalls, hreach⟩ := hstart.calls henabled
  rw [hmap] at hreach
  refine ⟨s, _, _, _, hab, hac, hbc, ?_, asl_simulates_queue_map hreach⟩
  rw [StateT.run_bind, hinit]
  exact hcalls

end JaeOS
