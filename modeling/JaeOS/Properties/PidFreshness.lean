import JaeOS.Refine.Effect
import JaeOS.Properties.Uarm

/-!
# Fresh pids

A pid has the number of processes in its low five bits and the number of creations above
them.  The number of processes fits in the five bits, so two pids are the same only if the
numbers of creations agree in the 27 bits that are left.
-/

namespace JaeOS

open Function (update)

variable {n : ℕ} {M : Machine} {k : Kernel n} {E : Stop → Kernel n → Prop}

/-! ### Two fields in a word -/

/-- The fields of a pid do not overlap. -/
theorem toNat_shift_or {x y : Word} (hy : y.toNat < 32) :
    (x <<< 5 ||| y).toNat = 32 * (x.toNat % 2 ^ 27) + y.toNat := by
  have hhigh : x.toNat <<< 5 % 2 ^ 32 = 2 ^ 5 * (x.toNat % 2 ^ 27) := by
    rw [Nat.shiftLeft_eq]
    omega
  rw [BitVec.toNat_or, BitVec.toNat_shiftLeft, hhigh, ← Nat.two_pow_add_eq_or_of_lt (i := 5) hy]

/-- The pid for the `i`-th creation, counted from 0, when it makes `m` processes. -/
def pidOf (i m : ℕ) : Word := BitVec.ofNat 32 (i + 2) <<< 5 ||| BitVec.ofNat 32 m

theorem pidOf_toNat {i m : ℕ} (hm : m ≤ maxProc) :
    (pidOf i m).toNat = 32 * ((i + 2) % 2 ^ 27) + m := by
  have hmax : maxProc = 20 := rfl
  have hm' : (BitVec.ofNat 32 m).toNat = m := Nat.mod_eq_of_lt (by omega)
  rw [pidOf, toNat_shift_or (by omega), hm', BitVec.toNat_ofNat]
  omega

/-- **A pid is none of the special words**, if its creator was alive. -/
theorem pidOf_special {i m : ℕ} (hlow : 2 ≤ m) (hm : m ≤ maxProc) :
    pidOf i m ≠ 0 ∧ pidOf i m ≠ 1 ∧ pidOf i m ≠ 0xFFFFFFFF := by
  have hpid := pidOf_toNat (i := i) hm
  have hmax : maxProc = 20 := rfl
  refine ⟨?_, ?_, ?_⟩
  all_goals
    intro heq
    rw [heq] at hpid
  · have hz : (0 : Word).toNat = 0 := rfl
    omega
  · have hz : (1 : Word).toNat = 1 := rfl
    omega
  · have hz : (0xFFFFFFFF : Word).toNat = 2 ^ 32 - 1 := rfl
    omega

/-- **Equal pids are a multiple of `2 ^ 27` creations apart.** -/
theorem modEq_of_pidOf {i j m m' : ℕ} (hm : m ≤ maxProc) (hm' : m' ≤ maxProc)
    (h : pidOf i m = pidOf j m') : i ≡ j [MOD 2 ^ 27] := by
  have hi := pidOf_toNat (i := i) hm
  have hj := pidOf_toNat (i := j) hm'
  rw [h] at hi
  have hmax : maxProc = 20 := rfl
  rw [Nat.ModEq]
  omega

/-! ### One creation -/

/-- The pid that `createProcess` gives out next. -/
def Kernel.nextPid (k : Kernel n) : Word := (k.absProcessCount + 1) <<< 5 ||| (k.gProcessCount + 1)

/-- The block `b` has been given its pid, and has no handlers yet. -/
structure Numbered (k : Kernel n) (p b : Fin n) (k' : Kernel n) : Prop where
  current : k'.gCurrentProcess = some p
  loaded : k'.mStateLoaded = k.mStateLoaded
  abs : k'.absProcessCount = k.absProcessCount + 1
  block : (k'.pcb b).pPid = k.nextPid
  area : ∀ t, (k'.pcb b).area t = .zero

theorem numbered_liftQ {p b : Fin n} {α : Type} (hE : ∀ k', E (.fault .wild) k') (x : Q n α) :
    Keeps (Numbered k p b) E (liftM x : K n α) := by
  intro k' h
  rw [wp_liftQ]
  split
  · exact ⟨h.current, h.loaded, h.abs, h.block, h.area⟩
  · exact hE k'

theorem numbered_liftT {p b : Fin n} {α : Type} (hE : ∀ k', E (.fault .wild) k') (x : T n α) :
    Keeps (Numbered k p b) E (liftM x : K n α) := by
  intro k' h
  rw [wp_liftT]
  split
  · exact ⟨h.current, h.loaded, h.abs, h.block, h.area⟩
  · exact hE k'

/-- **`createProcess` in any state**, when there is room. -/
theorem wp_createProcess_numbered {p : Fin n} {np : ProcState} (hE : ∀ k', E (.fault .wild) k')
    (hp : k.gCurrentProcess = some p) (hroom : k.gProcessCount.toNat < maxProc) :
    wp (createProcess np) (fun _ k' => ∃ b, k.core.spare = some b ∧ Numbered k p b k' ∧
      k'.sysbold.a1 = k.nextPid) E k := by
  rw [createProcess, wp_bind, wp_get, if_pos hroom, allocPcb, bind_assoc, wp_bind, wp_liftQ]
  cases hrem : (removeProcQ .pcbFree).run k.toQueues with
  | none => exact hE k
  | some r =>
    obtain ⟨r, s⟩ := r
    cases r with
    | none => exact hE _
    | some b =>
      have hspare : k.core.spare = some b := by
        have hhead : (k.procQ .pcbFree).head.join = some b := by
          rw [run_removeProcQ_head hrem, Option.join_some]
        exact (if_pos hroom).trans hhead
      dsimp only
      rw [wp_bind, wp_bind, wp_modify, wp_pure, wp_bind, wp_modify, pidSelector, wp_bind, wp_bind,
        wp_modify, wp_bind, wp_get, wp_pure, wp_bind, wp_modify]
      have hcurrent : Keeps (Numbered k p b) E (current : K n (Fin n)) :=
        fun _ h => (wp_current h.current).mpr h
      have hzero : update k.pcb b Pcb.zero b = .zero := Function.update_self ..
      refine hcurrent.seq ⟨hp, rfl, rfl, congrArg Pcb.pPid (setPcb_pcb_self ..), fun t => ?_⟩ ?_
      · rw [setPcb_pcb_self]
        cases t
        · exact congrArg Pcb.sysbp hzero
        · exact congrArg Pcb.tlb hzero
        · exact congrArg Pcb.pgmtr hzero
      intro _ k₀ h₀
      apply (numbered_liftT hE _).seq h₀
      intro _ k₁ h₁
      apply (numbered_liftQ hE _).seq h₁
      intro _ k₂ h₂
      rw [wp_modify]
      exact ⟨b, hspare, ⟨h₂.current, h₂.loaded, h₂.abs, h₂.block, h₂.area⟩, h₂.block⟩

theorem Kernel.nextPid_eq {i : ℕ} (h : k.absProcessCount = BitVec.ofNat 32 (i + 1)) :
    k.nextPid = pidOf i (k.gProcessCount.toNat + 1) := by
  rw [Kernel.nextPid, pidOf, h, BitVec.ofNat_add k.gProcessCount.toNat 1, BitVec.ofNat_toNat,
    BitVec.setWidth_eq, BitVec.ofNat_add i 1, BitVec.ofNat_add i 2, BitVec.add_assoc]
  rfl

theorem Kernel.start_counts {p : Fin n} {e : Entry} :
    (k.start M p e).absProcessCount = k.absProcessCount ∧
      (k.start M p e).gProcessCount = k.gProcessCount ∧ (k.start M p e).nextPid = k.nextPid := by
  have habs : (k.start M p e).absProcessCount = k.absProcessCount := by
    cases e <;> exact onEnter_abs
  have hcount : (k.start M p e).gProcessCount = k.gProcessCount :=
    congrArg Core.gProcessCount Kernel.start_core
  exact ⟨habs, hcount, by rw [Kernel.nextPid, Kernel.nextPid, habs, hcount]⟩

/-- **SYS1 returns the pid of the new process**, when there is room. -/
theorem wp_handler_create {p : Fin n} {e : Entry} (hp : k.gCurrentProcess = some p)
    (he : e.Sys M createProcessNr) (hroom : k.gProcessCount.toNat < maxProc) :
    wp (handler M e) (fun _ _ => False) (fun s k' => s.Live → ∃ b x, k.core.spare = some b ∧
      s = .ldst x ∧ x.a1 = k.nextPid ∧ k'.absProcessCount = k.absProcessCount + 1 ∧
      (k'.pcb b).pPid = k.nextPid ∧ ∀ t, (k'.pcb b).area t = .zero) k := by
  obtain ⟨old, rfl, hsys, hmode, hnr⟩ := he.exists_old
  let k₁ : Kernel n := k.start M p (.sysBP old)
  have hp₁ : k₁.gCurrentProcess = some p := Kernel.start_current hp
  have hold : k₁.sysbold = old := Kernel.start_sysbold
  obtain ⟨habs, hcount, hnext⟩ := Kernel.start_counts (k := k) (M := M) (p := p) (e := .sysBP old)
  have hspare : k₁.core.spare = k.core.spare := congrArg Core.spare Kernel.start_core
  rw [wp_handler_call hp hsys, if_pos (by rw [hnr]; decide), if_pos hmode, defSys, wp_bind, wp_get]
  change wp (if k₁.sysbold.a1 = createProcessNr then _ else _) _ _ k₁
  rw [hold, if_pos hnr, wp_bind, wp_get]
  refine wp_mono (wp_createProcess_numbered (fun _ hlive => absurd hlive (not_live_fault _)) hp₁
    (hcount.symm ▸ hroom)) ?_ (fun _ _ h => h)
  rintro _ k₂ ⟨b, hb, h₂, ha1⟩
  rw [wp_leaveHandler_some (p := p) (x := .sysbold)]
  · intro _
    refine ⟨b, _, hspare.symm.trans hb, rfl, ?_, ?_, ?_, fun t => ?_⟩
    · have hrom : (k₂.onExit M true).sysbold = k₂.sysbold := onExit_romArea true .sbk
      rw [Kernel.deref, hrom, ha1, hnext]
    · rw [onExit_abs, h₂.abs, habs]
    · rw [onExit_pcb]
      split_ifs <;> exact h₂.block.trans hnext
    · rw [onExit_area]
      exact h₂.area t
  · rw [onExit_current]
    exact h₂.current
  · rw [onExit_mStateLoaded, h₂.loaded]
    exact onEnter_mStateLoaded

/-- SYS1 without room counts nothing. -/
theorem wp_handler_create_full {p : Fin n} {e : Entry} (hp : k.gCurrentProcess = some p)
    (he : e.Sys M createProcessNr) (hfull : ¬ k.gProcessCount.toNat < maxProc) :
    wp (handler M e) (fun _ _ => False)
      (fun _ k' => k'.absProcessCount = k.absProcessCount) k := by
  obtain ⟨old, rfl, hsys, hmode, hnr⟩ := he.exists_old
  let k₁ : Kernel n := k.start M p (.sysBP old)
  have hp₁ : k₁.gCurrentProcess = some p := Kernel.start_current hp
  have hold : k₁.sysbold = old := Kernel.start_sysbold
  obtain ⟨habs, hcount, -⟩ := Kernel.start_counts (k := k) (M := M) (p := p) (e := .sysBP old)
  have hfull₁ : ¬ k₁.gProcessCount.toNat < maxProc := hcount.symm ▸ hfull
  rw [wp_handler_call hp hsys, if_pos (by rw [hnr]; decide), if_pos hmode, defSys, wp_bind, wp_get]
  change wp (if k₁.sysbold.a1 = createProcessNr then _ else _) _ _ k₁
  rw [hold, if_pos hnr, wp_bind, wp_get, createProcess, wp_bind, wp_get, if_neg hfull₁, wp_modify,
    wp_leaveHandler_some (p := p) (x := .sysbold)]
  · rw [onExit_abs]
    exact habs
  · rw [onExit_current]
    exact hp₁
  · rw [onExit_mStateLoaded]
    exact onEnter_mStateLoaded

/-! ### Runs -/

/-- **The runs of the kernel**, with the pids that successful SYS1 have returned, in order,
and for each block the creation that has taken it last.  A creator is counted by
`g_process_count`. -/
inductive Births (M : Machine) : Config maxProc → List Word → (Fin maxProc → Option ℕ) → Prop
  | boot : Births M (boot M) [] fun _ => none
  | create {c : Config maxProc} {pids : List Word} {made : Fin maxProc → Option ℕ} {ev : Event}
      {b : Fin maxProc} {x : ProcState} (h : Births M c pids made) (htake : CanTake c ev)
      (hcall : ev.entry.Sys M createProcessNr)
      (hcount : 1 ≤ c.k.gProcessCount.toNat ∧ c.k.gProcessCount.toNat ≤ maxProc - 1)
      (hborn : (c.k.atEntry M ev).born M ev.entry = some b) (hx : (step M c ev).stop = .ldst x) :
      Births M (step M c ev) (pids ++ [x.a1]) (update made b (some pids.length))
  | other {c : Config maxProc} {pids : List Word} {made : Fin maxProc → Option ℕ} {ev : Event}
      (h : Births M c pids made) (htake : CanTake c ev)
      (hother : ev.entry.Sys M createProcessNr → ¬ c.k.gProcessCount.toNat < maxProc) :
      Births M (step M c ev) pids made

/-- The counter and the pids between two entries. -/
structure Counted (M : Machine) (c : Config maxProc) (pids : List Word)
    (made : Fin maxProc → Option ℕ) : Prop where
  ready : Ready M c
  abs : c.stop.Live → c.k.absProcessCount = BitVec.ofNat 32 (pids.length + 1)
  known : ∀ (i : ℕ) x, pids[i]? = some x → ∃ m, 2 ≤ m ∧ m ≤ maxProc ∧ x = pidOf i m
  taken : c.stop.Live → ∀ q i, made q = some i → pids[i]? = some (c.k.pcb q).pPid
  first : c.stop.Live → ∀ q, made q = none → (c.k.pcb q).pPid = 0 ∨ (c.k.pcb q).pPid = 1
  once : ∀ p q i, made p = some i → made q = some i → p = q

variable {c : Config maxProc} {pids : List Word} {made : Fin maxProc → Option ℕ} {ev : Event}

theorem counted_boot : Counted M (boot M) [] fun _ => none where
  ready := ready_boot
  abs hlive := (booted_boot hlive).abs
  known i x h := absurd h (by simp)
  taken _ q i h := absurd h (by simp)
  first hlive q _ := (booted_boot hlive).pid q
  once p q i h := absurd h (by simp)

theorem Ready.caller {nr : Word} (h : Ready M c) (htake : CanTake c ev)
    (hcall : ev.entry.Sys M nr) : ∃ p, c.k.gCurrentProcess = some p := by
  refine h.running htake ?_
  obtain ⟨old, hold, -⟩ := hcall.exists_old
  rw [hold]
  rfl

/-- **A creation** adds a pid. -/
theorem Counted.create {b : Fin maxProc} {x : ProcState} (h : Counted M c pids made)
    (htake : CanTake c ev) (hcall : ev.entry.Sys M createProcessNr)
    (hcount : 1 ≤ c.k.gProcessCount.toNat ∧ c.k.gProcessCount.toNat ≤ maxProc - 1)
    (hborn : (c.k.atEntry M ev).born M ev.entry = some b) (hx : (step M c ev).stop = .ldst x) :
    Counted M (step M c ev) (pids ++ [x.a1]) (update made b (some pids.length)) := by
  obtain ⟨p, hp⟩ := h.ready.caller htake hcall
  have hlive : (step M c ev).stop.Live := .inl ⟨x, hx⟩
  have hpass := h.ready.step htake hlive
  have hmax : maxProc = 20 := rfl
  have hroom : (c.k.atEntry M ev).gProcessCount.toNat < maxProc := by
    change c.k.gProcessCount.toNat < maxProc
    omega
  have hp' : (c.k.atEntry M ev).gCurrentProcess = some p := hp
  obtain ⟨b', x', hb', hx', ha1, habs, hblock, -⟩ :=
    runToStop_of_wp (wp_handler_create hp' hcall hroom) hlive
  obtain rfl : b = b' := by
    rw [born_of_sys hp' hcall] at hborn
    exact Option.some.inj (hborn.symm.trans hb')
  obtain rfl : x = x' := Stop.ldst.inj (hx.symm.trans hx')
  have hnext : (c.k.atEntry M ev).nextPid = pidOf pids.length (c.k.gProcessCount.toNat + 1) :=
    Kernel.nextPid_eq (h.abs htake.live)
  have hlt : ∀ {q i}, made q = some i → i < pids.length := fun hq =>
    (List.getElem?_eq_some_iff.mp (h.taken htake.live _ _ hq)).1
  refine ⟨h.ready.next htake, fun _ => ?_, ?_, fun _ q i hq => ?_, fun _ q hq => ?_, ?_⟩
  · have hcounter : (c.k.atEntry M ev).absProcessCount = BitVec.ofNat 32 (pids.length + 1) :=
      h.abs htake.live
    refine habs.trans ?_
    rw [hcounter, List.length_append, List.length_singleton, BitVec.ofNat_add (pids.length + 1) 1]
    rfl
  · intro i y hi
    rcases lt_or_ge i pids.length with hold | hnew
    · rw [List.getElem?_append_left hold] at hi
      exact h.known i y hi
    · rw [List.getElem?_append_right hnew, List.getElem?_singleton] at hi
      obtain rfl : i = pids.length := by
        split_ifs at hi with hzero
        omega
      rw [if_pos (Nat.sub_self _)] at hi
      obtain rfl := Option.some.inj hi
      exact ⟨c.k.gProcessCount.toNat + 1, by omega, by omega, ha1.trans hnext⟩
  · by_cases hqb : q = b
    · subst hqb
      rw [Function.update_self] at hq
      obtain rfl := Option.some.inj hq
      rw [List.getElem?_append_right le_rfl, Nat.sub_self]
      exact congrArg some (ha1.trans hblock.symm)
    · rw [Function.update_of_ne hqb] at hq
      rw [List.getElem?_append_left (hlt hq), hpass.pid q (by simp [hborn, Ne.symm hqb])]
      exact h.taken htake.live q i hq
  · by_cases hqb : q = b
    · subst hqb
      rw [Function.update_self] at hq
      exact absurd hq (by simp)
    · rw [Function.update_of_ne hqb] at hq
      rw [hpass.pid q (by simp [hborn, Ne.symm hqb])]
      exact h.first htake.live q hq
  · intro q r i hq hr
    by_cases hqb : q = b
    · by_cases hrb : r = b
      · exact hqb.trans hrb.symm
      · rw [hqb, Function.update_self] at hq
        rw [Function.update_of_ne hrb] at hr
        have hi := hlt hr
        obtain rfl := Option.some.inj hq
        exact absurd hi (lt_irrefl _)
    · rw [Function.update_of_ne hqb] at hq
      by_cases hrb : r = b
      · rw [hrb, Function.update_self] at hr
        have hi := hlt hq
        obtain rfl := Option.some.inj hr
        exact absurd hi (lt_irrefl _)
      · rw [Function.update_of_ne hrb] at hr
        exact h.once q r i hq hr

theorem Counted.other (h : Counted M c pids made) (htake : CanTake c ev)
    (hother : ev.entry.Sys M createProcessNr → ¬ c.k.gProcessCount.toNat < maxProc) :
    Counted M (step M c ev) pids made := by
  have hsame : ev.entry.Sys M createProcessNr → ∃ p, c.k.gCurrentProcess = some p :=
    fun hcall => h.ready.caller htake hcall
  have hborn : (c.k.atEntry M ev).born M ev.entry = none := by
    by_contra hsome
    obtain ⟨b, hb⟩ := Option.ne_none_iff_exists'.mp hsome
    obtain ⟨hcall, hroom⟩ := sys_of_born hb
    exact hother hcall hroom
  have habs : (step M c ev).stop.Live → (step M c ev).k.absProcessCount = c.k.absProcessCount := by
    intro hlive
    by_cases hcall : ev.entry.Sys M createProcessNr
    · obtain ⟨p, hp⟩ := hsame hcall
      exact runToStop_of_wp (wp_handler_create_full (k := c.k.atEntry M ev) hp hcall (hother hcall))
    · exact (h.ready.step htake hlive).abs hcall
  refine ⟨h.ready.next htake, fun hlive => (habs hlive).trans (h.abs htake.live), h.known, ?_, ?_,
    h.once⟩
  · intro hlive q i hq
    rw [(h.ready.step htake hlive).pid q (by simp [hborn])]
    exact h.taken htake.live q i hq
  · intro hlive q hq
    rw [(h.ready.step htake hlive).pid q (by simp [hborn])]
    exact h.first htake.live q hq

theorem Births.counted (h : Births M c pids made) : Counted M c pids made := by
  induction h with
  | boot => exact counted_boot
  | create _ htake hcall hcount hborn hx ih => exact ih.create htake hcall hcount hborn hx
  | other _ htake hother ih => exact ih.other htake hother

/-- **Pids are fresh.** -/
theorem births_fresh (h : Births M c pids made) :
    (∀ (i : ℕ) x, pids[i]? = some x → x ≠ 0 ∧ x ≠ 1 ∧ x ≠ 0xFFFFFFFF) ∧
      (∀ (i j : ℕ) x, pids[i]? = some x → pids[j]? = some x → i ≡ j [MOD 2 ^ 27]) ∧
      (c.stop.Live → ∀ p q i, p ≠ q → made p = some i → (c.k.pcb p).pPid = (c.k.pcb q).pPid →
        ∃ j, made q = some j ∧ (i + 2 ^ 27 ≤ j ∨ j + 2 ^ 27 ≤ i)) := by
  have hc := h.counted
  have hspecial : ∀ (i : ℕ) x, pids[i]? = some x → x ≠ 0 ∧ x ≠ 1 ∧ x ≠ 0xFFFFFFFF := by
    intro i x hi
    obtain ⟨m, hlow, hm, rfl⟩ := hc.known i x hi
    exact pidOf_special hlow hm
  have hmod : ∀ (i j : ℕ) x, pids[i]? = some x → pids[j]? = some x → i ≡ j [MOD 2 ^ 27] := by
    intro i j x hi hj
    obtain ⟨m, -, hm, rfl⟩ := hc.known i x hi
    obtain ⟨m', -, hm', heq⟩ := hc.known j _ hj
    exact modEq_of_pidOf hm hm' heq
  refine ⟨hspecial, hmod, ?_⟩
  intro hlive p q i hne hp heq
  have hi := hc.taken hlive p i hp
  cases hq : made q with
  | none =>
    obtain ⟨hzero, hone, -⟩ := hspecial i _ hi
    rw [heq] at hzero hone
    rcases hc.first hlive q hq with h0 | h1
    · exact absurd h0 hzero
    · exact absurd h1 hone
  | some j =>
    have hj := hc.taken hlive q j hq
    rw [← heq] at hj
    have hij := hmod i j _ hi hj
    have hdiff : i ≠ j := by
      rintro rfl
      exact hne (hc.once p q i hp hq)
    refine ⟨j, rfl, ?_⟩
    rw [Nat.ModEq] at hij
    omega

/-- The first process creates two others. -/
theorem births_fresh_two : ∃ (c : Config maxProc) (x y : Word), c.k.gProcessCount = 3 ∧
    (c.k.pcb ⟨1, by decide⟩).pPid = x ∧ (c.k.pcb ⟨2, by decide⟩).pPid = y ∧ x ≠ y ∧
    (x ≠ 0 ∧ x ≠ 1 ∧ x ≠ 0xFFFFFFFF) ∧ y ≠ 0 ∧ y ≠ 1 ∧ y ≠ 0xFFFFFFFF := by
  let ev : Event := sys createProcessNr 0 0 0
  let c₁ : Config maxProc := step uarm (boot uarm) ev
  let c₂ : Config maxProc := step uarm c₁ ev
  have hcall : ev.entry.Sys uarm createProcessNr := ⟨by decide, by decide, rfl⟩
  have htake : CanTake (boot uarm : Config maxProc) ev := Config.canTake_iff.mp (by decide +kernel)
  have htake₁ : CanTake c₁ ev := Config.canTake_iff.mp (by decide +kernel)
  have htake₂ : CanTake c₂ ev := Config.canTake_iff.mp (by decide +kernel)
  obtain ⟨x, hx⟩ := htake₁.resolve_right (fun h => absurd h.2 (by decide))
  obtain ⟨y, hy⟩ := htake₂.resolve_right (fun h => absurd h.2 (by decide))
  have hone : Births uarm c₁ ([] ++ [x.a1]) _ :=
    .create (b := ⟨1, by decide⟩) .boot htake hcall (by decide +kernel) (by decide +kernel) hx
  have htwo : Births uarm c₂ ([] ++ [x.a1] ++ [y.a1]) _ :=
    .create (b := ⟨2, by decide⟩) hone htake₁ hcall (by decide +kernel) (by decide +kernel) hy
  obtain ⟨hspecial, hmod, -⟩ := births_fresh htwo
  have hpids := htwo.counted.taken htake₂.live
  have hfirst := hpids ⟨1, by decide⟩ 0 rfl
  have hsecond := hpids ⟨2, by decide⟩ 1 rfl
  refine ⟨c₂, _, _, by decide +kernel, rfl, rfl, ?_, hspecial 0 _ hfirst, hspecial 1 _ hsecond⟩
  intro heq
  have hij := hmod 0 1 _ hfirst (heq ▸ hsecond)
  exact absurd hij (by decide)

end JaeOS
