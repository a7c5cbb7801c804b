import JaeOS.Properties.Exclusion
import Mathlib.Algebra.Order.BigOperators.Group.List

/-!
# How much wakes a waiter up

A waiter gets its units when those in front of it have got theirs.  So while it waits, less
is released than what they ask for together, whoever is ended and whoever comes behind it.
-/

namespace JaeOS

open Function (update)
open Forest (Progeny)

variable {n : ℕ} {M : Machine} {k : Kernel n} {σ σ' : Snap n} {a w : Word} {p q z : Fin n}
  {e : Entry} {t : Task n} {req req' : Fin n → Word} {ps qs ahead ahead' behind : List (Fin n)}

/-! ### Requests -/

/-- What the processes of a list ask for together. -/
def demand (req : Fin n → Word) (qs : List (Fin n)) : ℕ := (qs.map fun q => (req q).toNat).sum

theorem demand_append : demand req (ps ++ qs) = demand req ps + demand req qs := by
  rw [demand, List.map_append, List.sum_append, ← demand, ← demand]

theorem demand_congr (h : ∀ q ∈ qs, req' q = req q) : demand req' qs = demand req qs := by
  rw [demand, demand, List.map_congr_left (fun q hq => congrArg BitVec.toNat (h q hq))]

theorem demand_le_of_sublist (h : ps.Sublist qs) : demand req ps ≤ demand req qs :=
  (h.map _).sum_le_sum (fun _ _ => Nat.zero_le _)

theorem le_demand (h : q ∈ qs) : (req q).toNat ≤ demand req qs :=
  List.le_sum_of_mem (List.mem_map_of_mem h)

/-- Nobody waits for more than a `P` may ask for. -/
def Snap.Modest (σ : Snap n) : Prop :=
  ∀ q a, σ.view.place q = .sem a → (σ.core.resRequested q).toNat ≤ 2 ^ 31

theorem Snap.Modest.of (h : σ.Modest) (hstay : ∀ q a, σ'.view.place q = .sem a →
    σ.view.place q = .sem a ∧ σ'.core.resRequested q = σ.core.resRequested q) : σ'.Modest := by
  intro q a hq
  obtain ⟨hplace, hreq⟩ := hstay q a hq
  rw [hreq]
  exact h q a hplace

theorem View.place_of_move {v : View n} {pl : Place} (hpl : ∀ a, pl ≠ .sem a)
    (h : (v.move p pl).place q = .sem a) : q ≠ p ∧ v.place q = .sem a := by
  have hne : q ≠ p := by
    rintro rfl
    rw [Placement.move_place_self] at h
    exact hpl a h
  rw [Placement.move_place_of_ne hne] at h
  exact ⟨hne, h⟩

theorem neg_toNat_le (hw : w.toInt < 0) : (-w).toNat ≤ 2 ^ 31 := by
  have hlt := w.isLt
  rw [BitVec.toInt_eq_toNat_cond] at hw
  rw [BitVec.toNat_neg]
  split_ifs at hw with hc
  · omega
  · rw [Nat.mod_eq_of_lt (by omega)]
    omega

theorem Signal.modest (h : Signal M a w σ σ') (hm : σ.Modest) : σ'.Modest := by
  refine hm.of (fun q b hq => ?_)
  rw [h.view, View.wake_place] at hq
  rw [h.resRequested, clearRequests_apply]
  by_cases hwoken : q ∈ (σ.service a w).woken
  · rw [if_pos hwoken] at hq
    exact absurd hq (by simp)
  · rw [if_neg hwoken] at hq
    exact ⟨hq, if_neg hwoken⟩

theorem Signals.modest (h : Signals M a σ σ') (hm : σ.Modest) : σ'.Modest := by
  induction h with
  | refl => exact hm
  | head _ h _ ih => exact ih (h.modest hm)

theorem Store.modest {r : Word} (h : Store a r σ σ') (hm : σ.Modest) : σ'.Modest := by
  obtain ⟨x, y, hcore⟩ := h.core
  refine hm.of (fun q b hq => ?_)
  rw [h.view] at hq
  rw [hcore]
  exact ⟨hq, rfl⟩

theorem Does.modest (h : Does M t σ σ') (hm : σ.Modest) : σ'.Modest := by
  induction h with
  | nothing => exact hm
  | full => exact hm
  | busy => exact hm
  | create h =>
    refine hm.of (fun q b hq => ?_)
    rw [h.view] at hq
    obtain ⟨hne, hplace⟩ := View.place_of_move (by simp) hq
    rw [h.resRequested, Function.update_of_ne hne]
    exact ⟨hplace, rfl⟩
  | kill h =>
    obtain ⟨ds, -, -, hrel⟩ := h.releases
    refine hm.of (fun q b hq => ?_)
    rw [hrel.place] at hq
    rw [hrel.resRequested]
    split_ifs at hq
    exact ⟨hq, rfl⟩
  | signal _ h => exact h.modest hm
  | grant _ h =>
    refine hm.of (fun q b hq => ?_)
    rw [h.view] at hq
    rw [h.core]
    exact ⟨hq, rfl⟩
  | @block p _ _ _ _ hw h =>
    intro q b hq
    rw [h.view] at hq
    rw [h.resRequested]
    by_cases hqp : q = p
    · rw [hqp, Function.update_self]
      exact neg_toNat_le hw
    · rw [Placement.move_place_of_ne hqp] at hq
      rw [Function.update_of_ne hqp]
      exact hm q b hq
  | command _ hs ih => exact hs.modest (ih hm)
  | store h => exact h.modest hm
  | tick h => exact h.modest hm
  | preempt hs h =>
    refine (hs.modest hm).of (fun q b hq => ?_)
    rw [h.view] at hq
    rw [h.resRequested]
    exact ⟨(View.place_of_move (by simp) hq).2, rfl⟩
  | device _ h => exact h.modest hm

theorem Ends.modest {stop : Stop} (h : Ends M t σ stop σ') (hm : σ.Modest) : σ'.Modest := by
  cases h with
  | fail => exact hm
  | back hd _ => exact hd.modest hm
  | dispatch hd _ h =>
    refine (hd.modest hm).of (fun q b hq => ?_)
    rw [h.view] at hq
    rw [h.resRequested]
    exact ⟨(View.place_of_move (by simp) hq).2, rfl⟩
  | idle hd _ _ => exact hd.modest hm

/-- **Nobody waits for more than `2 ^ 31` units**, in any run. -/
theorem Reaches.modest {c : Config maxProc} {L : Set (Fin maxProc)} (hL : Layout M)
    (h : Reaches M (fun k e => k.Admits M e) c L) : ∃ σ, Between c L σ ∧ σ.Modest := by
  refine h.between (I := fun _ σ => σ.Modest) hL (fun _ _ h => h) (fun s σ hi q a hq => ?_)
    (fun k ev stop₀ stop σ σ' _ _ hm _ hends => hends.modest hm)
  rw [hi.place] at hq
  split_ifs at hq

/-! ### One entry -/

/-- What an entry makes of a waiter that stays: what it is short of gets less by the units
that are released, and is not covered by what is left of them. -/
structure Core.Supplies (c c' : Core n) (a : Word) (z : Fin n) (ahead ahead' : List (Fin n))
    (given : ℕ) : Prop where
  missing : demand c'.resRequested (ahead' ++ [z]) + (c.mem a).toNat + given ≤
    demand c.resRequested (ahead ++ [z]) + (c'.mem a).toNat
  short : 0 < given → (c'.mem a).toNat < demand c'.resRequested (ahead' ++ [z])
  nonneg : 0 ≤ (c'.mem a).toInt

theorem Signal.supplies (hm : σ.Modest) (hv : 0 ≤ (σ.core.mem a).toInt) (hw : 0 < w.toInt)
    (hq : σ.waiting a = ahead ++ z :: behind) (hz : z ∈ σ'.waiting a) (h : Signal M a w σ σ') :
    ∃ ahead', σ'.waiting a = ahead' ++ z :: behind ∧
      σ.core.Supplies σ'.core a z ahead ahead' w.toNat := by
  let req : Fin n → ℕ := fun q => (σ.core.resRequested q).toNat
  have hnd : (σ.waiting a).Nodup := σ.view.nodup _
  have hadd : (w + σ.core.mem a).toNat = (σ.core.mem a).toNat + w.toNat := by
    have := (toInt_of_nonneg hv).2
    have := (toInt_of_nonneg hw.le).2
    rw [BitVec.toNat_add, Nat.mod_eq_of_lt (by omega), Nat.add_comm]
  have hserve : serve req ((σ.core.mem a).toNat + w.toNat) (σ.waiting a) =
      ⟨(σ.service a w).woken, (σ.service a w).rest, (σ.service a w).left.toNat⟩ := by
    rw [← hadd]
    exact serve_map (fun x : Word => x.toNat) (fun _ _ => Iff.rfl)
      (fun _ _ h => BitVec.toNat_sub_of_le h)
  have hsum := serve_sum req ((σ.core.mem a).toNat + w.toNat) (σ.waiting a)
  rw [h.waiting] at hz
  obtain ⟨ahead', hahead, hrest, y, hy, hlt⟩ :=
    serve_waits req ((σ.core.mem a).toNat + w.toNat) hq hnd (by rw [hserve]; exact hz)
  rw [hserve] at hsum hahead hrest hlt
  have hvalue : σ'.core.mem a = (σ.service a w).left := by
    rw [h.mem, Function.update_self]
  have hreq : ∀ q ∈ ahead' ++ [z], σ'.core.resRequested q = σ.core.resRequested q := by
    intro q hm
    rw [h.resRequested, clearRequests_apply, if_neg]
    intro hwoken
    have happ := serve_append σ.core.resRequested (w + σ.core.mem a) (σ.waiting a)
    rw [← happ] at hnd
    refine (List.nodup_append'.mp hnd).2.2 hwoken ?_
    change q ∈ (σ.service a w).rest
    rw [hrest]
    rcases List.mem_append.mp hm with hm | hm
    · exact List.mem_append_left _ hm
    · rw [List.mem_singleton.mp hm]
      simp
  have hdemand : demand σ.core.resRequested (ahead' ++ [z]) =
      demand σ'.core.resRequested (ahead' ++ [z]) := (demand_congr hreq).symm
  refine ⟨ahead', ?_, ?_, fun _ => ?_, ?_⟩
  · rw [h.waiting]
    exact hrest
  · have htotal : demand σ.core.resRequested (ahead ++ [z]) =
        demand σ.core.resRequested (σ.service a w).woken +
          demand σ.core.resRequested (ahead' ++ [z]) := by
      rw [hahead, List.append_assoc, demand_append]
    have hserved : (σ.service a w).left.toNat + demand σ.core.resRequested (σ.service a w).woken =
        (σ.core.mem a).toNat + w.toNat := hsum
    rw [hvalue, htotal, ← hdemand]
    omega
  · rw [hvalue, ← hdemand]
    exact hlt.trans_le (le_demand hy)
  · have hplace : σ.view.place y = .sem a := by
      refine (σ.view.mem _ y).mp ?_
      change y ∈ σ.waiting a
      rw [hq, hahead]
      rcases List.mem_append.mp hy with hy | hy
      · simp [hy]
      · simp [List.mem_singleton.mp hy]
    have hmax := hm y a hplace
    have hlt' : (σ.service a w).left.toNat < (σ.core.resRequested y).toNat := hlt
    rw [hvalue, BitVec.toInt_eq_toNat_of_lt (by omega)]
    exact Int.natCast_nonneg _

theorem Block.supplies (hv : 0 ≤ (σ.core.mem a).toInt)
    (hq : σ.waiting a = ahead ++ z :: behind) (h : Block M a w p σ σ') :
    σ'.waiting a = ahead ++ z :: (behind ++ [p]) ∧ σ.core.Supplies σ'.core a z ahead ahead 0 := by
  have hnot : p ∉ σ.waiting a := Snap.not_mem_waiting h.held (by simp)
  have hreq : ∀ q ∈ ahead ++ [z], σ'.core.resRequested q = σ.core.resRequested q := by
    intro q hm
    rw [h.resRequested, Function.update_of_ne]
    rintro rfl
    rw [hq] at hnot
    rcases List.mem_append.mp hm with hm | hm
    · exact hnot (List.mem_append_left _ hm)
    · exact hnot (by simp [List.mem_singleton.mp hm])
  refine ⟨?_, ?_, fun hlt => absurd hlt (Nat.lt_irrefl 0), ?_⟩
  · rw [h.waiting, hq, List.append_assoc, List.cons_append]
  · rw [demand_congr hreq, h.mem]
    omega
  · rw [h.mem]
    exact hv

/-- An entry that has nothing to do with the semaphore may end some of those in front. -/
theorem Does.supplies_aloof (hc : Consistent σ) (hv : 0 ≤ (σ.core.mem a).toInt)
    (hn : ¬ t.Names M a) (hq : σ.waiting a = ahead ++ z :: behind) (hz : z ∈ σ'.waiting a)
    (h : Does M t σ σ') :
    ∃ ahead' behind', σ'.waiting a = ahead' ++ z :: behind' ∧
      σ.core.Supplies σ'.core a z ahead ahead' 0 := by
  by_cases hkill : ∃ root, t = .kill root
  · obtain ⟨root, rfl⟩ := hkill
    cases h with
    | kill hterm =>
      obtain ⟨ds, -, -, hrel⟩ := hterm.releases
      have hlist : σ'.waiting a = (σ.waiting a).filter (· ∉ ds) := hrel.list (by simp)
      have hlives : z ∉ ds := by
        rw [hlist] at hz
        exact of_decide_eq_true (List.mem_filter.mp hz).2
      refine ⟨ahead.filter (· ∉ ds), behind.filter (· ∉ ds), ?_, ?_,
        fun hlt => absurd hlt (Nat.lt_irrefl 0), ?_⟩
      · rw [hlist, hq, List.filter_append, List.filter_cons_of_pos (by simpa using hlives)]
      · have hle : demand σ.core.resRequested (ahead.filter (· ∉ ds) ++ [z]) ≤
            demand σ.core.resRequested (ahead ++ [z]) :=
          demand_le_of_sublist (List.filter_sublist.append_right _)
        rw [hrel.resRequested, hrel.mem]
        omega
      · rw [hrel.mem]
        exact hv
  · have hsame : σ.SameAt σ' a :=
      h.sameAt hc hn (fun root hroot => absurd ⟨root, hroot⟩ hkill)
    have hreq : ∀ q ∈ ahead ++ [z], σ'.core.resRequested q = σ.core.resRequested q := by
      intro q hm
      refine hsame.requests q ?_
      rw [hq]
      rcases List.mem_append.mp hm with hm | hm
      · exact List.mem_append_left _ hm
      · simp [List.mem_singleton.mp hm]
    refine ⟨ahead, behind, hsame.waiting.trans hq, ?_, fun hlt => absurd hlt (Nat.lt_irrefl 0), ?_⟩
    · rw [demand_congr hreq, hsame.value]
      omega
    · rw [hsame.value]
      exact hv

/-- **One task**, and a waiter that stays. -/
theorem Does.supplies (hc : Consistent σ) (hm : σ.Modest) (hv : 0 ≤ (σ.core.mem a).toInt)
    (hnamed : t.Names M a → ∃ w, t = .semop a w) (hq : σ.waiting a = ahead ++ z :: behind)
    (hz : z ∈ σ'.waiting a) (h : Does M t σ σ') :
    ∃ ahead' behind', σ'.waiting a = ahead' ++ z :: behind' ∧
      σ.core.Supplies σ'.core a z ahead ahead' (t.returned a) := by
  by_cases hn : t.Names M a
  · obtain ⟨w, rfl⟩ := hnamed hn
    cases h with
    | signal hw hs =>
      have hreturned : (Task.semop a w : Task n).returned a = w.toNat := if_pos ⟨rfl, hw⟩
      rw [hreturned]
      obtain ⟨ahead', hq', hsup⟩ := hs.supplies hm hv hw hq hz
      exact ⟨ahead', behind, hq', hsup⟩
    | grant _ hg =>
      have hnobody := hg.nobody
      rw [hq] at hnobody
      exact absurd hnobody (by simp)
    | block hw hb =>
      have hreturned : (Task.semop a w : Task n).returned a = 0 := if_neg (fun hpos => by omega)
      rw [hreturned]
      exact ⟨ahead, _, hb.supplies hv hq⟩
  · rw [Task.returned_of_not hn]
    exact h.supplies_aloof hc hv hn hq hz

/-- The processes use the semaphore with SYS3 alone, and nobody stores in it. -/
structure SemopOnly (M : Machine) (a : Word) (k : Kernel n) (ev : Event) : Prop where
  mem : (k.atEntry M ev).mem a = k.mem a
  named : ((k.atEntry M ev).task M ev.entry).Names M a →
    ∃ w, (k.atEntry M ev).task M ev.entry = .semop a w

/-! ### Runs -/

variable {c c₀ : Config maxProc} {L L₀ : Set (Fin maxProc)} {ev : Event} {given : ℕ}
  {x y : Fin maxProc} {before after : List (Fin maxProc)}

theorem Reaches.waitsAt_iff (hL : Layout M) (h : Reaches M (fun k e => k.Admits M e) c L)
    (hw : c.k.Waiting a (before ++ y :: after)) :
    c.k.WaitsAt a x ↔ x ∈ before ++ y :: after := by
  obtain ⟨σ, hb⟩ := h.exists_between hL
  rw [hb.waiting_unique hw, Snap.mem_waiting hb.core]

/-- **One entry**, and a waiter that stays. -/
theorem Reaches.supplies (hL : Layout M) (hpid : a ≠ 0x00011114)
    (h : Reaches M (fun k e => k.Admits M e) c L) (htake : CanTake c ev)
    (hok : (c.k.atEntry M ev).Admits M ev.entry) (huse : SemopOnly M a c.k ev)
    (hv : 0 ≤ (c.k.mem a).toInt) (hq : c.k.Waiting a (before ++ y :: after))
    (hy : (JaeOS.step M c ev).k.WaitsAt a y) :
    ∃ before' after', (JaeOS.step M c ev).k.Waiting a (before' ++ y :: after') ∧
      c.k.core.Supplies (JaeOS.step M c ev).k.core a y before before'
        (((c.k.atEntry M ev).task M ev.entry).returned a) := by
  obtain ⟨σ, hb, hm⟩ := h.modest hL
  obtain ⟨σ', hb', hends, -⟩ := hb.step hL htake hok
  have hwait : σ.waiting a = before ++ y :: after := (hb.waiting_unique hq).symm
  have hc : Consistent (σ.atEntry M ev.mem) := hb.consistent.atEntry M ev.mem
  have hval : (σ.atEntry M ev.mem).core.mem a = c.k.mem a := by
    rw [Snap.atEntry_core hb.core]
    exact huse.mem
  have hy' : y ∈ σ'.waiting a := (Snap.mem_waiting hb'.core).mpr hy
  obtain ⟨before', after', hq', hsup⟩ : ∃ before' after', σ'.waiting a = before' ++ y :: after' ∧
      (σ.atEntry M ev.mem).core.Supplies σ'.core a y before before'
        (((c.k.atEntry M ev).task M ev.entry).returned a) := by
    rcases hends.does hpid with ⟨site, hfail, rfl⟩ | ⟨σ₁, hdoes, hsame⟩
    · have hreturned : ((c.k.atEntry M ev).task M ev.entry).returned a = 0 := by
        generalize (c.k.atEntry M ev).task M ev.entry = t at hfail
        cases hfail with
        | zero hw => exact if_neg (fun hpos => by omega)
        | full hw => exact if_neg (fun hpos => by omega)
        | _ => rfl
      refine ⟨before, after, hwait, ?_, fun hpos => absurd hpos (by omega), ?_⟩
      · rw [hreturned]
        omega
      · rw [hval]
        exact hv
    · rw [hsame.waiting] at hy'
      obtain ⟨before', after', hq', hsup⟩ :=
        hdoes.supplies hc hm (by rw [hval]; exact hv) huse.named hwait hy'
      have hreq : ∀ q ∈ before' ++ [y], σ'.core.resRequested q = σ₁.core.resRequested q := by
        intro q hm
        refine hsame.requests q ?_
        rw [hq']
        rcases List.mem_append.mp hm with hm | hm
        · exact List.mem_append_left _ hm
        · simp [List.mem_singleton.mp hm]
      refine ⟨before', after', hsame.waiting.trans hq', ?_, ?_, ?_⟩
      · rw [demand_congr hreq, hsame.value]
        exact hsup.missing
      · rw [demand_congr hreq, hsame.value]
        exact hsup.short
      · rw [hsame.value]
        exact hsup.nonneg
  refine ⟨before', after', hq' ▸ hb'.represents.waiting a, ?_⟩
  have hreq : (σ.atEntry M ev.mem).core.resRequested = c.k.core.resRequested := by
    rw [← hb.core]
    rfl
  rw [← hb'.core]
  refine ⟨?_, hsup.short, hsup.nonneg⟩
  have hmissing := hsup.missing
  rw [hreq, hval] at hmissing
  exact hmissing

/-- Runs from a state, with the units that are released at an address, as long as a process
waits there. -/
inductive Supplied (M : Machine) (a : Word) (y : Fin maxProc) (c₀ : Config maxProc)
    (L₀ : Set (Fin maxProc)) : Config maxProc → Set (Fin maxProc) → ℕ → Prop
  | refl : Supplied M a y c₀ L₀ c₀ L₀ 0
  | step {c : Config maxProc} {L : Set (Fin maxProc)} {given : ℕ} {ev : Event}
      (h : Supplied M a y c₀ L₀ c L given) (htake : CanTake c ev)
      (hok : (c.k.atEntry M ev).Admits M ev.entry) (huse : SemopOnly M a c.k ev)
      (hy : (step M c ev).k.WaitsAt a y) :
      Supplied M a y c₀ L₀ (step M c ev)
        {q | (q ∈ L ∨ (c.k.atEntry M ev).born M ev.entry = some q) ∧
          ¬ (c.k.atEntry M ev).Dies M ev.entry q}
        (given + ((c.k.atEntry M ev).task M ev.entry).returned a)

theorem Supplied.reaches (h : Supplied M a y c₀ L₀ c L given)
    (h₀ : Reaches M (fun k e => k.Admits M e) c₀ L₀) :
    Reaches M (fun k e => k.Admits M e) c L := by
  induction h with
  | refl => exact h₀
  | step _ htake hok _ _ ih => exact ih.step htake hok

/-- **A waiter is woken up by what it and those in front of it ask for.**  As long as it
waits, and once something has been released, the units that were there and those that have
been released are fewer, whoever is ended in between and whoever comes behind it. -/
theorem supply_wakes (hL : Layout M) (hpid : a ≠ 0x00011114)
    (h₀ : Reaches M (fun k e => k.Admits M e) c₀ L₀)
    (hw : c₀.k.Waiting a (before ++ y :: after)) (hv : 0 ≤ (c₀.k.mem a).toInt)
    (h : Supplied M a y c₀ L₀ c L given) (hgiven : 0 < given) :
    (c₀.k.mem a).toNat + given < demand c₀.k.resRequested (before ++ [y]) := by
  have hrun : 0 ≤ (c.k.mem a).toInt ∧
      ∃ before' after', c.k.Waiting a (before' ++ y :: after') ∧
      demand c.k.resRequested (before' ++ [y]) + (c₀.k.mem a).toNat + given ≤
        demand c₀.k.resRequested (before ++ [y]) + (c.k.mem a).toNat ∧
      (0 < given → (c₀.k.mem a).toNat + given < demand c₀.k.resRequested (before ++ [y])) := by
    clear hgiven
    induction h with
    | refl => exact ⟨hv, before, after, hw, by omega, fun hpos => absurd hpos (Nat.lt_irrefl 0)⟩
    | @step c L given ev hrest htake hok huse hy ih =>
      obtain ⟨hv₁, before₁, after₁, hq₁, hmissing₁, hless₁⟩ := ih
      obtain ⟨before', after', hq', hsup⟩ :=
        (hrest.reaches h₀).supplies hL hpid htake hok huse hv₁ hq₁ hy
      have hmissing : demand (step M c ev).k.resRequested (before' ++ [y]) + (c.k.mem a).toNat +
          ((c.k.atEntry M ev).task M ev.entry).returned a ≤
          demand c.k.resRequested (before₁ ++ [y]) + ((step M c ev).k.mem a).toNat := hsup.missing
      refine ⟨hsup.nonneg, before', after', hq', by omega, fun _ => ?_⟩
      rcases Nat.eq_zero_or_pos (((c.k.atEntry M ev).task M ev.entry).returned a) with hzero | hpos
      · rw [hzero, Nat.add_zero]
        exact hless₁ (by omega)
      · have hshort : ((step M c ev).k.mem a).toNat <
            demand (step M c ev).k.resRequested (before' ++ [y]) := hsup.short hpos
        omega
  obtain ⟨-, -, -, -, -, hless⟩ := hrun
  exact hless hgiven

/-- The first process asks for three units and the second one releases one: the first one
still waits. -/
theorem supply_wakes_three : ∃ c : Config maxProc, c.k.WaitsAt 0x2000 proc0 ∧
    (c.k.mem 0x2000).toNat + 1 < demand c.k.resRequested [proc0] := by
  let c₁ : Config maxProc := step uarm (boot uarm) (sys createProcessNr 0 0 0)
  let c₂ : Config maxProc := step uarm c₁ (sys semopNr 0x2000 (-3) 0)
  let c₃ : Config maxProc := step uarm c₂ (sys semopNr 0x2000 1 0)
  have h₁ : Reaches uarm (fun k e => k.Admits uarm e) c₁ _ :=
    .step .boot (Config.canTake_iff.mp (by decide +kernel)) (.of_tame (by decide +kernel))
  obtain ⟨L, h₂⟩ : ∃ L, Reaches uarm (fun k e => k.Admits uarm e) c₂ L :=
    ⟨_, .step h₁ (Config.canTake_iff.mp (by decide +kernel)) (.of_tame (by decide +kernel))⟩
  have htake : CanTake c₂ (sys semopNr 0x2000 1 0) := Config.canTake_iff.mp (by decide +kernel)
  have hok : (c₂.k.atEntry uarm (sys semopNr 0x2000 1 0)).Admits uarm (sys semopNr 0x2000 1 0).entry :=
    .of_tame (by decide +kernel)
  let d : Semd := ⟨0, by decide⟩
  have hw₂ : c₂.k.Waiting 0x2000 ([] ++ proc0 :: []) :=
    waiting_of_only (d := d) (by decide +kernel) (by decide +kernel) (by decide +kernel)
      (queue_singleton (by decide +kernel) (by decide +kernel))
  have hw₃ : c₃.k.Waiting 0x2000 ([] ++ proc0 :: []) :=
    waiting_of_only (d := d) (by decide +kernel) (by decide +kernel) (by decide +kernel)
      (queue_singleton (by decide +kernel) (by decide +kernel))
  have htask : (c₂.k.atEntry uarm (sys semopNr 0x2000 1 0)).task uarm (sys semopNr 0x2000 1 0).entry =
      .semop 0x2000 1 := by decide +kernel
  have huse : SemopOnly uarm 0x2000 c₂.k (sys semopNr 0x2000 1 0) :=
    ⟨by decide +kernel, fun _ => ⟨1, htask⟩⟩
  have hrun : Supplied uarm 0x2000 proc0 c₂ L c₃ _ (0 + _) :=
    Supplied.refl.step htake hok huse (((h₂.step htake hok).waitsAt_iff layout_uarm hw₃).mpr (by simp))
  have hgiven : ((c₂.k.atEntry uarm (sys semopNr 0x2000 1 0)).task uarm
      (sys semopNr 0x2000 1 0).entry).returned 0x2000 = 1 := by
    rw [htask]
    decide
  have hless := supply_wakes layout_uarm (by decide) h₂ hw₂ (by decide +kernel) hrun
    (by rw [hgiven]; decide)
  rw [hgiven] at hless
  exact ⟨c₂, (h₂.waitsAt_iff layout_uarm hw₂).mpr (by simp), hless⟩

end JaeOS
