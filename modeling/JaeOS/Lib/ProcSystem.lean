import JaeOS.Lib.Forest
import Mathlib.Data.List.Basic
import Mathlib.Data.Set.Insert

/-!
# Systems of processes

Processes that share one processor: each is running, ready, or in one of the queues
named by `A`, and each but the first has a parent.  `Step` are the moves of such a
system.  All its queues are first in, first out.
-/

open Function (update)
open Forest (Progeny Ranked)

variable {P A : Type*}

/-! ### Pruned forests -/

namespace Forest

variable {par : P → Option P} {root q p : P}

open Classical in
/-- The parents when everything below `root` is gone. -/
noncomputable def prune (par : P → Option P) (root : P) : P → Option P := fun q =>
  if Progeny par root q then none else par q

theorem prune_of_progeny (h : Progeny par root q) : prune par root q = none := if_pos h

theorem prune_of_not (h : ¬ Progeny par root q) : prune par root q = par q := if_neg h

theorem prune_eq_some : prune par root q = some p ↔ ¬ Progeny par root q ∧ par q = some p := by
  by_cases h : Progeny par root q
  · rw [prune_of_progeny h]
    exact iff_of_false (by simp) (fun h' => h'.1 h)
  · rw [prune_of_not h, and_iff_right h]

theorem Progeny.prune {r : P} (h : Progeny par r q) (hq : ¬ Progeny par root q) :
    Progeny (prune par root) r q := by
  induction h with
  | refl => exact .refl
  | @tail a b hr hb ih => exact (ih (fun ha => hq (ha.tail hb))).tail (prune_eq_some.mpr ⟨hq, hb⟩)

theorem Ranked.prune (h : Ranked par) : Ranked (prune par root) :=
  h.mono (fun _ _ hc => (prune_eq_some.mp hc).2)

theorem progeny_congr {par' : P → Option P} {x r : P}
    (h : ∀ q, Progeny par q x → par' q = par q) : Progeny par' r x ↔ Progeny par r x := by
  constructor
  · intro hr
    induction hr using Relation.ReflTransGen.head_induction_on with
    | refl => exact .refl
    | head hc _ ih => exact ih.of_child ((h _ ih).symm.trans hc)
  · intro hr
    induction hr using Relation.ReflTransGen.head_induction_on with
    | refl => exact .refl
    | head hc hx ih => exact ih.of_child ((h _ hx).trans hc)

end Forest

/-! ### First in, first out -/

/-- The queue `xs` loses some elements, gives up `out` at its head and gets `new` at its
end. -/
structure FifoStep (xs out new ys : List P) : Prop where
  queue : ∃ rest, (out ++ rest).Sublist xs ∧ ys = rest ++ new

theorem sublist_of_append_cons {l r before after : List P} {x : P}
    (h : (l ++ x :: r).Sublist (before ++ x :: after)) (hnd : (before ++ x :: after).Nodup) :
    l.Sublist before := by
  obtain ⟨-, hnd', hbefore⟩ := List.nodup_append.mp hnd
  have hafter : x ∉ after := (List.nodup_cons.mp hnd').1
  have hl : x ∉ l := fun hm =>
    (List.nodup_append.mp (h.nodup hnd)).2.2 x hm x List.mem_cons_self rfl
  obtain ⟨a, b, heq, ha, hb⟩ := List.sublist_append_iff.mp h
  rcases List.append_eq_append_iff.mp heq with ⟨m, rfl, -⟩ | ⟨m, rfl, rfl⟩
  · exact (List.sublist_append_left _ _).trans ha
  · cases m with
    | nil =>
      rw [List.append_nil]
      exact ha
    | cons y m =>
      -- then `x` would come once more behind itself
      have hy : y ≠ x := fun hyx => hl (by simp [hyx])
      rw [List.cons_append] at hb
      have hm := List.Sublist.of_cons_of_ne hy hb
      exact absurd (hm.subset (by simp)) hafter

namespace FifoStep

variable {xs ys out new before after : List P} {x : P}

/-- **Nobody is overtaken**: what leaves the queue in front of `x`, and what is still in
front of it, was there from the beginning, in this order. -/
theorem overtake (h : FifoStep xs out new ys) (hxs : xs = before ++ x :: after) (hnd : xs.Nodup)
    (hx : x ∈ ys) (hnew : x ∉ new) :
    ∃ before' after', ys = before' ++ x :: after' ∧ (out ++ before').Sublist before := by
  obtain ⟨rest, hsub, rfl⟩ := h.queue
  have hrest : x ∈ rest := (List.mem_append.mp hx).resolve_right hnew
  obtain ⟨before', tail, rfl⟩ := List.append_of_mem hrest
  subst hxs
  rw [← List.append_assoc] at hsub
  exact ⟨before', tail ++ new, by simp, sublist_of_append_cons hsub hnd⟩

end FifoStep

/-! ### The system -/

/-- The state of a system of processes. -/
@[ext] structure ProcSystem (P A : Type*) where
  alive : Set P
  parent : P → Option P
  running : Option P
  ready : List P
  waiting : A → List P

namespace ProcSystem

inductive Spot (A : Type*)
  | running
  | ready
  | waiting (a : A)

/-- What may happen: the running process creates another one, ends one and all below it,
goes to sleep or gives way; the first processes of a queue wake up; the first ready
process gets the processor. -/
inductive Act (P A : Type*)
  | spawn (c : P)
  | kill (root : P)
  | wake (a : A) (ps : List P)
  | block (a : A)
  | yield
  | dispatch (p : P)

variable {s s' s₁ : ProcSystem P A} {root p q c : P} {a b : A} {x y : Spot A} {act : Act P A}
  {acts acts' : List (Act P A)}

/-- The processes at a spot, in order. -/
def spot (s : ProcSystem P A) : Spot A → List P
  | .running => s.running.toList
  | .ready => s.ready
  | .waiting a => s.waiting a

open Classical in
/-- The system without `root` and all below it. -/
noncomputable def without (s : ProcSystem P A) (root : P) : ProcSystem P A where
  alive := {q | q ∈ s.alive ∧ ¬ Progeny s.parent root q}
  parent := Forest.prune s.parent root
  running := s.running.filter fun q => ¬ Progeny s.parent root q
  ready := s.ready.filter fun q => ¬ Progeny s.parent root q
  waiting a := (s.waiting a).filter fun q => ¬ Progeny s.parent root q

open Classical in
noncomputable def requeue (s : ProcSystem P A) (a : A) (ps : List P) : A → List P :=
  update s.waiting a ps

open Classical in
inductive Step : ProcSystem P A → Act P A → ProcSystem P A → Prop
  | spawn {s : ProcSystem P A} {p c : P} (hp : s.running = some p) (hc : c ∉ s.alive) :
      Step s (.spawn c) { s with
        alive := insert c s.alive
        parent := update s.parent c (some p)
        ready := s.ready ++ [c] }
  | kill {s : ProcSystem P A} {p root : P} (hp : s.running = some p)
      (hroot : Progeny s.parent p root) : Step s (.kill root) (s.without root)
  | wake {s : ProcSystem P A} {a : A} {ps qs : List P} (hps : s.waiting a = ps ++ qs) :
      Step s (.wake a ps) { s with
        ready := s.ready ++ ps
        waiting := s.requeue a qs }
  | block {s : ProcSystem P A} {p : P} {a : A} (hp : s.running = some p) :
      Step s (.block a) { s with
        running := none
        waiting := s.requeue a (s.waiting a ++ [p]) }
  | yield {s : ProcSystem P A} {p : P} (hp : s.running = some p) :
      Step s .yield { s with
        running := none
        ready := s.ready ++ [p] }
  | dispatch {s : ProcSystem P A} {p : P} {ps : List P} (hidle : s.running = none)
      (hready : s.ready = p :: ps) :
      Step s (.dispatch p) { s with
        running := some p
        ready := ps }

inductive Steps : ProcSystem P A → List (Act P A) → ProcSystem P A → Prop
  | nil (s : ProcSystem P A) : Steps s [] s
  | cons {s s₁ s' : ProcSystem P A} {act : Act P A} {acts : List (Act P A)} (h : Step s act s₁)
      (hs : Steps s₁ acts s') : Steps s (act :: acts) s'

theorem Step.steps (h : Step s act s') : Steps s [act] s' := .cons h (.nil s')

theorem Steps.trans (h : Steps s acts s₁) (h' : Steps s₁ acts' s') : Steps s (acts ++ acts') s' := by
  induction h with
  | nil => exact h'
  | cons h _ ih => exact .cons h (ih h')

/-- The system with its first process. -/
def init (root : P) : ProcSystem P A where
  alive := {root}
  parent _ := none
  running := some root
  ready := []
  waiting _ := []

/-! ### What always holds -/

/-- Every live process is at one spot, once. -/
structure Placed (s : ProcSystem P A) : Prop where
  nodup : ∀ x, (s.spot x).Nodup
  apart : ∀ x y q, q ∈ s.spot x → q ∈ s.spot y → x = y
  alive : ∀ q, q ∈ s.alive ↔ ∃ x, q ∈ s.spot x

/-- **The invariant.**  Besides, the live processes are one tree. -/
structure Sound (root : P) (s : ProcSystem P A) : Prop extends Placed s where
  linked : ∀ q p, s.parent q = some p → q ∈ s.alive ∧ p ∈ s.alive
  family : ∀ q ∈ s.alive, Progeny s.parent root q
  ranked : Ranked s.parent

theorem sound_init : (init root : ProcSystem P A).Sound root := by
  have hspot : ∀ x q, q ∈ (init root : ProcSystem P A).spot x ↔ x = .running ∧ q = root := by
    intro x q
    cases x <;> simp [spot, init, eq_comm]
  have hplaced : (init root : ProcSystem P A).Placed := by
    refine ⟨fun x => ?_, fun x y q hx hy => ?_, fun q => ?_⟩
    · cases x <;> simp [spot, init]
    · exact ((hspot x q).mp hx).1.trans ((hspot y q).mp hy).1.symm
    · exact ⟨fun hq => ⟨.running, (hspot _ q).mpr ⟨rfl, hq⟩⟩, fun ⟨x, hx⟩ => ((hspot x q).mp hx).2⟩
  refine ⟨hplaced, fun q p h => ?_, ?_, fun _ => 0, fun _ _ h => ?_⟩
  · exact nomatch h
  · rintro q rfl
    exact .refl
  · exact nomatch h

namespace Placed

theorem shift [DecidableEq P] [DecidableEq (Spot A)] {ps : List P} (h : s.Placed) (hnd : ps.Nodup)
    (hy : ∀ q ∈ ps, q ∉ s.spot y)
    (hspot : ∀ x, s'.spot x = if x = y then s.spot y ++ ps else (s.spot x).filter (· ∉ ps))
    (halive : ∀ q, q ∈ s'.alive ↔ q ∈ s.alive ∨ q ∈ ps) : s'.Placed := by
  have hmem : ∀ x q, q ∈ s'.spot x ↔ q ∈ ps ∧ x = y ∨ q ∉ ps ∧ q ∈ s.spot x := by
    intro x q
    rw [hspot]
    by_cases hx : x = y
    · subst hx
      by_cases hq : q ∈ ps <;> simp [hq]
    · by_cases hq : q ∈ ps <;> simp [hx, hq]
  refine ⟨fun x => ?_, fun x z q hx hz => ?_, fun q => ?_⟩
  · rw [hspot]
    split_ifs
    · exact (h.nodup y).append hnd (fun q hq hps => hy q hps hq)
    · exact (h.nodup x).filter _
  · rcases (hmem x q).mp hx with ⟨hq, rfl⟩ | ⟨hq, hx⟩
    · exact (((hmem z q).mp hz).resolve_right (fun hn => hn.1 hq)).2.symm
    · exact h.apart x z q hx (((hmem z q).mp hz).resolve_left (fun hp => hq hp.1)).2
  · rw [halive, h.alive]
    constructor
    · intro hor
      by_cases hq : q ∈ ps
      · exact ⟨y, (hmem y q).mpr (.inl ⟨hq, rfl⟩)⟩
      · obtain ⟨x, hx⟩ := hor.resolve_right hq
        exact ⟨x, (hmem x q).mpr (.inr ⟨hq, hx⟩)⟩
    · rintro ⟨x, hx⟩
      rcases (hmem x q).mp hx with ⟨hq, -⟩ | ⟨-, hx⟩
      · exact .inr hq
      · exact .inl ⟨x, hx⟩

open Classical in
theorem spot_without (s : ProcSystem P A) (root : P) (x : Spot A) :
    (s.without root).spot x = (s.spot x).filter fun q => ¬ Progeny s.parent root q := by
  cases x with
  | running => exact Option.toList_filter ..
  | ready => rfl
  | waiting a => rfl

theorem without (h : s.Placed) (root : P) : (s.without root).Placed := by
  refine ⟨fun x => ?_, fun x y q hx hy => ?_, fun q => ?_⟩
  · rw [spot_without]
    exact (h.nodup x).filter _
  · rw [spot_without] at hx hy
    exact h.apart x y q (List.mem_of_mem_filter hx) (List.mem_of_mem_filter hy)
  · simp only [spot_without, List.mem_filter, decide_eq_true_eq, exists_and_right]
    rw [← h.alive]
    exact Iff.rfl

theorem filter_spot [DecidableEq P] {ps : List P} (h : s.Placed) (hps : ∀ q ∈ ps, q ∈ s.spot y)
    (hx : x ≠ y) : (s.spot x).filter (· ∉ ps) = s.spot x := by
  refine List.filter_eq_self.mpr (fun q hq => ?_)
  have hnot : q ∉ ps := fun hm => hx (h.apart x y q hq (hps q hm))
  simp [hnot]

open Classical in
theorem requeue_self (s : ProcSystem P A) (a : A) (ps : List P) : s.requeue a ps a = ps :=
  Function.update_self ..

open Classical in
theorem requeue_of_ne (s : ProcSystem P A) (ps : List P) (hb : b ≠ a) :
    s.requeue a ps b = s.waiting b := Function.update_of_ne hb ..

theorem leave (h : s.Placed) (hp : s.running = some p) (hy : y ≠ .running)
    (hrun : s'.running = none) (halive : s'.alive = s.alive)
    (hspot : ∀ x, x ≠ .running → s'.spot x = open Classical in
      if x = y then s.spot y ++ [p] else s.spot x) : s'.Placed := by
  classical
  have hmem : p ∈ s.spot .running := by simp [spot, hp]
  refine h.shift (y := y) (List.nodup_singleton p) (fun q hq hq' => ?_) (fun x => ?_) (fun q => ?_)
  · obtain rfl := List.mem_singleton.mp hq
    exact hy (h.apart _ _ q hq' hmem)
  · by_cases hx : x = .running
    · subst hx
      rw [if_neg (Ne.symm hy)]
      simp [spot, hrun, hp]
    · rw [hspot x hx]
      split_ifs
      · rfl
      · refine (h.filter_spot (y := .running) (fun q hq => ?_) hx).symm
        rw [List.mem_singleton.mp hq]
        exact hmem
  · rw [halive, List.mem_singleton]
    refine ⟨.inl, fun hq => hq.elim id ?_⟩
    rintro rfl
    exact (h.alive q).mpr ⟨_, hmem⟩

/-- **A move keeps every process at its spot.** -/
theorem step (h : s.Placed) (hs : Step s act s') : s'.Placed := by
  classical
  cases hs with
  | @spawn p c hp hc =>
    have hnot : ∀ x, c ∉ s.spot x := fun x hx => hc ((h.alive c).mpr ⟨x, hx⟩)
    refine h.shift (y := .ready) (List.nodup_singleton c) (fun q hq => ?_) (fun x => ?_) (fun q => ?_)
    · rw [List.mem_singleton.mp hq]
      exact hnot _
    · by_cases hx : x = .ready
      · subst hx
        rw [if_pos rfl]
        rfl
      · rw [if_neg hx]
        have hkeep : (s.spot x).filter (· ∉ [c]) = s.spot x := by
          refine List.filter_eq_self.mpr (fun q hq => ?_)
          have hqc : q ≠ c := fun heq => hnot x (heq ▸ hq)
          simp [hqc]
        rw [hkeep]
        cases x with
        | ready => exact absurd rfl hx
        | _ => rfl
    · rw [List.mem_singleton, or_comm]
      exact Iff.rfl
  | kill => exact h.without _
  | @wake a ps qs hps =>
    have hqueue : s.spot (.waiting a) = ps ++ qs := hps
    have hnd := h.nodup (.waiting a)
    rw [hqueue] at hnd
    have hmem : ∀ q ∈ ps, q ∈ s.spot (.waiting a) := fun q hq => by
      rw [hqueue]
      exact List.mem_append_left _ hq
    refine h.shift (y := .ready) (List.nodup_append.mp hnd).1 (fun q hq hr => ?_) (fun x => ?_)
      (fun q => ?_)
    · exact nomatch h.apart _ _ q hr (hmem q hq)
    · by_cases hx : x = .waiting a
      · subst hx
        rw [if_neg (by simp), hqueue, List.filter_append]
        have hout : ps.filter (· ∉ ps) = [] := List.filter_eq_nil_iff.mpr (fun q hq => by simp [hq])
        have hkeep : qs.filter (· ∉ ps) = qs := by
          refine List.filter_eq_self.mpr (fun q hq => ?_)
          have hnot : q ∉ ps := fun hm => (List.nodup_append.mp hnd).2.2 q hm q hq rfl
          simp [hnot]
        rw [hout, hkeep]
        exact requeue_self s a qs
      · rw [h.filter_spot hmem hx]
        cases x with
        | running => exact (if_neg (by simp)).symm
        | ready => exact (if_pos rfl).symm
        | waiting b =>
          rw [if_neg (by simp)]
          exact requeue_of_ne s qs (fun hb => hx (congrArg Spot.waiting hb))
    · refine ⟨.inl, fun hq => hq.elim id (fun hm => (h.alive q).mpr ⟨_, hmem q hm⟩)⟩
  | @block p a hp =>
    refine h.leave (y := .waiting a) hp (by simp) rfl rfl (fun x hx => ?_)
    by_cases hxa : x = .waiting a
    · subst hxa
      rw [if_pos rfl]
      exact requeue_self ..
    · rw [if_neg hxa]
      cases x with
      | running => exact absurd rfl hx
      | ready => rfl
      | waiting b => exact requeue_of_ne s _ (fun hb => hxa (congrArg Spot.waiting hb))
  | yield hp =>
    refine h.leave (y := .ready) hp (by simp) rfl rfl (fun x hx => ?_)
    cases x with
    | running => exact absurd rfl hx
    | ready => exact (if_pos rfl).symm
    | waiting b => exact (if_neg (by simp)).symm
  | @dispatch p ps hidle hready =>
    have hqueue : s.spot .ready = p :: ps := hready
    have hmem : p ∈ s.spot .ready := by simp [hqueue]
    have hnd := h.nodup .ready
    rw [hqueue] at hnd
    refine h.shift (y := .running) (List.nodup_singleton p) (fun q hq => ?_) (fun x => ?_) (fun q => ?_)
    · simp [spot, hidle]
    · by_cases hx : x = .ready
      · subst hx
        rw [if_neg (by simp), hqueue]
        have hkeep : ps.filter (· ∉ [p]) = ps := by
          refine List.filter_eq_self.mpr (fun q hq => ?_)
          have hqp : q ≠ p := ne_of_mem_of_not_mem hq (List.nodup_cons.mp hnd).1
          simp [hqp]
        rw [List.filter_cons_of_neg (by simp), hkeep]
        rfl
      · have hsingle : ∀ q ∈ [p], q ∈ s.spot .ready := fun q hq => by
          rw [List.mem_singleton.mp hq]
          exact hmem
        rw [h.filter_spot hsingle hx]
        cases x with
        | running => simp [spot, hidle]
        | ready => exact absurd rfl hx
        | waiting b => exact (if_neg (by simp)).symm
    · rw [List.mem_singleton]
      refine ⟨.inl, fun hq => hq.elim id ?_⟩
      rintro rfl
      exact (h.alive q).mpr ⟨_, hmem⟩

end Placed

/-! ### The tree -/

namespace Sound

theorem running_alive (h : s.Placed) (hp : s.running = some p) : p ∈ s.alive :=
  (h.alive p).mpr ⟨.running, by simp [spot, hp]⟩

open Classical in
/-- **A move keeps the invariant.** -/
theorem step (h : s.Sound root) (hs : Step s act s') : s'.Sound root := by
  have hplaced := h.toPlaced.step hs
  have hsame : s'.alive = s.alive → s'.parent = s.parent → s'.Sound root := by
    intro halive hparent
    refine ⟨hplaced, ?_, ?_, hparent ▸ h.ranked⟩
    · rw [halive, hparent]
      exact h.linked
    · rw [halive, hparent]
      exact h.family
  cases hs with
  | @spawn p c hp hc =>
    have hpar : s.parent c = none := by
      by_contra hne
      obtain ⟨q, hq⟩ := Option.ne_none_iff_exists'.mp hne
      exact hc (h.linked c q hq).1
    have hleaf : ∀ q, s.parent q ≠ some c := fun q hq => hc (h.linked q c hq).2
    have hpalive := running_alive h.toPlaced hp
    have hpc : p ≠ c := fun heq => hc (heq ▸ hpalive)
    have hnew : ∀ q r, s.parent q = some r → update s.parent c (some p) q = some r := by
      intro q r hq
      have hqc : q ≠ c := by
        rintro rfl
        rw [hpar] at hq
        exact nomatch hq
      rw [Function.update_of_ne hqc]
      exact hq
    refine ⟨hplaced, fun q r hq => ?_, fun q hq => ?_, ?_⟩
    · change update s.parent c (some p) q = some r at hq
      by_cases hqc : q = c
      · subst hqc
        rw [Function.update_self] at hq
        obtain rfl := Option.some.inj hq
        exact ⟨Set.mem_insert .., Set.mem_insert_of_mem _ hpalive⟩
      · rw [Function.update_of_ne hqc] at hq
        obtain ⟨hq, hr⟩ := h.linked q r hq
        exact ⟨Set.mem_insert_of_mem _ hq, Set.mem_insert_of_mem _ hr⟩
    · rcases Set.mem_insert_iff.mp hq with rfl | hq
      · exact ((h.family p hpalive).mono hnew).tail (Function.update_self ..)
      · exact (h.family q hq).mono hnew
    · exact h.ranked.attach (Forest.not_progeny_of_leaf hleaf hpc)
  | @kill p r hp hroot =>
    refine ⟨hplaced, fun q t hq => ?_, fun q hq => ?_, h.ranked.prune⟩
    · obtain ⟨hnot, hq⟩ := Forest.prune_eq_some.mp hq
      obtain ⟨hqa, hta⟩ := h.linked q t hq
      exact ⟨⟨hqa, hnot⟩, hta, fun ht => hnot (ht.tail hq)⟩
    · exact (h.family q hq.1).prune hq.2
  | wake => exact hsame rfl rfl
  | block => exact hsame rfl rfl
  | yield => exact hsame rfl rfl
  | dispatch => exact hsame rfl rfl

theorem steps (h : s.Sound root) (hs : Steps s acts s') : s'.Sound root := by
  induction hs with
  | nil => exact h
  | cons hstep _ ih => exact ih (h.step hstep)

/-- **All go when the first process goes.** -/
theorem alive_eq_empty (h : s.Sound root) : s.alive = ∅ ↔ root ∉ s.alive := by
  refine ⟨fun hempty => hempty ▸ Set.notMem_empty root, fun hroot => ?_⟩
  refine Set.eq_empty_iff_forall_notMem.mpr (fun q hq => ?_)
  -- the chain from the first process to `q` has a link
  rcases (h.family q hq).cases_head with rfl | ⟨c, hc, -⟩
  · exact hroot hq
  · exact hroot (h.linked c root hc).2

theorem parent_alive (h : s.Sound root) (hq : q ∈ s.alive) (hne : q ≠ root) :
    ∃ p ∈ s.alive, s.parent q = some p := by
  rcases (h.family q hq).cases with rfl | ⟨p, -, hp⟩
  · exact absurd rfl hne
  · exact ⟨p, (h.linked q p hp).2, hp⟩

end Sound

/-! ### Families -/

open Classical in
/-- **Parents do not change.** -/
theorem Step.parent (hs : Step s act s') (hq : q ∈ s.alive) (hq' : q ∈ s'.alive) :
    s'.parent q = s.parent q := by
  cases hs with
  | spawn _ hc => exact Function.update_of_ne (ne_of_mem_of_not_mem hq hc) _ _
  | kill => exact Forest.prune_of_not hq'.2
  | _ => rfl

theorem Sound.alive_of_progeny {r x : P} (h : s.Sound root) (hx : x ∈ s.alive)
    (hr : Progeny s.parent r x) : r ∈ s.alive := by
  induction hr using Relation.ReflTransGen.head_induction_on with
  | refl => exact hx
  | head hc _ _ => exact (h.linked _ _ hc).2

/-- **The line of a process does not change** while it lives. -/
theorem Sound.line {r x : P} (h : s.Sound root) (hs : Step s act s') (hx : x ∈ s.alive)
    (hx' : x ∈ s'.alive) : Progeny s'.parent r x ↔ Progeny s.parent r x := by
  refine Forest.progeny_congr (fun q hq => ?_)
  have hqs := h.alive_of_progeny hx hq
  refine hs.parent hqs ?_
  cases hs with
  | spawn => exact Set.mem_insert_of_mem _ hqs
  | kill => exact ⟨hqs, fun hroot => hx'.2 (hroot.trans hq)⟩
  | _ => exact hqs

/-- **A process ends by an act of itself or of one above it.** -/
theorem Step.dies (hs : Step s act s') (hq : q ∈ s.alive) (hq' : q ∉ s'.alive) :
    ∃ p r, act = .kill r ∧ s.running = some p ∧ Progeny s.parent p r ∧ Progeny s.parent r q := by
  cases hs with
  | @kill p r hp hroot =>
    refine ⟨p, r, rfl, hp, hroot, ?_⟩
    by_contra hnot
    exact hq' ⟨hq, hnot⟩
  | spawn => exact absurd (Set.mem_insert_of_mem _ hq) hq'
  | _ => exact absurd hq hq'

/-! ### Systems that dwindle -/

/-- A move that creates nobody and puts nobody to sleep. -/
def Act.Passive : Act P A → Prop
  | .spawn _ | .block _ => False
  | _ => True

/-- There are no new processes, parents or waiters. -/
structure Dwindles (s s' : ProcSystem P A) : Prop where
  alive : s'.alive ⊆ s.alive
  parent : ∀ q ∈ s'.alive, s'.parent q = s.parent q
  waiting : ∀ a, (s'.waiting a).Sublist (s.waiting a)

namespace Dwindles

theorem refl (s : ProcSystem P A) : s.Dwindles s := ⟨subset_rfl, fun _ _ => rfl, fun _ => .refl _⟩

theorem trans (h : s.Dwindles s₁) (h' : s₁.Dwindles s') : s.Dwindles s' where
  alive := h'.alive.trans h.alive
  parent q hq := (h'.parent q hq).trans (h.parent q (h'.alive hq))
  waiting a := (h'.waiting a).trans (h.waiting a)

end Dwindles

open Classical in
theorem Step.dwindles (hs : Step s act s') (hact : act.Passive) : s.Dwindles s' := by
  cases hs with
  | spawn => exact hact.elim
  | kill => exact ⟨fun _ hq => hq.1, fun _ hq => Forest.prune_of_not hq.2, fun _ => List.filter_sublist⟩
  | @wake a ps qs hps =>
    refine ⟨subset_rfl, fun _ _ => rfl, fun b => ?_⟩
    change (s.requeue a qs b).Sublist (s.waiting b)
    by_cases hb : b = a
    · subst hb
      rw [Placed.requeue_self, hps]
      exact List.sublist_append_right ps qs
    · rw [Placed.requeue_of_ne s qs hb]
  | block => exact hact.elim
  | yield | dispatch => exact ⟨subset_rfl, fun _ _ => rfl, fun _ => .refl _⟩

theorem Steps.dwindles (hs : Steps s acts s') (hacts : ∀ act ∈ acts, act.Passive) :
    s.Dwindles s' := by
  induction hs with
  | nil => exact .refl _
  | cons h _ ih =>
    exact (h.dwindles (hacts _ List.mem_cons_self)).trans
      (ih (fun act hm => hacts act (List.mem_cons_of_mem _ hm)))

/-! ### The queues -/

open Classical in
/-- The processes that leave the head of a queue. -/
noncomputable def Act.served : Act P A → Spot A → List P
  | .wake a ps, .waiting b => if b = a then ps else []
  | .dispatch p, .ready => [p]
  | _, _ => []

/-- **Every queue is first in, first out.** -/
theorem Step.fifo (h : s.Placed) (hs : Step s act s') (hx : x ≠ .running) :
    ∃ new, FifoStep (s.spot x) (act.served x) new (s'.spot x) ∧ ∀ q ∈ new, q ∉ s.spot x := by
  have hsame : act.served x = [] → s'.spot x = s.spot x →
      ∃ new, FifoStep (s.spot x) (act.served x) new (s'.spot x) ∧ ∀ q ∈ new, q ∉ s.spot x := by
    intro hserved heq
    rw [hserved, heq]
    exact ⟨[], ⟨s.spot x, by simp, by simp⟩, by simp⟩
  have hgrow : ∀ new, act.served x = [] → s'.spot x = s.spot x ++ new →
      (∀ q ∈ new, q ∉ s.spot x) →
      ∃ new, FifoStep (s.spot x) (act.served x) new (s'.spot x) ∧ ∀ q ∈ new, q ∉ s.spot x := by
    intro new hserved heq hnew
    rw [hserved, heq]
    exact ⟨new, ⟨s.spot x, by simp, rfl⟩, hnew⟩
  cases hs with
  | @spawn p c hp hc =>
    cases x with
    | running => exact absurd rfl hx
    | ready =>
      refine hgrow [c] rfl rfl (fun q hq hq' => hc ?_)
      rw [← List.mem_singleton.mp hq]
      exact (h.alive q).mpr ⟨_, hq'⟩
    | waiting b => exact hsame rfl rfl
  | @kill p r hp hroot =>
    have hserved : Act.served (.kill r : Act P A) x = [] := by cases x <;> rfl
    rw [hserved, Placed.spot_without]
    exact ⟨[], ⟨_, List.filter_sublist, (List.append_nil _).symm⟩, by simp⟩
  | @wake a ps qs hps =>
    have hqueue : s.spot (.waiting a) = ps ++ qs := hps
    cases x with
    | running => exact absurd rfl hx
    | ready =>
      refine hgrow ps rfl rfl (fun q hq hq' => ?_)
      have hmem : q ∈ s.spot (.waiting a) := by
        rw [hqueue]
        exact List.mem_append_left _ hq
      exact nomatch h.apart _ _ q hq' hmem
    | waiting b =>
      by_cases hb : b = a
      · subst hb
        rw [Act.served, if_pos rfl, hqueue]
        refine ⟨[], ⟨qs, List.Sublist.refl _, ?_⟩, by simp⟩
        rw [List.append_nil]
        exact Placed.requeue_self s b qs
      · exact hsame (if_neg hb) (Placed.requeue_of_ne s qs hb)
  | @block p a hp =>
    cases x with
    | running => exact absurd rfl hx
    | ready => exact hsame rfl rfl
    | waiting b =>
      by_cases hb : b = a
      · subst hb
        refine hgrow [p] rfl (Placed.requeue_self ..) (fun q hq hq' => ?_)
        rw [List.mem_singleton.mp hq] at hq'
        have hmem : p ∈ s.spot .running := by simp [spot, hp]
        exact nomatch h.apart _ _ p hq' hmem
      · exact hsame rfl (Placed.requeue_of_ne s _ hb)
  | @yield p hp =>
    cases x with
    | running => exact absurd rfl hx
    | ready =>
      refine hgrow [p] rfl rfl (fun q hq hq' => ?_)
      rw [List.mem_singleton.mp hq] at hq'
      have hmem : p ∈ s.spot .running := by simp [spot, hp]
      exact nomatch h.apart _ _ p hq' hmem
    | waiting b => exact hsame rfl rfl
  | @dispatch p ps hidle hready =>
    have hqueue : s.spot .ready = p :: ps := hready
    cases x with
    | running => exact absurd rfl hx
    | ready =>
      rw [hqueue]
      exact ⟨[], ⟨ps, List.Sublist.refl _, by rw [List.append_nil]; rfl⟩, by simp⟩
    | waiting b => exact hsame rfl rfl

/-- A move that takes no process from the ready queue. -/
def Act.Gentle : Act P A → Prop
  | .kill _ | .dispatch _ => False
  | _ => True

theorem Step.ready_subset (hs : Step s act s') (hact : act.Gentle) (hq : q ∈ s.ready) :
    q ∈ s'.ready := by
  cases hs with
  | spawn => exact List.mem_append_left _ hq
  | kill => exact hact.elim
  | wake => exact List.mem_append_left _ hq
  | block => exact hq
  | yield => exact List.mem_append_left _ hq
  | dispatch => exact hact.elim

/-- Moves during which a process stays at its spot. -/
inductive Path (x : Spot A) (q : P) : ProcSystem P A → List (Act P A) → ProcSystem P A → Prop
  | nil {s : ProcSystem P A} (hq : q ∈ s.spot x) : Path x q s [] s
  | cons {s s₁ s' : ProcSystem P A} {act : Act P A} {acts : List (Act P A)} (hq : q ∈ s.spot x)
      (h : Step s act s₁) (hs : Path x q s₁ acts s') : Path x q s (act :: acts) s'

theorem Path.mem (h : Path x q s acts s') : q ∈ s.spot x := by
  cases h with
  | nil hq => exact hq
  | cons hq _ _ => exact hq

theorem Path.mem_end (h : Path x q s acts s') : q ∈ s'.spot x := by
  induction h with
  | nil hq => exact hq
  | cons _ _ _ ih => exact ih

theorem Path.trans (h : Path x q s acts s₁) (h' : Path x q s₁ acts' s') :
    Path x q s (acts ++ acts') s' := by
  induction h with
  | nil => exact h'
  | cons hq h _ ih => exact .cons hq h (ih h')

theorem Steps.path (hs : Steps s acts s') (hacts : ∀ act ∈ acts, act.Gentle) (hq : q ∈ s.ready) :
    Path .ready q s acts s' := by
  induction hs with
  | nil => exact .nil hq
  | cons h _ ih =>
    have hact := hacts _ List.mem_cons_self
    exact .cons hq h (ih (fun act hm => hacts act (List.mem_cons_of_mem _ hm))
      (h.ready_subset hact hq))

theorem Placed.steps (h : s.Placed) (hs : Steps s acts s') : s'.Placed := by
  induction hs with
  | nil => exact h
  | cons hstep _ ih => exact ih (h.step hstep)

/-- **No overtaking in a queue**: those that leave the queue while `q` stands in it, and
those then still in front of `q`, are those that were in front of it at first, in order. -/
theorem Path.overtake {before after : List P} (hpath : Path x q s acts s') (h : s.Placed)
    (hx : x ≠ .running) (hs : s.spot x = before ++ q :: after) :
    ∃ before' after', s'.spot x = before' ++ q :: after' ∧
      (acts.flatMap (·.served x) ++ before').Sublist before := by
  induction hpath generalizing before after with
  | nil => exact ⟨before, after, hs, by simp⟩
  | cons hq hstep hrest ih =>
    obtain ⟨new, hfifo, hnew⟩ := hstep.fifo h hx
    obtain ⟨before₁, after₁, hs₁, hsub₁⟩ :=
      hfifo.overtake hs (h.nodup x) hrest.mem (fun hm => hnew q hm hq)
    obtain ⟨before', after', hs', hsub'⟩ := ih (h.step hstep) hs₁
    refine ⟨before', after', hs', ?_⟩
    rw [List.flatMap_cons, List.append_assoc]
    exact ((List.Sublist.refl _).append hsub').trans hsub₁

/-! ### Sleepers -/

/-- A move that ends nobody takes the first sleepers of a queue, or adds one. -/
theorem Step.serves (hs : Step s act s') (hact : act.Gentle) :
    ∃ rest new, s.waiting a = act.served (.waiting a) ++ rest ∧ s'.waiting a = rest ++ new := by
  have hsame : act.served (.waiting a) = [] → s'.waiting a = s.waiting a →
      ∃ rest new, s.waiting a = act.served (.waiting a) ++ rest ∧ s'.waiting a = rest ++ new := by
    intro hserved heq
    exact ⟨s.waiting a, [], by rw [hserved, List.nil_append], by rw [heq, List.append_nil]⟩
  cases hs with
  | spawn => exact hsame rfl rfl
  | kill => exact hact.elim
  | @wake b ps qs hps =>
    by_cases hb : a = b
    · subst hb
      refine ⟨qs, [], ?_, ?_⟩
      · rw [Act.served, if_pos rfl]
        exact hps
      · rw [List.append_nil]
        exact Placed.requeue_self s a qs
    · exact hsame (if_neg hb) (Placed.requeue_of_ne s qs hb)
  | @block p b hp =>
    by_cases hb : a = b
    · subst hb
      exact ⟨s.waiting a, [p], rfl, Placed.requeue_self ..⟩
    · exact hsame rfl (Placed.requeue_of_ne s _ hb)
  | yield => exact hsame rfl rfl
  | dispatch => exact hact.elim

theorem Step.served_ready (hs : Step s act s') (hact : act.Gentle)
    (hq : q ∈ act.served (.waiting a)) : q ∈ s'.ready := by
  cases hs with
  | @wake b ps qs _ =>
    rw [Act.served] at hq
    split_ifs at hq
    · exact List.mem_append_right _ hq
    · exact absurd hq List.not_mem_nil
  | kill => exact hact.elim
  | dispatch => exact hact.elim
  | _ => exact absurd hq List.not_mem_nil

/-- **The way of a sleeper** through moves that end nobody. -/
theorem Steps.sleep (hs : Steps s acts s') (hacts : ∀ act ∈ acts, act.Gentle) (h : s.Placed)
    (hq : q ∈ s.waiting a) (hq' : q ∈ s'.waiting a) : Path (.waiting a) q s acts s' := by
  induction hs with
  | nil => exact .nil hq
  | @cons s s₁ s' act acts hstep hrest ih =>
    have hact := hacts act List.mem_cons_self
    have hacts' : ∀ act ∈ acts, act.Gentle := fun act hm => hacts act (List.mem_cons_of_mem _ hm)
    refine .cons hq hstep (ih hacts' (h.step hstep) ?_ hq')
    obtain ⟨rest, new, heq, heq'⟩ := hstep.serves (a := a) hact
    rw [heq] at hq
    rcases List.mem_append.mp hq with hout | hin
    · have hready := (hrest.path hacts' (hstep.served_ready hact hout)).mem_end
      have hplaced := (h.step hstep).steps hrest
      exact nomatch hplaced.apart .ready (.waiting a) q hready hq'
    · rw [heq']
      exact List.mem_append_left _ hin

theorem Steps.awake (hs : Steps s acts s') (hacts : ∀ act ∈ acts, act.Gentle)
    (hq : q ∈ s.waiting a) (hq' : q ∉ s'.waiting a) : q ∈ s'.ready := by
  induction hs with
  | nil => exact absurd hq hq'
  | @cons s s₁ s' act acts hstep hrest ih =>
    have hact := hacts act List.mem_cons_self
    have hacts' : ∀ act ∈ acts, act.Gentle := fun act hm => hacts act (List.mem_cons_of_mem _ hm)
    obtain ⟨rest, new, heq, heq'⟩ := hstep.serves (a := a) hact
    rw [heq] at hq
    rcases List.mem_append.mp hq with hout | hin
    · exact (hrest.path hacts' (hstep.served_ready hact hout)).mem_end
    · refine ih hacts' ?_ hq'
      rw [heq']
      exact List.mem_append_left _ hin

/-- The sleepers that are gone have been taken from the head, in order. -/
theorem Steps.gone {ws : List P} (hs : Steps s acts s') (hacts : ∀ act ∈ acts, act.Gentle)
    (hws : ws.Sublist (s.waiting a)) (hgone : ∀ q ∈ ws, q ∉ s'.waiting a) :
    ws.Sublist (acts.flatMap (·.served (.waiting a))) := by
  induction hs generalizing ws with
  | nil s =>
    have hnil : ws = [] :=
      List.eq_nil_iff_forall_not_mem.mpr (fun q hq => hgone q hq (hws.subset hq))
    rw [hnil]
    exact List.nil_sublist _
  | @cons s s₁ s' act acts hstep _ ih =>
    obtain ⟨rest, new, heq, heq'⟩ := hstep.serves (a := a) (hacts act List.mem_cons_self)
    rw [heq] at hws
    obtain ⟨out, ws', rfl, hout, hrest⟩ := List.sublist_append_iff.mp hws
    rw [List.flatMap_cons]
    refine hout.append (ih (fun act hm => hacts act (List.mem_cons_of_mem _ hm)) ?_
      (fun q hq => hgone q (List.mem_append_right _ hq)))
    rw [heq']
    exact hrest.trans (List.sublist_append_left _ _)

/-- **Nobody wakes up behind a sleeper.** -/
theorem Path.behind {before after : List P} {y : P} (hpath : Path (.waiting a) q s acts s')
    (hacts : ∀ act ∈ acts, act.Gentle) (h : s.Placed) (hs : s.waiting a = before ++ q :: after)
    (hy : y ∈ after) : y ∈ s'.waiting a := by
  generalize hx : (Spot.waiting a : Spot A) = x at hpath
  induction hpath generalizing before after with
  | nil =>
    rw [hs]
    simp [hy]
  | @cons s s₁ s' act acts hq hstep hrest ih =>
    subst hx
    have hact := hacts act List.mem_cons_self
    have hnd : (s.waiting a).Nodup := h.nodup (.waiting a)
    obtain ⟨new, hfifo, hnew⟩ := hstep.fifo h (x := .waiting a) (by simp)
    obtain ⟨before₁, after₁, hs₁, hsub⟩ :=
      hfifo.overtake hs hnd hrest.mem (fun hm => hnew q hm hq)
    replace hs₁ : s₁.waiting a = before₁ ++ q :: after₁ := hs₁
    have hy₁ : y ∈ s₁.waiting a := by
      obtain ⟨rest, more, heq, heq'⟩ := hstep.serves (a := a) hact
      have hmem : y ∈ act.served (.waiting a) ++ rest := by
        rw [← heq, hs]
        simp [hy]
      rcases List.mem_append.mp hmem with hout | hin
      · have hbefore : y ∈ before := hsub.subset (List.mem_append_left _ hout)
        rw [hs] at hnd
        exact absurd rfl ((List.nodup_append.mp hnd).2.2 y hbefore y (List.mem_cons_of_mem _ hy))
      · rw [heq']
        exact List.mem_append_left _ hin
    refine ih (fun act hm => hacts act (List.mem_cons_of_mem _ hm)) (h.step hstep) hs₁ ?_
    rw [hs₁] at hy₁
    rw [hs] at hnd
    rcases List.mem_append.mp hy₁ with hb | hmem
    · have hbefore : y ∈ before := hsub.subset (List.mem_append_right _ hb)
      exact absurd rfl ((List.nodup_append.mp hnd).2.2 y hbefore y (List.mem_cons_of_mem _ hy))
    · refine (List.mem_cons.mp hmem).resolve_left ?_
      rintro rfl
      exact (List.nodup_cons.mp (List.nodup_append.mp hnd).2.1).1 hy

end ProcSystem
