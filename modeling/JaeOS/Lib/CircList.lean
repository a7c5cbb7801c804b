import Mathlib.Data.List.Chain
import Mathlib.Data.List.Nodup
import Mathlib.Logic.Function.Basic

/-!
# Circular singly linked lists with a tail pointer

A heap of nodes with one link each is a map `next`, and a circular list is
known by the pointer to its last node, which links back to the first.
`CircList next tail xs` says that this list holds the nodes `xs`, in order:
starting from the last node and following the links one passes `xs` and is back
at the last node.

The lemmas say what one or two link updates do to a list: put a node after the
last one (`CircList.concat`), take out a node (`CircList.erase`,
`CircList.erase_last`), put a node before another one (`CircList.insert`).  A
list does not depend on the links of other nodes (`CircList.congr`).
-/

open Function (update)

variable {N : Type*}

/-! ### Linked nodes -/

/-- Every node of `l` but the last links to the one after it. -/
def Links (next : N → Option N) (l : List N) : Prop :=
  l.IsChain (fun a b => next a = some b)

section Links

variable {next next' : N → Option N} {a b : N} {l l₁ l₂ : List N}

theorem links_singleton (next : N → Option N) (a : N) : Links next [a] := .singleton a

theorem links_cons_cons : Links next (a :: b :: l) ↔ next a = some b ∧ Links next (b :: l) :=
  List.isChain_cons_cons

theorem links_append_cons_cons : Links next (l₁ ++ a :: b :: l₂) ↔
    Links next (l₁ ++ [a]) ∧ next a = some b ∧ Links next (b :: l₂) :=
  List.isChain_append_cons_cons

theorem links_split :
    Links next (l₁ ++ a :: l₂) ↔ Links next (l₁ ++ [a]) ∧ Links next (a :: l₂) :=
  List.isChain_split

theorem Links.right (h : Links next (l₁ ++ l₂)) : Links next l₂ :=
  List.IsChain.right_of_append h

theorem Links.concat (h : Links next (l ++ [a])) (hab : next a = some b) :
    Links next (l ++ [a] ++ [b]) := by
  rw [List.append_assoc, List.singleton_append]
  exact links_append_cons_cons.mpr ⟨h, hab, links_singleton _ b⟩

theorem Links.congr :
    ∀ {l : List N}, (∀ a ∈ l.dropLast, next' a = next a) → Links next l → Links next' l := by
  intro l
  induction l with
  | nil => intro _ _; exact .nil
  | cons a r ih =>
    intro heq h
    cases r with
    | nil => exact links_singleton _ a
    | cons b r =>
      obtain ⟨h1, h2⟩ := links_cons_cons.mp h
      refine links_cons_cons.mpr ⟨?_, ih (fun c hc => heq c (by simp [hc])) h2⟩
      rw [heq a (by simp), h1]

theorem Links.replace_first (h : Links next (a :: l)) (hb : next' b = next a)
    (heq : ∀ c ∈ l.dropLast, next' c = next c) : Links next' (b :: l) := by
  cases l with
  | nil => exact links_singleton _ b
  | cons c l =>
    obtain ⟨h1, h2⟩ := links_cons_cons.mp h
    exact links_cons_cons.mpr ⟨by rw [hb, h1], h2.congr heq⟩

end Links

/-! ### Circular lists -/

/-- The list under the tail pointer `tail` holds the nodes `xs`. -/
structure CircList (next : N → Option N) (tail : Option N) (xs : List N) : Prop where
  nodup : xs.Nodup
  tail_eq : tail = xs.getLast?
  links : Links next (tail.toList ++ xs)

namespace CircList

variable {next next' : N → Option N} {tail : Option N} {xs pre post : List N} {a b e t x y : N}

theorem nil : CircList next none [] := ⟨List.nodup_nil, rfl, .nil⟩

theorem eq_nil (h : CircList next none xs) : xs = [] :=
  List.getLast?_eq_none_iff.mp h.tail_eq.symm

theorem tail_mem (h : CircList next (some t) xs) : t ∈ xs :=
  List.mem_of_getLast? h.tail_eq.symm

theorem eq_concat (h : CircList next (some t) xs) : ∃ pre, xs = pre ++ [t] :=
  List.getLast?_eq_some_iff.mp h.tail_eq.symm

theorem notMem_pre (h : CircList next (some t) (pre ++ [t])) : t ∉ pre := fun hm =>
  List.disjoint_of_nodup_append h.nodup hm (List.mem_singleton_self _)

theorem links_cons (h : CircList next (some t) xs) : Links next (t :: xs) := h.links

theorem of_concat (hnd : (pre ++ [t]).Nodup) (hl : Links next (t :: (pre ++ [t]))) :
    CircList next (some t) (pre ++ [t]) :=
  ⟨hnd, by simp, hl⟩

/-- **Only the links of its own nodes matter to a list.** -/
theorem congr (h : CircList next tail xs) (heq : ∀ a ∈ xs, next' a = next a) :
    CircList next' tail xs := by
  refine ⟨h.nodup, h.tail_eq, h.links.congr (fun a ha => heq a ?_)⟩
  rcases List.mem_append.mp (List.dropLast_subset _ ha) with ht | hx
  · rw [Option.mem_toList] at ht
    subst ht
    exact h.tail_mem
  · exact hx

theorem next_tail (h : CircList next (some t) (x :: xs)) : next t = some x :=
  (links_cons_cons.mp h.links_cons).1

theorem next_of_append (h : CircList next tail (pre ++ x :: y :: post)) : next x = some y :=
  (links_append_cons_cons.mp h.links.right).2.1

theorem tail_of_append (h : CircList next tail (pre ++ x :: post)) :
    tail = (x :: post).getLast? := by
  rw [h.tail_eq, List.getLast?_append_of_ne_nil _ (List.cons_ne_nil _ _)]

theorem next_mem (h : CircList next tail xs) (hx : x ∈ xs) : ∃ y ∈ xs, next x = some y := by
  obtain ⟨pre, post, rfl⟩ := List.append_of_mem hx
  cases post with
  | cons y post => exact ⟨y, by simp, h.next_of_append⟩
  | nil =>
    have ht : tail = some x := h.tail_of_append
    subst ht
    cases pre with
    | nil => exact ⟨x, by simp, h.next_tail⟩
    | cons y pre => exact ⟨y, by simp, h.next_tail⟩

/-- Linked nodes up to the first occurrence of `t` are determined by the links. -/
theorem links_unique :
    ∀ {xs ys : List N} {a : N}, Links next (a :: (xs ++ [t])) → Links next (a :: (ys ++ [t])) →
      t ∉ xs → t ∉ ys → xs = ys := by
  intro xs
  induction xs with
  | nil =>
    intro ys a hx hy _ hty
    cases ys with
    | nil => rfl
    | cons y ys =>
      have hxt : next a = some t := (links_cons_cons.mp hx).1
      have hxy : next a = some y := (links_cons_cons.mp hy).1
      obtain rfl : t = y := Option.some.inj (hxt.symm.trans hxy)
      exact absurd List.mem_cons_self hty
  | cons x xs ih =>
    intro ys a hx hy htx hty
    obtain ⟨hax, hx⟩ := links_cons_cons.mp hx
    cases ys with
    | nil =>
      have hat : next a = some t := (links_cons_cons.mp hy).1
      obtain rfl : x = t := Option.some.inj (hax.symm.trans hat)
      exact absurd List.mem_cons_self htx
    | cons y ys =>
      obtain ⟨hay, hy⟩ := links_cons_cons.mp hy
      obtain rfl : x = y := Option.some.inj (hax.symm.trans hay)
      rw [List.mem_cons, not_or] at htx hty
      rw [ih hx hy htx.2 hty.2]

/-- **A tail pointer and its links hold one list.** -/
theorem unique {ys : List N} (hx : CircList next tail xs) (hy : CircList next tail ys) :
    xs = ys := by
  cases tail with
  | none => rw [hx.eq_nil, hy.eq_nil]
  | some t =>
    obtain ⟨pre, rfl⟩ := hx.eq_concat
    obtain ⟨post, rfl⟩ := hy.eq_concat
    have hnx : t ∉ pre := fun hm => List.disjoint_of_nodup_append hx.nodup hm List.mem_cons_self
    have hny : t ∉ post := fun hm => List.disjoint_of_nodup_append hy.nodup hm List.mem_cons_self
    rw [links_unique hx.links_cons hy.links_cons hnx hny]

/-- The node before a place in the list; before the first node it is the last. -/
def pred (t : N) (pre : List N) : N := pre.getLast?.getD t

@[simp] theorem pred_nil (t : N) : pred t [] = t := rfl

@[simp] theorem pred_concat (t : N) (pre : List N) (a : N) : pred t (pre ++ [a]) = a := by
  simp [pred]

theorem pred_mem (ht : t ∈ post) : pred t pre ∈ pre ++ post := by
  rcases List.eq_nil_or_concat pre with rfl | ⟨l, a, rfl⟩
  · exact ht
  · simp

theorem cons_eq_concat_pred (t : N) (pre : List N) : ∃ l, t :: pre = l ++ [pred t pre] := by
  rcases List.eq_nil_or_concat pre with rfl | ⟨l, a, rfl⟩
  · exact ⟨[], rfl⟩
  · exact ⟨t :: l, by simp⟩

theorem pred_notMem_left (hnd : (pre ++ post).Nodup) (ht : t ∈ post) {l : List N}
    (hl : t :: pre = l ++ [pred t pre]) : pred t pre ∉ l := by
  have hnd' : (t :: pre).Nodup :=
    List.nodup_cons.mpr ⟨fun hm => List.disjoint_of_nodup_append hnd hm ht,
      List.Nodup.of_append_left hnd⟩
  rw [hl] at hnd'
  exact fun hm => List.disjoint_of_nodup_append hnd' hm (List.mem_singleton_self _)

theorem pred_notMem_right (hnd : (pre ++ post).Nodup) (ht : post.getLast? = some t) :
    pred t pre ∉ post.dropLast := by
  intro hm
  rcases List.eq_nil_or_concat pre with rfl | ⟨l, a, rfl⟩
  · obtain ⟨q, rfl⟩ := List.getLast?_eq_some_iff.mp ht
    rw [pred_nil, List.dropLast_concat] at hm
    rw [List.nil_append] at hnd
    exact List.disjoint_of_nodup_append hnd hm (List.mem_singleton_self _)
  · rw [List.concat_eq_append, pred_concat] at hm
    exact List.disjoint_of_nodup_append hnd (by simp) (List.dropLast_subset _ hm)

variable [DecidableEq N]

/-! ### A node at the end -/

theorem singleton : CircList (update next e (some e)) (some e) [e] :=
  ⟨List.nodup_singleton e, rfl,
    links_cons_cons.mpr ⟨Function.update_self .., links_singleton _ e⟩⟩

/-- The links after `e` has been put behind the last node `t`. -/
def linkAfter (next : N → Option N) (t e : N) : N → Option N :=
  update (update next e (next t)) t (some e)

theorem linkAfter_tail : linkAfter next t e t = some e := Function.update_self ..

theorem linkAfter_self (hte : t ≠ e) : linkAfter next t e e = next t := by
  rw [linkAfter, Function.update_of_ne hte.symm, Function.update_self]

theorem linkAfter_of_ne (ht : a ≠ t) (he : a ≠ e) : linkAfter next t e a = next a := by
  rw [linkAfter, Function.update_of_ne ht, Function.update_of_ne he]

theorem links_linkAfter (h : CircList next (some t) xs) (he : e ∉ xs) :
    Links (linkAfter next t e) (e :: xs) := by
  obtain ⟨pre, rfl⟩ := h.eq_concat
  have hte : t ≠ e := fun heq => he (by simp [heq])
  refine h.links_cons.replace_first (linkAfter_self hte) (fun c hc => ?_)
  rw [List.dropLast_concat] at hc
  exact linkAfter_of_ne (ne_of_mem_of_not_mem hc h.notMem_pre)
    (ne_of_mem_of_not_mem (List.mem_append_left _ hc) he)

/-- **A new node after the last one.** -/
theorem concat (h : CircList next (some t) xs) (he : e ∉ xs) :
    CircList (linkAfter next t e) (some e) (xs ++ [e]) := by
  have hfront := h.links_linkAfter he
  obtain ⟨pre, rfl⟩ := h.eq_concat
  have hnd : (pre ++ [t] ++ [e]).Nodup := by
    rw [← List.concat_eq_append]
    exact h.nodup.concat he
  exact of_concat hnd (hfront.concat (l := e :: pre) linkAfter_tail)

/-- **A new node before the first one.** -/
theorem cons (h : CircList next (some t) xs) (he : e ∉ xs) :
    CircList (linkAfter next t e) (some t) (e :: xs) := by
  have hne : xs ≠ [] := List.ne_nil_of_mem h.tail_mem
  refine ⟨List.nodup_cons.mpr ⟨he, h.nodup⟩, ?_, ?_⟩
  · rw [h.tail_eq, List.getLast?_cons_of_ne_nil hne]
  · exact links_cons_cons.mpr ⟨linkAfter_tail, h.links_linkAfter he⟩

/-- Putting a node of the list after the last one cuts off what was behind it:
the nodes after `e` are reached no more, and if `e` is the last node already,
the others are not. -/
theorem concat_mem (h : CircList next (some t) (pre ++ e :: post)) :
    CircList (linkAfter next t e) (some e) (if post = [] then [e] else pre ++ [e]) := by
  have ht := h.tail_of_append
  by_cases hpost : post = []
  · subst hpost
    obtain rfl : t = e := Option.some.inj ht
    rw [if_pos rfl]
    exact singleton
  rw [if_neg hpost]
  have htpost : t ∈ post := by
    obtain ⟨c, r, rfl⟩ := List.exists_cons_of_ne_nil hpost
    rw [List.getLast?_cons_cons] at ht
    exact List.mem_of_getLast? ht.symm
  have hte : t ≠ e := by
    rintro rfl
    exact (List.nodup_cons.mp (List.Nodup.of_append_right h.nodup)).1 htpost
  refine of_concat (h.nodup.sublist (List.Sublist.append_left (by simp) _)) ?_
  have hold : Links next (t :: (pre ++ [e])) := by
    have hcons := h.links_cons
    rw [← List.cons_append, links_split] at hcons
    exact hcons.1
  refine hold.replace_first (linkAfter_self hte) (fun c hc => ?_)
  rw [List.dropLast_concat] at hc
  refine linkAfter_of_ne ?_ ?_
  · rintro rfl
    exact List.disjoint_of_nodup_append h.nodup hc (List.mem_cons_of_mem _ htpost)
  · rintro rfl
    exact List.disjoint_of_nodup_append h.nodup hc List.mem_cons_self

/-! ### A node in the middle -/

/-- **Taking out a node that is not the last.** -/
theorem erase (h : CircList next (some t) (pre ++ x :: post)) (hpost : post ≠ []) :
    CircList (update next (pred t pre) (next x)) (some t) (pre ++ post) := by
  obtain ⟨y, post, rfl⟩ := List.exists_cons_of_ne_nil hpost
  have hnd : (pre ++ y :: post).Nodup :=
    h.nodup.sublist (List.Sublist.append_left (List.sublist_cons_self x _) _)
  have htail := h.tail_of_append
  rw [List.getLast?_cons_cons] at htail
  obtain ⟨l, hl⟩ := cons_eq_concat_pred t pre
  have hnot := pred_notMem_left hnd (List.mem_of_getLast? htail.symm) hl
  refine ⟨hnd, ?_, ?_⟩
  · rw [List.getLast?_append_of_ne_nil _ (List.cons_ne_nil _ _), htail]
  -- split the old links at the node before `x`, and join the two parts again
  have hold : Links next (l ++ pred t pre :: x :: y :: post) := by
    have := h.links_cons
    rwa [← List.cons_append, hl, List.append_assoc, List.singleton_append] at this
  obtain ⟨h1, -, h2⟩ := links_append_cons_cons.mp hold
  obtain ⟨hxy, h3⟩ := links_cons_cons.mp h2
  show Links _ (t :: (pre ++ y :: post))
  rw [← List.cons_append, hl, List.append_assoc, List.singleton_append]
  refine links_append_cons_cons.mpr ⟨?_, by rw [Function.update_self, hxy], ?_⟩
  · refine h1.congr (fun c hc => ?_)
    rw [List.dropLast_concat] at hc
    exact Function.update_of_ne (ne_of_mem_of_not_mem hc hnot) _ _
  · exact h3.congr (fun c hc => Function.update_of_ne
      (ne_of_mem_of_not_mem hc (pred_notMem_right hnd htail.symm)) _ _)

/-- **Taking out the last node** of several: the one before it is the last now. -/
theorem erase_last (h : CircList next (some t) (pre ++ [t])) (hpre : pre ≠ []) :
    CircList (update next (pred t pre) (next t)) (some (pred t pre)) pre := by
  obtain ⟨q, a, rfl⟩ : ∃ q a, pre = q ++ [a] :=
    ⟨_, _, (List.dropLast_append_getLast hpre).symm⟩
  rw [pred_concat]
  have hnd : (q ++ [a]).Nodup := List.Nodup.of_append_left h.nodup
  have haq : a ∉ q := fun hm => List.disjoint_of_nodup_append hnd hm (by simp)
  have hold : Links next (t :: (q ++ [a])) := by
    have := h.links_cons
    rw [List.append_assoc, List.singleton_append, ← List.cons_append] at this
    exact (links_append_cons_cons.mp this).1
  refine of_concat hnd (hold.replace_first (Function.update_self ..) (fun c hc => ?_))
  rw [List.dropLast_concat] at hc
  exact Function.update_of_ne (ne_of_mem_of_not_mem hc haq) _ _

/-- **A new node before another one.** -/
theorem insert (h : CircList next (some t) (pre ++ x :: post)) (he : e ∉ pre ++ x :: post) :
    CircList (update (update next e (some x)) (pred t pre) (some e)) (some t)
      (pre ++ e :: x :: post) := by
  have htail := h.tail_of_append
  have ht : t ∈ x :: post := List.mem_of_getLast? htail.symm
  obtain ⟨l, hl⟩ := cons_eq_concat_pred t pre
  have hnot := pred_notMem_left h.nodup ht hl
  have hpe : pred t pre ≠ e := fun heq => he (heq ▸ pred_mem ht)
  have hnd : (pre ++ e :: x :: post).Nodup :=
    List.nodup_middle.mpr (List.nodup_cons.mpr ⟨he, h.nodup⟩)
  have hel : e ∉ l := by
    intro hm
    have : e ∈ t :: pre := by rw [hl]; exact List.mem_append_left _ hm
    rcases List.mem_cons.mp this with rfl | hm
    · exact he (List.mem_append_right _ ht)
    · exact he (List.mem_append_left _ hm)
  refine ⟨hnd, ?_, ?_⟩
  · rw [List.getLast?_append_of_ne_nil _ (List.cons_ne_nil _ _), List.getLast?_cons_cons, htail]
  have hold : Links next (l ++ pred t pre :: x :: post) := by
    have := h.links_cons
    rwa [← List.cons_append, hl, List.append_assoc, List.singleton_append] at this
  obtain ⟨h1, -, h2⟩ := links_append_cons_cons.mp hold
  show Links _ (t :: (pre ++ e :: x :: post))
  rw [← List.cons_append, hl, List.append_assoc, List.singleton_append]
  refine links_append_cons_cons.mpr ⟨?_, Function.update_self .., links_cons_cons.mpr ⟨?_, ?_⟩⟩
  · refine h1.congr (fun c hc => ?_)
    rw [List.dropLast_concat] at hc
    rw [Function.update_of_ne (ne_of_mem_of_not_mem hc hnot),
      Function.update_of_ne (ne_of_mem_of_not_mem hc hel)]
  · rw [Function.update_of_ne hpe.symm, Function.update_self]
  · refine h2.congr (fun c hc => ?_)
    rw [Function.update_of_ne
        (ne_of_mem_of_not_mem hc (pred_notMem_right h.nodup htail.symm)),
      Function.update_of_ne]
    rintro rfl
    exact he (List.mem_append_right _ (List.dropLast_subset _ hc))

end CircList
