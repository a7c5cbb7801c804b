import Mathlib.Data.Nat.Notation
import Mathlib.Logic.Function.Basic

/-!
# The list macros of `clist.h`

A circular list is a tail pointer, the `next` field of the list head, and the
`next` field of the link member in every element.  A macro works on one list
head and one link member, so it is a function of a `Clist`: the tail pointer
and the link of every node.  `none` is `NULL`.

A macro that follows a `NULL` link, or whose loop does not end, has no result
(the outer `none`).  The loops run on fuel.
-/

namespace JaeOS

/-- A list head and the link member its elements are linked by. -/
structure Clist (N : Type*) where
  tail : Option N
  next : N → Option N

/-- Where a `clist_foreach` loop stands when it ends: the node passed last
(`tmp`) and the node under the cursor (`scan`). -/
structure Cursor (N : Type*) where
  tmp : Option N
  scan : Option N

namespace Clist

open Function (update)

variable {N : Type*} [DecidableEq N]

/-- `clist_enqueue`: the new tail is `elem`. -/
def enqueue (elem : N) (c : Clist N) : Clist N :=
  match c.tail with
  | none => ⟨some elem, update c.next elem (some elem)⟩
  | some t => ⟨some elem, update (update c.next elem (c.next t)) t (some elem)⟩

/-- `clist_push`: the `else` covers the first of the two stores only. -/
def push (elem : N) (c : Clist N) : Clist N :=
  match c.tail with
  | none => ⟨some elem, update (update c.next elem (some elem)) elem (some elem)⟩
  | some t => ⟨some t, update (update c.next elem (c.next t)) t (some elem)⟩

def empty (c : Clist N) : Bool := c.tail.isNone

/-- `clist_head`: `NULL`, or what the tail links to. -/
def head (c : Clist N) : Option (Option N) :=
  match c.tail with
  | none => some none
  | some t => (c.next t).map some

def clistTail (c : Clist N) : Option N := c.tail

/-- `clist_dequeue` (and `clist_pop`). -/
def dequeue (c : Clist N) : Option (Clist N) :=
  match c.tail with
  | none => some c
  | some t =>
    match c.next t with
    | none => none
    | some h => some (if t = h then ⟨none, c.next⟩ else ⟨some t, update c.next t (c.next h)⟩)

/-- The `while` of `clist_delete`.  The first component is the value of the
macro: `false` for 0 (found), `true` for 1. -/
def deleteLoop (elem : N) (c : Clist N) : ℕ → Option N → N → Option (Bool × Clist N)
  | 0, _, _ => none
  | fuel + 1, tmp, scan =>
    if tmp = c.tail then some (true, c)
    else
      match c.next scan with
      | none => none
      | some s =>
        if s = elem then
          some (false, ⟨if some s = c.tail then some scan else c.tail,
            update c.next scan (c.next s)⟩)
        else deleteLoop elem c fuel (some scan) s

def delete (fuel : ℕ) (elem : N) (c : Clist N) : Option (Bool × Clist N) :=
  match c.tail with
  | none => some (true, c)
  | some t =>
    match c.next t with
    | none => none
    | some h =>
      if t = h ∧ t = elem then some (false, ⟨none, c.next⟩)
      else if elem = h then some (false, ⟨some t, update c.next t (c.next h)⟩)
      else deleteLoop elem c fuel none h

/-- The loop of `clist_foreach`, from a node under the cursor.  `brk` says at
which nodes the body leaves the loop. -/
def foreachLoop (brk : N → Bool) (c : Clist N) : ℕ → Option N → N → Option (Cursor N)
  | 0, _, _ => none
  | fuel + 1, tmp, scan =>
    if tmp = c.tail then some ⟨tmp, some scan⟩
    else if brk scan then some ⟨tmp, some scan⟩
    else
      match c.next scan with
      | none => none
      | some s => foreachLoop brk c fuel (some scan) s

/-- `clist_foreach` with a body that changes nothing before it leaves. -/
def foreach (fuel : ℕ) (brk : N → Bool) (c : Clist N) : Option (Cursor N) :=
  match c.tail with
  | none => some ⟨none, none⟩
  | some t =>
    match c.next t with
    | none => none
    | some h => foreachLoop brk c fuel none h

/-- The loop of `clist_foreach` with a body that works on `σ`, and leaves the
loop when its first component is `true`. -/
def foreachDoLoop {σ : Type*} (body : N → σ → Bool × σ) (c : Clist N) :
    ℕ → Option N → N → σ → Option (Cursor N × σ)
  | 0, _, _, _ => none
  | fuel + 1, tmp, scan, s =>
    if tmp = c.tail then some (⟨tmp, some scan⟩, s)
    else if (body scan s).1 then some (⟨tmp, some scan⟩, (body scan s).2)
    else
      match c.next scan with
      | none => none
      | some x => foreachDoLoop body c fuel (some scan) x (body scan s).2

/-- `clist_foreach` with a body that works on `σ`. -/
def foreachDo {σ : Type*} (fuel : ℕ) (body : N → σ → Bool × σ) (c : Clist N) (s : σ) :
    Option (Cursor N × σ) :=
  match c.tail with
  | none => some (⟨none, none⟩, s)
  | some t =>
    match c.next t with
    | none => none
    | some h => foreachDoLoop body c fuel none h s

/-- `clist_foreach_all`: the loop was not left by a `break`. -/
def foreachAll (cur : Cursor N) (c : Clist N) : Bool := decide (cur.tmp = c.tail)

/-- `clist_foreach_delete`, at the cursor. -/
def foreachDelete (tmp : Option N) (scan : N) (c : Clist N) : Option (Clist N) :=
  match tmp with
  | none =>
    match c.tail with
    | none => none
    | some t =>
      some (if t = scan then ⟨none, c.next⟩ else ⟨some t, update c.next t (c.next scan)⟩)
  | some t =>
    some ⟨if c.tail = some scan then some t else c.tail, update c.next t (c.next scan)⟩

/-- `clist_foreach_add`, before the cursor. -/
def foreachAdd (elem : N) (tmp : Option N) (scan : N) (c : Clist N) : Option (Clist N) :=
  let next := update c.next elem (some scan)
  match tmp with
  | none =>
    match c.tail with
    | none => none
    | some t => some ⟨some t, update next t (some elem)⟩
  | some t => some ⟨c.tail, update next t (some elem)⟩

end Clist

end JaeOS
