import TinyHTTP.Lib.DList

/-!
# TinyHTTP — the timer list of `lst_timer.h`

`sort_timer_lst` is a hand-written doubly linked list of `util_timer` nodes
kept in ascending order of `expire`. The model keeps the pointers: a list is a
node memory, the allocator's record of live nodes, and the two members `head`
and `tail`. Reading, writing or deleting a node that is not live is undefined
behaviour in the source and `none` here, so every definition below is partial
in exactly the places where the source dereferences a pointer.

`tick` hands over the calls `tmp->cb_func(tmp->user_data)` it makes, in order;
a callback that leaves the list alone can then be run over them by the caller.

The loops take the number of live nodes as fuel. `Timer/Represents.lean` shows
that it is always enough.
-/

namespace TinyHTTP.Timer

/-- The address of a `util_timer`; a pointer is an `Option Addr`, `NULL` being `none`. -/
abbrev Addr := Nat

/-- `class util_timer`, for user data of any type. -/
structure UtilTimer (α : Type) where
  expire : Int
  userData : α
  prev : Option Addr
  next : Option Addr

/-- `class sort_timer_lst` together with the memory its nodes live in. -/
structure SortTimerLst (α : Type) where
  node : Addr → UtilTimer α
  live : List Addr
  head : Option Addr
  tail : Option Addr

namespace SortTimerLst

variable {α : Type}

/-- `sort_timer_lst()`: no nodes yet, over a memory that holds anything. -/
def empty (garbage : Addr → UtilTimer α) : SortTimerLst α :=
  { node := garbage, live := [], head := none, tail := none }

/-! ## Memory -/

/-- The memory with `a->next = v`. -/
def withNext (l : SortTimerLst α) (a : Addr) (v : Option Addr) : SortTimerLst α :=
  { l with node := Function.update l.node a { l.node a with next := v } }

/-- The memory with `a->prev = v`. -/
def withPrev (l : SortTimerLst α) (a : Addr) (v : Option Addr) : SortTimerLst α :=
  { l with node := Function.update l.node a { l.node a with prev := v } }

/-- The memory with `a->expire = e`. -/
def withExpire (l : SortTimerLst α) (a : Addr) (e : Int) : SortTimerLst α :=
  { l with node := Function.update l.node a { l.node a with expire := e } }

/-- Read through a pointer to a node. -/
def deref (l : SortTimerLst α) (a : Addr) : Option (UtilTimer α) :=
  if a ∈ l.live then some (l.node a) else none

def setNext (l : SortTimerLst α) (a : Addr) (v : Option Addr) : Option (SortTimerLst α) :=
  if a ∈ l.live then some (l.withNext a v) else none

def setPrev (l : SortTimerLst α) (a : Addr) (v : Option Addr) : Option (SortTimerLst α) :=
  if a ∈ l.live then some (l.withPrev a v) else none

/-- `timer->expire = e`, as `main` writes it before `adjust_timer`. -/
def setExpire (l : SortTimerLst α) (a : Addr) (e : Int) : Option (SortTimerLst α) :=
  if a ∈ l.live then some (l.withExpire a e) else none

/-- `new util_timer` at address `a`, then `expire` and `user_data` filled in by the caller. -/
def alloc (l : SortTimerLst α) (a : Addr) (e : Int) (d : α) : SortTimerLst α :=
  { l with node := Function.update l.node a ⟨e, d, none, none⟩, live := a :: l.live }

/-- `delete a`. -/
def free (l : SortTimerLst α) (a : Addr) : Option (SortTimerLst α) :=
  if a ∈ l.live then some { l with live := l.live.erase a } else none

/-! ## The operations -/

/-- The `while (tmp)` loop of the private `add_timer`, and the `if (!tmp)` after it. -/
def addTimerLoop (l : SortTimerLst α) (timer : Addr) :
    Nat → Addr → Option Addr → Option (SortTimerLst α)
  | _, prev, none => do
    let l ← l.setNext prev (some timer)
    let l ← l.setPrev timer (some prev)
    let l ← l.setNext timer none
    some { l with tail := some timer }
  | 0, _, some _ => none
  | fuel + 1, prev, some tmp => do
    let t ← l.deref timer
    let x ← l.deref tmp
    if t.expire < x.expire then
      let l ← l.setNext prev (some timer)
      let l ← l.setNext timer (some tmp)
      let l ← l.setPrev tmp (some timer)
      l.setPrev timer (some prev)
    else
      addTimerLoop l timer fuel tmp x.next

/-- `add_timer(util_timer *timer, util_timer *lst_head)`, the private overload. -/
def addTimerFrom (l : SortTimerLst α) (timer lstHead : Addr) : Option (SortTimerLst α) := do
  let prev ← l.deref lstHead
  addTimerLoop l timer l.live.length lstHead prev.next

/-- `add_timer(util_timer *timer)`. -/
def addTimer (l : SortTimerLst α) : Option Addr → Option (SortTimerLst α)
  | none => some l
  | some timer =>
    match l.head with
    | none => some { l with head := some timer, tail := some timer }
    | some head => do
      let t ← l.deref timer
      let h ← l.deref head
      if t.expire < h.expire then
        let l ← l.setNext timer (some head)
        let l ← l.setPrev head (some timer)
        some { l with head := some timer }
      else
        l.addTimerFrom timer head

/-- `adjust_timer(util_timer *timer)`. -/
def adjustTimer (l : SortTimerLst α) : Option Addr → Option (SortTimerLst α)
  | none => some l
  | some timer => do
    let t ← l.deref timer
    match t.next with
    | none => some l
    | some tmp =>
      let x ← l.deref tmp
      if t.expire < x.expire then
        some l
      else if some timer = l.head then
        -- `head = head->next`, which is `tmp`
        let l := { l with head := some tmp }
        let l ← l.setPrev tmp none
        let l ← l.setNext timer none
        l.addTimerFrom timer tmp
      else
        let p ← t.prev
        let l ← l.setNext p (some tmp)
        let l ← l.setPrev tmp (some p)
        l.addTimerFrom timer tmp

/-- `del_timer(util_timer *timer)`. -/
def delTimer (l : SortTimerLst α) : Option Addr → Option (SortTimerLst α)
  | none => some l
  | some timer =>
    if some timer = l.head ∧ some timer = l.tail then do
      let l ← l.free timer
      some { l with head := none, tail := none }
    else if some timer = l.head then do
      let h ← l.deref timer
      let next ← h.next
      let l := { l with head := some next }
      let l ← l.setPrev next none
      l.free timer
    else if some timer = l.tail then do
      let t ← l.deref timer
      let prev ← t.prev
      let l := { l with tail := some prev }
      let l ← l.setNext prev none
      l.free timer
    else do
      let t ← l.deref timer
      let prev ← t.prev
      let next ← t.next
      let l ← l.setNext prev (some next)
      let l ← l.setPrev next (some prev)
      l.free timer

/-- The `while (tmp)` loop of `tick` at time `cur`: the calls made so far are `calls`. -/
def tickLoop (cur : Int) : Nat → SortTimerLst α → List (Addr × α) → Option Addr →
    Option (List (Addr × α) × SortTimerLst α)
  | _, l, calls, none => some (calls, l)
  | 0, _, _, some _ => none
  | fuel + 1, l, calls, some tmp => do
    let t ← l.deref tmp
    if cur < t.expire then
      some (calls, l)
    else
      -- `tmp->cb_func(tmp->user_data)`
      let calls := calls ++ [(tmp, t.userData)]
      let l := { l with head := t.next }
      let l ← match l.head with
        | none => some l
        | some head => l.setPrev head none
      let l ← l.free tmp
      tickLoop cur fuel l calls l.head

/-- `tick()` when `time(NULL)` is `cur`: the callbacks it invokes, in order, and the list left. -/
def tick (l : SortTimerLst α) (cur : Int) : Option (List (Addr × α) × SortTimerLst α) :=
  match l.head with
  | none => some ([], l)
  | some _ => tickLoop cur l.live.length l [] l.head

/-! ## Field lemmas -/

@[simp] theorem withNext_live (l : SortTimerLst α) (a : Addr) (v : Option Addr) :
    (l.withNext a v).live = l.live := rfl
@[simp] theorem withNext_head (l : SortTimerLst α) (a : Addr) (v : Option Addr) :
    (l.withNext a v).head = l.head := rfl
@[simp] theorem withNext_tail (l : SortTimerLst α) (a : Addr) (v : Option Addr) :
    (l.withNext a v).tail = l.tail := rfl
@[simp] theorem withPrev_live (l : SortTimerLst α) (a : Addr) (v : Option Addr) :
    (l.withPrev a v).live = l.live := rfl
@[simp] theorem withPrev_head (l : SortTimerLst α) (a : Addr) (v : Option Addr) :
    (l.withPrev a v).head = l.head := rfl
@[simp] theorem withPrev_tail (l : SortTimerLst α) (a : Addr) (v : Option Addr) :
    (l.withPrev a v).tail = l.tail := rfl

theorem deref_live {l : SortTimerLst α} {a : Addr} (h : a ∈ l.live) :
    l.deref a = some (l.node a) := if_pos h

theorem free_live {l : SortTimerLst α} {a : Addr} (h : a ∈ l.live) :
    l.free a = some { l with live := l.live.erase a } := if_pos h

@[simp] theorem withNext_next (l : SortTimerLst α) (a b : Addr) (v : Option Addr) :
    ((l.withNext a v).node b).next = if b = a then v else (l.node b).next := by
  by_cases h : b = a
  · subst h; simp [withNext]
  · simp [withNext, h]

@[simp] theorem withNext_prev (l : SortTimerLst α) (a b : Addr) (v : Option Addr) :
    ((l.withNext a v).node b).prev = (l.node b).prev := by
  by_cases h : b = a
  · subst h; simp [withNext]
  · simp [withNext, h]

@[simp] theorem withPrev_prev (l : SortTimerLst α) (a b : Addr) (v : Option Addr) :
    ((l.withPrev a v).node b).prev = if b = a then v else (l.node b).prev := by
  by_cases h : b = a
  · subst h; simp [withPrev]
  · simp [withPrev, h]

@[simp] theorem withPrev_next (l : SortTimerLst α) (a b : Addr) (v : Option Addr) :
    ((l.withPrev a v).node b).next = (l.node b).next := by
  by_cases h : b = a
  · subst h; simp [withPrev]
  · simp [withPrev, h]

end SortTimerLst

end TinyHTTP.Timer
