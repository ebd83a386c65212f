import Mathlib.Logic.Function.Basic

/-!
# TinyHTTP — the log list of version_02

`push_log` hangs a new node behind the tail of a list, `log_work` copies the
node at the head into its buffer and unlinks it. Both change the list under
`lock`, one assignment after another; `log_work` reads `size` and `head` without
it, between two critical sections. Any number of threads push, one consumes. No
node is ever freed.
-/

namespace TinyHTTP.Version02

/-- `msglog_t` -/
structure MsgNode (A T : Type) where
  msg : T
  next : Option A

/-- The list in `log_thread_t`, with the nodes that `malloc` has returned. -/
structure LogThread (A T : Type) where
  node : A → Option (MsgNode A T)
  head : Option A
  tail : Option A
  /-- an `int`: the increment at `INT_MAX`, with as many messages waiting, is undefined and is not
  modelled -/
  size : Int

/-- Where a thread is in `push_log`. -/
inductive PushPc (A : Type) where
  | outside
  /-- at `pthread_mutex_lock`, with the node filled -/
  | locking (msg_i : A)
  /-- at `if(log_thread->size == 0)` -/
  | linking (msg_i : A)
  /-- at the assignment of `tail` -/
  | settingTail (msg_i : A)
  /-- at `++ log_thread->size` -/
  | counting
  | unlocking
  /-- at `pthread_cond_signal` -/
  | signalling
  deriving DecidableEq

/-- Where the thread is in `log_work`. -/
inductive WorkPc (A : Type) where
  /-- at the first `pthread_mutex_lock` -/
  | locking
  /-- at `while(log_thread->size == 0)` -/
  | testing
  /-- in `pthread_cond_wait` -/
  | waiting
  /-- woken up: `pthread_cond_wait` takes the lock again -/
  | waking
  | unlocking
  /-- at `if(log_thread->size > 0)` -/
  | checking
  /-- at `ptr = log_thread->head` -/
  | reading
  /-- at `add_logbuf(buf, ptr->msg, index)` -/
  | copying (ptr : Option A)
  /-- at the second `pthread_mutex_lock` -/
  | relocking (ptr : A)
  /-- at `-- log_thread->size` -/
  | counting (ptr : A)
  /-- at the `if(log_thread->size == 0)` that follows -/
  | unlinking (ptr : A)
  /-- at the assignment of NULL to `tail` -/
  | clearingTail
  | releasing
  deriving DecidableEq

inductive Holder (ι : Type) where
  | push (i : ι)
  | work
  deriving DecidableEq

structure LogList (ι A T : Type) where
  list : LogThread A T
  lock : Option (Holder ι)
  pc : ι → PushPc A
  work : WorkPc A
  /-- the messages that `log_work` has copied into `buf`, and their nodes -/
  buf : List T
  copied : List A
  /-- the nodes that have been linked to the list, and those that have been unlinked -/
  pushed : List A
  removed : List A

inductive LogLabel (ι A T : Type) where
  /-- a call of `push_log`, up to the filled node, which `malloc` has put at `msg_i` -/
  | call (i : ι) (msg_i : A) (msg : T)
  /-- the next assignment of a thread in `push_log` -/
  | push (i : ι)
  /-- the next assignment of `log_work` -/
  | work
  /-- `pthread_cond_wait` returns without a signal -/
  | spurious

variable {ι A T : Type}

section
variable [DecidableEq ι] [DecidableEq A]

/-- `node->next = next` -/
def LogThread.setNext (l : LogThread A T) (a : A) (n : MsgNode A T) (next : Option A) :
    LogThread A T :=
  { l with node := Function.update l.node a (some { n with next := next }) }

def LogList.goto (s : LogList ι A T) (i : ι) (pc : PushPc A) : LogList ι A T :=
  { s with pc := Function.update s.pc i pc }

/-- The link that `push_log` makes. -/
def LogList.link (s : LogList ι A T) (p : A) : Option (LogThread A T) :=
  if s.list.size = 0 then some { s.list with head := some p }
  else match s.list.tail with
    | none => none
    | some t => (s.list.node t).map fun n => s.list.setNext t n (some p)

def LogList.pushStep (s : LogList ι A T) (i : ι) : Option (LogList ι A T) :=
  match s.pc i with
  | .outside => none
  | .locking p =>
    if s.lock = none then some { s.goto i (.linking p) with lock := some (.push i) } else none
  | .linking p =>
    (s.link p).map fun l => { s.goto i (.settingTail p) with list := l, pushed := s.pushed ++ [p] }
  | .settingTail p => some { s.goto i .counting with list := { s.list with tail := some p } }
  | .counting => some { s.goto i .unlocking with list := { s.list with size := s.list.size + 1 } }
  | .unlocking => some { s.goto i .signalling with lock := none }
  | .signalling =>
    some { s.goto i .outside with work := if s.work = .waiting then .waking else s.work }

/-- The node that `log_work` unlinks. -/
def LogList.unlink (s : LogList ι A T) : Option (LogThread A T × WorkPc A) :=
  if s.list.size = 0 then some ({ s.list with head := none }, .clearingTail)
  else match s.list.head with
    | none => none
    | some h => (s.list.node h).map fun n => ({ s.list with head := n.next }, .releasing)

def LogList.workStep (s : LogList ι A T) : Option (LogList ι A T) :=
  match s.work with
  | .locking | .waking =>
    if s.lock = none then some { s with work := .testing, lock := some .work } else none
  | .testing =>
    if s.list.size = 0 then some { s with work := .waiting, lock := none }
    else some { s with work := .unlocking }
  | .waiting => none
  | .unlocking => some { s with work := .checking, lock := none }
  | .checking => some { s with work := if s.list.size > 0 then .reading else .locking }
  | .reading => some { s with work := .copying s.list.head }
  | .copying ptr =>
    match ptr with
    | none => none
    | some a => (s.list.node a).map fun n =>
      { s with work := .relocking a, buf := s.buf ++ [n.msg], copied := s.copied ++ [a] }
  | .relocking ptr =>
    if s.lock = none then some { s with work := .counting ptr, lock := some .work } else none
  | .counting ptr =>
    some { s with work := .unlinking ptr, list := { s.list with size := s.list.size - 1 } }
  | .unlinking _ => s.unlink.map fun r =>
    { s with list := r.1, work := r.2, removed := s.removed ++ s.list.head.toList }
  | .clearingTail => some { s with work := .releasing, list := { s.list with tail := none } }
  | .releasing => some { s with work := .locking, lock := none }

def LogList.step (s : LogList ι A T) : LogLabel ι A T → Option (LogList ι A T)
  | .call i p msg =>
    if s.pc i = .outside ∧ (s.list.node p).isNone then
      some { s.goto i (.locking p) with
        list := { s.list with node := Function.update s.list.node p (some ⟨msg, none⟩) } }
    else none
  | .push i => s.pushStep i
  | .work => s.workStep
  | .spurious => if s.work = .waiting then some { s with work := .waking } else none

end

/-- What `init_log_thread` leaves, with no thread in `push_log`. -/
structure LogInitial (s : LogList ι A T) : Prop where
  list : s.list = ⟨fun _ => none, none, none, 0⟩
  lock : s.lock = none
  pc : ∀ i, s.pc i = .outside
  work : s.work = .locking
  buf : s.buf = [] ∧ s.copied = []
  nodes : s.pushed = [] ∧ s.removed = []

end TinyHTTP.Version02
