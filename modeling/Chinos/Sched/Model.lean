import Chinos.Machine.Basic
import Chinos.Machine.Ring

/-!
# The scheduler of `os/core/sched/scheduler.c`

Every task is on one of 32 ready queues or on the pending queue, circular doubly
linked lists threaded through the task control blocks. A bitmap with one bit for
each priority, and a group byte with one bit for each byte of the bitmap, say which
ready queues to look at. Tasks are of any type; the clock is a stream of readings,
and the state counts how many have been taken.
-/

namespace Chinos

/-- `task_state_e`, the values of the field `task_state`. -/
inductive TaskState
  | invalid
  | inactive
  | readytorun
  | running
  | sleeping
  | pending
  | suspend
  deriving DecidableEq, Repr

/-- A priority below `CONFIG_MAX_TASK_PRIORITY`, which is what `task_create` asserts. -/
abbrev Priority := Fin 32

instance Priority.neZero : NeZero 32 := ⟨by decide⟩

/-- The fields of `struct tcb` that scheduling uses, other than its list node. -/
structure Tcb where
  schedPriority : Priority
  readytime : BitVec 64
  taskState : TaskState

/-- What a list pointer can point to: the head of a queue, the node inside a task, or
one of the two poison values. -/
inductive Node (T : Type)
  | ready (priority : Priority)
  | pending
  | task (t : T)
  | poison₁
  | poison₂
  deriving DecidableEq

/-- The globals of the scheduler. `reads` counts the clock readings taken and
`attached` lists the tasks handed to `sched_attach`; both are bookkeeping that no
branch of the code looks at, except that `attached` bounds the loops. -/
structure Sched (T : Type) where
  links : Links (Node T)
  tcb : T → Tcb
  current : T
  group : BitVec 8
  bitmap : Nat → BitVec 8
  reads : Nat
  attached : List T

/-- `g_priority_map`, which has for each byte the number of its lowest set bit. -/
def priorityMap : List Nat := [
  0, 0, 1, 0, 2, 0, 1, 0, 3, 0, 1, 0, 2, 0, 1, 0,
  4, 0, 1, 0, 2, 0, 1, 0, 3, 0, 1, 0, 2, 0, 1, 0,
  5, 0, 1, 0, 2, 0, 1, 0, 3, 0, 1, 0, 2, 0, 1, 0,
  4, 0, 1, 0, 2, 0, 1, 0, 3, 0, 1, 0, 2, 0, 1, 0,
  6, 0, 1, 0, 2, 0, 1, 0, 3, 0, 1, 0, 2, 0, 1, 0,
  4, 0, 1, 0, 2, 0, 1, 0, 3, 0, 1, 0, 2, 0, 1, 0,
  5, 0, 1, 0, 2, 0, 1, 0, 3, 0, 1, 0, 2, 0, 1, 0,
  4, 0, 1, 0, 2, 0, 1, 0, 3, 0, 1, 0, 2, 0, 1, 0,
  7, 0, 1, 0, 2, 0, 1, 0, 3, 0, 1, 0, 2, 0, 1, 0,
  4, 0, 1, 0, 2, 0, 1, 0, 3, 0, 1, 0, 2, 0, 1, 0,
  5, 0, 1, 0, 2, 0, 1, 0, 3, 0, 1, 0, 2, 0, 1, 0,
  4, 0, 1, 0, 2, 0, 1, 0, 3, 0, 1, 0, 2, 0, 1, 0,
  6, 0, 1, 0, 2, 0, 1, 0, 3, 0, 1, 0, 2, 0, 1, 0,
  4, 0, 1, 0, 2, 0, 1, 0, 3, 0, 1, 0, 2, 0, 1, 0,
  5, 0, 1, 0, 2, 0, 1, 0, 3, 0, 1, 0, 2, 0, 1, 0,
  4, 0, 1, 0, 2, 0, 1, 0, 3, 0, 1, 0, 2, 0, 1, 0]

/-- The lookup `g_priority_map[byte]`. -/
def mapOf (byte : BitVec 8) : Nat := priorityMap.getD byte.toNat 0

section Code

variable {T : Type} [DecidableEq T]

/-- The assignment `task->task_state = state`. -/
def Sched.setState (s : Sched T) (t : T) (state : TaskState) : Sched T :=
  { s with tcb := Function.update s.tcb t { s.tcb t with taskState := state } }

/-- The assignment `task->readytime = time`. -/
def Sched.setReadytime (s : Sched T) (t : T) (time : BitVec 64) : Sched T :=
  { s with tcb := Function.update s.tcb t { s.tcb t with readytime := time } }

/-- `g_priority_group |= bit(index); g_priority_bitmap[index] |= bit(remain);` where
`sched_attach` and `sched_wake` have checked `index`. -/
def Sched.raise (s : Sched T) (priority : Priority) : Sched T :=
  let index := priority.val / 8
  let remain := priority.val % 8
  if index > 4 then s
  else
    { s with
      group := s.group ||| 1#8 <<< index
      bitmap := Function.update s.bitmap index (s.bitmap index ||| 1#8 <<< remain) }

/-- The end of `sched_sleep`'s check: drop the bit of an empty ready queue, and the group
bit with the last bit of its byte. -/
def Sched.lower (s : Sched T) (priority : Priority) : Sched T :=
  let index := priority.val / 8
  let remain := priority.val % 8
  if s.links.isEmpty (.ready priority) then
    let byte := s.bitmap index &&& ~~~(1#8 <<< remain)
    let s := { s with bitmap := Function.update s.bitmap index byte }
    if byte = 0 then { s with group := s.group &&& ~~~(1#8 <<< index) } else s
  else s

/-- `sched_attach`, which puts the task at the end of the ready queue of its priority. -/
def schedAttach (s : Sched T) (t : T) : Sched T :=
  let s := s.setState t .readytorun
  let s := { s with links := s.links.addTail (.task t) (.ready (s.tcb t).schedPriority) }
  s.raise (s.tcb t).schedPriority

/-- `INIT_LIST_HEAD` of each ready queue in turn, as `sched_init` does it. -/
def initReady (links : Links (Node T)) (queues : List Priority) : Links (Node T) :=
  queues.foldl (fun links i => links.initHead (.ready i)) links

/-- The globals when `sched_init` calls `sched_attach`: all zero, but for the heads of the
queues and the current task. -/
def beforeInit (links : Links (Node T)) (tcb : T → Tcb) (idle : T) : Sched T :=
  ⟨(initReady links (List.finRange 32)).initHead .pending, tcb, idle, 0, fun _ => 0, 0, [idle]⟩

/-- `sched_init`, on globals that are all zero, with `idle` as the current task. -/
def schedInit (links : Links (Node T)) (tcb : T → Tcb) (idle : T) : Sched T :=
  schedAttach (beforeInit links tcb idle) idle

/-- `sched_wake`, which takes the task off the pending queue and sets the bit of its priority. -/
def schedWake (s : Sched T) (t : T) : Sched T :=
  let s := { s with links := s.links.delInit (.task t) }
  s.raise (s.tcb t).schedPriority

/-- `sched_sleep`, which moves the task from its queue to the end of the pending queue. -/
def schedSleep (s : Sched T) (t : T) : Sched T :=
  let s := { s with links := s.links.delInit (.task t) }
  let s := s.setState t .sleeping
  if (s.tcb t).schedPriority.val / 8 > 4 then s
  else
    let s := s.lower (s.tcb t).schedPriority
    { s with links := s.links.addTail (.task t) .pending }

/-- `sched_block`, which takes the task off its queue and puts it on no other. -/
def schedBlock (s : Sched T) (t : T) : Sched T :=
  let s := { s with links := s.links.delInit (.task t) }
  let s := s.setState t .pending
  if (s.tcb t).schedPriority.val / 8 > 4 then s
  else s.lower (s.tcb t).schedPriority

/-- `sched_unblock`, which puts the task at the front of the ready queue of its priority. -/
def schedUnblock (s : Sched T) (t : T) : Sched T :=
  let s := s.setState t .readytorun
  let s := { s with links := s.links.addHead (.task t) (.ready (s.tcb t).schedPriority) }
  s.raise (s.tcb t).schedPriority

/-- `sched_detach`, other than the release of the task's identifier. The node is taken
off whatever list it is on, but only if the ready queue of its priority is not empty. -/
def schedDetachQueues (s : Sched T) (t : T) : Sched T :=
  let s := s.setState t .inactive
  let s :=
    if s.links.isEmpty (.ready (s.tcb t).schedPriority) then s
    else { s with links := s.links.del .poison₁ .poison₂ (.task t) }
  if (s.tcb t).schedPriority.val / 8 > 4 then s
  else s.lower (s.tcb t).schedPriority

/-- `get_current_time()`, which takes the next reading of the clock. -/
def getCurrentTime (clock : Nat → BitVec 64) (s : Sched T) : BitVec 64 × Sched T :=
  (clock s.reads, { s with reads := s.reads + 1 })

/-- `list_for_each_entry_safe` over the pending queue, with the body of
`sched_pending_check`. The node after `pos` is fetched before the body runs. A node
that is neither a task nor the head is no `struct tcb`. -/
def pendingLoop (clock : Nat → BitVec 64) :
    (fuel : Nat) → (pos n : Node T) → Sched T → Except Fault (Sched T)
  | 0, _, _, _ => .error .diverge
  | fuel + 1, pos, n, s =>
    match pos with
    | .pending => .ok s
    | .task t =>
      let (now, s) := getCurrentTime clock s
      let s :=
        if ((s.tcb t).readytime - now).toInt < 0 then schedAttach (schedWake s t) t else s
      pendingLoop clock fuel n (s.links.next n) s
    | _ => .error .wild

/-- `sched_pending_check`. The queue has no more tasks than are attached, which bounds the turns
of the loop. -/
def schedPendingCheck (clock : Nat → BitVec 64) (s : Sched T) : Except Fault (Sched T) :=
  let pos := s.links.next .pending
  pendingLoop clock (s.attached.length + 1) pos (s.links.next pos) s

/-- `list_for_each_entry_safe` over ready queue `priority`, up to the first task that is
not the current one. -/
def readyLoop (priority : Priority) (current : T) :
    (fuel : Nat) → (pos n : Node T) → Sched T → Except Fault (Option T)
  | 0, _, _, _ => .error .diverge
  | fuel + 1, pos, n, s =>
    match pos with
    | .ready p => if p = priority then .ok none else .error .wild
    | .task t =>
      if current ≠ t then .ok (some t)
      else readyLoop priority current fuel n (s.links.next n) s
    | _ => .error .wild

/-- The body of `schedule`'s loop for the task it switches to. `task_switch` changes
nothing that the scheduler reads. -/
def switchTo (s : Sched T) (t : T) : Sched T :=
  let s := s.setState t .running
  let s := { s with current := t }
  let s := { s with links := s.links.del .poison₁ .poison₂ (.task t) }
  { s with links := s.links.addTail (.task t) .pending }

/-- The priority that `schedule` looks up in the group and the bitmap. -/
def selectPriority (s : Sched T) : Except Fault Priority := do
  let row := mapOf s.group
  require (row < 4) .wild
  let col := mapOf (s.bitmap row)
  if small : row * 8 + col < 32 then return ⟨row * 8 + col, small⟩ else .error .wild

/-- `schedule`, which switches to the first task of the selected ready queue other than the
current one, if there is one. -/
def schedule (clock : Nat → BitVec 64) (s : Sched T) : Except Fault (Sched T) := do
  let current := s.current
  let s ← schedPendingCheck clock s
  let priority ← selectPriority s
  let pos := s.links.next (.ready priority)
  let next ← readyLoop priority current (s.attached.length + 1) pos (s.links.next pos) s
  match next with
  | some t => return switchTo s t
  | none => return s

/-- `TICKS_PER_S`, the frequency of the timer. -/
def ticksPerS : BitVec 64 := 62500000

/-- `TICKS_PER_NS`, which the three integer divisions round to 0. -/
def ticksPerNs : BitVec 64 := 62500000 / 1000 / 1000 / 1000

/-- `sys_nanosleep`, for the two fields of the request. The nanoseconds are multiplied by
`TICKS_PER_NS`. -/
def sysNanosleep (clock : Nat → BitVec 64) (tvSec tvNsec : BitVec 64) (s : Sched T) : Sched T :=
  let t := s.current
  let (now, s) := getCurrentTime clock s
  schedSleep (s.setReadytime t (now + tvSec * ticksPerS + tvNsec * ticksPerNs)) t

end Code

end Chinos
