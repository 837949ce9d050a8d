import Chinos.Sched.Model
import Chinos.Utils.Bitmap

/-!
# Task identifiers: `os/core/sched/task.c` and `sched_detach`

An identifier is a bit of `task_bitmap`, looked for from the one after `g_lasttid` on.
`task_create` clears the task control block, asks for an identifier and goes on
whether it got one or not; `sched_detach` gives the identifier back.
-/

namespace Chinos

/-- `CONFIG_MAX_TASKS`, the number of bits of `task_bitmap`. -/
def maxTasks : Nat := 0x20000

/-- `INVALID_TASK_ID`, the answer of `task_assign_tid` if it finds no free identifier. -/
def invalidTaskId : Int := -1

/-- What the two functions work on: the scheduler, the identifiers in use, and the `tid`
field of every task. `live` lists the tasks created and not yet detached; no branch of
the code looks at it. -/
structure TaskTable (T : Type) where
  sched : Sched T
  taskBitmap : Bitmap
  lasttid : Int
  tid : T → Int
  live : List T

section Code

variable {T : Type} [DecidableEq T]

/-- `task_release_tid`, which clears the bit and moves `g_lasttid` to just before it. -/
def taskReleaseTid (s : TaskTable T) (tid : Int) : TaskTable T :=
  { s with taskBitmap := bitmapClear s.taskBitmap (cU32 tid) 1, lasttid := cInt (tid - 1) }

/-- `task_assign_tid`, as its result and the table after it. The search does not start over at the
end of the table. -/
def taskAssignTid (s : TaskTable T) (t : T) : Int × TaskTable T :=
  let pid := cInt (s.lasttid + 1)
  let tid := findNextZeroBit s.taskBitmap maxTasks (cU64 pid)
  if tid ≥ maxTasks then (invalidTaskId, s)
  else
    (cInt tid, { s with
      taskBitmap := bitmapSet s.taskBitmap tid 1
      tid := Function.update s.tid t (cInt tid)
      lasttid := cInt tid })

/-- `task_init`, for the fields used here: everything is cleared but the priority, which
`task_create` overwrites, and the list node. -/
def taskInit (s : TaskTable T) (t : T) : TaskTable T :=
  { s with
    tid := Function.update s.tid t 0
    sched := { s.sched with
      tcb := Function.update s.sched.tcb t ⟨0, 0, .inactive⟩
      links := s.sched.links.initHead (.task t) } }

/-- `task_create`. The result of `task_assign_tid` is not looked at. -/
def taskCreate (s : TaskTable T) (t : T) (priority : Nat) : Except Fault (TaskTable T) :=
  let s := taskInit s t
  let (_, s) := taskAssignTid s t
  if below : priority < 32 then
    .ok { s with
      sched := { s.sched with
        tcb := Function.update s.sched.tcb t
          { s.sched.tcb t with schedPriority := ⟨priority, below⟩, taskState := .inactive } }
      live := t :: s.live }
  else .error .assertion

/-- `sched_detach`, which releases the identifier and then takes the task off its queue. -/
def schedDetach (s : TaskTable T) (t : T) : TaskTable T :=
  let s := taskReleaseTid s (s.tid t)
  { s with sched := schedDetachQueues s.sched t, live := s.live.erase t }

/-- One of the calls that change which tasks are live. -/
inductive TaskCall (T : Type)
  | create (t : T) (priority : Nat)
  | detach (t : T)

/-- The effect of the call on a table. -/
def TaskCall.run (s : TaskTable T) : TaskCall T → Except Fault (TaskTable T)
  | .create t priority => taskCreate s t priority
  | .detach t => .ok (schedDetach s t)

/-- A control block is filled while it is not in use, and a task is detached while it
is live, so at most once. -/
def TaskCall.Legal (s : TaskTable T) : TaskCall T → Prop
  | .create t _ => t ∉ s.live
  | .detach t => t ∈ s.live

end Code

end Chinos
