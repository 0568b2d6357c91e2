import Pick.ChainProofs
import Pick.TimerProofs

/-! # The firmware's timer list

Model of the timers of `src/sched.c`.  The timers are nodes of a chain in
order of their wake times, which wrap.  `periodic_timer` is always in it,
`sentinel_timer` is always last and half the clock behind `periodic_timer`,
and `deleted_timer` takes the place of a first timer that goes away. -/

namespace Sched

open Timer

/-! ## Model -/

/-- The timers of `sched.c`, and those of other code. -/
inductive TimerId where
  | periodic
  | sentinel
  | deleted
  | user (n : Nat)
  deriving DecidableEq

/-- `next` and `waketime` of every `struct timer`, and `SchedStatus`. -/
structure State where
  next : TimerId → Option TimerId
  waketime : TimerId → UInt32
  timerList : TimerId
  lastInsert : TimerId

/-- A new link. -/
def State.setNext (s : State) (t : TimerId) (n : Option TimerId) : State :=
  { s with next := Function.update s.next t n }

/-- A new wake time. -/
def State.setWaketime (s : State) (t : TimerId) (w : UInt32) : State :=
  { s with waketime := Function.update s.waketime t w }

/-- What is not a state: a `shutdown`, a `NULL` that is followed, or a loop that
    runs out of `fuel`. -/
inductive Failure where
  | timerTooClose
  | sentinelCalled
  | nullPointer
  | outOfFuel
  deriving DecidableEq

/-- `SchedStatus` and the timers as they are initialised. -/
def initial : State where
  next t := if t = .periodic then some .sentinel else none
  waketime t := if t = .sentinel then 0x80000000 else 0
  timerList := .periodic
  lastInsert := .periodic

/-- `insert_timer`. -/
def insertTimer (fuel : Nat) (pos t : TimerId) (waketime : UInt32) (s : State) :
    Except Failure State :=
  match Chain.find s.next (fun x => timerIsBefore waketime (s.waketime x))
      fuel pos with
  | none => .error .outOfFuel
  | some none => .error .nullPointer
  | some (some (prev, pos)) => .ok ((s.setNext t (some pos)).setNext prev (some t))

/-- The part of `sched_add_timer` for a timer before all others: it goes behind `deleted_timer`. -/
def addFirst (add : TimerId) (waketime : UInt32) (s : State) : State :=
  let tl := s.timerList
  let s := s.setNext add (if tl = .deleted then s.next .deleted else some tl)
  let s := s.setWaketime .deleted waketime
  { s.setNext .deleted (some add) with timerList := .deleted }

/-- `sched_add_timer`, for a timer with its wake time set.  After a shutdown `try_shutdown` does
    nothing. -/
def schedAddTimer (fuel : Nat) (add : TimerId) (waketime now : UInt32)
    (isShutdown : Bool) (s : State) : Except Failure State :=
  let s := s.setWaketime add waketime
  let tl := s.timerList
  if timerIsBefore waketime (s.waketime tl) then
    if timerIsBefore waketime now ∧ ¬ isShutdown then .error .timerTooClose
    else .ok (addFirst add waketime s)
  else insertTimer fuel tl add waketime s

/-- The search of `sched_del_timer` for a timer that is not the first. -/
def unlinkTimer (fuel : Nat) (del : TimerId) (s : State) : Except Failure State :=
  match Chain.find s.next (· = del) fuel s.timerList with
  | none => .error .outOfFuel
  | some none => .ok s
  | some (some (pos, _)) => .ok (s.setNext pos (s.next del))

/-- `last_insert` does not stay on a timer that is deleted. -/
def State.forget (s : State) (del : TimerId) : State :=
  if s.lastInsert = del then { s with lastInsert := .periodic } else s

/-- `sched_del_timer`. -/
def schedDelTimer (fuel : Nat) (del : TimerId) (s : State) : Except Failure State :=
  if s.timerList = del then
    let s := s.setWaketime .deleted (s.waketime del)
    let s := s.setNext .deleted (s.next del)
    .ok ({ s with timerList := .deleted }.forget del)
  else (unlinkTimer fuel del s).map (·.forget del)

/-- What a timer function returns. -/
inductive Outcome where
  | done
  | reschedule
  deriving DecidableEq

/-- What a timer function does: it deletes some other timers, sets its own wake time, and is
    done or called again. -/
structure Callback where
  deletes : List Nat
  waketime : UInt32
  result : Outcome

/-- Some calls of `sched_del_timer`. -/
def schedDelTimers (fuel : Nat) (dels : List Nat) (s : State) : Except Failure State :=
  dels.foldlM (fun s n => schedDelTimer fuel (.user n) s) s

/-- `periodic_event`; `period` is `timer_from_us(100000)`. -/
def periodicEvent (period : UInt32) (s : State) : State :=
  let s := s.setWaketime .periodic (s.waketime .periodic + period)
  s.setWaketime .sentinel (s.waketime .periodic + 0x80000000)

/-- The call of the timer function. -/
def callTimer (fuel : Nat) (period : UInt32) (cb : Callback) (s : State) :
    Except Failure (Outcome × State) :=
  match s.timerList with
  | .periodic => .ok (.reschedule, periodicEvent period s)
  | .sentinel => .error .sentinelCalled
  | .deleted => .ok (.done, s)
  | .user n =>
    (schedDelTimers fuel cb.deletes s).map fun s => (cb.result, s.setWaketime (.user n) cb.waketime)

/-- `sched_timer_dispatch`, behind the call of the timer function of `t`; the
    result is the wake time to wait for. -/
def updateList (fuel : Nat) (t : TimerId) (res : Outcome) (s : State) :
    Except Failure (UInt32 × State) :=
  match s.next t with
  | none => .error .nullPointer
  | some next =>
    let updated := s.waketime t
    if res = .done then
      .ok (s.waketime next, { s with
        timerList := next
        lastInsert := if s.lastInsert = t then next else s.lastInsert })
    else if ¬ timerIsBefore updated (s.waketime next) then
      let pos :=
        if timerIsBefore updated (s.waketime s.lastInsert) then next
        else s.lastInsert
      (insertTimer fuel pos t updated { s with timerList := next }).map
        fun s => (s.waketime next, { s with lastInsert := t })
    else .ok (updated, s)

/-- `sched_timer_dispatch`. -/
def schedTimerDispatch (fuel : Nat) (period : UInt32) (cb : Callback)
    (s : State) : Except Failure (UInt32 × State) := do
  let (res, s₁) ← callTimer fuel period cb s
  updateList fuel s.timerList res s₁

/-- `sched_timer_reset`. -/
def schedTimerReset (s : State) : State :=
  let s := { s with timerList := .deleted, lastInsert := .periodic }
  let s := s.setWaketime .deleted (s.waketime .periodic)
  (s.setNext .deleted (some .periodic)).setNext .periodic (some .sentinel)

end Sched
