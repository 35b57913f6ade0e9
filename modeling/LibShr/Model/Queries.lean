import LibShr.Model.Api

/-!
# Asking a queue

The functions that only look at a queue, and the one that waits for an event. A pointer that is not
`NULL` is `some` of what it points to, or `true` where the function stores through it.

| here | there |
| --- | --- |
| `shrQLastEmpty`      | `shr_q_last_empty` (`shared_q.c:3234`) |
| `shrQWillDiscard`    | `shr_q_will_discard` (`shared_q.c:3308`) |
| `shrQWillLifo`       | `shr_q_will_lifo` (`shared_q.c:3377`) |
| `shrQEventTimedwait` | `shr_q_event_timedwait` (`shared_q.c:2838`) |
-/

namespace LibShr

open Prog (iterate)

/-- `shr_q_last_empty`, with what it stores through `timestamp`. -/
def shrQLastEmpty (q : Option ShrQ) (timestamp : Bool) : M (Status × Option Timespec) := do
  if q = none ∨ timestamp = false then return (.errArg, none)
  guardQMemory
  if (← load (← current) COUNT) = 0 then
    unguardQMemory
    return (.errEmpty, none)
  let t ← loadTimespec (← current) EMPTY_SEC
  unguardQMemory
  return (.ok, some t)

/-- `shr_q_will_discard`. -/
def shrQWillDiscard (q : Option ShrQ) : M Bool := do
  if q = none then return false
  guardQMemory
  let result ← isDiscardOnExpire (← current)
  unguardQMemory
  return result

/-- `shr_q_will_lifo`. -/
def shrQWillLifo (q : Option ShrQ) : M Bool := do
  if q = none then return false
  guardQMemory
  let result ← isAdaptiveLifo (← current)
  unguardQMemory
  return result

/-- `shr_q_event_timedwait`: `timeout` is not tested for `NULL`. -/
def shrQEventTimedwait (q : Option ShrQ) (timeout : Option Timespec) : M Event := do
  if q = none then return .none
  guardQMemory
  let array ← current
  let now ← clock
  match timeout with
  | none =>
    undefined
    return .none
  | some timeout =>
    let ts := timespecadd now timeout
    iterate (fun _ => do
      match ← semTimedwait .evnt ts with
      | some .etimedout | some .einval =>
        unguardQMemory
        return .inr .none
      | some _ => return .inl ()
      | none =>
        let event ← takeEvent array
        releasePrevExtents
        unguardQMemory
        return .inr event) ()

end LibShr
