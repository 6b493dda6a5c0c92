import Mathlib
import Etherzero.Lib.GoList
import Etherzero.P2p.Discover

/-!
# The pending replies of discovery (p2p/discover/udp.go)

`udp.loop` keeps the requests that wait for a reply in `plist`, a `container/list`: the node and the packet type a
reply must come from, and a deadline. One timer is reset by `resetTimeout` to fire at the first request's deadline.
Each turn of the loop runs `resetTimeout` and then takes one event in its `select`:

- `closing` sends `errClosed` to every request and returns.
- `addpending` appends a request whose deadline is `respTimeout` after the clock.
- `gotreply` hands a reply to the callbacks of the requests it matches; the first that accepts it gets nil.
- The timer's value sends `errTimeout` to the first request past its deadline.

`resetTimeout` sends `errClockWarp` to a first request whose deadline is `2*respTimeout` or more ahead of the clock.
Every one of these loops ends at the element it removes (Lib/GoList.lean).

The clock may read anything: each event carries the readings of `time.Now()` its turn makes, as nanoseconds in `Int`.
A `pending` record's pointer is its number among the records handed to the loop (`added`). The values sent on its
channel `errc` are the log `sent`. A callback's answer to a reply comes with the reply (`accepts`): callbacks keep state
of their own (`findnode` counts the nodes it was sent), so any answer may come.

The timer is Go's runtime timer before Go 1.23. `Reset` arms it and `Stop` disarms it. Neither takes out a value
already waiting in `timeout.C`. An armed timer fires when the runtime decides, which is a step of its own here.

The check on continuous timeouts (`contTimeouts`, `ntpWarnTime`, `CheckClockDrift`) settles no request and is left out.
-/

namespace Etherzero.Discover

open GoList

/-- `respTimeout`: 500 ms. -/
def respTimeout : Int := 500 * 1000000

/-- The errors sent to a pending request; `none` on its channel is nil. -/
inductive ReplyErr where
  /-- `errTimeout` -/
  | timeout
  /-- `errClockWarp` -/
  | clockWarp
  /-- `errClosed` -/
  | closed
  deriving DecidableEq, Repr

/-- A `pending` record; `id` stands for its pointer. -/
structure Pending where
  id : Nat
  fromId : ID
  ptype : UInt8
  deadline : Int
  deriving DecidableEq, Repr

/-- The runtime's state of the loop's `time.Timer`. -/
structure Timer where
  /-- the duration of the last `Reset`, while the timer has neither fired since nor been stopped -/
  armed : Option Int
  /-- whether a value waits in `timeout.C` -/
  fired : Bool
  deriving DecidableEq, Repr

/-- `Reset(d)`. -/
def Timer.reset (t : Timer) (d : Int) : Timer := { t with armed := some d }

/-- `Stop()`. -/
def Timer.stop (t : Timer) : Timer := { t with armed := none }

/-- The variables of `udp.loop`, and the values it sent on the requests' and the replies' channels. -/
structure Loop where
  plist : List Pending
  /-- `nextTimeout`: the record, by its pointer, that the timer was last reset for -/
  nextTimeout : Option Nat
  timeout : Timer
  /-- the values sent on the records' `errc` channels, in the order sent -/
  sent : List (Nat × Option ReplyErr)
  /-- the values sent on the replies' `matched` channels -/
  answers : List Bool
  /-- how many records were handed to the loop -/
  added : Nat
  /-- whether the loop has not returned -/
  running : Bool
  deriving DecidableEq, Repr

/-- The loop as it starts: `time.NewTimer(0)` has fired and its value was read, so the timer is neither armed nor
holds a value. -/
def Loop.init : Loop := ⟨[], none, ⟨none, false⟩, [], [], 0, true⟩

/-- The body of `resetTimeout`'s loop at record `p`, with the clock at `now`. The traversal's state is the loop's;
the list the traversal leaves becomes `plist` after it. -/
def Loop.resetTimeoutBody (now : Int) (s : Loop) (p : Pending) : Loop × Visit :=
  let s := { s with nextTimeout := some p.id }
  let dist := p.deadline - now
  if dist < 2 * respTimeout then ({ s with timeout := s.timeout.reset dist }, .leave)
  else
    -- a deadline this far ahead was set before the clock went back
    ({ s with sent := s.sent ++ [(p.id, some .clockWarp)] }, .remove)

/-- `resetTimeout`, with the clock at `now`. -/
def Loop.resetTimeout (now : Int) (s : Loop) : Loop :=
  match s.plist with
  | [] => s
  | front :: _ =>
    if s.nextTimeout = some front.id then s
    else
      let r := traverse (Loop.resetTimeoutBody now) s s.plist
      let s := { r.1 with plist := r.2.1 }
      if r.2.2 then s else { s with nextTimeout := none, timeout := s.timeout.stop }

/-- The `addpending` case, with the clock at `now`. -/
def Loop.addPending (fromId : ID) (ptype : UInt8) (now : Int) (s : Loop) : Loop :=
  { s with plist := s.plist ++ [⟨s.added, fromId, ptype, now + respTimeout⟩], added := s.added + 1 }

/-- The body of the `gotreply` case's loop at record `p`, over the values sent and whether a record matched. -/
def replyBody (fromId : ID) (ptype : UInt8) (accepts : Nat → Bool) (st : List (Nat × Option ReplyErr) × Bool)
    (p : Pending) : (List (Nat × Option ReplyErr) × Bool) × Visit :=
  if p.fromId = fromId ∧ p.ptype = ptype then
    -- the callback says whether every reply the request waits for has come
    if accepts p.id then ((st.1 ++ [(p.id, none)], true), .remove) else ((st.1, true), .next)
  else (st, .next)

/-- The `gotreply` case, for a reply from `fromId` of type `ptype`. -/
def Loop.gotReply (fromId : ID) (ptype : UInt8) (accepts : Nat → Bool) (s : Loop) : Loop :=
  let r := traverse (replyBody fromId ptype accepts) (s.sent, false) s.plist
  { s with plist := r.2.1, sent := r.1.1, answers := s.answers ++ [r.1.2] }

/-- The body of the timer case's loop at record `p`, with the time the timer fired at `now`. -/
def timeoutBody (now : Int) (sent : List (Nat × Option ReplyErr)) (p : Pending) :
    List (Nat × Option ReplyErr) × Visit :=
  if p.deadline ≤ now then (sent ++ [(p.id, some .timeout)], .remove) else (sent, .next)

/-- The timer case: its value is taken from `timeout.C`, and `nextTimeout` is cleared. -/
def Loop.timedOut (now : Int) (s : Loop) : Loop :=
  let r := traverse (timeoutBody now) s.sent s.plist
  { s with plist := r.2.1, sent := r.1, nextTimeout := none, timeout := { s.timeout with fired := false } }

/-- The body of the `closing` case's loop at record `p`. -/
def closeBody (sent : List (Nat × Option ReplyErr)) (p : Pending) : List (Nat × Option ReplyErr) × Visit :=
  (sent ++ [(p.id, some .closed)], .next)

/-- The `closing` case; the loop returns, and its deferred `timeout.Stop()` runs. -/
def Loop.close (s : Loop) : Loop :=
  { s with sent := (traverse closeBody s.sent s.plist).1, timeout := s.timeout.stop, running := false }

/-- What the `select` takes, with the readings of the clock its turn makes: `now` for the event, `next` for the
`resetTimeout` of the turn after. -/
inductive Event where
  /-- `<-t.closing` -/
  | closing
  /-- `p := <-t.addpending`, whose deadline is set from `now` -/
  | addpending (fromId : ID) (ptype : UInt8) (now next : Int)
  /-- `r := <-t.gotreply`, with the answers of the records' callbacks to its data -/
  | gotreply (fromId : ID) (ptype : UInt8) (accepts : Nat → Bool) (next : Int)
  /-- `now := <-timeout.C` -/
  | timeout (now next : Int)

/-- A step of the loop and its timer: the runtime fires the timer, or the loop takes an event. -/
inductive Step where
  | fire
  | iterate (e : Event)

/-- One turn of `for { resetTimeout(); select { ... } }`, from the `select` on: the case the event takes and, unless
it returned, the `resetTimeout` of the turn after. The timer's case is there only while a value waits. -/
def Loop.iterate (s : Loop) : Event → Option Loop
  | .closing => some s.close
  | .addpending fromId ptype now next => some ((s.addPending fromId ptype now).resetTimeout next)
  | .gotreply fromId ptype accepts next => some ((s.gotReply fromId ptype accepts).resetTimeout next)
  | .timeout now next => if s.timeout.fired then some ((s.timedOut now).resetTimeout next) else none

/-- A step from a loop waiting in its `select`: the runtime fires an armed timer, whose value waits in the channel or
is dropped when one already waits; or a running loop takes an event. -/
def Loop.step (s : Loop) : Step → Option Loop
  | .fire => if s.timeout.armed.isSome then some { s with timeout := ⟨none, true⟩ } else none
  | .iterate e => if s.running then s.iterate e else none

/-- The steps one after another, as long as each can be taken. -/
def Loop.run (s : Loop) : List Step → Option Loop
  | [] => some s
  | st :: sts => (s.step st).bind fun s' => s'.run sts

/-- The readings of the clock a step makes, in order. -/
def Step.readings : Step → List Int
  | .fire => []
  | .iterate .closing => []
  | .iterate (.addpending _ _ now next) => [now, next]
  | .iterate (.gotreply _ _ _ next) => [next]
  | .iterate (.timeout now next) => [now, next]

end Etherzero.Discover
