import Mathlib
import Etherzero.P2p.Udp

/-!
# The pending replies: what each case does, and what every run keeps

One lemma per case of the loop says all that the case can do to the requests, the values sent and the timer:
`addPending` appends a record numbered `added`; `gotReply`, `timedOut` and the `clockWarp` branch of `resetTimeout`
each send one value at most, to a record they take out of `plist`; `close` sends `errClosed` to every record. From
these, `Loop.Good` holds of every state a run reaches: each record is sent at most one value, a running loop has sent
none to a record still pending, and while `nextTimeout` names a record the timer is armed or its value waits.

A clock that never goes back keeps every deadline within `respTimeout` of the last reading (`Fresh`), so that
`resetTimeout` never takes its `clockWarp` branch, and a running loop with pending requests always has its timer set
for the first of them (`Progress`).
-/

namespace Etherzero.Discover

open GoList

variable {fromId : ID} {ptype : UInt8} {accepts : Nat → Bool}

/-! ## One lemma per case -/

section Cases

variable (s : Loop)

@[simp]
theorem Loop.addPending_plist (now : Int) :
    (s.addPending fromId ptype now).plist = s.plist ++ [⟨s.added, fromId, ptype, now + respTimeout⟩] := rfl

@[simp]
theorem Loop.addPending_sent (now : Int) : (s.addPending fromId ptype now).sent = s.sent := rfl

@[simp]
theorem Loop.addPending_added (now : Int) : (s.addPending fromId ptype now).added = s.added + 1 := rfl

@[simp]
theorem Loop.addPending_nextTimeout (now : Int) :
    (s.addPending fromId ptype now).nextTimeout = s.nextTimeout := rfl

@[simp]
theorem Loop.addPending_timeout (now : Int) : (s.addPending fromId ptype now).timeout = s.timeout := rfl

@[simp]
theorem Loop.addPending_running (now : Int) : (s.addPending fromId ptype now).running = s.running := rfl

@[simp]
theorem Loop.gotReply_added : (s.gotReply fromId ptype accepts).added = s.added := rfl

@[simp]
theorem Loop.gotReply_nextTimeout : (s.gotReply fromId ptype accepts).nextTimeout = s.nextTimeout := rfl

@[simp]
theorem Loop.gotReply_timeout : (s.gotReply fromId ptype accepts).timeout = s.timeout := rfl

@[simp]
theorem Loop.gotReply_running : (s.gotReply fromId ptype accepts).running = s.running := rfl

@[simp]
theorem Loop.timedOut_added (now : Int) : (s.timedOut now).added = s.added := rfl

@[simp]
theorem Loop.timedOut_nextTimeout (now : Int) : (s.timedOut now).nextTimeout = none := rfl

@[simp]
theorem Loop.timedOut_timeout (now : Int) : (s.timedOut now).timeout = { s.timeout with fired := false } := rfl

@[simp]
theorem Loop.timedOut_running (now : Int) : (s.timedOut now).running = s.running := rfl

theorem replyBody_sent_of_remove (st : List (Nat × Option ReplyErr) × Bool) (p : Pending)
    (h : (replyBody fromId ptype accepts st p).2 = .remove) :
    (replyBody fromId ptype accepts st p).1.1 = st.1 ++ [(p.id, none)] := by
  unfold replyBody at h ⊢
  split_ifs at h ⊢
  rfl

theorem replyBody_sent_of_keep (st : List (Nat × Option ReplyErr) × Bool) (p : Pending)
    (h : (replyBody fromId ptype accepts st p).2 ≠ .remove) :
    (replyBody fromId ptype accepts st p).1.1 = st.1 := by
  unfold replyBody at h ⊢
  split_ifs at h ⊢ <;> first | rfl | exact absurd rfl h

/-- A record the reply's loop removes is one the reply matches, and whose callback accepted it. -/
theorem replyBody_matches (st : List (Nat × Option ReplyErr) × Bool) (p : Pending)
    (h : (replyBody fromId ptype accepts st p).2 = .remove) :
    p.fromId = fromId ∧ p.ptype = ptype ∧ accepts p.id = true := by
  unfold replyBody at h
  split_ifs at h with hm ha
  exact ⟨hm.1, hm.2, ha⟩

/-- The `gotreply` case settles at most one record: one the reply matches and whose callback accepted it, which
gets nil and leaves `plist`. -/
theorem Loop.gotReply_cases (fromId : ID) (ptype : UInt8) (accepts : Nat → Bool) :
    ((s.gotReply fromId ptype accepts).plist = s.plist ∧ (s.gotReply fromId ptype accepts).sent = s.sent) ∨
      ∃ pre p post, s.plist = pre ++ p :: post ∧ (s.gotReply fromId ptype accepts).plist = pre ++ post ∧
        (s.gotReply fromId ptype accepts).sent = s.sent ++ [(p.id, none)] ∧
        p.fromId = fromId ∧ p.ptype = ptype ∧ accepts p.id = true := by
  rcases traverse_removes_one Prod.fst (fun sent p => sent ++ [(p.id, none)]) replyBody_sent_of_remove
      replyBody_sent_of_keep (s.sent, false) s.plist with ⟨hf, hl⟩ | ⟨pre, p, post, st₀, hpl, hl, hf, hv⟩
  · exact .inl ⟨hl, hf⟩
  · exact .inr ⟨pre, p, post, hpl, hl, hf, replyBody_matches st₀ p hv⟩

theorem timeoutBody_sent_of_remove (now : Int) (sent : List (Nat × Option ReplyErr)) (p : Pending)
    (h : (timeoutBody now sent p).2 = .remove) : (timeoutBody now sent p).1 = sent ++ [(p.id, some .timeout)] := by
  unfold timeoutBody at h ⊢
  split_ifs at h ⊢
  rfl

theorem timeoutBody_sent_of_keep (now : Int) (sent : List (Nat × Option ReplyErr)) (p : Pending)
    (h : (timeoutBody now sent p).2 ≠ .remove) : (timeoutBody now sent p).1 = sent := by
  unfold timeoutBody at h ⊢
  split_ifs at h ⊢ <;> first | rfl | exact absurd rfl h

/-- The timer case settles at most one record, which gets `errTimeout` and leaves `plist`. -/
theorem Loop.timedOut_cases (now : Int) :
    ((s.timedOut now).plist = s.plist ∧ (s.timedOut now).sent = s.sent) ∨
      ∃ pre p post, s.plist = pre ++ p :: post ∧ (s.timedOut now).plist = pre ++ post ∧
        (s.timedOut now).sent = s.sent ++ [(p.id, some .timeout)] := by
  rcases traverse_removes_one id (fun sent p => sent ++ [(p.id, some .timeout)]) (timeoutBody_sent_of_remove now)
      (timeoutBody_sent_of_keep now) s.sent s.plist with ⟨hf, hl⟩ | ⟨pre, p, post, _, hpl, hl, hf, _⟩
  · exact .inl ⟨hl, hf⟩
  · exact .inr ⟨pre, p, post, hpl, hl, hf⟩

theorem foldl_closeBody (l : List Pending) (sent : List (Nat × Option ReplyErr)) :
    l.foldl (fun sent p => (closeBody sent p).1) sent = sent ++ l.map fun p => (p.id, some .closed) := by
  induction l generalizing sent with
  | nil => simp
  | cons p rest ih => rw [List.foldl_cons, ih]; simp [closeBody]

/-- The `closing` case sends `errClosed` to every record, in the order of `plist`. -/
theorem Loop.close_eq :
    s.close =
      { s with
        sent := s.sent ++ s.plist.map (fun p => (p.id, some .closed))
        timeout := s.timeout.stop
        running := false } := by
  rw [Loop.close, traverse_of_next (fun _ _ => rfl), foldl_closeBody]

/-- `resetTimeout` returns at once, or resets the timer for the first record, or sends it `errClockWarp`, takes it
out and stops the timer. -/
theorem Loop.resetTimeout_cases (now : Int) :
    (s.resetTimeout now = s ∧ (s.plist = [] ∨ ∃ front rest, s.plist = front :: rest ∧ s.nextTimeout = some front.id)) ∨
      (∃ front rest, s.plist = front :: rest ∧ front.deadline - now < 2 * respTimeout ∧
        s.resetTimeout now =
          { s with nextTimeout := some front.id, timeout := s.timeout.reset (front.deadline - now) }) ∨
      ∃ front rest, s.plist = front :: rest ∧ 2 * respTimeout ≤ front.deadline - now ∧
        s.resetTimeout now =
          { s with
            plist := rest
            sent := s.sent ++ [(front.id, some .clockWarp)]
            nextTimeout := none
            timeout := s.timeout.stop } := by
  rcases hpl : s.plist with _ | ⟨front, rest⟩
  · exact .inl ⟨by simp only [Loop.resetTimeout, hpl], .inl rfl⟩
  by_cases hnext : s.nextTimeout = some front.id
  · exact .inl ⟨by simp only [Loop.resetTimeout, hpl, hnext, if_true], .inr ⟨front, rest, rfl, hnext⟩⟩
  -- the traversal stops at the first record, whichever branch its body takes
  by_cases hdist : front.deadline - now < 2 * respTimeout
  · have hb : Loop.resetTimeoutBody now s front =
        ({ s with nextTimeout := some front.id, timeout := s.timeout.reset (front.deadline - now) }, .leave) := by
      simp only [Loop.resetTimeoutBody, hdist, if_true]
    refine .inr (.inl ⟨front, rest, rfl, hdist, ?_⟩)
    simp only [Loop.resetTimeout, hpl, hnext, if_false, traverse_cons_leave rest hb, if_true]
  · have hb : Loop.resetTimeoutBody now s front =
        ({ s with nextTimeout := some front.id, sent := s.sent ++ [(front.id, some .clockWarp)] }, .remove) := by
      simp only [Loop.resetTimeoutBody, hdist, if_false]
    refine .inr (.inr ⟨front, rest, rfl, by omega, ?_⟩)
    simp only [Loop.resetTimeout, hpl, hnext, if_false, traverse_cons_remove rest hb, Bool.false_eq_true]

end Cases

/-! ## The books of the requests and the timer -/

/-- The books the loop keeps: every record handed to it is numbered below `added`, pending at most once and sent at
most one value, and a running loop has sent none to a record still pending. -/
structure Books (plist : List Pending) (sent : List (Nat × Option ReplyErr)) (added : Nat) (running : Bool) :
    Prop where
  pending_nodup : (plist.map Pending.id).Nodup
  pending_lt : ∀ p ∈ plist, p.id < added
  sent_nodup : (sent.map Prod.fst).Nodup
  sent_lt : ∀ e ∈ sent, e.1 < added
  unsent : running = true → ∀ p ∈ plist, p.id ∉ sent.map Prod.fst

/-- What the loop's variables say of its timer: while the loop runs and `nextTimeout` names a record, the timer is
armed or its value waits; and `resetTimeout` only arms it for less than `2*respTimeout`. -/
structure TimerSet (running : Bool) (nextTimeout : Option Nat) (timeout : Timer) : Prop where
  armed_of_next : running = true → nextTimeout.isSome → timeout.armed.isSome ∨ timeout.fired = true
  armed_lt : ∀ d, timeout.armed = some d → d < 2 * respTimeout

/-- The invariant of the loop. -/
structure Loop.Good (s : Loop) : Prop where
  books : Books s.plist s.sent s.added s.running
  timer : TimerSet s.running s.nextTimeout s.timeout

section Books

variable {plist pre post : List Pending} {p : Pending} {sent : List (Nat × Option ReplyErr)} {added : Nat}
  {running : Bool}

/-- A new record, numbered `added`, appended to `plist`. -/
theorem Books.push (h : Books plist sent added running) (fromId : ID) (ptype : UInt8) (deadline : Int) :
    Books (plist ++ [⟨added, fromId, ptype, deadline⟩]) sent (added + 1) running where
  pending_nodup := by
    rw [List.map_append, List.nodup_append]
    refine ⟨h.pending_nodup, List.nodup_singleton _, ?_⟩
    -- the new number is above every pending one
    intro a ha b hb
    obtain ⟨q, hq, rfl⟩ := List.mem_map.mp ha
    rw [List.map_singleton, List.mem_singleton] at hb
    exact hb ▸ Nat.ne_of_lt (h.pending_lt q hq)
  pending_lt := by
    intro q hq
    rcases List.mem_append.mp hq with hq | hq
    · exact Nat.lt_succ_of_lt (h.pending_lt q hq)
    · rw [List.mem_singleton.mp hq]
      exact Nat.lt_succ_self added
  sent_nodup := h.sent_nodup
  sent_lt e he := Nat.lt_succ_of_lt (h.sent_lt e he)
  unsent := by
    intro hr q hq
    rcases List.mem_append.mp hq with hq | hq
    · exact h.unsent hr q hq
    · -- nothing was sent to a number not yet handed out
      rw [List.mem_singleton.mp hq]
      intro hs
      obtain ⟨e, he, hid⟩ := List.mem_map.mp hs
      have hlt := h.sent_lt e he
      rw [hid] at hlt
      exact Nat.lt_irrefl added hlt

/-- A running loop sends a value to a pending record and takes it out of `plist`. -/
theorem Books.settle (h : Books (pre ++ p :: post) sent added true) (v : Option ReplyErr) :
    Books (pre ++ post) (sent ++ [(p.id, v)]) added true := by
  have hmid : (p.id :: (pre.map Pending.id ++ post.map Pending.id)).Nodup := by
    have := h.pending_nodup
    rwa [List.map_append, List.map_cons, List.nodup_middle] at this
  have hsub : ∀ q ∈ pre ++ post, q ∈ pre ++ p :: post := by
    intro q hq
    rcases List.mem_append.mp hq with hq | hq
    · exact List.mem_append_left _ hq
    · exact List.mem_append_right _ (List.mem_cons_of_mem p hq)
  have hp : p ∈ pre ++ p :: post := List.mem_append_right _ List.mem_cons_self
  refine ⟨?_, fun q hq => h.pending_lt q (hsub q hq), ?_, ?_, ?_⟩
  · rw [List.map_append]
    exact (List.nodup_cons.mp hmid).2
  · rw [List.map_append, List.nodup_append]
    refine ⟨h.sent_nodup, List.nodup_singleton _, ?_⟩
    intro a ha b hb hab
    rw [List.map_singleton, List.mem_singleton] at hb
    rw [hab, hb] at ha
    exact h.unsent rfl p hp ha
  · intro e he
    rcases List.mem_append.mp he with he | he
    · exact h.sent_lt e he
    · rw [List.mem_singleton.mp he]
      exact h.pending_lt p hp
  · intro _ q hq hs
    rw [List.map_append, List.mem_append] at hs
    rcases hs with hs | hs
    · exact h.unsent rfl q (hsub q hq) hs
    · -- the record settled is not among those left
      rw [List.map_singleton, List.mem_singleton] at hs
      have hq' : q.id ∈ pre.map Pending.id ++ post.map Pending.id := by
        rw [← List.map_append]
        exact List.mem_map_of_mem hq
      rw [hs] at hq'
      exact (List.nodup_cons.mp hmid).1 hq'

/-- The loop sends `errClosed` to every pending record and returns. -/
theorem Books.close (h : Books plist sent added true) :
    Books plist (sent ++ plist.map fun p => (p.id, some .closed)) added false where
  pending_nodup := h.pending_nodup
  pending_lt := h.pending_lt
  sent_nodup := by
    rw [List.map_append, List.map_map, List.nodup_append]
    refine ⟨h.sent_nodup, h.pending_nodup, ?_⟩
    intro a ha b hb hab
    obtain ⟨q, hq, rfl⟩ := List.mem_map.mp hb
    rw [hab] at ha
    exact h.unsent rfl q hq ha
  sent_lt := by
    intro e he
    rcases List.mem_append.mp he with he | he
    · exact h.sent_lt e he
    · obtain ⟨q, hq, rfl⟩ := List.mem_map.mp he
      exact h.pending_lt q hq
  unsent := nofun

end Books

section TimerSet

variable {running : Bool} {nextTimeout : Option Nat} {t : Timer}

/-- A fired timer's value waits. -/
theorem timerSet_fired : TimerSet running nextTimeout ⟨none, true⟩ :=
  ⟨fun _ _ => .inr rfl, nofun⟩

/-- The timer case takes the value and clears `nextTimeout`. -/
theorem TimerSet.take (h : TimerSet running nextTimeout t) : TimerSet running none { t with fired := false } :=
  ⟨nofun, h.armed_lt⟩

theorem TimerSet.reset {d : Int} (hd : d < 2 * respTimeout) (i : Nat) : TimerSet running (some i) (t.reset d) := by
  refine ⟨fun _ _ => .inl rfl, ?_⟩
  intro d' hd'
  rw [Timer.reset, Option.some.injEq] at hd'
  exact hd' ▸ hd

theorem timerSet_stop : TimerSet running none t.stop :=
  ⟨nofun, nofun⟩

/-- A loop that returns no longer needs its timer. -/
theorem timerSet_close : TimerSet false nextTimeout t.stop :=
  ⟨nofun, nofun⟩

end TimerSet

/-! ## Every run keeps the invariant -/

section Good

variable {s : Loop}

theorem Loop.good_init : Loop.init.Good := by
  refine ⟨⟨?_, ?_, ?_, ?_, ?_⟩, ⟨?_, ?_⟩⟩ <;> simp [Loop.init]

theorem Loop.Good.addPending (hg : s.Good) (fromId : ID) (ptype : UInt8) (now : Int) :
    (s.addPending fromId ptype now).Good :=
  ⟨hg.books.push fromId ptype (now + respTimeout), hg.timer⟩

theorem Loop.Good.gotReply (hg : s.Good) (hr : s.running = true) (fromId : ID) (ptype : UInt8)
    (accepts : Nat → Bool) : (s.gotReply fromId ptype accepts).Good := by
  refine ⟨?_, hg.timer⟩
  rcases s.gotReply_cases fromId ptype accepts with ⟨hpl, hsent⟩ | ⟨pre, p, post, hpl, hpl', hsent, -⟩
  · rw [hpl, hsent]
    exact hg.books
  · have hb := hg.books
    rw [hpl, hr] at hb
    rw [hpl', hsent, Loop.gotReply_running, hr]
    exact hb.settle none

theorem Loop.Good.timedOut (hg : s.Good) (hr : s.running = true) (now : Int) : (s.timedOut now).Good := by
  refine ⟨?_, hg.timer.take⟩
  rcases s.timedOut_cases now with ⟨hpl, hsent⟩ | ⟨pre, p, post, hpl, hpl', hsent⟩
  · rw [hpl, hsent]
    exact hg.books
  · have hb := hg.books
    rw [hpl, hr] at hb
    rw [hpl', hsent, Loop.timedOut_running, hr]
    exact hb.settle (some .timeout)

theorem Loop.Good.close (hg : s.Good) (hr : s.running = true) : s.close.Good := by
  have hb := hg.books
  rw [hr] at hb
  rw [Loop.close_eq]
  exact ⟨hb.close, timerSet_close⟩

theorem Loop.Good.resetTimeout (hg : s.Good) (hr : s.running = true) (now : Int) : (s.resetTimeout now).Good := by
  rcases s.resetTimeout_cases now with ⟨h, -⟩ | ⟨front, rest, -, hd, h⟩ | ⟨front, rest, hpl, -, h⟩ <;> rw [h]
  · exact hg
  · exact ⟨hg.books, TimerSet.reset hd front.id⟩
  · -- the first record gets `errClockWarp` and leaves
    have hb : Books ([] ++ front :: rest) s.sent s.added true := by
      rw [List.nil_append, ← hpl, ← hr]
      exact hg.books
    exact ⟨hr ▸ hb.settle (some .clockWarp), timerSet_stop⟩

theorem Loop.Good.step (hg : s.Good) {st : Step} {s' : Loop} (h : s.step st = some s') : s'.Good := by
  cases st with
  | fire =>
    rw [Loop.step] at h
    split_ifs at h
    cases h
    exact ⟨hg.books, timerSet_fired⟩
  | iterate e =>
    rw [Loop.step] at h
    split_ifs at h with hr
    cases e with
    | closing =>
      rw [Loop.iterate, Option.some.injEq] at h
      exact h ▸ hg.close hr
    | addpending fromId ptype now next =>
      rw [Loop.iterate, Option.some.injEq] at h
      exact h ▸ (hg.addPending fromId ptype now).resetTimeout hr next
    | gotreply fromId ptype accepts next =>
      rw [Loop.iterate, Option.some.injEq] at h
      exact h ▸ (hg.gotReply hr fromId ptype accepts).resetTimeout hr next
    | timeout now next =>
      rw [Loop.iterate] at h
      split_ifs at h
      rw [Option.some.injEq] at h
      exact h ▸ (hg.timedOut hr now).resetTimeout hr next

theorem Loop.Good.run (hg : s.Good) {sts : List Step} {s' : Loop} (h : s.run sts = some s') : s'.Good := by
  induction sts generalizing s with
  | nil =>
    rw [Loop.run, Option.some.injEq] at h
    exact h ▸ hg
  | cons st sts ih =>
    rw [Loop.run, Option.bind_eq_some_iff] at h
    obtain ⟨s₁, h₁, h⟩ := h
    exact ih (hg.step h₁) h

end Good

/-! ## Nil goes only to a record whose reply came -/

/-- `s'` has sent the values `s` had sent, and then values of which those that are nil went to records `Q` names. -/
def Loop.SendsNilTo (s s' : Loop) (Q : Nat → Prop) : Prop :=
  ∃ new, s'.sent = s.sent ++ new ∧ ∀ id, (id, none) ∈ new → Q id

/-- The step `st` from `s` takes a reply from the node, and of the type, of a record `id` pending in `s`, and the
record's callback accepts it. -/
def Loop.AcceptedReply (s : Loop) (st : Step) (id : Nat) : Prop :=
  ∃ fromId ptype accepts next, st = .iterate (.gotreply fromId ptype accepts next) ∧
    ∃ p ∈ s.plist, p.id = id ∧ p.fromId = fromId ∧ p.ptype = ptype ∧ accepts id = true

section SendsNilTo

variable {s s₁ s₂ : Loop} {Q : Nat → Prop}

theorem Loop.sendsNilTo_of_sent (h : s'.sent = s.sent) : s.SendsNilTo s' Q :=
  ⟨[], by rw [h, List.append_nil], nofun⟩

theorem Loop.SendsNilTo.trans (h₁ : s.SendsNilTo s₁ Q) (h₂ : s₁.SendsNilTo s₂ Q) : s.SendsNilTo s₂ Q := by
  obtain ⟨new₁, hs₁, hq₁⟩ := h₁
  obtain ⟨new₂, hs₂, hq₂⟩ := h₂
  refine ⟨new₁ ++ new₂, by rw [hs₂, hs₁, List.append_assoc], ?_⟩
  intro id hid
  rcases List.mem_append.mp hid with hid | hid
  · exact hq₁ id hid
  · exact hq₂ id hid

/-- `resetTimeout` sends `errClockWarp` only. -/
theorem Loop.resetTimeout_sendsNilTo (now : Int) : s.SendsNilTo (s.resetTimeout now) Q := by
  rcases s.resetTimeout_cases now with ⟨h, -⟩ | ⟨_, _, _, _, h⟩ | ⟨front, _, _, _, h⟩ <;> rw [h]
  · exact Loop.sendsNilTo_of_sent rfl
  · exact Loop.sendsNilTo_of_sent rfl
  · refine ⟨[(front.id, some .clockWarp)], rfl, ?_⟩
    intro id hid
    nomatch List.mem_singleton.mp hid

theorem Loop.gotReply_sendsNilTo (fromId : ID) (ptype : UInt8) (accepts : Nat → Bool) :
    s.SendsNilTo (s.gotReply fromId ptype accepts)
      fun id => ∃ p ∈ s.plist, p.id = id ∧ p.fromId = fromId ∧ p.ptype = ptype ∧ accepts id = true := by
  rcases s.gotReply_cases fromId ptype accepts with ⟨-, hsent⟩ | ⟨pre, p, post, hpl, -, hsent, hf, ht, ha⟩
  · exact Loop.sendsNilTo_of_sent hsent
  · refine ⟨[(p.id, none)], hsent, ?_⟩
    intro id hid
    have hid : id = p.id := (Prod.mk.inj (List.mem_singleton.mp hid)).1
    subst hid
    exact ⟨p, by rw [hpl]; exact List.mem_append_right _ List.mem_cons_self, rfl, hf, ht, ha⟩

theorem Loop.timedOut_sendsNilTo (now : Int) : s.SendsNilTo (s.timedOut now) Q := by
  rcases s.timedOut_cases now with ⟨-, hsent⟩ | ⟨-, p, -, -, -, hsent⟩
  · exact Loop.sendsNilTo_of_sent hsent
  · refine ⟨[(p.id, some .timeout)], hsent, ?_⟩
    intro id hid
    nomatch List.mem_singleton.mp hid

theorem Loop.close_sendsNilTo : s.SendsNilTo s.close Q := by
  refine ⟨s.plist.map fun p => (p.id, some .closed), by rw [Loop.close_eq], ?_⟩
  intro id hid
  obtain ⟨_, -, h⟩ := List.mem_map.mp hid
  nomatch h

/-- A step sends nil only to a record pending before it, as it takes a reply that matches the record and that the
record's callback accepts. -/
theorem Loop.step_sendsNilTo {st : Step} {s' : Loop} (h : s.step st = some s') :
    s.SendsNilTo s' (s.AcceptedReply st) := by
  cases st with
  | fire =>
    rw [Loop.step] at h
    split_ifs at h
    rw [Option.some.injEq] at h
    exact Loop.sendsNilTo_of_sent (h ▸ rfl)
  | iterate e =>
    rw [Loop.step] at h
    split_ifs at h
    cases e with
    | closing =>
      rw [Loop.iterate, Option.some.injEq] at h
      exact h ▸ Loop.close_sendsNilTo
    | addpending fromId ptype now next =>
      rw [Loop.iterate, Option.some.injEq] at h
      exact h ▸ (Loop.sendsNilTo_of_sent rfl).trans (Loop.resetTimeout_sendsNilTo next)
    | gotreply fromId ptype accepts next =>
      rw [Loop.iterate, Option.some.injEq] at h
      -- the nil values are the reply's; `resetTimeout` after it sends none
      have hreply : s.SendsNilTo (s.gotReply fromId ptype accepts)
          (s.AcceptedReply (.iterate (.gotreply fromId ptype accepts next))) := by
        obtain ⟨new, hsent, hq⟩ := s.gotReply_sendsNilTo fromId ptype accepts
        exact ⟨new, hsent, fun id hid => ⟨fromId, ptype, accepts, next, rfl, hq id hid⟩⟩
      exact h ▸ hreply.trans (Loop.resetTimeout_sendsNilTo next)
    | timeout now next =>
      rw [Loop.iterate] at h
      split_ifs at h
      rw [Option.some.injEq] at h
      exact h ▸ (Loop.timedOut_sendsNilTo now).trans (Loop.resetTimeout_sendsNilTo next)

end SendsNilTo

/-! ## A clock that never goes back -/

/-- A running loop with pending requests has its timer set for the first of them: `nextTimeout` names it, and the
timer is armed or its value waits. -/
def Loop.Progress (s : Loop) : Prop :=
  s.running = true → ∀ front rest, s.plist = front :: rest →
    s.nextTimeout = some front.id ∧ (s.timeout.armed.isSome ∨ s.timeout.fired = true)

/-- What a clock that last read `t` and never goes back keeps: every deadline is at most `respTimeout` after `t`, no
record was sent `errClockWarp`, and the timer is set for the first request. -/
structure Loop.OnTime (t : Int) (s : Loop) : Prop where
  fresh : ∀ p ∈ s.plist, p.deadline ≤ t + respTimeout
  no_warp : ∀ e ∈ s.sent, e.2 ≠ some .clockWarp
  progress : s.Progress

theorem respTimeout_pos : 0 < respTimeout := by decide

section OnTime

variable {s : Loop} {t : Int}

theorem Loop.onTime_init (t : Int) : Loop.init.OnTime t :=
  ⟨nofun, nofun, fun _ _ _ h => nomatch h⟩

/-- `resetTimeout` with every deadline within `respTimeout` of the clock resets the timer for the first record, or
finds it set already: it never takes the `clockWarp` branch. -/
theorem Loop.resetTimeout_onTime (hg : s.Good) (hr : s.running = true) {now : Int}
    (hf : ∀ p ∈ s.plist, p.deadline ≤ now + respTimeout) (hw : ∀ e ∈ s.sent, e.2 ≠ some .clockWarp) :
    (s.resetTimeout now).OnTime now := by
  rcases s.resetTimeout_cases now with ⟨h, hpl⟩ | ⟨front, rest, hpl, -, h⟩ | ⟨front, rest, hpl, hd, -⟩
  · rw [h]
    refine ⟨hf, hw, fun _ front' rest' hpl' => ?_⟩
    rcases hpl with hpl | ⟨front, rest, hpl, hnext⟩
    · nomatch hpl.symm.trans hpl'
    · -- the timer was reset for the first record and has not been read since
      obtain ⟨rfl, -⟩ := List.cons.inj (hpl.symm.trans hpl')
      exact ⟨hnext, hg.timer.armed_of_next hr (by rw [hnext]; rfl)⟩
  · rw [h]
    refine ⟨hf, hw, fun _ front' rest' hpl' => ?_⟩
    obtain ⟨rfl, -⟩ := List.cons.inj (hpl.symm.trans hpl')
    exact ⟨rfl, .inl rfl⟩
  · -- a deadline within `respTimeout` is less than `2*respTimeout` ahead
    have hfront := hf front (by rw [hpl]; exact List.mem_cons_self)
    have := respTimeout_pos
    omega

theorem Loop.gotReply_no_warp (fromId : ID) (ptype : UInt8) (accepts : Nat → Bool)
    (hw : ∀ e ∈ s.sent, e.2 ≠ some .clockWarp) :
    ∀ e ∈ (s.gotReply fromId ptype accepts).sent, e.2 ≠ some .clockWarp := by
  rcases s.gotReply_cases fromId ptype accepts with ⟨-, hsent⟩ | ⟨-, p, -, -, -, hsent, -⟩ <;> rw [hsent]
  · exact hw
  · intro e he
    rcases List.mem_append.mp he with he | he
    · exact hw e he
    · rw [List.mem_singleton.mp he]
      nofun

theorem Loop.timedOut_no_warp (now : Int) (hw : ∀ e ∈ s.sent, e.2 ≠ some .clockWarp) :
    ∀ e ∈ (s.timedOut now).sent, e.2 ≠ some .clockWarp := by
  rcases s.timedOut_cases now with ⟨-, hsent⟩ | ⟨-, p, -, -, -, hsent⟩ <;> rw [hsent]
  · exact hw
  · intro e he
    rcases List.mem_append.mp he with he | he
    · exact hw e he
    · rw [List.mem_singleton.mp he]
      nofun

/-- A step whose clock readings are at least `t`, and in order, keeps `OnTime` up to its last reading. -/
theorem Loop.OnTime.step (hg : s.Good) (ho : s.OnTime t) {st : Step} {s' : Loop} (h : s.step st = some s')
    (ht : ∀ r ∈ st.readings, t ≤ r) (hp : st.readings.Pairwise (· ≤ ·)) :
    s'.OnTime (st.readings.getLast?.getD t) := by
  cases st with
  | fire =>
    rw [Loop.step] at h
    split_ifs at h
    rw [Option.some.injEq] at h
    subst h
    exact ⟨ho.fresh, ho.no_warp, fun hr front rest hpl => ⟨(ho.progress hr front rest hpl).1, .inr rfl⟩⟩
  | iterate e =>
    rw [Loop.step] at h
    split_ifs at h with hr
    cases e with
    | closing =>
      rw [Loop.iterate, Option.some.injEq] at h
      subst h
      rw [Loop.close_eq]
      refine ⟨ho.fresh, ?_, fun hr' => nomatch hr'⟩
      intro e he
      rcases List.mem_append.mp he with he | he
      · exact ho.no_warp e he
      · obtain ⟨_, -, rfl⟩ := List.mem_map.mp he
        nofun
    | addpending fromId ptype now next =>
      rw [Loop.iterate, Option.some.injEq] at h
      subst h
      have htn : t ≤ now := ht now (by simp [Step.readings])
      have hnn : now ≤ next := List.rel_of_pairwise_cons hp (by simp)
      show (_ : Loop).OnTime next
      refine Loop.resetTimeout_onTime (hg.addPending fromId ptype now) hr ?_ ho.no_warp
      intro p hp
      rcases List.mem_append.mp hp with hp | hp
      · have := ho.fresh p hp
        omega
      · rw [List.mem_singleton.mp hp]
        show now + respTimeout ≤ next + respTimeout
        omega
    | gotreply fromId ptype accepts next =>
      rw [Loop.iterate, Option.some.injEq] at h
      subst h
      have htn : t ≤ next := ht next (by simp [Step.readings])
      show (_ : Loop).OnTime next
      refine Loop.resetTimeout_onTime (hg.gotReply hr fromId ptype accepts) hr ?_
        (Loop.gotReply_no_warp fromId ptype accepts ho.no_warp)
      -- the reply's loop only takes records out
      intro p hp
      have := ho.fresh p ((traverse_sublist _ s.plist).subset hp)
      omega
    | timeout now next =>
      rw [Loop.iterate] at h
      split_ifs at h
      rw [Option.some.injEq] at h
      subst h
      have htn : t ≤ next := ht next (by simp [Step.readings])
      show (_ : Loop).OnTime next
      refine Loop.resetTimeout_onTime (hg.timedOut hr now) hr ?_ (Loop.timedOut_no_warp now ho.no_warp)
      intro p hp
      have := ho.fresh p ((traverse_sublist _ s.plist).subset hp)
      omega

/-- A run whose clock readings are at least `t`, and in order, keeps `OnTime` up to some reading. -/
theorem Loop.OnTime.run (hg : s.Good) (ho : s.OnTime t) {sts : List Step} {s' : Loop} (h : s.run sts = some s')
    (ht : ∀ r ∈ sts.flatMap Step.readings, t ≤ r) (hp : (sts.flatMap Step.readings).Pairwise (· ≤ ·)) :
    ∃ t', s'.OnTime t' := by
  induction sts generalizing s t with
  | nil =>
    rw [Loop.run, Option.some.injEq] at h
    exact ⟨t, h ▸ ho⟩
  | cons st sts ih =>
    rw [Loop.run, Option.bind_eq_some_iff] at h
    obtain ⟨s₁, h₁, h⟩ := h
    rw [List.flatMap_cons, List.pairwise_append] at hp
    obtain ⟨hp₁, hp₂, hcross⟩ := hp
    have ht₁ : ∀ r ∈ st.readings, t ≤ r := fun r hr => ht r (by rw [List.flatMap_cons]; exact List.mem_append_left _ hr)
    refine ih (hg.step h₁) (ho.step hg h₁ ht₁ hp₁) h ?_ hp₂
    -- the later readings are at least the last one of this step, or than `t` if it read none
    intro r hr
    cases hl : st.readings.getLast? with
    | none => exact ht r (by rw [List.flatMap_cons]; exact List.mem_append_right _ hr)
    | some x => exact hcross x (List.mem_of_getLast? hl) r hr

end OnTime

end Etherzero.Discover
