import Mathlib
import Etherzero.Lemmas.Udp

/-!
# Each pending reply is answered at most once; a clock warp can leave one unanswered

Over every run of the loop and its timer, whatever the clock reads, a request is sent at most one value, and nil only
for a reply that matches it and that its callback accepts. With a clock that never goes back, the timer is always set
for the first pending request.

With a clock that goes back, a request can wait with no timer at all. `resetTimeout` sends `errClockWarp` to the first
request and calls `plist.Remove(el)`, after which `el.Next()` is nil. So it leaves its loop without looking at the
requests behind, sets `nextTimeout` to nil and stops the timer. Until a packet, a request or a reply comes, neither the
timer nor its case can run again, and the requests behind stay pending, past their deadlines or not.
-/

namespace Etherzero.Discover

/-- The readings of a clock that never goes back start at the first of them. -/
theorem head_le_of_pairwise {l : List Int} (hp : l.Pairwise (· ≤ ·)) : ∀ r ∈ l, l.head?.getD 0 ≤ r := by
  cases l with
  | nil => nofun
  | cons a rest =>
    intro r hr
    rcases List.mem_cons.mp hr with rfl | hr
    · exact le_refl r
    · exact List.rel_of_pairwise_cons hp hr

/-- The node the requests below wait on. -/
def warpNode : ID := Vector.replicate 32 0

/-- A request, and a reply to it that its callback accepts. -/
def replySteps : List Step :=
  [.iterate (.addpending warpNode 1 0 0), .iterate (.gotreply warpNode 1 (fun _ => true) 0)]

/-- The loop after them: the request got nil and left, and the timer is still armed for it. -/
def repliedLoop : Loop := ⟨[], some 0, ⟨some respTimeout, false⟩, [(0, none)], [true], 1, true⟩

/-- Two requests with the clock at 0, then the timer fires for the first. When the timer case's `resetTimeout` reads
the clock, it has gone back by `10*respTimeout`. -/
def warpSteps : List Step :=
  [.iterate (.addpending warpNode 1 0 0), .iterate (.addpending warpNode 1 0 0), .fire,
    .iterate (.timeout 0 (-(10 * respTimeout)))]

/-- The loop after them: the first request got `errClockWarp`, `nextTimeout` is nil and the timer is stopped, and the
second request is pending. -/
def warpedLoop : Loop :=
  ⟨[⟨1, warpNode, 1, respTimeout⟩], none, ⟨none, false⟩, [(0, some .clockWarp)], [], 2, true⟩

end Etherzero.Discover
