import Phonowire.Library.Turns
import Phonowire.Receiver.Ownership

/-!
# Queue and byte admission is first come, first served

The log of a board, read for one resource, is the log of a line: a request
enters it at `request_turn`, is served by `try_send` or `try_copy_for`, and
leaves when its `Request` is dropped. The waiter order of the scheduler is that
line.
-/

namespace Phonowire.Receiver

/-- The event as one of the line for `k`. -/
def RequestEvent.at (k : Resource) : RequestEvent → Option (Turns.Event Token)
  | .registered token j => if j = k then some (.enter token) else none
  | .attempted token j => if j = k then some (.serve token) else none
  | .dropped token j => if j = k then some (.leave token) else none

namespace Board

/-- The line for one resource. -/
def requestLog (b : Board) (k : Resource) : List (Turns.Event Token) := b.log.filterMap (·.at k)

structure Ordered (b : Board) : Prop where
  orderly : ∀ k, Turns.Orderly (b.requestLog k)
  line : ∀ k, Turns.line (b.requestLog k) = (b.ready.waiters k).tokens

theorem ordered_new (settings : Settings) : (new settings).Ordered where
  orderly _ := .nil
  line k := by cases k <;> rfl

variable {b b' : Board} {token : Token} {entry e : Entry} {k : Resource}

theorem Ordered.congr (h : b.Ordered) (hlog : b'.log = b.log)
    (htokens : ∀ k, (b'.ready.waiters k).tokens = (b.ready.waiters k).tokens) : b'.Ordered := by
  refine ⟨?_, ?_⟩
  · intro k
    unfold requestLog
    rw [hlog]
    exact h.orderly k
  · intro k
    unfold requestLog
    rw [hlog, htokens]
    exact h.line k

/-- One more event keeps every line orderly if it is allowed in its own. -/
theorem Ordered.snoc (event : RequestEvent) (h : b.Ordered) (hlog : b'.log = b.log ++ [event])
    (hallowed : ∀ k turn, event.at k = some turn → turn.Allowed (b.ready.waiters k).tokens)
    (htokens : ∀ k, (b'.ready.waiters k).tokens =
      match event.at k with
      | some turn => turn.apply (b.ready.waiters k).tokens
      | none => (b.ready.waiters k).tokens) : b'.Ordered := by
  have hsplit (k : Resource) : b'.requestLog k = b.requestLog k ++ (event.at k).toList := by
    unfold requestLog
    rw [hlog, List.filterMap_append]
    cases hat : event.at k <;> simp [hat]
  refine ⟨?_, ?_⟩
  · intro k
    rw [hsplit]
    cases hat : event.at k with
    | none => simpa using h.orderly k
    | some turn =>
        refine (h.orderly k).snoc ?_
        rw [h.line]
        exact hallowed k turn hat
  · intro k
    rw [hsplit, htokens]
    cases hat : event.at k with
    | none => simpa using h.line k
    | some turn => simp [h.line]

/-- A request that registers takes the last place of its line. -/
theorem Ordered.registered {ready : Ready} {phase : Phase} (h : b.Ordered)
    (hcoherent : b.Coherent) (hlive : b.live[token]? = some entry) (hsame : SameTask entry e)
    (hwants : e.await.wants = some k)
    (htokens : ∀ j, (ready.waiters j).tokens =
      ((b.registered token e k .idle).ready.waiters j).tokens) :
    Ordered { b.registered token e k phase with ready } := by
  have hmem (j : Resource) : token ∈ (b.ready.waiters j).tokens ↔ e.request = some j := by
    rw [hcoherent.mem_requests hlive, hsame.request_eq]
  have hwaiters (j : Resource) : (ready.waiters j).tokens =
      if j = k then ((b.ready.waiters k).pushBack token).tokens
      else (b.ready.waiters j).tokens := by
    rw [htokens]
    simp only [Board.registered, Ready.waiters_setWaiters]
    split_ifs <;> rfl
  cases hregistered : e.registered with
  | true =>
      have hin : token ∈ (b.ready.waiters k).tokens := by
        rw [hmem]
        simp [Entry.request, hregistered, hwants]
      refine h.congr (by simp [Board.registered, hregistered]) ?_
      intro j
      dsimp only
      rw [hwaiters]
      split_ifs with hj
      · rw [Fifo.tokens_pushBack, if_pos hin, hj]
      · rfl
  | false =>
      have hout : token ∉ (b.ready.waiters k).tokens := by
        rw [hmem]
        simp [Entry.request, hregistered]
      refine h.snoc (.registered token k) (by simp [Board.registered, hregistered]) ?_ ?_
      · intro j turn hturn
        simp only [RequestEvent.at] at hturn
        split_ifs at hturn with hj
        cases hturn
        exact hj ▸ hout
      · intro j
        dsimp only
        rw [hwaiters]
        by_cases hj : j = k
        · subst hj
          rw [if_pos rfl, Fifo.tokens_pushBack, if_neg hout]
          simp [RequestEvent.at, Turns.Event.apply]
        · have hj' : ¬ k = j := fun heq ↦ hj heq.symm
          simp [RequestEvent.at, hj, hj']

/-- An attempt is made by the first request of its line. -/
theorem Ordered.attempted (h : b.Ordered)
    (hfirst : (b.ready.waiters k).tokens.head? = some token) : (b.attempted token k).Ordered := by
  refine h.snoc (.attempted token k) rfl ?_ ?_
  · intro j turn hturn
    simp only [RequestEvent.at] at hturn
    split_ifs at hturn with hj
    cases hturn
    exact hj ▸ hfirst
  · intro j
    simp only [RequestEvent.at, Board.attempted]
    split_ifs <;> rfl

/-- A dropped request leaves its line wherever it stands. -/
theorem Ordered.dropped (h : b.Ordered)
    (hmem : ∀ j, token ∈ (b.ready.waiters j).tokens ↔ e.request = some j)
    (hlog : b'.log = b.log ++ droppedEvents token e)
    (htokens : ∀ k, (b'.ready.waiters k).tokens =
      if e.request = some k then (b.ready.waiters k).tokens.erase token
      else (b.ready.waiters k).tokens) : b'.Ordered := by
  unfold droppedEvents at hlog
  cases hrequest : e.request with
  | none =>
      refine h.congr (by simpa [hrequest] using hlog) ?_
      intro j
      rw [htokens, hrequest, if_neg nofun]
  | some k =>
      refine h.snoc (.dropped token k) (by simpa [hrequest] using hlog) ?_ ?_
      · intro j turn hturn
        simp only [RequestEvent.at] at hturn
        split_ifs at hturn with hj
        cases hturn
        rw [Turns.Event.Allowed, hmem, hrequest, hj]
      · intro j
        rw [htokens, hrequest]
        by_cases hj : k = j
        · simp [RequestEvent.at, hj, Turns.Event.apply]
        · simp [RequestEvent.at, hj]

end Board

namespace Engine

variable {s s' : Engine}

theorem ordered_polled {token : Token} (h : s.board.Ordered) (hcoherent : s.board.Coherent)
    (hpolled : s.Polled token s') : s'.board.Ordered := by
  cases hpolled with
  | yielded hphase hlive hsame hm hwoke =>
      exact h.congr rfl fun k ↦ congrArg Fifo.tokens (hwoke.waiters k)
  | parked hphase hlive hsame hm htokens hstate hturn hstates => exact h.congr rfl htokens
  | requested hphase hlive hsame hwants hhead =>
      exact h.registered hcoherent hlive hsame hwants fun _ ↦ rfl
  | lined hphase hlive hsame hwants hhead htokens hstates =>
      exact h.registered hcoherent hlive hsame hwants htokens
  | blocked hphase hlive hblocked =>
      exact (h.attempted (hcoherent.first _ _ (Or.inl hphase))).congr rfl fun _ ↦ rfl
  | @advanced entry e event connection ready hphase hlive hsame hstep hrequest hsent hcharge
      hcharge' hreleased =>
      refine h.dropped (e := e) ?_ rfl hreleased.waiters
      intro j
      rw [hcoherent.mem_requests hlive, hsame.request_eq]
  | copied hphase hlive hat hstep hrequest hsent hfits hcharge hreleased =>
      exact (h.attempted (hcoherent.first _ _ (Or.inl hphase))).dropped
        (hcoherent.mem_requests hlive) rfl hreleased.waiters
  | sent hphase hlive hat hstep hrequest hsent hcharge hconnected hslots hbuffer hstill hreleased =>
      exact (h.attempted (hcoherent.first _ _ (Or.inl hphase))).dropped
        (hcoherent.mem_requests hlive) rfl hreleased.waiters
  | refused hphase hlive hat hstep hrequest hsent hcharge hconnected hle hreleased =>
      exact (h.attempted (hcoherent.first _ _ (Or.inl hphase))).dropped
        (hcoherent.mem_requests hlive) rfl hreleased.waiters
  | @exhausted entry e record after connection ready hphase hlive hsame hat hcount hstep hsent
      hcharge hle hreleased =>
      refine h.dropped (e := e) ?_ rfl hreleased.waiters
      intro j
      rw [hcoherent.mem_requests hlive, hsame.request_eq]

theorem ordered_move (h : s.board.Ordered) (hcoherent : s.board.Coherent) (hmove : s.Move s') :
    s'.board.Ordered := by
  cases hmove with
  | shared hshared =>
      have hboard : s'.board = s.board := by cases hshared <;> rfl
      exact hboard ▸ h
  | woke hwoke => exact h.congr rfl fun k ↦ congrArg Fifo.tokens (hwoke.waiters k)
  | credited hwoke => exact h.congr rfl fun k ↦ congrArg Fifo.tokens (hwoke.waiters k)
  | inserted hfresh hdeparted hsubscribed hwaiters hstates =>
      exact h.congr rfl fun k ↦ congrArg Fifo.tokens (hwaiters k)
  | took hphase hlive hhead hwaiters hstates =>
      exact h.congr rfl fun k ↦ congrArg Fifo.tokens (hwaiters k)
  | polled hpolled => exact ordered_polled h hcoherent hpolled
  | @retired token entry ready hphase hlive hle hretired =>
      have hmem := hcoherent.mem_requests hlive
      refine h.dropped (e := entry) hmem rfl ?_
      intro k
      dsimp only [Board.without]
      rw [hretired.waiters]
      split_ifs with hk
      · rfl
      · rw [List.erase_of_not_mem ((hmem k).not.mpr hk)]

end Engine

end Phonowire.Receiver
