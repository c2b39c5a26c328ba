import PieceLedger.Proofs.Session.Operations
import PieceLedger.Proofs.Sha1.Streaming
import Mathlib.Data.List.Basic

/-!
# Calls on a digest stream

A client gives parts, finishes, and asks for the digest, in any order and as
often as it likes.  Its message is what it gave before it first finished or
asked.  The replies depend on the message alone: on how long it has become, on
whether it is closed, and on its digest.
-/

namespace PieceLedger

namespace Sha1

/-- The calls on a stream; a part is given as a buffer or as a vector. -/
inductive Call where
  | update (part : Bytes)
  | updateVector (part : Bytes)
  | finish
  | digest
  deriving DecidableEq, Repr

def Call.part : Call → Bytes
  | .update part | .updateVector part => part
  | .finish | .digest => []

def Call.closes : Call → Bool
  | .update _ | .updateVector _ => false
  | .finish | .digest => true

theorem Call.part_of_closes {call : Call} (h : call.closes = true) : call.part = [] := by
  cases call with
  | update | updateVector => cases h
  | finish | digest => rfl

/-- What was given before the first call that closes the stream. -/
def message : List Call → Bytes
  | [] => []
  | call :: rest => if call.closes then [] else call.part ++ message rest

def closed (calls : List Call) : Bool := calls.any Call.closes

theorem closed_append_singleton (calls : List Call) (call : Call) :
    closed (calls ++ [call]) = (closed calls || call.closes) := by
  rw [closed, List.any_append, List.any_cons, List.any_nil, Bool.or_false, closed]

theorem message_append_singleton (calls : List Call) (call : Call) :
    message (calls ++ [call]) =
      if closed calls then message calls else message calls ++ call.part := by
  induction calls with
  | nil => cases call <;> simp [message, closed, Call.closes, Call.part]
  | cons first rest ih =>
      rw [List.cons_append, message, message, closed, List.any_cons, ih, ← closed]
      cases first.closes with
      | true => rfl
      | false => cases closed rest <;> simp

theorem message_append {calls : List Call} (h : closed calls) (more : List Call) :
    message (calls ++ more) = message calls := by
  induction calls with
  | nil => cases h
  | cons first rest ih =>
      rw [List.cons_append, message, message]
      cases hfirst : first.closes with
      | true => rfl
      | false =>
          rw [closed, List.any_cons, hfirst, Bool.false_or] at h
          rw [ih h]

/-! ## One call -/

namespace Stream

def after (s : Stream) (call : Call) : Stream :=
  if call.closes then s.finish.2 else (s.update call.part).getD s

structure Follows (s : Stream) (calls : List Call) : Prop where
  length : s.length = (message calls).length
  taking : closed calls = false → s.Took (message calls)
  done : closed calls = true → s.result = some (hash (message calls))

theorem follows_nil : Follows {} [] := ⟨rfl, fun _ => took_nil, nofun⟩

namespace Follows

variable {s : Stream} {calls : List Call}

theorem finish_eq (h : s.Follows calls) :
    s.finish.1 = hash (message calls) ∧ s.finish.2.length = (message calls).length ∧
      s.finish.2.result = some (hash (message calls)) := by
  rw [finish]
  cases hclosed : closed calls with
  | true =>
      rw [h.done hclosed]
      exact ⟨rfl, h.length, h.done hclosed⟩
  | false =>
      have took := h.taking hclosed
      rw [took.result]
      exact ⟨took.finalDigest, h.length, congrArg some took.finalDigest⟩

theorem update_of_closed (h : s.Follows calls) (hclosed : closed calls = true) (part : Bytes) :
    s.update part = none := by
  rw [update, h.done hclosed]

theorem update_isSome (h : s.Follows calls) (part : Bytes) :
    (s.update part).isSome = !closed calls := by
  cases hclosed : closed calls with
  | true =>
      rw [h.update_of_closed hclosed]
      rfl
  | false =>
      obtain ⟨next, taken, -⟩ := (h.taking hclosed).update part
      rw [taken]
      rfl

theorem after (h : s.Follows calls) (call : Call) : (s.after call).Follows (calls ++ [call]) := by
  have message_eq := message_append_singleton calls call
  have closed_eq := closed_append_singleton calls call
  rw [Stream.after]
  split
  case isTrue closes =>
    obtain ⟨-, length, result⟩ := h.finish_eq
    have kept : message (calls ++ [call]) = message calls := by
      rw [message_eq, call.part_of_closes closes, List.append_nil, ite_self]
    rw [closes, Bool.or_true] at closed_eq
    rw [← kept] at length result
    exact ⟨length, fun opened => absurd (closed_eq.symm.trans opened) (by decide),
      fun _ => result⟩
  case isFalse opens =>
    rw [Bool.not_eq_true] at opens
    rw [opens, Bool.or_false] at closed_eq
    cases hclosed : closed calls with
    | true =>
        rw [if_pos hclosed] at message_eq
        rw [h.update_of_closed hclosed, Option.getD_none]
        rw [hclosed] at closed_eq
        exact ⟨message_eq ▸ h.length,
          fun opened => absurd (closed_eq.symm.trans opened) (by decide),
          fun _ => message_eq ▸ h.done hclosed⟩
    | false =>
        rw [if_neg (by simp [hclosed])] at message_eq
        obtain ⟨next, taken, took⟩ := (h.taking hclosed).update call.part
        rw [taken, Option.getD_some]
        rw [hclosed] at closed_eq
        rw [← message_eq] at took
        exact ⟨took.length, fun _ => took,
          fun shut => absurd (closed_eq.symm.trans shut) (by decide)⟩

theorem afterAll (h : s.Follows calls) (more : List Call) :
    (more.foldl Stream.after s).Follows (calls ++ more) := by
  induction more generalizing s calls with
  | nil =>
      rw [List.append_nil]
      exact h
  | cons call rest ih =>
      rw [List.append_cons]
      exact ih (h.after call)

end Follows

end Stream

end Sha1

/-! ## Calls in a session -/

namespace Session

open Sha1

def streamCommand : Sha1.Call → Command
  | .update part | .updateVector part => .updateStream part
  | .finish | .digest => .finishStream

def streamReply (before : List Sha1.Call) : Sha1.Call → Reply
  | .update part => .stream (!closed before) (message (before ++ [.update part])).length
  | .updateVector part => .stream (!closed before) (message (before ++ [.updateVector part])).length
  | .finish | .digest => .streamDigest (hash (message before)) (message before).length

theorem updateStream_eq (s : Session) (part : Bytes) :
    s.updateStream part =
      (.stream (s.stream.update part).isSome ((s.stream.update part).getD s.stream).length,
        { s with stream := (s.stream.update part).getD s.stream }) := by
  rw [updateStream]
  cases s.stream.update part <;> rfl

theorem perform_streamCommand {s : Session} {before : List Sha1.Call}
    (h : s.stream.Follows before) (call : Sha1.Call) :
    s.perform (streamCommand call) =
      ⟨streamReply before call, { s with stream := s.stream.after call }, []⟩ := by
  have length := (h.after call).length
  cases call with
  | update part | updateVector part =>
      simp only [streamCommand, perform_updateStream, updateStream_eq, h.update_isSome,
        streamReply, ← length]
      rfl
  | finish | digest =>
      obtain ⟨digest, length, -⟩ := h.finish_eq
      simp only [streamCommand, perform_finishStream, finishStream, streamReply, digest, length]
      rfl

theorem run_streamCommands {s : Session} {before : List Sha1.Call} (level : Nat)
    (h : s.stream.Follows before) (calls : List Sha1.Call) :
    s.run level (calls.map streamCommand) =
      (calls.mapIdx fun i call => (streamReply (before ++ calls.take i) call, []),
        { s with stream := calls.foldl Stream.after s.stream }) := by
  induction calls generalizing s before with
  | nil => rfl
  | cons call rest ih =>
      have further := ih (s := { s with stream := s.stream.after call }) (h.after call)
      rw [List.map_cons, run_cons, perform_streamCommand h call]
      simp only
      split
      case h_1 stopped => cases call <;> cases stopped
      case h_2 =>
        rw [further, List.mapIdx_cons]
        simp only [List.take_zero, List.append_nil, List.take_succ_cons, List.append_assoc,
          List.singleton_append, List.foldl_cons]
        rfl

theorem digest_of_streamReply {calls : List Sha1.Call} {digest : Digest} {length : Nat}
    {lines : List Trace.Line}
    (h : (Reply.streamDigest digest length, lines) ∈
      calls.mapIdx fun i call => (streamReply (calls.take i) call, [])) :
    digest = Sha1.hash (message calls) ∧ length = (message calls).length := by
  obtain ⟨i, hi, reply⟩ := List.mem_mapIdx.mp h
  have whole : calls = calls.take i ++ [calls[i]] ++ calls.drop (i + 1) := by simp
  have closing : calls[i].closes = true := by
    cases hcall : calls[i] with
    | update | updateVector =>
        rw [hcall] at reply
        cases reply
    | finish | digest => rfl
  have same : message calls = message (calls.take i) := by
    conv_lhs => rw [whole]
    rw [message_append (by rw [closed_append_singleton, closing, Bool.or_true]),
      message_append_singleton, Sha1.Call.part_of_closes closing, List.append_nil, ite_self]
  rw [same]
  cases hcall : calls[i] with
  | update | updateVector =>
      rw [hcall] at closing
      cases closing
  | finish | digest =>
      rw [hcall] at reply
      cases reply
      exact ⟨rfl, rfl⟩

/--
A fresh stream answers every call by the calls before it: it takes parts until it is first
closed and refuses them from then on, it always finishes and gives the digest of what was
taken, and its length is the length of that.  So all digests of a run are the same, a
refused part changes nothing, and two runs with one message have one digest, however the
message was cut.
-/
theorem stream_digests_message (s : Session) (level : Nat) (calls : List Sha1.Call) :
    let fresh : Session := { s with stream := {} }
    let course := fresh.run level (calls.map streamCommand)
    course.1 = (calls.mapIdx fun i call => (streamReply (calls.take i) call, [])) ∧
      course.2.stream.length = (message calls).length ∧
      (closed calls = true → ∀ part : Bytes,
        course.2.perform (.updateStream part) =
          ⟨.stream false (message calls).length, course.2, []⟩) ∧
      ∀ others : List Sha1.Call, message others = message calls →
        ∀ digest length,
          (.streamDigest digest length, []) ∈ (fresh.run level (others.map streamCommand)).1 →
          digest = Sha1.hash (message calls) ∧ length = (message calls).length := by
  intro fresh course
  have run (calls : List Sha1.Call) := fresh.run_streamCommands level Stream.follows_nil calls
  have follows : course.2.stream.Follows calls := by
    rw [show course.2 = _ from congrArg Prod.snd (run calls)]
    exact Stream.follows_nil.afterAll calls
  refine ⟨congrArg Prod.fst (run calls), follows.length, fun shut part => ?_, ?_⟩
  · rw [perform_updateStream, updateStream_eq, follows.update_of_closed shut,
      follows.length.symm]
    rfl
  · intro others same digest length replied
    rw [run others] at replied
    rw [← same]
    exact digest_of_streamReply replied

/-- Three bytes in two parts, the digest, and a part that comes too late. -/
theorem stream_digests_message_late :
    let s : Session := { tree := ⟨[], []⟩ }
    let calls : List Sha1.Call :=
      [.update [97], .updateVector [98, 99], .digest, .update [], .finish]
    let digest : Digest := .ofBytes
      [169, 153, 62, 54, 71, 6, 129, 106, 186, 62, 37, 113, 120, 80, 194, 108, 156, 208, 216, 157]
    (s.run 0 (calls.map streamCommand)).1.map Prod.fst =
        [.stream true 1, .stream true 3, .streamDigest digest 3, .stream false 3,
          .streamDigest digest 3] ∧
      ((s.run 0 (calls.map streamCommand)).2.perform (.updateStream [100])).reply =
        .stream false 3 := by
  intro s calls digest
  obtain ⟨replies, -, refused, -⟩ := stream_digests_message s 0 calls
  have abc : Sha1.hash [97, 98, 99] = digest := by decide +kernel
  change (s.run 0 (calls.map streamCommand)).1 = _ at replies
  refine ⟨?_, congrArg Outcome.reply (refused rfl [100])⟩
  rw [replies, ← abc]
  rfl

end Session

end PieceLedger
