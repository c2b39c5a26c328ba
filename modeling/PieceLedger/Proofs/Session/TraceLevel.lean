import PieceLedger.Proofs.Console.Course
import PieceLedger.Proofs.Session.Operations
import Mathlib.Data.List.Basic

/-!
# Trace levels

A trace level decides which lines of an operation are written, and nothing else.
Every line is put to the level where it is traced, between the steps of an
operation, and still none of these steps depends on it.  Whatever a client asks
for, of the objects of a session or of the functions on hexadecimal text, a lower
level gives the same answers and the same session, and of the lines it keeps
those whose severity it lets through.
-/

namespace PieceLedger

namespace Session

open Trace

/-! ## Requests of a client -/

inductive Conversion where
  | writeHex (bytes : Bytes)
  | readHex (text : Bytes)
  | writeDigest (digest : Digest)
  | readDigest (before : Digest) (text : Bytes)

inductive Converted where
  | text (written : Option Bytes)
  | reading (outcome : Hex.Reading)
  | digest (ok : Bool) (after : Digest)

def Conversion.result : Conversion → Converted
  | .writeHex bytes => .text (Hex.encode? bytes)
  | .readHex text => .reading (Hex.decode text)
  | .writeDigest digest => .text (some digest.toHex)
  | .readDigest before text =>
      let (ok, after) := before.readHex text
      .digest ok after

inductive Request where
  | command (command : Command)
  | conversion (conversion : Conversion)

inductive Answer where
  | reply (reply : Reply)
  | converted (result : Converted)

def serve (level : Nat) (s : Session) : List Request → List (Answer × List Line) × Session
  | [] => ([], s)
  | .conversion conversion :: rest =>
      let (answers, last) := serve level s rest
      ((.converted conversion.result, []) :: answers, last)
  | .command command :: rest =>
      let ((reply, next), lines) := (s.performing command).runAt level
      match reply with
      | .aborted => ([(.reply reply, lines)], next)
      | _ =>
          let (answers, last) := serve level next rest
          ((.reply reply, lines) :: answers, last)

def answered (reply : Reply × List Line) : Answer × List Line := (.reply reply.1, reply.2)

theorem answered_injective : Function.Injective answered := by
  intro (first, lines) (second, others) same
  cases same
  rfl

theorem serve_commands (level : Nat) (s : Session) (commands : List Command) :
    s.serve level (commands.map .command) =
      ((s.run level commands).1.map answered, (s.run level commands).2) := by
  induction commands generalizing s with
  | nil => rfl
  | cons command rest ih =>
      simp only [List.map_cons, serve, run]
      split
      case h_1 stopped => simp only [stopped, answered, List.map_cons, List.map_nil]
      case h_2 => simp only [ih, answered, List.map_cons]

/-! ## Two levels -/

def lowered {α : Type} (low : Nat) (course : List (α × List Line) × Session) :
    List (α × List Line) × Session :=
  (course.1.map fun answer => (answer.1, answer.2.filter fun line => line.severity.rank ≤ low),
    course.2)

theorem serve_lowered {low high : Nat} (ordered : low ≤ high) (s : Session)
    (requests : List Request) : s.serve low requests = lowered low (s.serve high requests) := by
  induction requests generalizing s with
  | nil => rfl
  | cons request rest ih =>
      cases request with
      | conversion conversion =>
          simp only [serve, ih s]
          rfl
      | command command =>
          -- what the command does at the lower level is said by what it does at the higher one
          have selected := (s.scripted_performing command).blind.runAt_of_le ordered
          simp only [serve, selected]
          cases ((s.performing command).runAt high).1.1 with
          | aborted => rfl
          | _ =>
              simp only [ih]
              rfl

/--
At a lower of two levels every request is answered alike and the session ends alike,
and of the lines of each answer those up to the lower level are left, in order.  A
console that carries out a command writes to its log the lines of its own level.
-/
theorem level_selects_lines {low high : Nat} (ordered : low ≤ high) (s : Session) :
    (∀ commands : List Command, s.run low commands = lowered low (s.run high commands)) ∧
      (∀ requests : List Request, s.serve low requests = lowered low (s.serve high requests)) ∧
      ∀ (c : Console) (command : Command),
        let (answer, after) := c.logging (s.performing command)
        let (answerAtLevel, lines) := (s.performing command).runAt c.level
        answer = answerAtLevel ∧
          after.written =
            (lines.reverse.map fun line => (Console.outletAt c.tree c.log, line.render)) ++
              c.written := by
  refine ⟨fun commands => ?_, s.serve_lowered ordered, fun c command => ?_⟩
  · have served := s.serve_lowered ordered (commands.map .command)
    rw [serve_commands, serve_commands] at served
    obtain ⟨answers, last⟩ := Prod.ext_iff.mp served
    refine Prod.ext (answered_injective.list_map (answers.trans ?_)) last
    simp only [lowered, List.map_map]
    rfl
  · have blind := (s.scripted_performing command).blind
    rw [Console.logging_of_blind blind, blind.runAt_eq]
    exact ⟨rfl, c.written_traceAll _⟩

/-- A window of no size and a block that was never scheduled, with a conversion between. -/
theorem level_selects_lines_mixed :
    let s : Session := { tree := ⟨[], []⟩ }
    let requests : List Request := [.command (.newTracker 0 0 10 4 0),
      .conversion (.writeHex [171]), .command (.add 0 ⟨9, 1⟩)]
    1 ≤ 2 ∧ (s.serve 2 requests).1.map (·.2.length) = [1, 0, 1] ∧
      (s.serve 1 requests).1.map (·.2.length) = [0, 0, 1] ∧
      (s.serve 1 requests).2 = (s.serve 2 requests).2 := by
  intro s requests
  have selected := (level_selects_lines (show 1 ≤ 2 by decide) s).2.1 requests
  refine ⟨by decide, rfl, ?_, by rw [selected]; rfl⟩
  rw [selected]
  rfl

end Session

end PieceLedger
