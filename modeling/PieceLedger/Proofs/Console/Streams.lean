import PieceLedger.Proofs.Console.Destinations

/-!
# The stream of the log

A logger that holds a stream does what the console does that only knows where
its log goes.  A stream is live exactly while it is held as the logger's own,
and it leads to a file; the standard streams are never owned.
-/

namespace PieceLedger

namespace Logger

open Trace

/-- What is held, whether it is owned, and what was opened and not closed since. -/
inductive Holds : Option Outlet → Bool → List Outlet → Prop
  | nothing : Holds none false []
  | output : Holds (some .output) false []
  | errors : Holds (some .errors) false []
  | file (location : Location) : Holds (some (.file location)) true [.file location]

def Sound (l : Logger) : Prop := Holds l.stream l.owned l.live

structure Agree (logged : Bool × Logger) (shown : Bool × Console) : Prop where
  status : logged.1 = shown.1
  console : logged.2.console = shown.2
  sound : logged.2.Sound

namespace Sound

variable {l : Logger}

theorem start (tree : FileTree) : Sound { base := { tree } } := .nothing

theorem trace (h : l.Sound) (line : Line) : (l.trace line).Sound := by
  rw [Logger.trace]
  split <;> exact h

theorem closeLog_eq (h : l.Sound) : l.closeLog = { base := l.base } := by
  obtain ⟨base, stream, owned, live⟩ := l
  change Holds stream owned live at h
  cases h with
  | nothing | output | errors => rfl
  | file location =>
      change Logger.mk base none false ([Outlet.file location].erase (.file location)) = { base }
      rw [List.erase_cons_head]

end Sound

theorem console_trace (l : Logger) (line : Line) :
    (l.trace line).console = l.console.trace line := by
  rw [trace, Console.trace]
  change (if admits l.base.level line.severity.rank then _ else l).console =
    if admits l.base.level line.severity.rank then _ else _
  split <;> rfl

theorem Sound.openLog {l : Logger} (h : l.Sound) (path : Bytes) :
    Agree (l.openLog path) (l.console.openLog path) := by
  rw [Logger.openLog, Console.openLog, h.closeLog_eq]
  by_cases out : path = Bytes.ofString "/dev/stdout"
  · rw [if_pos out, if_pos out]
    exact ⟨rfl, rfl, .output⟩
  rw [if_neg out, if_neg out]
  by_cases err : path = Bytes.ofString "/dev/stderr"
  · rw [if_pos err, if_pos err]
    exact ⟨rfl, rfl, .errors⟩
  rw [if_neg err, if_neg err]
  have tree_eq : l.console.closeLog.tree = l.base.tree := rfl
  rw [tree_eq]
  cases l.base.tree.openAppend path.beforeNul with
  | error reason => exact ⟨rfl, rfl, .nothing⟩
  | ok opened => exact ⟨rfl, rfl, .file opened.1⟩

theorem Sound.perform {l : Logger} (h : l.Sound) (command : Console.Command) :
    Agree (l.perform command) (l.console.perform command) := by
  cases command with
  | setLevel level => exact ⟨rfl, rfl, h⟩
  | openLog path => exact h.openLog path
  | closeLog =>
      rw [Logger.perform, h.closeLog_eq]
      exact ⟨rfl, rfl, .nothing⟩
  | emit severity message => exact ⟨rfl, l.console_trace _, h.trace _⟩
  | fail message =>
      have traced := l.console_trace { severity := .error, text := message.beforeNul }
      refine ⟨rfl, ?_, h.trace { severity := .error, text := message.beforeNul }⟩
      rw [Console.perform, Console.fail, ← traced]
      rfl

/-! ## Runs -/

def after (l : Logger) (commands : List Console.Command) : Logger :=
  commands.foldl (fun l command => (l.perform command).2) l

def statuses (l : Logger) : List Console.Command → List Bool
  | [] => []
  | command :: rest => (l.perform command).1 :: (l.perform command).2.statuses rest

theorem Sound.after {l : Logger} (h : l.Sound) (commands : List Console.Command) :
    (l.after commands).Sound ∧ (l.after commands).console = l.console.after commands ∧
      l.statuses commands = l.console.statuses commands := by
  induction commands generalizing l with
  | nil => exact ⟨h, rfl, rfl⟩
  | cons command rest ih =>
      obtain ⟨status, console, sound⟩ := h.perform command
      obtain ⟨last, shown, statuses⟩ := ih sound
      rw [console] at shown statuses
      refine ⟨last, shown, ?_⟩
      rw [Logger.statuses, Console.statuses, status, statuses]

end Logger

namespace Console

/--
A line that the level admits is written once, in the order of the lines, to the
destination that the commands before it left in force; beyond that only the refusals
are told, on standard error.  A file holds what it held before and what was written to
it, whichever other logs were open in between, and nothing else in the tree changes.  The
stream that the logger holds leads to the same place, and no other stream stays open.
-/
theorem lines_reach_one_place (tree : FileTree) (commands : List Command) :
    let start : Logger := { base := { tree } }
    let final := start.after commands
    let course := start.console.events commands
    let texts := writings [] course
    start.statuses commands = course.map Event.succeeds ∧
      final.target = destination course ∧ final.base.level = levelOf course ∧
      final.Sound ∧ final.console = start.console.after commands ∧
      (final.base.written.reverse.filter fun entry => entry.2 ≠ []) =
        texts.map (fun entry => (outletAt tree entry.1, entry.2)) ∧
      (∀ location content, tree.entry? location = some (.file content) →
        final.base.tree.entry? location =
          some (.file (content ++ textTo (.file location) texts))) ∧
      (∀ location, tree.entry? location = none →
        final.base.tree.entry? location = some (.file (textTo (.file location) texts)) ∨
          final.base.tree.entry? location = none ∧ textTo (.file location) texts = []) ∧
      ∀ location entry, tree.entry? location = some entry →
        (∀ content, entry ≠ .file content) →
        final.base.tree.entry? location = some entry := by
  intro start final course texts
  obtain ⟨sound, same, statuses⟩ := (Logger.Sound.start tree).after commands
  obtain ⟨succeeded, follows⟩ := (follows_nil tree).after commands
  change start.console.statuses commands = course.map Event.succeeds at succeeded
  change Follows tree course (start.console.after commands) at follows
  rw [← same] at follows
  have files (location : Location) : Grows (textTo (.file location) texts)
      (tree.entry? location) (final.base.tree.entry? location) :=
    follows.shown.files location
  refine ⟨statuses.trans succeeded, follows.log, follows.level, sound, same,
    follows.shown.written, ?_, ?_, ?_⟩
  · intro location content there
    exact (there ▸ files location).of_some
  · intro location absent
    exact (absent ▸ files location).of_new
  · intro location entry there other
    have grown := files location
    rw [there] at grown
    rw [grown.of_some]
    cases entry with
    | file content => exact absurd rfl (other content)
    | directory | device => rfl

/-- The log goes to a file, after a refused path to standard error, and to the file again. -/
theorem lines_reach_one_place_reopened :
    let name := Bytes.ofString "a"
    let tree : FileTree := ⟨[], [([name], .file (Bytes.ofString "x\n"))]⟩
    let commands : List Command := [.setLevel 2, .openLog name, .emit .warn (Bytes.ofString "1"),
      .openLog (Bytes.ofString "b/c"), .emit .error (Bytes.ofString "2"), .openLog name,
      .emit .debug (Bytes.ofString "3"), .fail (Bytes.ofString "4"), .closeLog,
      .emit .error (Bytes.ofString "5")]
    let start : Logger := { base := { tree } }
    let final := start.after commands
    start.statuses commands =
        [true, true, true, false, true, true, true, true, true, true] ∧
      final.target = .errors ∧
      final.base.tree.entry? [name] =
        some (.file (Bytes.ofString "x\n[WARN]    1\n[ERROR]   4\n")) ∧
      final.base.tree.bytesAt? name = some (Bytes.ofString "x\n[WARN]    1\n[ERROR]   4\n") ∧
      (final.base.written.reverse.filter fun entry => entry.2 ≠ []).map (·.1) =
        [.file [name], .errors, .errors, .file [name], .errors] := by
  intro name tree commands
  have course := lines_reach_one_place tree commands
  dsimp only at course ⊢
  obtain ⟨statuses, target, -, -, -, written, files, -⟩ := course
  refine ⟨statuses.trans (by decide +kernel), target.trans (by decide +kernel), ?_,
    by decide +kernel, ?_⟩
  · exact (files [name] (Bytes.ofString "x\n") (by decide +kernel)).trans (by decide +kernel)
  · exact (congrArg (List.map Prod.fst) written).trans (by decide +kernel)

end Console

end PieceLedger
