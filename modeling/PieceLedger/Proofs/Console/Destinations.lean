import PieceLedger.Console.Logger
import PieceLedger.Proofs.Console.Course
import PieceLedger.Proofs.FileTree.Opening
import Mathlib.Data.List.Basic

/-!
# Where the lines of a log go

What is written after some commands is told from what the commands did: which
levels were set, which logs were opened, could not be opened or were closed,
and which lines were emitted.  A line goes to one place, or nowhere, and a file
holds what it held before and the lines that went to it.
-/

namespace PieceLedger

namespace Console

open Trace

/-! ## What commands do -/

inductive Event where
  | level (level : Nat)
  | opened (target : Outlet)
  /-- A log could not be opened, with what is said about it. -/
  | refused (message : Bytes)
  | closed
  | line (line : Line)
  deriving DecidableEq, Repr

def targetOf (tree : FileTree) (path : Bytes) : Except PathFault Outlet :=
  if path = Bytes.ofString "/dev/stdout" then .ok .output
  else if path = Bytes.ofString "/dev/stderr" then .ok .errors
  else
    match tree.openAppend path.beforeNul with
    | .ok (location, _) => .ok (.file location)
    | .error reason => .error reason

def eventOf (tree : FileTree) : Command → Event
  | .setLevel level => .level level
  | .openLog path =>
      match targetOf tree path with
      | .ok target => .opened target
      | .error reason => .refused (openFault path reason)
  | .closeLog => .closed
  | .emit severity message => .line { severity, text := message.beforeNul }
  | .fail message => .line { severity := .error, text := message.beforeNul }

def after (c : Console) (commands : List Command) : Console :=
  commands.foldl (fun c command => (c.perform command).2) c

def statuses (c : Console) : List Command → List Bool
  | [] => []
  | command :: rest => (c.perform command).1 :: (c.perform command).2.statuses rest

def events (c : Console) : List Command → List Event
  | [] => []
  | command :: rest => eventOf c.tree command :: (c.perform command).2.events rest

/-! ## What is written -/

namespace Event

def directs : Event → Bool
  | .opened _ | .refused _ | .closed => true
  | _ => false

def setsLevel : Event → Bool
  | .level _ => true
  | _ => false

def succeeds : Event → Bool
  | .refused _ => false
  | _ => true

end Event

/-- The target of the last log that was opened, if nothing was closed and no opening failed
since; standard error otherwise. -/
def destination (past : List Event) : Outlet :=
  match past.reverse.find? Event.directs with
  | some (.opened target) => target
  | _ => .errors

def levelOf (past : List Event) : Nat :=
  match past.reverse.find? Event.setsLevel with
  | some (.level level) => level
  | _ => 0

def writing (past : List Event) : Event → Option (Outlet × Bytes)
  | .line line =>
      if admits (levelOf past) line.severity.rank then
        some (destination past, line.render)
      else none
  | .refused message => some (.errors, message)
  | _ => none

def writings (past : List Event) : List Event → List (Outlet × Bytes)
  | [] => []
  | event :: rest => (writing past event).toList ++ writings (past ++ [event]) rest

def textTo (outlet : Outlet) (texts : List (Outlet × Bytes)) : Bytes :=
  texts.flatMap fun (target, text) => if target = outlet then text else []

theorem writings_append_singleton (past events : List Event) (event : Event) :
    writings past (events ++ [event]) =
      writings past events ++ (writing (past ++ events) event).toList := by
  induction events generalizing past with
  | nil => simp [writings]
  | cons first rest ih =>
      rw [List.cons_append, writings, writings, ih, List.append_assoc, List.append_assoc]
      rfl

theorem textTo_append (outlet : Outlet) (texts more : List (Outlet × Bytes)) :
    textTo outlet (texts ++ more) = textTo outlet texts ++ textTo outlet more :=
  List.flatMap_append

theorem textTo_singleton (outlet : Outlet) (text : Bytes) :
    textTo outlet [(outlet, text)] = text := by
  simp [textTo]

theorem textTo_singleton_of_ne {target outlet : Outlet} (text : Bytes) (h : target ≠ outlet) :
    textTo outlet [(target, text)] = [] := by
  simp [textTo, h]

theorem destination_append (past : List Event) (event : Event) :
    destination (past ++ [event]) =
      match event with
      | .opened target => target
      | .refused _ | .closed => .errors
      | _ => destination past := by
  rw [destination, List.reverse_append, List.reverse_singleton, List.singleton_append,
    List.find?_cons]
  cases event <;> rfl

theorem levelOf_append (past : List Event) (event : Event) :
    levelOf (past ++ [event]) =
      match event with
      | .level level => level
      | _ => levelOf past := by
  rw [levelOf, List.reverse_append, List.reverse_singleton, List.singleton_append, List.find?_cons]
  cases event <;> rfl

/-! ## Files that grow -/

/-- A place in a tree before and after `extra` was appended to it; a file may be new. -/
inductive Grows (extra : Bytes) : Option Entry → Option Entry → Prop
  | standing (entry : Entry) : Grows extra (some entry) (some (entry.grown extra))
  | created : Grows extra none (some (.file extra))
  | absent : extra = [] → Grows extra none none

namespace Grows

variable {extra : Bytes} {before now : Option Entry}

theorem append (h : Grows extra before now) (there : now ≠ none) (more : Bytes) :
    Grows (extra ++ more) before (now.map (Entry.grown more)) := by
  cases h with
  | standing entry =>
      rw [Option.map_some, Entry.grown_grown]
      exact .standing entry
  | created => exact .created
  | absent => exact absurd rfl there

theorem of_some {entry : Entry} (h : Grows extra (some entry) now) :
    now = some (entry.grown extra) := by
  cases h with
  | standing => rfl

theorem of_new (h : Grows extra none now) :
    now = some (.file extra) ∨ now = none ∧ extra = [] := by
  cases h with
  | created => exact .inl rfl
  | absent silent => exact .inr ⟨rfl, silent⟩

theorem of_none (h : Grows extra before none) : before = none ∧ extra = [] := by
  cases h with
  | absent silent => exact ⟨rfl, silent⟩

theorem outletAt_eq {tree tree' : FileTree} {location : Location}
    (h : Grows extra (tree.entry? location) (tree'.entry? location)) :
    outletAt tree' (.file location) = outletAt tree (.file location) := by
  rw [outletAt, outletAt]
  generalize tree.entry? location = before at h
  generalize tree'.entry? location = now at h
  cases h with
  | standing entry => cases entry <;> rfl
  | created | absent => rfl

end Grows

structure Shown (tree : FileTree) (texts : List (Outlet × Bytes)) (c : Console) : Prop where
  written : (c.written.reverse.filter fun entry => entry.2 ≠ []) =
    texts.map fun entry => (outletAt tree entry.1, entry.2)
  files : ∀ location, Grows (textTo (.file location) texts) (tree.entry? location)
    (c.tree.entry? location)

namespace Shown

variable {tree : FileTree} {texts : List (Outlet × Bytes)} {c : Console}

theorem nil (tree : FileTree) : Shown tree [] { tree } where
  written := rfl
  files location := by
    change Grows [] (tree.entry? location) (tree.entry? location)
    cases tree.entry? location with
    | none => exact .absent rfl
    | some entry =>
        have same := @Grows.standing [] entry
        rwa [Entry.grown_nil] at same

theorem outletAt_eq (h : Shown tree texts c) (outlet : Outlet) :
    outletAt c.tree outlet = outletAt tree outlet := by
  cases outlet with
  | output | errors => rfl
  | file location => exact (h.files location).outletAt_eq

theorem write (h : Shown tree texts c) {outlet : Outlet} {text : Bytes} (nonempty : text ≠ [])
    (standing : ∀ location, outlet = .file location → c.tree.entry? location ≠ none) :
    Shown tree (texts ++ [(outlet, text)]) (c.write outlet text) where
  written := by
    change ((_ :: c.written).reverse.filter _) = _
    rw [List.reverse_cons, List.filter_append, h.written, h.outletAt_eq, List.map_append]
    simp [nonempty]
  files location := by
    rw [textTo_append]
    cases outlet with
    | output | errors =>
        rw [textTo_singleton_of_ne _ (by simp), List.append_nil]
        exact h.files location
    | file target =>
        change Grows _ _ (FileTree.entry? (c.tree.append target text) location)
        rw [FileTree.entry?_append]
        by_cases same : location = target
        · subst same
          rw [if_pos rfl, textTo_singleton]
          exact (h.files location).append (standing location rfl) text
        · rw [if_neg same, textTo_singleton_of_ne _ (by simpa using Ne.symm same), List.append_nil]
          exact h.files location

theorem closeLog (h : Shown tree texts c) : Shown tree texts c.closeLog := ⟨h.written, h.files⟩

theorem opens (h : Shown tree texts c) {location : Location} {grown : FileTree}
    (opened : c.tree.Opens location grown) :
    Shown tree texts
      ({ c with tree := grown, log := .file location }.write (.file location) []) where
  written := by
    change ((_ :: c.written).reverse.filter _) = _
    rw [List.reverse_cons, List.filter_append, h.written]
    simp
  files other := by
    change Grows _ _ (FileTree.entry? (grown.append location []) other)
    rw [FileTree.entry?_append_nil]
    cases opened with
    | there => exact h.files other
    | created hroot absent =>
        rw [FileTree.entry?_put _ hroot]
        split
        case isFalse => exact h.files other
        case isTrue here =>
          obtain ⟨before, silent⟩ := ((here ▸ absent) ▸ h.files other).of_none
          rw [before, silent]
          exact .created

end Shown

theorem render_ne_nil (line : Line) : line.render ≠ [] := by
  simp [Line.render]

theorem openFault_ne_nil (path : Bytes) (reason : PathFault) : openFault path reason ≠ [] := by
  have begins : Bytes.ofString "error opening trace log file: " ≠ [] := by decide +kernel
  simp [openFault, begins]

/-! ## Runs -/

structure Follows (tree : FileTree) (past : List Event) (c : Console) : Prop where
  level : c.level = levelOf past
  log : c.log = destination past
  standing : ∀ location, c.log = .file location → c.tree.entry? location ≠ none
  shown : Shown tree (writings [] past) c

theorem follows_nil (tree : FileTree) : Follows tree [] { tree } :=
  ⟨rfl, rfl, nofun, .nil tree⟩

namespace Follows

variable {tree : FileTree} {past : List Event} {c : Console}

theorem trace (h : Follows tree past c) (line : Line) :
    Follows tree (past ++ [.line line]) (c.trace line) where
  level := by rw [level_trace, levelOf_append, h.level]
  log := by rw [log_trace, destination_append, h.log]
  standing location log := by
    rw [log_trace] at log
    have there := h.standing location log
    rcases c.tree_trace line with kept | ⟨other, grown⟩
    · rwa [kept]
    · rw [grown]
      exact FileTree.standing_append there other _
  shown := by
    rw [writings_append_singleton, List.nil_append, writing, Console.trace, ← h.level, ← h.log]
    split
    case isTrue => exact h.shown.write (render_ne_nil line) h.standing
    case isFalse =>
      rw [Option.toList_none, List.append_nil]
      exact h.shown

theorem shown_silent (h : Follows tree past c) (event : Event)
    (silent : writing past event = none) :
    Shown tree (writings [] (past ++ [event])) c := by
  rw [writings_append_singleton, List.nil_append, silent, Option.toList_none, List.append_nil]
  exact h.shown

theorem direct (h : Follows tree past c) {outlet : Outlet} {event : Event}
    (silent : writing past event = none) (level : levelOf (past ++ [event]) = levelOf past)
    (log : destination (past ++ [event]) = outlet)
    (standing : ∀ location, outlet = .file location → c.tree.entry? location ≠ none) :
    Follows tree (past ++ [event]) { c with log := outlet } :=
  ⟨h.level.trans level.symm, log.symm, standing, (h.shown_silent event silent).written,
    (h.shown_silent event silent).files⟩

theorem openLog (h : Follows tree past c) (path : Bytes) :
    (c.openLog path).1 = (eventOf c.tree (.openLog path)).succeeds ∧
      Follows tree (past ++ [eventOf c.tree (.openLog path)]) (c.openLog path).2 := by
  rw [Console.openLog, eventOf, targetOf]
  by_cases out : path = Bytes.ofString "/dev/stdout"
  · rw [if_pos out, if_pos out]
    exact ⟨rfl, h.direct rfl (levelOf_append ..) (destination_append ..)
        fun _ log => Outlet.noConfusion log⟩
  rw [if_neg out, if_neg out]
  by_cases err : path = Bytes.ofString "/dev/stderr"
  · rw [if_pos err, if_pos err]
    exact ⟨rfl, h.direct rfl (levelOf_append ..) (destination_append ..)
        fun _ log => Outlet.noConfusion log⟩
  rw [if_neg err, if_neg err]
  have tree_eq : c.closeLog.tree = c.tree := rfl
  rw [tree_eq]
  cases found : c.tree.openAppend path.beforeNul with
  | error reason =>
      have told : writing past (.refused (openFault path reason)) =
          some (.errors, openFault path reason) := rfl
      have shown : Shown tree (writings [] (past ++ [.refused (openFault path reason)]))
          (c.closeLog.printError (openFault path reason)) := by
        rw [writings_append_singleton, List.nil_append, told]
        exact h.shown.closeLog.write (openFault_ne_nil path reason)
          fun _ log => Outlet.noConfusion log
      exact ⟨rfl, h.level.trans (levelOf_append past (.refused _)).symm,
        (destination_append past (.refused _)).symm, fun _ log => Outlet.noConfusion log, shown⟩
  | ok opened =>
      obtain ⟨location, grown⟩ := opened
      have opens := FileTree.openAppend_opens found
      have shown := (h.shown_silent (.opened (.file location)) rfl).opens opens
      refine ⟨rfl, h.level.trans (levelOf_append past (.opened _)).symm,
        (destination_append past (.opened _)).symm, ?_, shown.written, shown.files⟩
      rintro _ ⟨rfl⟩
      exact FileTree.standing_append opens.standing _ _

theorem perform (h : Follows tree past c) (command : Command) :
    (c.perform command).1 = (eventOf c.tree command).succeeds ∧
      Follows tree (past ++ [eventOf c.tree command]) (c.perform command).2 := by
  cases command with
  | setLevel level =>
      have shown := h.shown_silent (.level level) rfl
      exact ⟨rfl, (levelOf_append past (.level level)).symm,
        h.log.trans (destination_append past (.level level)).symm, h.standing,
        shown.written, shown.files⟩
  | openLog path => exact h.openLog path
  | closeLog => exact ⟨rfl, h.direct rfl (levelOf_append ..) (destination_append ..)
        fun _ log => Outlet.noConfusion log⟩
  | emit severity message => exact ⟨rfl, h.trace _⟩
  | fail message =>
      obtain ⟨level, log, standing, written, files⟩ :=
        h.trace { severity := .error, text := message.beforeNul }
      exact ⟨rfl, level, log, standing, written, files⟩

theorem after (h : Follows tree past c) (commands : List Command) :
    c.statuses commands = (c.events commands).map Event.succeeds ∧
      Follows tree (past ++ c.events commands) (c.after commands) := by
  induction commands generalizing past c with
  | nil =>
      rw [events, List.append_nil]
      exact ⟨rfl, h⟩
  | cons command rest ih =>
      obtain ⟨status, next⟩ := h.perform command
      obtain ⟨statuses, last⟩ := ih next
      rw [Console.statuses, events, status, statuses, List.append_cons]
      exact ⟨rfl, last⟩

end Follows

end Console

end PieceLedger
