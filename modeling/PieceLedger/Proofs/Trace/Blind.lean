import PieceLedger.Trace

/-!
# Actions that do not look at the level

An action that traces is given the log with its level.  It is blind if it goes
on in the same way whatever the level and whatever was written before: then it
gives one answer, and of its lines a level writes those that it admits.

What keeps an action blind is that it is a script: a sequence of steps that
trace marked lines, each chosen by the answers before it and by nothing else.
That an action is a script is shown branch by branch.
-/

namespace PieceLedger.Trace

/-! ## Logs -/

namespace Log

theorem traceAll_append (log : Log) (lines more : List Line) :
    log.traceAll (lines ++ more) = (log.traceAll lines).traceAll more := List.foldl_append

theorem traceAll_eq (log : Log) (lines : List Line) :
    log.traceAll lines =
      { log with lines := (admitted log.level lines).reverse ++ log.lines } := by
  induction lines generalizing log with
  | nil => rfl
  | cons line rest ih =>
      refine (ih (log.trace line)).trans ?_
      rw [trace, admitted, admitted, List.filter_cons]
      split
      case isTrue => simp only [List.reverse_cons, List.append_assoc, List.singleton_append]
      case isFalse => rfl

end Log

theorem admitted_all (lines : List Line) : admitted Severity.all.rank lines = lines := by
  refine List.filter_eq_self.mpr fun line _ => ?_
  cases line.severity <;> rfl

theorem filter_admitted {low high : Nat} (ordered : low ≤ high) (lines : List Line) :
    ((admitted high lines).filter fun line => line.severity.rank ≤ low) = admitted low lines := by
  rw [admitted, admitted, List.filter_filter]
  apply List.filter_congr
  intro line _
  rw [Bool.eq_iff_iff]
  simp only [admits, Bool.and_eq_true, decide_eq_true_eq]
  omega

/-! ## Actions -/

variable {α β : Type} {action : Traced α} {next : α → Traced β} {a : α} {b : β}
  {lines more : List Line}

/-- The action gives `a` and traces `lines`, in any log. -/
def Tells (action : Traced α) (a : α) (lines : List Line) : Prop :=
  ∀ log : Log, action.run log = (a, log.traceAll lines)

def Blind (action : Traced α) : Prop := Tells action action.result action.lines

namespace Tells

theorem runAt_eq (h : Tells action a lines) (level : Nat) :
    action.runAt level = (a, admitted level lines) := by
  simp only [Traced.runAt, h { level }, Log.traceAll_eq, List.append_nil, List.reverse_reverse]

theorem result_eq (h : Tells action a lines) : action.result = a := by
  rw [Traced.result, h.runAt_eq]

theorem lines_eq (h : Tells action a lines) : action.lines = lines := by
  rw [Traced.lines, h.runAt_eq, admitted_all]

theorem blind (h : Tells action a lines) : Blind action := by
  rwa [Blind, h.result_eq, h.lines_eq]

theorem pure (a : α) : Tells (pure a) a [] := fun _ => rfl

theorem bind (first : Tells action a lines) (second : Tells (next a) b more) :
    Tells (action >>= next) b (lines ++ more) := by
  intro log
  rw [StateT.run_bind, first log, Log.traceAll_append]
  exact second _

theorem traceAll (lines : List Line) : Tells (Trace.traceAll lines) () lines := fun _ => rfl

theorem traced (line : Line) (a : α) : Tells (do trace line; return a) a [line] := fun _ => rfl

theorem tracedAll (lines : List Line) (a : α) :
    Tells (do Trace.traceAll lines; return a) a lines :=
  fun _ => rfl

end Tells

namespace Blind

theorem runAt_eq (h : Blind action) (level : Nat) :
    action.runAt level = (action.result, admitted level action.lines) :=
  Tells.runAt_eq h level

theorem bind (first : Blind action) (second : ∀ a, Blind (next a)) : Blind (action >>= next) :=
  (Tells.bind first (second _)).blind

theorem runAt_of_le (h : Blind action) {low high : Nat} (ordered : low ≤ high) :
    action.runAt low = ((action.runAt high).1,
      (action.runAt high).2.filter fun line => line.severity.rank ≤ low) := by
  rw [h.runAt_eq low, h.runAt_eq high, filter_admitted ordered]

end Blind

/-! ## Scripts -/

/-- The line carries a mark of the table. -/
def Line.Placed (line : Line) : Prop := line.mark.any (· ∈ Mark.every)

/-- An action that traces marked lines on its way and has no other dealings with the log. -/
inductive Scripted : {α : Type} → Traced α → Prop
  | pure {α : Type} (a : α) : Scripted (pure a)
  | traceAll {lines : List Line} (placed : ∀ line ∈ lines, line.Placed) :
      Scripted (traceAll lines)
  | bind {α β : Type} {action : Traced α} {next : α → Traced β} :
      Scripted action → (∀ a, Scripted (next a)) → Scripted (action >>= next)

namespace Scripted

theorem trace {line : Line} (placed : line.Placed) : Scripted (Trace.trace line) :=
  .traceAll (List.forall_mem_singleton.mpr placed)

theorem traced {line : Line} (placed : line.Placed) (a : α) :
    Scripted (do Trace.trace line; return a) :=
  (trace placed).bind fun _ => .pure a

theorem tracedAll {lines : List Line} (placed : ∀ line ∈ lines, line.Placed) (a : α) :
    Scripted (do Trace.traceAll lines; return a) :=
  (traceAll placed).bind fun _ => .pure a

theorem ite {other : Traced α} {c : Prop} [Decidable c] (whereTrue : Scripted action)
    (whereFalse : Scripted other) : Scripted (if c then action else other) := by
  split
  case isTrue => exact whereTrue
  case isFalse => exact whereFalse

theorem blind (h : Scripted action) : Blind action := by
  induction h with
  | pure a => exact (Tells.pure a).blind
  | traceAll => exact (Tells.traceAll _).blind
  | bind _ _ first second => exact first.bind second

theorem result_bind (first : Scripted action) (second : ∀ a, Scripted (next a)) :
    (action >>= next).result = (next action.result).result :=
  (Tells.bind first.blind (second _).blind).result_eq

theorem lines_bind (first : Scripted action) (second : ∀ a, Scripted (next a)) :
    (action >>= next).lines = action.lines ++ (next action.result).lines :=
  (Tells.bind first.blind (second _).blind).lines_eq

theorem placed (h : Scripted action) : ∀ line ∈ action.lines, line.Placed := by
  induction h with
  | pure a =>
      rw [(Tells.pure a).lines_eq]
      exact List.forall_mem_nil _
  | traceAll placed =>
      rw [(Tells.traceAll _).lines_eq]
      exact placed
  | bind whole rest first second =>
      rw [whole.lines_bind rest]
      exact List.forall_mem_append.mpr ⟨first, second _⟩

end Scripted

end PieceLedger.Trace
