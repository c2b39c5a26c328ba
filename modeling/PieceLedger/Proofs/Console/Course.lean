import PieceLedger.Console
import PieceLedger.Proofs.FileTree.Growth
import PieceLedger.Proofs.Trace.Blind

/-!
# The course of a console

`c.Prints texts d` says that a program went from the console `c` to `d` by
printing `texts` in order, with any number of traced lines before, between and
behind them.  Only the traced lines reach files, and only by appending to the
log.
-/

namespace PieceLedger.Console

open Trace

inductive Prints (c : Console) : List Bytes → Console → Prop
  | nil : Prints c [] c
  | text {texts : List Bytes} {d : Console} (text : Bytes) :
      Prints c texts d → Prints c (texts ++ [text]) (d.print text)
  | trace {texts : List Bytes} {d : Console} (line : Line) :
      Prints c texts d → Prints c texts (d.trace line)

namespace Prints

variable {c d e : Console} {texts more : List Bytes}

theorem trans (first : c.Prints texts d) (second : d.Prints more e) :
    c.Prints (texts ++ more) e := by
  induction second with
  | nil =>
      rw [List.append_nil]
      exact first
  | text text _ ih =>
      rw [← List.append_assoc]
      exact ih.text text
  | trace line _ ih => exact ih.trace line

theorem traceAll (h : c.Prints texts d) (lines : List Line) :
    c.Prints texts (d.traceAll lines) := by
  induction lines generalizing d with
  | nil => exact h
  | cons line rest ih => exact ih (h.trace line)

theorem preserves {P : Console → Prop} (h : c.Prints texts d)
    (hprint : ∀ e text, P e → P (e.print text)) (htrace : ∀ e line, P e → P (e.trace line))
    (start : P c) : P d := by
  induction h with
  | nil => exact start
  | text text _ ih => exact hprint _ text ih
  | trace line _ ih => exact htrace _ line ih

end Prints

def Remarks (c d : Console) : Prop :=
  ∃ lines : List Line, (∀ line ∈ lines, line.severity = .debug) ∧ d = c.traceAll lines

namespace Remarks

variable {c d e : Console}

theorem refl (c : Console) : c.Remarks c := ⟨[], nofun, rfl⟩

theorem trans (first : c.Remarks d) (second : d.Remarks e) : c.Remarks e := by
  obtain ⟨lines, debug, rfl⟩ := first
  obtain ⟨more, debug', rfl⟩ := second
  exact ⟨lines ++ more, List.forall_mem_append.mpr ⟨debug, debug'⟩, List.foldl_append.symm⟩

theorem prints (h : c.Remarks d) : c.Prints [] d := by
  obtain ⟨lines, -, rfl⟩ := h
  exact Prints.nil.traceAll lines

theorem traceIf (c : Console) (noted : Prop) [Decidable noted] {line : Line}
    (debug : line.severity = .debug) : c.Remarks (if noted then c.trace line else c) := by
  split
  case isTrue => exact ⟨[line], List.forall_mem_singleton.mpr debug, rfl⟩
  case isFalse => exact .refl c

end Remarks

/-! ## Files -/

theorem tree_trace (c : Console) (line : Line) :
    (c.trace line).tree = c.tree ∨
      ∃ location, (c.trace line).tree = c.tree.append location line.render := by
  rw [trace]
  split
  case isTrue =>
    cases hlog : c.log with
    | output | errors => exact .inl (by simp only [write])
    | file location => exact .inr ⟨location, by simp only [write]⟩
  case isFalse => exact .inl rfl

theorem tree_traceAll_congr {c d : Console} (tree : c.tree = d.tree) (level : c.level = d.level)
    (log : c.log = d.log) (lines : List Line) :
    (c.traceAll lines).tree = (d.traceAll lines).tree := by
  induction lines generalizing c d with
  | nil => exact tree
  | cons line rest ih =>
      refine ih ?_ ?_ ?_
      all_goals
        simp only [trace, level]
        split
      · simp only [write, tree, log]
      · exact tree
      · exact level
      · exact level
      · exact log
      · exact log

theorem log_trace (c : Console) (line : Line) : (c.trace line).log = c.log := by
  rw [trace]
  split <;> rfl

theorem traceAll_of_silent {c : Console} (silent : c.level = 0) (lines : List Line) :
    c.traceAll lines = c := by
  induction lines with
  | nil => rfl
  | cons line rest ih =>
      have unwritten : c.trace line = c := by
        rw [trace, silent, if_neg (by cases line.severity <;> decide)]
      rw [traceAll, List.foldl_cons, unwritten]
      exact ih

/-! ## What is traced -/

theorem outletAt_append (tree : FileTree) (location : Location) (extra : Bytes) (outlet : Outlet) :
    outletAt (tree.append location extra) outlet = outletAt tree outlet := by
  cases outlet with
  | output | errors => rfl
  | file other =>
      rw [outletAt, FileTree.entry?_append]
      by_cases same : other = location
      · rw [if_pos same, outletAt]
        cases tree.entry? other with
        | none => rfl
        | some entry => cases entry <;> rfl
      · rw [if_neg same, outletAt]

theorem outletAt_trace (c : Console) (line : Line) (outlet : Outlet) :
    outletAt (c.trace line).tree outlet = outletAt c.tree outlet := by
  rcases c.tree_trace line with kept | ⟨location, grown⟩
  · rw [kept]
  · rw [grown, outletAt_append]

theorem level_trace (c : Console) (line : Line) : (c.trace line).level = c.level := by
  rw [trace]
  split <;> rfl

theorem written_traceAll (c : Console) (lines : List Line) :
    (c.traceAll lines).written =
      ((admitted c.level lines).reverse.map fun line => (outletAt c.tree c.log, line.render)) ++
        c.written := by
  induction lines generalizing c with
  | nil => rfl
  | cons line rest ih =>
      refine (ih (c.trace line)).trans ?_
      rw [c.log_trace, c.level_trace, c.outletAt_trace, admitted, admitted, List.filter_cons, trace]
      split
      case isTrue => simp only [write, List.reverse_cons, List.map_append, List.append_assoc,
        List.map_singleton, List.singleton_append]
      case isFalse => rfl

theorem traceAll_eq_foldl (c : Console) (lines : List Line) :
    c.traceAll lines =
      (admitted c.level lines).foldl (fun c line => c.write c.log line.render) c := by
  induction lines generalizing c with
  | nil => rfl
  | cons line rest ih =>
      refine (ih (c.trace line)).trans ?_
      rw [c.level_trace, admitted, admitted, List.filter_cons, trace]
      split <;> rfl

/-- A blind action writes to the log what it would write at the highest level, as far as the
level of the console admits it. -/
theorem logging_of_blind {α : Type} {action : Traced α} (h : Blind action) (c : Console) :
    c.logging action = (action.result, c.traceAll action.lines) := by
  rw [logging, h.runAt_eq, traceAll_eq_foldl]

namespace Prints

variable {c d : Console} {texts : List Bytes}

theorem openRead_eq (h : c.Prints texts d) (path : Bytes) :
    d.tree.openRead path = c.tree.openRead path := by
  refine h.preserves (P := fun e => e.tree.openRead path = c.tree.openRead path) ?_ ?_ rfl
  · exact fun _ _ same => same
  · intro e line same
    rcases e.tree_trace line with kept | ⟨location, grown⟩
    · rw [kept, same]
    · rw [grown, FileTree.openRead_append, same]

theorem read_isOk_eq (h : c.Prints texts d) (location : Location) (offset wanted : Nat) :
    (d.tree.read location offset wanted).isOk = (c.tree.read location offset wanted).isOk := by
  refine h.preserves
    (P := fun e => (e.tree.read location offset wanted).isOk =
      (c.tree.read location offset wanted).isOk) ?_ ?_ rfl
  · exact fun _ _ same => same
  · intro e line same
    rcases e.tree_trace line with kept | ⟨log, grown⟩
    · rw [kept, same]
    · rw [grown, FileTree.read_append, same]

end Prints

/-! ## Standard output -/

/-- A text made of others in order, with traced lines before, between and behind them. -/
inductive Interleaved : List Bytes → Bytes → Prop
  | nil : Interleaved [] []
  | text {texts : List Bytes} {whole : Bytes} (text : Bytes) :
      Interleaved texts whole → Interleaved (texts ++ [text]) (whole ++ text)
  | line {texts : List Bytes} {whole : Bytes} (line : Line) :
      Interleaved texts whole → Interleaved texts (whole ++ line.render)

def Apart (c : Console) : Prop := c.level = 0 ∨ outletAt c.tree c.log ≠ .output

theorem textOf_write (c : Console) (target outlet : Outlet) (text : Bytes) :
    (c.write target text).textOf outlet =
      c.textOf outlet ++ if outletAt c.tree target = outlet then text else [] := by
  simp only [textOf, write, List.reverse_cons, List.flatMap_append, List.flatMap_singleton]

theorem textOf_print (c : Console) (text : Bytes) :
    (c.print text).textOf .output = c.textOf .output ++ text := by
  rw [print, textOf_write]
  rfl

theorem textOf_trace (c : Console) (line : Line) :
    (c.trace line).textOf .output = c.textOf .output ∨
      (c.trace line).textOf .output = c.textOf .output ++ line.render := by
  rw [trace]
  split
  case isTrue =>
    rw [textOf_write]
    split
    case isTrue => exact .inr rfl
    case isFalse => exact .inl (List.append_nil _)
  case isFalse => exact .inl rfl

theorem textOf_openLog {c d : Console} {path : Bytes} (h : c.openLog path = (true, d)) :
    d.textOf .output = c.textOf .output := by
  rw [openLog] at h
  split at h
  case isTrue =>
    cases h
    rfl
  case isFalse =>
    split at h
    case isTrue =>
      cases h
      rfl
    case isFalse =>
      split at h
      case h_1 => cases h
      case h_2 =>
        cases h
        rw [textOf_write, ite_self, List.append_nil]
        rfl

theorem Apart.textOf_trace {c : Console} (apart : c.Apart) (line : Line) :
    (c.trace line).textOf .output = c.textOf .output := by
  rw [trace]
  split
  case isTrue admitted =>
    rcases apart with silent | elsewhere
    · rw [silent] at admitted
      exact absurd admitted (by cases line.severity <;> decide)
    · rw [textOf_write, if_neg elsewhere, List.append_nil]
  case isFalse => rfl

namespace Prints

variable {c d : Console} {texts : List Bytes}

theorem textOf_output (h : c.Prints texts d) :
    ∃ whole, d.textOf .output = c.textOf .output ++ whole ∧ Interleaved texts whole := by
  induction h with
  | nil => exact ⟨[], (List.append_nil _).symm, .nil⟩
  | text text _ ih =>
      obtain ⟨whole, shown, interleaved⟩ := ih
      exact ⟨whole ++ text, by rw [textOf_print, shown, List.append_assoc],
        interleaved.text text⟩
  | @trace _ d line _ ih =>
      obtain ⟨whole, shown, interleaved⟩ := ih
      rcases d.textOf_trace line with same | more
      · exact ⟨whole, same.trans shown, interleaved⟩
      · refine ⟨whole ++ line.render, ?_, interleaved.line line⟩
        rw [more, shown, List.append_assoc]

theorem apart (h : c.Prints texts d) (apart : c.Apart) : d.Apart := by
  refine h.preserves (P := Apart) (fun _ _ kept => kept) (fun e line kept => ?_) apart
  rwa [Apart, e.level_trace, e.log_trace, e.outletAt_trace]

theorem textOf_output_of_apart (h : c.Prints texts d) (apart : c.Apart) :
    d.textOf .output = c.textOf .output ++ texts.flatten := by
  induction h with
  | nil => exact (List.append_nil _).symm
  | text text _ ih => rw [textOf_print, ih, List.flatten_append, List.append_assoc]; simp
  | @trace _ d line course ih => rw [(course.apart apart).textOf_trace, ih]

end Prints

end PieceLedger.Console
