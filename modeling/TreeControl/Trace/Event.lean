import TreeControl.Precedence

/-! # Events

What the construction of a table and a parse report about their progress.  An event keeps the
data it speaks of; `Event.message` is its wording and `Event.severity` its weight. -/

namespace TreeControl

/-- The weight of an event, heaviest first. -/
inductive Severity where
  | warn
  | debug
  | trace
  deriving DecidableEq, Repr

/-- The word in front of a message. -/
def Severity.text : Severity → String
  | warn => "WARN"
  | debug => "DEBUG"
  | trace => "TRACE"

/-- Whether a severity is listed when everything down to a threshold is. -/
def Severity.within : (severity threshold : Severity) → Bool
  | warn, _ => true
  | debug, threshold => threshold != warn
  | trace, threshold => threshold == trace

/-- Something worth reporting. -/
inductive Event where
  /-- The moves that read nothing were removed. -/
  | droppedEpsilon (states : Nat)
  /-- An automaton was made deterministic. -/
  | determinized (before after : Nat)
  /-- A group of items was found. -/
  | groupFound (index : Nat)
  /-- All groups were found. -/
  | groupsFound (groups rules : Nat)
  /-- Emptiness and first symbols are known. -/
  | firstKnown (passes : Nat)
  /-- Following symbols are known. -/
  | followKnown (passes : Nat)
  /-- A cell with a shift and a reduction was kept. -/
  | keptShiftReduce (state : Nat) (symbol : Symbol) (target : Nat) (rule : String)
  /-- A cell with two reductions was kept. -/
  | keptReduceReduce (state : Nat) (symbol : Symbol) (first second : String)
  /-- The parser looks at its state and the next token. -/
  | looking (state : Nat) (lookahead : Symbol)
  /-- A token was shifted. -/
  | shifted (token : Symbol) (target : Nat)
  /-- A rule was reduced on the stack. -/
  | reduced (rule : String) (target : Nat)
  /-- Subtrees were merged by a rule. -/
  | merged (rule : String) (depth : Nat)
  /-- Precedence compared two symbols. -/
  | compared (onStack lookahead : Symbol) (verdict : Verdict)
  /-- The levels speak against a rule. -/
  | ruledOut (rule reason : String)
  /-- The input was accepted. -/
  | accepted
  deriving DecidableEq, Repr

namespace Event

/-- The weight of an event. -/
def severity : Event → Severity
  | keptShiftReduce .. | keptReduceReduce .. => .warn
  | groupsFound .. | firstKnown .. | followKnown .. => .debug
  | _ => .trace

/-- The wording of an event. -/
def message : Event → String
  | droppedEpsilon n => s!"dropped epsilon rules from {n} states"
  | determinized n m => s!"determinized automaton: {n} states -> {m} states"
  | groupFound i => s!"discovered group {i}"
  | groupsFound n m => s!"{n} groups for {m} rules"
  | firstKnown n => s!"empty/first converged after {n} passes"
  | followKnown n => s!"follow converged after {n} passes"
  | keptShiftReduce q s t r =>
    s!"tolerating shift/reduce conflict in state {q} on {s.quoted}: shift to {t} or reduce by {r}"
  | keptReduceReduce q s r r2 =>
    s!"tolerating reduce/reduce conflict in state {q} on {s.quoted}: {r} or {r2}"
  | looking q s => s!"state {q}, lookahead {s.quoted}"
  | shifted s t => s!"{s.quoted} -> shift {t}"
  | reduced r t => s!"{r} -> reduce, goto {t}"
  | merged r d => s!"reduced by {r} into a subtree of depth {d}"
  | compared s t v => s!"precedence of {s.quoted} against {t.quoted}: {v.text}"
  | ruledOut r why => s!"{r} rejected: {why}"
  | accepted => "accept"

/-- An event as a line of a log. -/
def line (e : Event) : String := e.severity.text ++ " " ++ e.message

/-- The lines of a log that lists everything down to a threshold. -/
def lines (threshold : Severity) (events : List Event) : List String :=
  (events.filter (·.severity.within threshold)).map line

end Event

end TreeControl
