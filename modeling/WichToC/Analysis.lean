import WichToC.Analysis.Typing
import WichToC.Script.Reader

/-!
# Analysis

Reading a script, declaring its names and typing it, one after the other.  All faults are collected;
the tree and the table can be used even when there are some.
-/

namespace WichToC

/-- A script after analysis. -/
structure Analysis where
  script : Script
  table : Table
  report : Report

namespace Analysis

/-- Declares and types a script that has been read. -/
def ofScript (script : Script) (report : Report) : Analysis :=
  let declared := Declare.script Table.initial script
  let typed := Typing.script declared.table declared.tree
  { script := typed.tree
    table := typed.table
    report := report.addAll (declared.faults ++ typed.faults) }

/-- Reads and analyses a text, adding to a report. -/
def ofSource (source : String) (report : Report) : Analysis :=
  let (script, report) := Script.read source report
  ofScript script report

end Analysis

end WichToC
