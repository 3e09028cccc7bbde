import Codemod.Report.Json

/-!
# Report Formats

The two forms in which a report is printed at the end of a run.

## Main definitions

* `ReportFormat`: Text or JSON.
* `Report.printed`: The printed messages of a report.
-/

namespace Codemod

/-- The form of a printed report. -/
inductive ReportFormat
  | text
  | json
deriving DecidableEq, Repr

def ReportFormat.name : ReportFormat → String
  | .text => "text"
  | .json => "json"

/-- The format of a name. Names are case sensitive. -/
def ReportFormat.ofName? (s : Text) : Option ReportFormat :=
  if s = "text".toList then some .text
  else if s = "json".toList then some .json
  else none

/-- What is printed of a report, message by message. -/
def Report.printed (r : Report) : ReportFormat → List String
  | .text => r.lines
  | .json => [r.json]

end Codemod
