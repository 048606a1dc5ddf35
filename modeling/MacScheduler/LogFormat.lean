/-!
# Log format

Log lines are readable text, or one JSON object each when the environment asks
for it.
-/

namespace MacScheduler

/-- Whether the text of an environment variable switches something on. -/
def isSwitchedOn (value : Option String) : Bool :=
  value.any fun s ↦ ["1", "true", "on", "yes"].contains s.toLower

/-- Whether log lines are JSON objects, given the value of the variable that
selects them. -/
def jsonLogLines (value : Option String) : Bool := isSwitchedOn value

end MacScheduler
