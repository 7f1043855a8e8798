import RecordPath.Query.Basic

namespace RecordPath

/-- A name or a dot needs a slash before it, unless the step before it ends in one. -/
def Step.separator : Option Step → String
  | some (.field _) | some (.key _) | some .self => "/"
  | some .root | some .descend | none => ""

/-- The text of a step after another one. A blank keeps the slash of the root apart from the two
of a descent. -/
def Step.textAfter (previous : Option Step) : Step → String
  | .root => "/"
  | .descend => (match previous with | some .root => " " | _ => "") ++ "//"
  | .field name => separator previous ++ name
  | .key expr => "[" ++ expr.text ++ "]"
  | .self => separator previous ++ "."

def Path.textAfter (previous : Option Step) : List Step → String
  | [] => ""
  | s :: steps => s.textAfter previous ++ textAfter (some s) steps

def Path.text (p : Path) : String := textAfter none p.steps

def Query.text (q : Query) : String := " | ".intercalate (q.branches.map Path.text)

end RecordPath
