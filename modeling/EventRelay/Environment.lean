/-!
# Environment variables

An environment gives each of its variables a text. `setDefault` gives a variable its text only when
it has none yet.
-/

namespace EventRelay

/-- The variables that are set, the first of a name counting. -/
abbrev Environment := List (String × String)

namespace Environment

/-- The text of a variable. -/
def get? (env : Environment) (name : String) : Option String :=
  (env.find? (·.1 = name)).map (·.2)

/-- Sets a variable that is not set. -/
def setDefault (env : Environment) (name value : String) : Environment :=
  if (env.get? name).isSome then env else env ++ [(name, value)]

@[simp] theorem get?_nil (name : String) : get? [] name = none := rfl

end Environment

end EventRelay
