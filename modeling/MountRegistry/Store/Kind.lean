import MountRegistry.Text.Quoted

/-
  The two stores of a mount point: configuration and operational state.
-/

namespace MountRegistry

/-- The two kinds of stores that every mount point has. -/
inductive StoreKind where
  | configuration
  | operational
  deriving DecidableEq, Repr, Inhabited, Ord

namespace StoreKind

/-- Both kinds. -/
def all : List StoreKind := [.configuration, .operational]

/-- The name of the kind in requests and answers. -/
def name : StoreKind → String
  | .configuration => "config"
  | .operational => "operational"

/-- The ending of the names of stores of this kind. -/
def ending : StoreKind → String
  | .configuration => "DOM-CFG"
  | .operational => "DOM-OPER"

/-- The kind that goes by a name, short or long. -/
def parse? (text : String) : Option StoreKind :=
  if text = "config" ∨ text = "configuration" then some .configuration
  else if text = "operational" ∨ text = "oper" then some .operational
  else none

/-- The kind that goes by exactly this name. -/
def ofName? (text : String) : Option StoreKind := all.find? (·.name == text)

/-- What is said of a text that names no kind. -/
def unknownMessage (text : String) : String :=
  "unknown store kind " ++ Text.quote text ++ ", expected \"config\" or \"operational\""

end StoreKind

end MountRegistry
