import GibbsNewton.Text.Quoted

/-!
# Choices by name

Methods, schemes and formats are chosen by name.  A name that none of them has is answered with
what was to be chosen, the name given, and the names on offer.

## Main definitions

* `UnknownName` — a name that stands for nothing, and its message.
-/

namespace GibbsNewton

/-- A name that stands for none of the things on offer. -/
structure UnknownName where
  /-- What was to be chosen. -/
  kind : String
  /-- The name given. -/
  given : String
  /-- The names on offer. -/
  available : List String
  deriving DecidableEq, Repr

/-- The message about an unknown name. -/
def UnknownName.message (e : UnknownName) : String :=
  "Unknown " ++ e.kind ++ ": " ++ Quoted.quote e.given ++ ". Available: " ++
    Quoted.quoteList e.available

end GibbsNewton
