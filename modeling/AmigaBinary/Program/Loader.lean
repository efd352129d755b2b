/-!
# Loader families

A compiled program starts with the loader of one of two compiler generations.
-/

namespace AmigaBinary

/-- A family of program loaders. -/
inductive Loader where
  /-- The compiler of the first releases. -/
  | classic
  /-- The professional compiler. -/
  | pro
  deriving DecidableEq, Repr

namespace Loader

/-- The name of a family in texts. -/
def title : Loader → String
  | .classic => "Classic"
  | .pro => "Pro"

/-- The name of a family in records. -/
def identifier : Loader → String
  | .classic => "classic"
  | .pro => "pro"

end Loader

end AmigaBinary
