/-!
# Runs between separators

A list cut at the elements that satisfy a test.  There is one more run than there are separators,
and the runs with the separators between them are the list again.
-/

namespace TagLang

/-- The runs of elements between those that satisfy `p`. -/
def runs (p : α → Bool) : List α → List (List α)
  | [] => [[]]
  | a :: rest =>
    if p a then [] :: runs p rest
    else
      match runs p rest with
      | [] => [[a]]
      | run :: more => (a :: run) :: more

theorem runs_ne_nil (p : α → Bool) (as : List α) : runs p as ≠ [] := by
  cases as with
  | nil => simp [runs]
  | cons a rest => grind [runs]

/-- A list without separators is one run. -/
theorem runs_of_forall {p : α → Bool} {as : List α} (h : ∀ a ∈ as, p a = false) :
    runs p as = [as] := by
  induction as with
  | nil => rfl
  | cons a as ih =>
    have ha : p a = false := h a (List.mem_cons_self ..)
    simp [runs, ha, ih fun b hb => h b (List.mem_cons_of_mem _ hb)]

/-- The first run ends at the first separator. -/
theorem runs_append {p : α → Bool} {as : List α} (h : ∀ a ∈ as, p a = false) {c : α}
    (hc : p c = true) (rest : List α) : runs p (as ++ c :: rest) = as :: runs p rest := by
  induction as with
  | nil => simp [runs, hc]
  | cons a as ih =>
    have ha : p a = false := h a (List.mem_cons_self ..)
    simp [runs, ha, ih fun b hb => h b (List.mem_cons_of_mem _ hb)]

end TagLang
