/-! Sorted lists.

`insert` and `ofList` keep each element once, so two lists with the same elements
have the same sorted form; `sort` keeps repetitions. Both put an element at its
place by `compare`. -/
namespace HornReasoner.Sorted

variable {α : Type} [Ord α]

/-- Puts `a` at its place unless it is there already. -/
def insert (a : α) : List α → List α
  | [] => [a]
  | b :: rest =>
    match compare a b with
    | .lt => a :: b :: rest
    | .eq => b :: rest
    | .gt => b :: insert a rest

/-- The elements of a list in order, each once. -/
def ofList (as : List α) : List α := as.foldr insert []

/-- Puts `a` before the first element that is not smaller. -/
def place (a : α) : List α → List α
  | [] => [a]
  | b :: rest =>
    match compare a b with
    | .gt => b :: place a rest
    | _ => a :: b :: rest

/-- The elements of a list in order, repetitions kept. -/
def sort (as : List α) : List α := as.foldr place []

theorem mem_insert [Std.LawfulEqOrd α] (a x : α) (as : List α) :
    x ∈ insert a as ↔ x = a ∨ x ∈ as := by
  induction as with
  | nil => simp [insert]
  | cons b rest ih =>
    simp only [insert]
    split
    · simp
    · rename_i h
      have := Std.LawfulEqOrd.eq_of_compare h
      subst this
      simp
    · simp only [List.mem_cons, ih]
      grind

theorem mem_ofList [Std.LawfulEqOrd α] (x : α) (as : List α) : x ∈ ofList as ↔ x ∈ as := by
  induction as with
  | nil => simp [ofList]
  | cons a rest ih =>
    show x ∈ insert a (ofList rest) ↔ _
    rw [mem_insert, ih, List.mem_cons]

/-- Sorting moves elements and changes none. -/
theorem sort_perm (as : List α) : (sort as).Perm as := by
  have place_perm : ∀ (a : α) (bs : List α), (place a bs).Perm (a :: bs) := by
    intro a bs
    induction bs with
    | nil => exact .refl _
    | cons b rest ih =>
      simp only [place]
      split
      · exact (ih.cons b).trans (.swap a b rest)
      · exact .refl _
  induction as with
  | nil => exact .refl _
  | cons a rest ih => exact (place_perm a (sort rest)).trans (ih.cons a)

end HornReasoner.Sorted
