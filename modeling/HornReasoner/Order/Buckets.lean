/-! Lists filed under keys.

Each key has one bucket, which keeps its items in the order in which they came; the
buckets stand in the order of their first items. -/
namespace HornReasoner

abbrev Buckets (κ α : Type) := List (κ × List α)

namespace Buckets

variable {κ α : Type} [DecidableEq κ]

/-- The items filed under `k`, none if there is no bucket. -/
def find (k : κ) : Buckets κ α → List α
  | [] => []
  | (j, as) :: rest => if k = j then as else find k rest

/-- Files `a` under `k` behind the items there. -/
def add (k : κ) (a : α) : Buckets κ α → Buckets κ α
  | [] => [(k, [a])]
  | (j, as) :: rest => if k = j then (j, as ++ [a]) :: rest else (j, as) :: add k a rest

def has (k : κ) (b : Buckets κ α) : Bool := b.any fun e => k = e.1

/-- The number of items in all buckets. -/
def size : Buckets κ α → Nat
  | [] => 0
  | (_, as) :: rest => as.length + size rest

theorem find_add (k j : κ) (a : α) (b : Buckets κ α) :
    find j (add k a b) = if j = k then find j b ++ [a] else find j b := by
  induction b with
  | nil => by_cases h : j = k <;> simp [add, find, h]
  | cons e rest ih =>
    obtain ⟨i, as⟩ := e
    by_cases hk : k = i
    · subst hk
      by_cases hj : j = k <;> simp [add, find, hj]
    · by_cases hj : j = i
      · subst hj
        simp [add, find, hk, Ne.symm hk]
      · simp [add, find, hk, hj, ih]

theorem size_add (k : κ) (a : α) (b : Buckets κ α) : size (add k a b) = size b + 1 := by
  induction b with
  | nil => simp [add, size]
  | cons e rest ih =>
    obtain ⟨i, as⟩ := e
    by_cases hk : k = i
    · simp [add, size, hk]; omega
    · simp [add, size, hk, ih]; omega

end Buckets

end HornReasoner
