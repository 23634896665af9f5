/-! Finite maps kept in key order.

A map is its list of entries, strictly increasing in the key, so equal maps are
equal lists: no map has two forms. -/
namespace HornReasoner

structure SortedMap (κ α : Type) [Ord κ] where
  toList : List (κ × α)
  sorted : toList.Pairwise fun a b => compare a.1 b.1 = .lt
deriving DecidableEq

namespace SortedMap

variable {κ α : Type} [Ord κ]

protected def empty : SortedMap κ α := ⟨[], .nil⟩

instance : EmptyCollection (SortedMap κ α) := ⟨.empty⟩

instance : Inhabited (SortedMap κ α) := ⟨.empty⟩

def keys (m : SortedMap κ α) : List κ := m.toList.map Prod.fst

def size (m : SortedMap κ α) : Nat := m.toList.length

def isEmpty (m : SortedMap κ α) : Bool := m.toList.isEmpty

/-- The value of the first entry whose key compares equal. -/
def lookup (k : κ) : List (κ × α) → Option α
  | [] => none
  | (j, a) :: rest => if compare k j = .eq then some a else lookup k rest

def get? (m : SortedMap κ α) (k : κ) : Option α := lookup k m.toList

def contains (m : SortedMap κ α) (k : κ) : Bool := (m.get? k).isSome

/-- Puts the entry at its place. `merge old new` is the value where the key has one
already. -/
def put (merge : α → α → α) (k : κ) (a : α) : List (κ × α) → List (κ × α)
  | [] => [(k, a)]
  | (j, b) :: rest =>
    match compare k j with
    | .lt => (k, a) :: (j, b) :: rest
    | .eq => (j, merge b a) :: rest
    | .gt => (j, b) :: put merge k a rest

theorem fst_of_mem_put (merge : α → α → α) (k : κ) (a : α) (es : List (κ × α)) (e : κ × α)
    (h : e ∈ put merge k a es) : e.1 = k ∨ ∃ d ∈ es, e.1 = d.1 := by
  induction es with
  | nil => simp only [put, List.mem_singleton] at h; exact .inl (h ▸ rfl)
  | cons d rest ih =>
    obtain ⟨j, b⟩ := d
    simp only [put] at h
    split at h
    · rcases List.mem_cons.mp h with rfl | h
      · exact .inl rfl
      · exact .inr ⟨e, h, rfl⟩
    · rcases List.mem_cons.mp h with rfl | h
      · exact .inr ⟨_, List.mem_cons_self .., rfl⟩
      · exact .inr ⟨e, List.mem_cons_of_mem _ h, rfl⟩
    · rcases List.mem_cons.mp h with rfl | h
      · exact .inr ⟨_, List.mem_cons_self .., rfl⟩
      · rcases ih h with h | ⟨d, hd, he⟩
        · exact .inl h
        · exact .inr ⟨d, List.mem_cons_of_mem _ hd, he⟩

theorem sorted_put [Std.TransOrd κ] (merge : α → α → α) (k : κ) (a : α) (es : List (κ × α))
    (h : es.Pairwise fun a b => compare a.1 b.1 = .lt) :
    (put merge k a es).Pairwise fun a b => compare a.1 b.1 = .lt := by
  induction es with
  | nil => simp [put]
  | cons d rest ih =>
    obtain ⟨j, b⟩ := d
    obtain ⟨hj, hrest⟩ := List.pairwise_cons.mp h
    simp only [put]
    split
    · rename_i hlt
      refine List.pairwise_cons.mpr ⟨fun e he => ?_, h⟩
      rcases List.mem_cons.mp he with rfl | he
      · exact hlt
      · exact Std.TransCmp.lt_trans hlt (hj e he)
    · exact List.pairwise_cons.mpr ⟨hj, hrest⟩
    · rename_i hgt
      refine List.pairwise_cons.mpr ⟨fun e he => ?_, ih hrest⟩
      rcases fst_of_mem_put merge k a rest e he with hk | ⟨d, hd, hk⟩
      · show compare j e.1 = .lt
        rw [hk]
        exact Std.OrientedCmp.lt_of_gt hgt
      · show compare j e.1 = .lt
        rw [hk]
        exact hj d hd

variable [Std.TransOrd κ]

/-- The value replaces an earlier one. -/
def insert (m : SortedMap κ α) (k : κ) (a : α) : SortedMap κ α :=
  ⟨put (fun _ new => new) k a m.toList, sorted_put _ k a _ m.sorted⟩

/-- An earlier value stays. -/
def insertIfNew (m : SortedMap κ α) (k : κ) (a : α) : SortedMap κ α :=
  ⟨put (fun old _ => old) k a m.toList, sorted_put _ k a _ m.sorted⟩

/-- Adds entries in turn; the last value of a key counts. -/
def insertAll (m : SortedMap κ α) (es : List (κ × α)) : SortedMap κ α :=
  es.foldl (fun m e => m.insert e.1 e.2) m

/-- Adds entries in turn; the first value of a key counts. -/
def insertAllIfNew (m : SortedMap κ α) (es : List (κ × α)) : SortedMap κ α :=
  es.foldl (fun m e => m.insertIfNew e.1 e.2) m

def ofList (es : List (κ × α)) : SortedMap κ α := (∅ : SortedMap κ α).insertAll es

end SortedMap

end HornReasoner
