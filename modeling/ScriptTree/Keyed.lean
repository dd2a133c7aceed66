/-!
# Entries by key

Lists of key and value pairs, in the order in which the keys were first given. `put` sets one
entry: a new key goes to the end, a key that is already there keeps its place and takes the new
value. `ofList` and `sortedOfList` collapse the repeated keys of a list, the first in the order of
first mention and the second in the order of the keys; in both the last value of a key counts.
-/
namespace ScriptTree.Keyed

variable {κ α : Type} [DecidableEq κ]

/-- Sets the value of a key. -/
def put (key : κ) (value : α) : List (κ × α) → List (κ × α)
  | [] => [(key, value)]
  | (k, v) :: rest => if k = key then (k, value) :: rest else (k, v) :: put key value rest

/-- The entries of a list with repeated keys collapsed, in order of first mention. -/
def ofList (entries : List (κ × α)) : List (κ × α) :=
  entries.foldl (fun acc e => put e.1 e.2 acc) []

/-- Sets the value of a key in a list that ascends by key. -/
def putSorted [LT κ] [DecidableLT κ] (key : κ) (value : α) : List (κ × α) → List (κ × α)
  | [] => [(key, value)]
  | (k, v) :: rest =>
    if k = key then (k, value) :: rest
    else if key < k then (key, value) :: (k, v) :: rest
    else (k, v) :: putSorted key value rest

/-- The entries of a list with repeated keys collapsed, in ascending order of the keys. -/
def sortedOfList [LT κ] [DecidableLT κ] (entries : List (κ × α)) : List (κ × α) :=
  entries.foldl (fun acc e => putSorted e.1 e.2 acc) []

theorem keys_put (key : κ) (value : α) (entries : List (κ × α)) :
    (put key value entries).map Prod.fst =
      if key ∈ entries.map Prod.fst then entries.map Prod.fst
      else entries.map Prod.fst ++ [key] := by
  induction entries with
  | nil => rfl
  | cons e rest ih =>
    obtain ⟨k, v⟩ := e
    by_cases hk : k = key
    · simp [put, hk]
    · have hk' : ¬ key = k := fun h => hk h.symm
      simp only [put, hk, if_false, List.map_cons, ih, List.mem_cons, hk', false_or]
      split <;> rfl

/-- The value that a key was last set to is the one that it has. -/
theorem lookup_put (key other : κ) (value : α) (entries : List (κ × α)) :
    (put key value entries).lookup other =
      if other = key then some value else entries.lookup other := by
  have cons (k : κ) (v : α) (rest : List (κ × α)) :
      ((k, v) :: rest).lookup other = if other = k then some v else rest.lookup other := by
    by_cases h : other = k
    · simp [h]
    · simp [List.lookup_cons, h, beq_false_of_ne h]
  induction entries with
  | nil => exact cons key value []
  | cons e rest ih =>
    obtain ⟨k, v⟩ := e
    by_cases hk : k = key
    · rw [put, if_pos hk, cons, cons, hk]
      split <;> rfl
    · rw [put, if_neg hk, cons, cons, ih]
      split
      · next ho => rw [if_neg fun h => hk (ho ▸ h)]
      · rfl

end ScriptTree.Keyed
