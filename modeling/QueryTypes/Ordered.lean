namespace QueryTypes

def insertNew {α : Type} [DecidableEq α] (xs : List α) (x : α) : List α :=
  if x ∈ xs then xs else xs ++ [x]

def insertAll {α : Type} [DecidableEq α] (xs ys : List α) : List α := ys.foldl insertNew xs

def distinct {α : Type} [DecidableEq α] (xs : List α) : List α := insertAll [] xs

def putBy {α : Type} (key : α → String) (xs : List α) (x : α) : List α :=
  match xs with
  | [] => [x]
  | y :: rest => if key y = key x then x :: rest else y :: putBy key rest x

/-- Elements with one for each key: the first place of the key and its last element. -/
def distinctBy {α : Type} (key : α → String) (xs : List α) : List α := xs.foldl (putBy key) []

end QueryTypes
