import Requirements.Version

/-!
# Sorting versions

Versions sort in ascending order, and versions of equal rank keep the order
they came in. The highest version is the last of its rank and the lowest the
first of its rank, so both are ends of the sorted list.
-/

namespace Requirements.Version

/-- The versions in ascending order; equal ranks keep their order. -/
def sort (vs : List Version) : List Version :=
  vs.mergeSort le

/-- Of two versions the higher one, the second if they rank equal. -/
def higher (a b : Version) : Version :=
  if compare a b = .gt then a else b

/-- Of two versions the lower one, the first if they rank equal. -/
def lower (a b : Version) : Version :=
  if compare a b = .gt then b else a

/-- The highest version of a list, the last one of its rank. -/
def highest? : List Version → Option Version
  | [] => none
  | v :: vs => some (vs.foldl higher v)

/-- The lowest version of a list, the first one of its rank. -/
def lowest? : List Version → Option Version
  | [] => none
  | v :: vs => some (vs.foldl lower v)

/-- The versions without those that rank equal to one kept before them, in a
list where equal ranks stand together. -/
def distinct : List Version → List Version
  | [] => []
  | v :: vs => v :: go v vs
where
  /-- The versions to keep after `last`. -/
  go (last : Version) : List Version → List Version
    | [] => []
    | v :: vs => if equal last v then go last vs else v :: go v vs

end Requirements.Version
