/-!
# Ordered fields

Fields under distinct names that keep the order in which the names first came.  A later value for a
name replaces the earlier one in its place.

## Main definitions

* `Fields.put` — one more field.
* `Fields.ofPairs` — the fields that a list of pairs leaves behind.
-/

namespace GibbsNewton.Fields

variable {β : Type}

/-- Fields with one more; a name that is there already keeps its place. -/
def put (fields : List (String × β)) (name : String) (value : β) : List (String × β) :=
  if fields.any (·.1 == name) then
    fields.map fun (k, v) => if k == name then (k, value) else (k, v)
  else fields ++ [(name, value)]

/-- The fields that pairs leave behind when they are put one after the other. -/
def ofPairs (pairs : List (String × β)) : List (String × β) :=
  pairs.foldl (fun fields (name, value) => put fields name value) []

end GibbsNewton.Fields
