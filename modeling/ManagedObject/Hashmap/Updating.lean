import ManagedObject.Hashmap.Removing

/-!
# Loops that set the data

A loop over a map may set the data of the entry that it is at. No entry changes its slot or its key, so the map
stays as it is to every search, and at the end the data is what the body has made of it.
-/

namespace ManagedObject.Hashmap

open Format Linear Lib Outcome

variable {K D : Type} {f : Functions K} {p p' q : Process K D} {e : Entry K D} {entries : List (Option (Entry K D))}
  {keyDup : Bool} {i j n : Nat} {update : Entry K D → Option D}

end ManagedObject.Hashmap
