import Mathlib.Order.Lattice

-- A map that is walked in ascending key order.
structure OrderedMap (κ ν : Type) [LinearOrder κ] where
  entries : List (κ × ν)
  ascending : (entries.map Prod.fst).Pairwise (· < ·)

namespace OrderedMap
variable {κ ν : Type} [LinearOrder κ]

def keys (map : OrderedMap κ ν) : List κ := map.entries.map Prod.fst

def get (map : OrderedMap κ ν) (key : κ) : Option ν :=
  (map.entries.find? fun entry => entry.1 = key).map Prod.snd

end OrderedMap
