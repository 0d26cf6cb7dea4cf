/-! Finite maps as lists of entries in increasing order of their keys, and finite sets as increasing
lists. Writing an entry under a key that is present replaces the value. -/

namespace SchemaCompiler

abbrev Table (κ ν : Type) := List (κ × ν)

namespace Table

variable {κ ν : Type} [Ord κ]

def get? (k : κ) : Table κ ν → Option ν
  | [] => none
  | (k', v) :: rest => if compare k k' == .eq then some v else get? k rest

def insert (k : κ) (v : ν) : Table κ ν → Table κ ν
  | [] => [(k, v)]
  | (k', v') :: rest =>
    match compare k k' with
    | .lt => (k, v) :: (k', v') :: rest
    | .eq => (k, v) :: rest
    | .gt => (k', v') :: insert k v rest

/-- Changes the value under `k`, starting from `new` where there is none. -/
def alter (k : κ) (new : ν) (f : ν → ν) (t : Table κ ν) : Table κ ν :=
  t.insert k (f ((t.get? k).getD new))

def keys (t : Table κ ν) : List κ :=
  t.map Prod.fst

def values (t : Table κ ν) : List ν :=
  t.map Prod.snd

def ofEntries (entries : List (κ × ν)) : Table κ ν :=
  entries.foldl (fun t e => t.insert e.1 e.2) []

end Table

/-- Puts `a` into an increasing list, once. -/
def insertOnce {α : Type} [Ord α] (a : α) : List α → List α
  | [] => [a]
  | b :: rest =>
    match compare a b with
    | .lt => a :: b :: rest
    | .eq => b :: rest
    | .gt => b :: insertOnce a rest

def setOf {α : Type} [Ord α] (as : List α) : List α :=
  as.foldl (fun s a => insertOnce a s) []

end SchemaCompiler
