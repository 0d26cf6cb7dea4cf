import SchemaCompiler.Text.Basic
import SchemaCompiler.Value.Number

/-! The order of API versions by stability. The leading number counts first, then a version without
an alpha, beta or rc mark stands above one with it, and the texts themselves decide the rest. -/

namespace SchemaCompiler.Version

/-- The leading number; one that does not fit 64 bits counts as zero. -/
def major (digits : List Char) : Nat :=
  ((Number.natural? 10 digits).filter (Number.fits 64)).getD 0

def marks : List (List Char) :=
  [['a', 'l', 'p', 'h', 'a'], ['b', 'e', 't', 'a'], ['r', 'c']]

structure Parts where
  major : Nat
  marked : Bool

def parts (version : String) : Parts :=
  let rest := match version.toList with
    | 'v' :: rest => rest
    | rest => rest
  { major := major (rest.takeWhile Char.isDigit)
    marked := marks.any (Text.occursIn · (rest.dropWhile Char.isDigit)) }

/-- `.gt` says that `a` is the more stable version. -/
def order (a b : String) : Ordering :=
  let (p, q) := (parts a, parts b)
  (compare p.major q.major).then ((compare q.marked p.marked).then (compare a b))

end SchemaCompiler.Version
