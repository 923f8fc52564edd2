import ArithMips.Text.Basic

/-!
# Places

A path leads to a place, name by name, from the working directory or, if it begins with `/`, from the root.  The
name `.` stays where it is and `..` goes to the parent.

The working directory has a parent, which has one in turn, and neither its name nor its distance from the root is
known.  So a place is told by where the walk begins, which is the root or a number of levels above the working
directory, and by the names below that.  A path that has climbed out of the working directory does not lead back.
-/

namespace ArithMips

/-- Where the names of a place begin. -/
inductive Base where
  | root
  /-- A number of levels above the working directory, which is itself at level 0. -/
  | above (levels : Nat)
  deriving DecidableEq, Repr

/-- The parent of a base.  The root is its own parent. -/
def Base.parent : Base → Base
  | root => root
  | above levels => above (levels + 1)

/-- A place: a base and the names below it. -/
structure Place where
  base : Base
  names : List Text
  deriving DecidableEq, Repr

namespace Place

/-- The names of a path; several `/` in a row count as one. -/
def namesOf (path : Text) : List Text := (path.splitOn '/').filter (· ≠ [])

def start (path : Text) : Place :=
  ⟨if path.head? = some '/' then .root else .above 0, []⟩

def parent (p : Place) : Place :=
  if p.names = [] then ⟨p.base.parent, []⟩ else ⟨p.base, p.names.dropLast⟩

/-- Whether a name stands for a directory wherever it is used. -/
def isDots (name : Text) : Bool := name = ['.'] || name = ['.', '.']

def next (p : Place) (name : Text) : Place :=
  if name = ['.'] then p
  else if name = ['.', '.'] then p.parent
  else ⟨p.base, p.names ++ [name]⟩

/-- The place that a path leads to, whatever stands on the way. -/
def ofPath (path : Text) : Place := (namesOf path).foldl next (start path)

end Place

end ArithMips
