/-
# Where field values came from

The point of a field value is kept beside the object, under the key of the field.
-/
import Provenance.Store.Basic

namespace Provenance.Store

/-- The points of an object's fields with one of them set. -/
def putPoint (key : String) (p : Point) : List (String × Point) → List (String × Point)
  | [] => [(key, p)]
  | (k, q) :: rest => if k = key then (key, p) :: rest else (k, q) :: putPoint key p rest

/-- The point of the value in a field. -/
def fieldPoint (s : Store) (o : ObjectId) (key : String) : Option Point :=
  if s.isActive then (s.fields.get? o).bind fun points => points.lookup key else none

/-- Records the point of a value just stored in a field; without a point the old one is forgotten.
-/
def setFieldPoint (s : Store) (o : ObjectId) (key : String) (point : Option Point) : Store :=
  if s.isActive then
    match point with
    | some p => { s with fields := s.fields.update o [] (putPoint key p) }
    | none =>
      match s.fields.get? o with
      | none => s
      | some _ =>
        { s with fields := s.fields.update o [] fun points => points.filter fun e => e.1 ≠ key }
  else s

/-- Drops the field points of dead objects. -/
def purgeFields (s : Store) (alive : ObjectId → Bool) : Store :=
  { s with fields := s.fields.purge alive }

end Provenance.Store
