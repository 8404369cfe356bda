import ResourceQuery.Text.Percent

/-!
Universally unique identifiers: 128 bits, written as 32 hexadecimal digits in groups of 8, 4, 4, 4
and 12.
-/

set_option autoImplicit false

namespace ResourceQuery

structure Uuid where
  bits : BitVec 128
  deriving DecidableEq

namespace Uuid

def compare (a b : Uuid) : Ordering :=
  Ord.compare a.bits.toNat b.bits.toNat

/-- Joins groups of digits by hyphens. -/
def group : List Nat → List Char → List Char
  | [], ds => ds
  | n :: rest, ds => ds.take n ++ '-' :: group rest (ds.drop n)

def chars (u : Uuid) : List Char :=
  group [8, 4, 4, 4] ((Nat.toDigits 16 u.bits.toNat).leftpad 32 '0')

/-- Takes the hyphens out of the grouped form. -/
def ungroup? : List Nat → List Char → Option (List Char)
  | [], cs => some cs
  | n :: rest, cs =>
    match cs.drop n with
    | '-' :: tail => (ungroup? rest tail).map (cs.take n ++ ·)
    | _ => none

def readDigits? (ds : List Char) : Option Uuid :=
  (ds.mapM Text.Percent.hexValue?).map fun values ↦
    ⟨.ofNat 128 (values.foldl (fun n v ↦ 16 * n + v) 0)⟩

/-- Reads the grouped form or the bare digits, in either case of letters. -/
def read? (cs : List Char) : Option Uuid :=
  if cs.length = 32 then readDigits? cs
  else if cs.length = 36 then (ungroup? [8, 4, 4, 4] cs).bind readDigits?
  else none

end Uuid

end ResourceQuery
