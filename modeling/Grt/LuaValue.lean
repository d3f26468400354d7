import Mathlib.Data.List.Perm.Basic
import Grt.LittleEndian

/-! Lua values, on the side that sends them and on the side that receives them. The sender's
tables are objects of a heap, with the order in which `lua_next` visits them and the border
that `lua_rawlen` reports. What is received is new, so its tables are nested values. -/
namespace LuaValue

open LittleEndian

/-- A float is its eight bytes. -/
inductive Scalar where
  | boolean (b : Bool)
  | integer (n : BitVec 64)
  | float (bits : BitVec 64)
  | string (s : List Byte)
  | lightuserdata (p : BitVec 64)
  deriving DecidableEq

/-- `other` is an object of a type that is not serialized. -/
inductive Obj where
  | nil
  | scalar (s : Scalar)
  | table (ref : ℕ)
  | other (typename : String) (ref : ℕ)
  deriving DecidableEq

def floatExponent (bits : BitVec 64) : ℕ := bits.toNat / 2 ^ 52 % 2 ^ 11

def floatFraction (bits : BitVec 64) : ℕ := bits.toNat % 2 ^ 52

def isNaN (bits : BitVec 64) : Bool := floatExponent bits = 2047 ∧ floatFraction bits ≠ 0

/-- The integer that a float is equal to, if it is a `lua_Integer`. -/
def floatToInteger (bits : BitVec 64) : Option ℤ :=
  let e := floatExponent bits
  if e = 2047 then none
  else
    let mantissa := if e = 0 then floatFraction bits else 2 ^ 52 + floatFraction bits
    let scaled := mantissa * 2 ^ max e 1
    if scaled % 2 ^ 1075 = 0 then
      let n : ℤ := if bits.toNat < 2 ^ 63 then (scaled / 2 ^ 1075 : ℕ) else -(scaled / 2 ^ 1075 : ℕ)
      if -2 ^ 63 ≤ n ∧ n < 2 ^ 63 then some n else none
    else none

/-- A table has no key `nil` or NaN, and a key that is an integer is stored as one. -/
def IsKey : Obj → Prop
  | .nil => False
  | .scalar (.float bits) => isNaN bits = false ∧ floatToInteger bits = none
  | _ => True

instance (k : Obj) : Decidable (IsKey k) := by
  unfold IsKey
  split <;> infer_instance

def rawgeti (entries : List (Obj × Obj)) (i : ℤ) : Obj :=
  (entries.lookup (.scalar (.integer (.ofInt 64 i)))).getD .nil

/-- What `lua_rawlen` may report. A table with holes has several borders. -/
def IsBorder (entries : List (Obj × Obj)) (n : ℕ) : Prop :=
  n < 2 ^ 63 ∧ (n = 0 ∨ rawgeti entries n ≠ .nil) ∧
    (n + 1 = 2 ^ 63 ∨ rawgeti entries (n + 1) = .nil)

instance (entries : List (Obj × Obj)) (n : ℕ) : Decidable (IsBorder entries n) := by
  unfold IsBorder
  infer_instance

/-- The entries are in the order of `lua_next`. -/
structure LuaTable where
  rawlen : ℕ
  entries : List (Obj × Obj)
  keys_nodup : (entries.map Prod.fst).Nodup
  keys_ok : ∀ e ∈ entries, IsKey e.1
  values_ok : ∀ e ∈ entries, e.2 ≠ .nil
  border : IsBorder entries rawlen

abbrev Heap := ℕ → LuaTable

/-- Every value reached from a value along table keys and values, with its nesting depth. -/
inductive ReachAt (heap : Heap) : ℕ → Obj → Obj → Prop where
  | here (v) : ReachAt heap 0 v v
  | key {ref k v d w} : (k, v) ∈ (heap ref).entries → ReachAt heap d k w →
      ReachAt heap (d + 1) (.table ref) w
  | value {ref k v d w} : (k, v) ∈ (heap ref).entries → ReachAt heap d v w →
      ReachAt heap (d + 1) (.table ref) w

/-- A table with keys that are scalars, or a value that is not a table. -/
def Plain (heap : Heap) : Obj → Prop
  | .table ref => ∀ e ∈ (heap ref).entries, ∃ k, e.1 = .scalar k
  | .other _ _ => False
  | _ => True

inductive Value where
  | nil
  | scalar (s : Scalar)
  | table (entries : List (Value × Value))

/-- The same value, and for a table the same pairs in some order. -/
inductive Same (heap : Heap) : Obj → Value → Prop where
  | nil : Same heap .nil .nil
  | scalar (s) : Same heap (.scalar s) (.scalar s)
  | table {ref} {pairs : List (Obj × Obj)} {entries : List (Value × Value)} :
      pairs.Perm (heap ref).entries →
      List.Forall₂ (Same heap) (pairs.map Prod.fst) (entries.map Prod.fst) →
      List.Forall₂ (Same heap) (pairs.map Prod.snd) (entries.map Prod.snd) →
      Same heap (.table ref) (.table entries)

/-- A table made by the receiver is no other value's equal. -/
def sameKey : Value → Value → Bool
  | .scalar a, .scalar b => a = b
  | _, _ => false

/-- The key a value is stored under; `none` for the values that are none. -/
def storedKey : Value → Option Value
  | .nil => none
  | .scalar (.float bits) =>
    if isNaN bits then none
    else
      match floatToInteger bits with
      | some n => some (.scalar (.integer (.ofInt 64 n)))
      | none => some (.scalar (.float bits))
  | k => some k

/-- Setting a key to `nil` removes it. -/
def store (entries : List (Value × Value)) (k : Value) : Value → List (Value × Value)
  | .nil => entries.filter fun e => !sameKey e.1 k
  | v => entries.filter (fun e => !sameKey e.1 k) ++ [(k, v)]

end LuaValue
