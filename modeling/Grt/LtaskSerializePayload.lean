import Grt.LtaskSerialize

/-! The payload of a block chain as a sequence of items, read from the bytes alone. A scan finds
where each item ends, or the first place where the stream is refused, or the first item that
the decoder does not handle: one of a type there is none of, a string that is longer than what
is left of the payload, a pair of a table whose key is NaN, or an item that there is no room for.
What an item needs of the stacks follows from the items before it and around it. -/
namespace LtaskSerializePayload

open LittleEndian LtaskBlocks LuaValue LtaskSerialize

/-- What the pair of a table depends on in its key. -/
inductive Kind where
  | nil
  | nan
  | other
  deriving DecidableEq

/-- `refused` ends in the error of an invalid stream, `fault` is an item that is not handled or
that there is no room for. -/
inductive Trouble where
  | refused
  | fault
  deriving DecidableEq

abbrev Scan := Except Trouble

def takeBytes (sz : ℕ) (bs : List Byte) : Scan (List Byte × List Byte) :=
  if bs.length < sz then throw .refused else pure (bs.take sz, bs.drop sz)

/-- The bytes after a type byte that announces an integer. -/
def scanInteger (cookie : ℕ) (bs : List Byte) : Scan (ℕ × List Byte) :=
  if cookie = TYPE_NUMBER_ZERO then pure (0, bs)
  else if cookie = TYPE_NUMBER_BYTE ∨ cookie = TYPE_NUMBER_WORD ∨ cookie = TYPE_NUMBER_DWORD then do
    let (n, bs) ← takeBytes cookie bs
    pure (value n, bs)
  else if cookie = TYPE_NUMBER_QWORD then do
    let (n, bs) ← takeBytes 8 bs
    pure (value n, bs)
  else throw .refused

/-- A request that is made with `bs` left to read. -/
def scanAsk (room : Room) (bs : List Byte) (request : Request) : Scan Unit :=
  if room bs.length request then pure () else throw .fault

/-- A string of `len` bytes. -/
def scanString (room : Room) (len : ℤ) (bs : List Byte) : Scan (Kind × List Byte) :=
  if 0 ≤ len ∧ len ≤ bs.length then do
    scanAsk room bs (.tmp len)
    scanAsk room (bs.drop len.toNat) (.pushlstring len)
    pure (.other, bs.drop len.toNat)
  else throw .fault

/-- The size of the array part, in an `int`. -/
def scanSize (cookie : ℕ) (bs : List Byte) : Scan (ℤ × List Byte) :=
  if cookie = MAX_COOKIE - 1 then do
    let (t, bs) ← takeBytes 1 bs
    if value t &&& 7 ≠ TYPE_NUMBER ∨ value t >>> 3 = TYPE_NUMBER_REAL then throw .refused
    let (n, bs) ← scanInteger (value t >>> 3) bs
    pure (toInt32 n, bs)
  else pure (cookie, bs)

/-- The items of the array part, each above `height` values on the stack. -/
def scanItems (room : Room) (item : ℕ → List Byte → Scan (Kind × List Byte)) (height : ℕ) :
    ℕ → List Byte → Scan (List Byte)
  | 0, bs => pure bs
  | n + 1, bs => do
    let (_, bs) ← item height bs
    scanAsk room bs .rawset
    scanItems room item height n bs

/-- The other pairs, up to a `nil`. A value is read above its key. -/
def scanPairs (room : Room) (item : ℕ → List Byte → Scan (Kind × List Byte)) (height : ℕ) :
    ℕ → List Byte → Scan (List Byte)
  | 0, _ => throw .refused
  | fuel + 1, bs => do
    let (key, bs) ← item height bs
    if key = .nil then pure bs
    else
      let (_, bs) ← item (height + 1) bs
      if key = .nan then throw .fault
      else do
        scanAsk room bs .rawset
        scanPairs room item height fuel bs

/-- A table inside `depth` others and above `height` values. -/
def scanTable (room : Room) (depth : ℕ) (item : ℕ → List Byte → Scan (Kind × List Byte))
    (fuel cookie height : ℕ) (bs : List Byte) : Scan (List Byte) := do
  scanAsk room bs (.frame depth)
  let (size, bs) ← scanSize cookie bs
  scanAsk room bs (.checkstack height)
  scanAsk room bs (.createtable size)
  let bs ← scanItems room item (height + 1) size.toNat bs
  scanPairs room item (height + 1) fuel bs

/-- The bytes of an item after its type byte. -/
def scanValue (room : Room) (depth : ℕ) (item : ℕ → List Byte → Scan (Kind × List Byte))
    (fuel type cookie height : ℕ) (bs : List Byte) : Scan (Kind × List Byte) :=
  if type = TYPE_NIL then pure (.nil, bs)
  else if type = TYPE_BOOLEAN then pure (.other, bs)
  else if type = TYPE_NUMBER then
    if cookie = TYPE_NUMBER_REAL then do
      let (n, bs) ← takeBytes 8 bs
      pure (if isNaN (.ofNat 64 (value n)) then .nan else .other, bs)
    else do
      let (_, bs) ← scanInteger cookie bs
      pure (.other, bs)
  else if type = TYPE_USERDATA then do
    let (_, bs) ← takeBytes 8 bs
    pure (.other, bs)
  else if type = TYPE_SHORT_STRING then scanString room cookie bs
  else if type = TYPE_LONG_STRING then
    if cookie = 2 then do
      let (len, bs) ← takeBytes 2 bs
      scanString room (value len) bs
    else if cookie = 4 then do
      let (len, bs) ← takeBytes 4 bs
      scanString room (toInt32 (value len)) bs
    else throw .refused
  else if type = TYPE_TABLE then do
    let bs ← scanTable room depth item fuel cookie height bs
    pure (.other, bs)
  else throw .fault

/-- An item takes at least one byte, which bounds the depth and the number of pairs. -/
def scanItem (room : Room) : ℕ → ℕ → ℕ → List Byte → Scan (Kind × List Byte)
  | 0, _, _, _ => throw .refused
  | fuel + 1, depth, height, bs => do
    let (t, bs) ← takeBytes 1 bs
    scanValue room depth (scanItem room fuel (depth + 1)) fuel (value t &&& 7) (value t >>> 3)
      height bs

def scanEighth (room : Room) (i : ℕ) (bs : List Byte) : Scan Unit :=
  if i % 8 = 7 then scanAsk room bs (.checkstack i) else pure ()

/-- The items from number `i` on, which is above the `i` values before it. -/
def scanAll (room : Room) : ℕ → ℕ → List Byte → Scan Unit
  | 0, _, _ => throw .refused
  | fuel + 1, i, bs => do
    scanEighth room i bs
    match bs with
    | [] => pure ()
    | t :: bs =>
      let (_, bs) ← scanValue room 0 (scanItem room fuel 1) fuel (value [t] &&& 7)
        (value [t] >>> 3) i bs
      scanAll room fuel (i + 1) bs

/-- No item is reached that is not handled or has no room. -/
def Sound (room : Room) (payload : List Byte) : Prop :=
  scanAll room (payload.length + 1) 0 payload ≠ .error .fault

instance (room : Room) (payload : List Byte) : Decidable (Sound room payload) :=
  inferInstanceAs (Decidable (_ ≠ _))

end LtaskSerializePayload
