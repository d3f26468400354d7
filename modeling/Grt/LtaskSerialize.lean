import Grt.LtaskBlocks
import Grt.LuaValue

/-! `seri_pack` and `seri_unpack`. A value is a byte with its type and a cookie, and what the
cookie announces; a table is its array part and then its other pairs up to a `nil`. The Lua
stack of the receiver is the list of its values, the top first. What the receiver needs of the
C stack and of Lua's stack and memory is asked of a room, which may refuse it. -/
namespace LtaskSerialize

open LittleEndian LtaskBlocks LuaValue

def TYPE_NIL : ℕ := 0
def TYPE_BOOLEAN : ℕ := 1
def TYPE_NUMBER : ℕ := 2
def TYPE_NUMBER_ZERO : ℕ := 0
def TYPE_NUMBER_BYTE : ℕ := 1
def TYPE_NUMBER_WORD : ℕ := 2
def TYPE_NUMBER_DWORD : ℕ := 4
def TYPE_NUMBER_QWORD : ℕ := 6
def TYPE_NUMBER_REAL : ℕ := 8
def TYPE_USERDATA : ℕ := 3
def TYPE_SHORT_STRING : ℕ := 4
def TYPE_LONG_STRING : ℕ := 5
def TYPE_TABLE : ℕ := 6
def MAX_COOKIE : ℕ := 32
def MAX_DEPTH : ℕ := 32

/-- `COMBINE_TYPE` as it is stored in a byte. -/
def combineType (t : ℕ) (v : ℤ) : Byte := BitVec.ofNat 8 t ||| BitVec.ofInt 8 v <<< 3

def wbNil (b : WriteBlock) : WriteBlock := wbPush b [BitVec.ofNat 8 TYPE_NIL]

def wbBoolean (b : WriteBlock) (boolean : Bool) : WriteBlock :=
  wbPush b [combineType TYPE_BOOLEAN (if boolean then 1 else 0)]

def wbInteger (b : WriteBlock) (v : BitVec 64) : WriteBlock :=
  let v32 := v.setWidth 32
  if v = 0 then wbPush b [combineType TYPE_NUMBER TYPE_NUMBER_ZERO]
  else if v ≠ v32.signExtend 64 then
    wbPush (wbPush b [combineType TYPE_NUMBER TYPE_NUMBER_QWORD]) (bytes 8 v.toNat)
  else if v.toInt < 0 then
    wbPush (wbPush b [combineType TYPE_NUMBER TYPE_NUMBER_DWORD]) (bytes 4 v32.toNat)
  else if v.toInt < 0x100 then
    wbPush (wbPush b [combineType TYPE_NUMBER TYPE_NUMBER_BYTE]) (bytes 1 v.toNat)
  else if v.toInt < 0x10000 then
    wbPush (wbPush b [combineType TYPE_NUMBER TYPE_NUMBER_WORD]) (bytes 2 v.toNat)
  else
    wbPush (wbPush b [combineType TYPE_NUMBER TYPE_NUMBER_DWORD]) (bytes 4 v.toNat)

def wbReal (b : WriteBlock) (v : BitVec 64) : WriteBlock :=
  wbPush (wbPush b [combineType TYPE_NUMBER TYPE_NUMBER_REAL]) (bytes 8 v.toNat)

def wbPointer (b : WriteBlock) (v : BitVec 64) : WriteBlock :=
  wbPush (wbPush b [BitVec.ofNat 8 TYPE_USERDATA]) (bytes 8 v.toNat)

def wbString (b : WriteBlock) (str : List Byte) (len : ℤ) : WriteBlock :=
  if len < MAX_COOKIE then
    let b := wbPush b [combineType TYPE_SHORT_STRING len]
    if len > 0 then wbPush b (str.take len.toNat) else b
  else
    let b :=
      if len < 0x10000 then
        wbPush (wbPush b [combineType TYPE_LONG_STRING 2]) (bytes 2 len.toNat)
      else wbPush (wbPush b [combineType TYPE_LONG_STRING 4]) (bytes 4 len.toNat)
    wbPush b (str.take len.toNat)

/-- An error carries its message and the writer as `wb_free` left it. -/
abbrev Pack := Except (String × WriteBlock)

def packError (b : WriteBlock) (message : String) : Pack WriteBlock := .error (message, wbFree b)

/-- The border of the table, in an `int`. -/
def arraySize (t : LuaTable) : ℤ := toInt32 t.rawlen

def wbTableHeader (b : WriteBlock) (size : ℤ) : WriteBlock :=
  if size ≥ MAX_COOKIE - 1 then
    wbInteger (wbPush b [combineType TYPE_TABLE (MAX_COOKIE - 1)]) (.ofInt 64 size)
  else wbPush b [combineType TYPE_TABLE size]

def wbTableArray (packOne : Obj → WriteBlock → Pack WriteBlock) (t : LuaTable)
    (b : WriteBlock) : Pack WriteBlock :=
  (List.range' 1 (arraySize t).toNat).foldlM (fun b i => packOne (rawgeti t.entries i) b)
    (wbTableHeader b (arraySize t))

/-- `lua_tointeger` of a key that is a number. -/
def keyInteger : Obj → Option ℤ
  | .scalar (.integer n) => some n.toInt
  | .scalar (.float bits) => floatToInteger bits
  | _ => none

/-- The key was written with the array part. It is compared as a `lua_Number` with itself cut to
32 bits, which are exact as a `lua_Number` and no other integer's rounding. -/
def inArray (size : ℤ) (k : Obj) : Bool :=
  match keyInteger k with
  | some n => n = toInt32 n ∧ toInt32 n > 0 ∧ toInt32 n ≤ size
  | none => false

def wbTableHash (packOne : Obj → WriteBlock → Pack WriteBlock) (t : LuaTable)
    (b : WriteBlock) : Pack WriteBlock := do
  let b ← t.entries.foldlM (fun b e => do
    if inArray (arraySize t) e.1 then pure b
    else
      let b ← packOne e.1 b
      packOne e.2 b) b
  pure (wbNil b)

def wbTable (packOne : Obj → WriteBlock → Pack WriteBlock) (t : LuaTable) (b : WriteBlock) :
    Pack WriteBlock := do
  let b ← wbTableArray packOne t b
  wbTableHash packOne t b

/-- The first argument is `MAX_DEPTH + 1 - depth`. -/
def packOne (heap : Heap) : ℕ → Obj → WriteBlock → Pack WriteBlock
  | 0, _, b => packError b "serialize can't pack too depth table"
  | room + 1, v, b =>
    match v with
    | .nil => pure (wbNil b)
    | .scalar (.integer n) => pure (wbInteger b n)
    | .scalar (.float bits) => pure (wbReal b bits)
    | .scalar (.boolean x) => pure (wbBoolean b x)
    | .scalar (.string s) => pure (wbString b s (toInt32 s.length))
    | .scalar (.lightuserdata p) => pure (wbPointer b p)
    | .table ref => wbTable (packOne heap room) (heap ref) b
    | .other typename _ => packError b ("Unsupport type " ++ typename ++ " to serialize")

def packFrom (heap : Heap) (args : List Obj) (b : WriteBlock) : Pack WriteBlock :=
  args.foldlM (fun b v => packOne heap (MAX_DEPTH + 1) v b) b

def seriPack (heap : Heap) (args : List Obj) : Pack (List Block) := do
  let b ← packFrom heap args wbInit
  pure (wbClose b)

/-- `badKey` is the error of a table that is given no key, `noRoom` a request that is refused,
`undefined` a use of memory or of the stack that C and the Lua API do not define, and `exhausted`
a fuel that is not enough. -/
inductive Fault where
  | invalidStream (len : ℤ) (line : ℕ)
  | needBlock
  | badKey
  | noRoom
  | undefined
  | exhausted
  deriving DecidableEq

abbrev Unpack := Except Fault

structure Unpacker where
  rb : ReadBlock
  stack : List Value

/-- What the receiver asks for: the C stack of a call of `_unpack_table` inside `depth` others and
of `char tmp[len]`, `luaL_checkstack` above `height` values, and the memory that
`lua_createtable`, `lua_pushlstring` and `lua_rawset` or `lua_rawseti` allocate. -/
inductive Request where
  | frame (depth : ℕ)
  | tmp (len : ℤ)
  | checkstack (height : ℕ)
  | createtable (size : ℤ)
  | pushlstring (len : ℤ)
  | rawset
  deriving DecidableEq

/-- The answers to the requests, by the number of bytes that are left to read. No request is made
twice at one place, so whatever a run is answered is what some room answers. -/
abbrev Room := ℤ → Request → Bool

def Room.unlimited : Room := fun _ _ => true

def Room.ask (room : Room) (rb : ReadBlock) (request : Request) : Unpack Unit :=
  if room rb.len request then pure () else throw .noRoom

/-- A read that `invalid_stream` follows if it is refused. -/
def readChecked (rb : ReadBlock) (sz line : ℕ) : Unpack (List Byte × ReadBlock) :=
  match rbRead rb sz with
  | some r => pure r
  | none => throw (.invalidStream rb.len line)

def getInteger (rb : ReadBlock) (cookie : ℕ) : Unpack (BitVec 64 × ReadBlock) :=
  if cookie = TYPE_NUMBER_ZERO then pure (0, rb)
  else if cookie = TYPE_NUMBER_BYTE then do
    let (pn, rb) ← readChecked rb 1 451
    pure (.ofNat 64 (value pn), rb)
  else if cookie = TYPE_NUMBER_WORD then do
    let (pn, rb) ← readChecked rb 2 459
    pure (.ofNat 64 (value pn), rb)
  else if cookie = TYPE_NUMBER_DWORD then do
    let (pn, rb) ← readChecked rb 4 467
    pure ((BitVec.ofNat 32 (value pn)).signExtend 64, rb)
  else if cookie = TYPE_NUMBER_QWORD then do
    let (pn, rb) ← readChecked rb 8 475
    pure (.ofNat 64 (value pn), rb)
  else throw (.invalidStream rb.len 480)

def getReal (rb : ReadBlock) : Unpack (BitVec 64 × ReadBlock) := do
  let (pn, rb) ← readChecked rb 8 490
  pure (.ofNat 64 (value pn), rb)

def getPointer (rb : ReadBlock) : Unpack (BitVec 64 × ReadBlock) := do
  let (v, rb) ← readChecked rb 8 500
  pure (.ofNat 64 (value v), rb)

/-- The string is read from `NULL` if `rb_read` refuses. -/
def getBuffer (room : Room) (s : Unpacker) (len : ℤ) : Unpack Unpacker :=
  if len < 0 then throw .undefined
  else do
    room.ask s.rb (.tmp len)
    match rbRead s.rb len.toNat with
    | some (p, rb) =>
      room.ask rb (.pushlstring len)
      pure ⟨rb, .scalar (.string p) :: s.stack⟩
    | none => throw .undefined

/-- `lua_rawseti(L, -2, i)`. -/
def rawseti (room : Room) (s : Unpacker) (i : ℕ) : Unpack Unpacker :=
  match s.stack with
  | v :: .table entries :: stack => do
    room.ask s.rb .rawset
    pure { s with stack := .table (store entries (.scalar (.integer (.ofNat 64 i))) v) :: stack }
  | _ => throw .undefined

/-- `lua_rawset(L, -3)`. -/
def rawset (room : Room) (s : Unpacker) : Unpack Unpacker :=
  match s.stack with
  | v :: k :: .table entries :: stack =>
    match storedKey k with
    | some k => do
      room.ask s.rb .rawset
      pure { s with stack := .table (store entries k v) :: stack }
    | none => throw .badKey
  | _ => throw .undefined

/-- The array size of a table, in an `int`. -/
def tableSize (rb : ReadBlock) (cookie : ℕ) : Unpack (ℤ × ReadBlock) :=
  if cookie = MAX_COOKIE - 1 then do
    let (t, rb) ← readChecked rb 1 520
    let type := value t
    let cookie := type >>> 3
    if type &&& 7 ≠ TYPE_NUMBER ∨ cookie = TYPE_NUMBER_REAL then
      throw (.invalidStream rb.len 525)
    let (n, rb) ← getInteger rb cookie
    pure (toInt32 n.toInt, rb)
  else pure (cookie, rb)

/-- The pairs of a table up to a `nil`. -/
def unpackPairs (room : Room) (unpackOne : Unpacker → Unpack Unpacker) :
    ℕ → Unpacker → Unpack Unpacker
  | 0, _ => throw .exhausted
  | fuel + 1, s => do
    let s ← unpackOne s
    match s.stack with
    | .nil :: stack => pure { s with stack := stack }
    | _ =>
      let s ← unpackOne s
      let s ← rawset room s
      unpackPairs room unpackOne fuel s

/-- `_unpack_table` inside `depth` calls of it. A negative size allocates nothing. -/
def unpackTable (room : Room) (depth : ℕ) (unpackOne : Unpacker → Unpack Unpacker) (fuel : ℕ)
    (s : Unpacker) (cookie : ℕ) : Unpack Unpacker := do
  room.ask s.rb (.frame depth)
  let (size, rb) ← tableSize s.rb cookie
  room.ask rb (.checkstack s.stack.length)
  room.ask rb (.createtable size)
  let s ← (List.range' 1 size.toNat).foldlM (fun s i => do
    let s ← unpackOne s
    rawseti room s i) ⟨rb, .table [] :: s.stack⟩
  unpackPairs room unpackOne fuel s

def pushValue (room : Room) (depth : ℕ) (unpackOne : Unpacker → Unpack Unpacker) (fuel : ℕ)
    (s : Unpacker) (type cookie : ℕ) : Unpack Unpacker :=
  if type = TYPE_NIL then pure ⟨s.rb, .nil :: s.stack⟩
  else if type = TYPE_BOOLEAN then
    pure ⟨s.rb, .scalar (.boolean (decide (cookie ≠ 0))) :: s.stack⟩
  else if type = TYPE_NUMBER then
    if cookie = TYPE_NUMBER_REAL then do
      let (n, rb) ← getReal s.rb
      pure ⟨rb, .scalar (.float n) :: s.stack⟩
    else do
      let (n, rb) ← getInteger s.rb cookie
      pure ⟨rb, .scalar (.integer n) :: s.stack⟩
  else if type = TYPE_USERDATA then do
    let (p, rb) ← getPointer s.rb
    pure ⟨rb, .scalar (.lightuserdata p) :: s.stack⟩
  else if type = TYPE_SHORT_STRING then getBuffer room s cookie
  else if type = TYPE_LONG_STRING then
    if cookie = 2 then do
      let (plen, rb) ← readChecked s.rb 2 574
      getBuffer room ⟨rb, s.stack⟩ (value plen)
    else if cookie ≠ 4 then throw (.invalidStream s.rb.len 579)
    else do
      let (plen, rb) ← readChecked s.rb 4 583
      getBuffer room ⟨rb, s.stack⟩ (toInt32 (value plen))
  else if type = TYPE_TABLE then unpackTable room depth unpackOne fuel s cookie
  else pure s

/-- An item takes at least one byte, which bounds the depth and the number of pairs. -/
def unpackOne (room : Room) : ℕ → ℕ → Unpacker → Unpack Unpacker
  | 0, _, _ => throw .exhausted
  | fuel + 1, depth, s => do
    let (t, rb) ← readChecked s.rb 1 601
    pushValue room depth (unpackOne room fuel (depth + 1)) fuel ⟨rb, s.stack⟩ (value t &&& 7)
      (value t >>> 3)

/-- The stack is checked before every eighth item. -/
def checkEighth (room : Room) (i : ℕ) (s : Unpacker) : Unpack Unit :=
  if i % 8 = 7 then room.ask s.rb (.checkstack s.stack.length) else pure ()

/-- The loop of `seri_unpack` from its item `i` on. -/
def unpackAll (room : Room) : ℕ → ℕ → Unpacker → Unpack Unpacker
  | 0, _, _ => throw .exhausted
  | fuel + 1, i, s => do
    checkEighth room i s
    match rbRead s.rb 1 with
    | none => pure s
    | some (t, rb) =>
      let s ← pushValue room 0 (unpackOne room fuel 1) fuel ⟨rb, s.stack⟩ (value t &&& 7)
        (value t >>> 3)
      unpackAll room fuel (i + 1) s

/-- The values in order, and the reader after `rb_close`. -/
def seriUnpack (room : Room) (chain : List Block) : Unpack (List Value × ReadBlock) :=
  match chain with
  | [] => throw .needBlock
  | _ => do
    let rb := rbInit chain
    let s ← unpackAll room (rb.len.toNat + 1) 0 ⟨rb, []⟩
    pure (s.stack.reverse, rbClose s.rb)

end LtaskSerialize
