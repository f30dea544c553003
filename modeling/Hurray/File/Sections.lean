import Hurray.Base.Checked
import Hurray.Base.Wire
import Hurray.File.Types

/-!
The sections at the end of a file: the index, with one entry a tensor, and the
key-value metadata. A section is parsed by a cursor over the bytes that are left
of it.
-/
namespace Hurray.File
open Hurray.Base Hurray.Core Hurray.Descriptor Hurray.Stream

/-! ### Offsets -/

/-- An offset moved by a size of this process. -/
def addSize (offset : UInt64) (n : ℕ) : Result UInt64 :=
  if offset.toNat + n < UInt64.size then .ok (offset + UInt64.ofNat n) else Exec.panic

/-- The next multiple of the alignment. -/
def alignUp (offset alignment : UInt64) : Result UInt64 := do
  let rem ← Exec.rem offset alignment
  if rem = 0 then pure offset else Exec.addU64 offset (alignment - rem)

def padTo (offset alignment : UInt64) : Result UInt64 := do
  let aligned ← alignUp offset alignment
  pure (aligned - offset)

/-! ### Parsing -/

abbrev Parser := Reader Error Bytes

def readBytesSlice (len : ℕ) : Parser Bytes := fun bytes =>
  if bytes.length < len then Exec.fail (.invalidHeader "truncated byte slice")
  else .ok (bytes.take len, bytes.drop len)

def readU16 : Parser UInt16 := fun bytes =>
  if bytes.length < 2 then Exec.fail (.invalidHeader "truncated field (u16)")
  else .ok (u16OfBytes (bytes.take 2), bytes.drop 2)

def readU32 : Parser UInt32 := fun bytes =>
  if bytes.length < 4 then Exec.fail (.invalidHeader "truncated field (u32)")
  else .ok (u32OfBytes (bytes.take 4), bytes.drop 4)

def readU64 : Parser UInt64 := fun bytes =>
  if bytes.length < 8 then Exec.fail (.invalidHeader "truncated field (u64)")
  else .ok (u64OfBytes (bytes.take 8), bytes.drop 8)

/-- The one byte of a slice of length one. -/
def readByte : Parser UInt8 := do
  let slice ← readBytesSlice 1
  Reader.lift (Exec.index slice 0)

def readText (len : ℕ) (e : Error) : Parser String := do
  let bytes ← readBytesSlice len
  Reader.lift (Exec.orFail (fromUtf8 bytes) e)

/-- The entries that are left, in a section that has used the names `seen`. -/
def parseEntries : ℕ → List String → Parser (List IndexEntry)
  | 0, _ => pure []
  | count + 1, seen => do
      let nameLen ← readU16
      Reader.reject (nameLen = 0) .tensorNameEmpty
      let name ← readText nameLen.toNat (.invalidHeader "tensor name is not valid UTF-8")
      Reader.reject (name ∈ seen) (.duplicateTensorName name)
      let descriptorOffset ← readU64
      let descriptorLength ← readU32
      let dataOffset ← readU64
      let dataLength ← readU64
      let _flags ← readU32
      let entries ← parseEntries count (name :: seen)
      pure (⟨name, descriptorOffset, descriptorLength, dataOffset, dataLength⟩ :: entries)

def parseIndex (bytes : Bytes) : Result (List IndexEntry) := do
  let (count, bytes) ← readU64 bytes
  let (entries, _) ← parseEntries count.toNat [] bytes
  pure entries

/-- The values that an array may hold. -/
def parseKvScalar (tag : UInt8) : Parser KvValue :=
  if tag = 0x01 then do
    let len ← readU32
    let s ← readText len.toNat (.invalidHeader "KV string is not valid UTF-8")
    pure (.string s)
  else if tag = 0x02 then do
    let v ← readU64
    pure (.int64 v.toInt64)
  else if tag = 0x03 then do
    let v ← readU64
    pure (.uint64 v)
  else if tag = 0x04 then do
    let bits ← readU64
    pure (.float64 ⟨bits⟩)
  else if tag = 0x05 then do
    let b ← readByte
    Reader.reject (b ≠ 0x00 ∧ b ≠ 0x01) (.invalidHeader s!"invalid KV bool byte 0x{hexByte b}")
    pure (.bool (b = 0x01))
  else if tag = 0x06 then do
    let len ← readU32
    let v ← readBytesSlice len.toNat
    pure (.bytes v)
  else Reader.lift (Exec.fail (.invalidHeader s!"unknown KV value tag 0x{hexByte tag}"))

/-- An array is not nested, so that its elements are scalars. -/
def parseKvValue (tag : UInt8) : Parser KvValue :=
  if tag = 0x07 then do
    let elemTag ← readByte
    Reader.reject (elemTag = 0x07 ∨ elemTag > 0x06)
      (.invalidHeader s!"invalid KV array element tag 0x{hexByte elemTag}")
    let count ← readU32
    let elements ← Reader.many (parseKvScalar elemTag) count.toNat
    pure (.array elements)
  else parseKvScalar tag

def parseKvEntries : ℕ → List String → Parser (List (String × KvValue))
  | 0, _ => pure []
  | count + 1, seen => do
      let keyLen ← readU16
      Reader.reject (keyLen = 0) .kvKeyEmpty
      let key ← readText keyLen.toNat (.invalidHeader "KV key is not valid UTF-8")
      Reader.reject (key ∈ seen) (.duplicateKvKey key)
      let valueTag ← readByte
      let value ← parseKvValue valueTag
      let entries ← parseKvEntries count (key :: seen)
      pure ((key, value) :: entries)

def parseKv (bytes : Bytes) : Result (List (String × KvValue)) := do
  let (count, bytes) ← readU32 bytes
  let (entries, _) ← parseKvEntries count.toNat [] bytes
  pure entries

/-! ### Encoding -/

def validateKvKey (seen : List String) (key : String) : Result (List String) := do
  Exec.reject ((utf8Bytes key).length = 0) .kvKeyEmpty
  Exec.reject (65535 < (utf8Bytes key).length) (.kvKeyTooLong (utf8Bytes key).length)
  Exec.reject (key ∈ seen) (.duplicateKvKey key)
  pure (key :: seen)

def validateKvKeys (kv : List (String × KvValue)) : Result Unit := do
  let _seen ← (kv.map Prod.fst).foldlM validateKvKey []

def kvWireTag : KvValue → UInt8
  | .string _ => 0x01
  | .int64 _ => 0x02
  | .uint64 _ => 0x03
  | .float64 _ => 0x04
  | .bool _ => 0x05
  | .bytes _ => 0x06
  | .array _ => 0x07

/-- The checks of an array: its elements are of one type, which is no array. -/
def checkElements (elements : List KvValue) : Result UInt8 :=
  match elements with
  | [] => Exec.fail (.invalidHeader "KV array must not be empty")
  | first :: _ => do
      let elemTag := kvWireTag first
      Exec.reject (elemTag = 0x07) (.invalidHeader "KV array elements must not be arrays")
      elements.forM fun elem => Exec.reject (kvWireTag elem ≠ elemTag)
        (.invalidHeader "KV array elements must all have the same type")
      pure elemTag

mutual

def encodeKvPayload : KvValue → Result Bytes
  | .string s => pure (u32Bytes (UInt32.ofNat (utf8Bytes s).length) ++ utf8Bytes s)
  | .int64 v => pure (i64Bytes v)
  | .uint64 v => pure (u64Bytes v)
  | .float64 v => pure (f64Bytes v)
  | .bool v => pure [if v then 1 else 0]
  | .bytes v => pure (u32Bytes (UInt32.ofNat v.length) ++ v)
  | .array elements => do
      let elemTag ← checkElements elements
      let payload ← encodeKvPayloads elements
      pure (elemTag :: u32Bytes (UInt32.ofNat elements.length) ++ payload)

def encodeKvPayloads : List KvValue → Result Bytes
  | [] => pure []
  | elem :: elements => do
      let first ← encodeKvPayload elem
      let rest ← encodeKvPayloads elements
      pure (first ++ rest)

end

def encodeKvValue (value : KvValue) : Result Bytes := do
  let payload ← encodeKvPayload value
  pure (kvWireTag value :: payload)

def encodeKvEntries : List (String × KvValue) → Result Bytes
  | [] => pure []
  | (key, value) :: kv => do
      let first ← encodeKvValue value
      let rest ← encodeKvEntries kv
      pure (u16Bytes (UInt16.ofNat (utf8Bytes key).length) ++ utf8Bytes key ++ first ++ rest)

def encodeKvSection (kv : List (String × KvValue)) : Result Bytes := do
  let entries ← encodeKvEntries kv
  pure (u32Bytes (UInt32.ofNat kv.length) ++ entries)

def encodeIndexEntry (e : IndexEntry) : Bytes :=
  u16Bytes (UInt16.ofNat (utf8Bytes e.name).length) ++ utf8Bytes e.name ++
    u64Bytes e.descriptorOffset ++ u32Bytes e.descriptorLength ++ u64Bytes e.dataOffset ++
    u64Bytes e.dataLength ++ u32Bytes 0

def encodeIndexSection (entries : List IndexEntry) : Bytes :=
  u64Bytes (UInt64.ofNat entries.length) ++ entries.flatMap encodeIndexEntry

end Hurray.File
