import TorusHyperBft.Bytes

namespace TorusHyperBft.Wire

open List

/-! Values written one after another and read back from the front of what is left.

Numbers are little-endian and of a fixed width, sequences have their length before them. -/

abbrev Reader (α : Type) := List Byte → Option (α × List Byte)

/-- An encoding that its reader undoes, whatever follows it. -/
structure Codec (α : Type) where
  encode : α → List Byte
  read : Reader α
  read_encode : ∀ value rest, read (encode value ++ rest) = some (value, rest)

variable {α β : Type}

namespace Codec

def prod (first : Codec α) (second : Codec β) : Codec (α × β) where
  encode value := first.encode value.1 ++ second.encode value.2
  read bytes := do
    let (left, bytes) ← first.read bytes
    let (right, bytes) ← second.read bytes
    return ((left, right), bytes)
  read_encode value rest := by
    simp [append_assoc, first.read_encode, second.read_encode]

def map (codec : Codec α) (into : α → β) (back : β → α) (inverse : ∀ value, into (back value) = value) :
    Codec β where
  encode value := codec.encode (back value)
  read bytes := do
    let (value, bytes) ← codec.read bytes
    return (into value, bytes)
  read_encode value rest := by
    simp [codec.read_encode, inverse]

end Codec

def encodeNat (width value : Nat) : List Byte := (toBytes width value).reverse

def readNat (width : Nat) : Reader Nat := fun bytes =>
  if width ≤ bytes.length then
    some (fromBytes (bytes.take width).reverse, bytes.drop width)
  else none

theorem readNat_encodeNat {width value : Nat} (fits : value < 256 ^ width) (rest : List Byte) :
    readNat width (encodeNat width value ++ rest) = some (value, rest) := by
  have size : (encodeNat width value).length = width := by simp [encodeNat]
  have enough : width ≤ (encodeNat width value ++ rest).length := by
    rw [length_append, size]
    exact Nat.le_add_right width rest.length
  rw [readNat, if_pos enough, List.take_left' size, List.drop_left' size, encodeNat,
    reverse_reverse, fromBytes_toBytes fits]

def Codec.fin (width : Nat) : Codec (Fin (256 ^ width)) where
  encode value := encodeNat width value.val
  read bytes := do
    let (value, bytes) ← readNat width bytes
    if fits : value < 256 ^ width then return (⟨value, fits⟩, bytes) else none
  read_encode value rest := by
    simp [readNat_encodeNat value.isLt]

def Codec.u64 : Codec U64 where
  encode := (Codec.fin 8).encode
  read := (Codec.fin 8).read
  read_encode := (Codec.fin 8).read_encode

/-- The bytes of a bit string, the most significant first, with no length before them. -/
def Codec.bits (width : Nat) : Codec (BitVec (8 * width)) where
  encode value := toBytes width value.toNat
  read bytes :=
    if width ≤ bytes.length then
      some (BitVec.ofNat (8 * width) (fromBytes (bytes.take width)), bytes.drop width)
    else none
  read_encode value rest := by
    have size : (toBytes width value.toNat).length = width := toBytes_length width value.toNat
    have enough : width ≤ (toBytes width value.toNat ++ rest).length := by
      rw [length_append, size]
      exact Nat.le_add_right width rest.length
    have fits : value.toNat < 256 ^ width := by
      have below := value.isLt
      rwa [Nat.pow_mul, show 2 ^ 8 = 256 from rfl] at below
    rw [if_pos enough, List.take_left' size, List.drop_left' size, fromBytes_toBytes fits,
      BitVec.ofNat_toNat, BitVec.setWidth_eq]

def Codec.sizedBits (width : Nat) : Codec (BitVec (8 * width)) where
  encode value := encodeNat 8 (width % 256 ^ 8) ++ (Codec.bits width).encode value
  read bytes := do
    let (size, bytes) ← readNat 8 bytes
    if size = width % 256 ^ 8 then (Codec.bits width).read bytes else none
  read_encode value rest := by
    have fits : width % 256 ^ 8 < 256 ^ 8 := Nat.mod_lt _ (by decide)
    rw [append_assoc, readNat_encodeNat fits]
    simp only [Option.bind_eq_bind, Option.bind_some, if_true, (Codec.bits width).read_encode]

def encodeBytes (bytes : List Byte) : List Byte := encodeNat 8 bytes.length ++ bytes

def readBytes : Reader (List Byte) := fun bytes => do
  let (size, bytes) ← readNat 8 bytes
  if size ≤ bytes.length then return (bytes.take size, bytes.drop size) else none

theorem readBytes_encodeBytes {bytes : List Byte} (fits : bytes.length < 2 ^ 64)
    (rest : List Byte) :
    readBytes (encodeBytes bytes ++ rest) = some (bytes, rest) := by
  have size : bytes.length < 256 ^ 8 := fits
  simp [readBytes, encodeBytes, append_assoc, readNat_encodeNat size]

def encodeVec (encode : α → List Byte) (values : List α) : List Byte :=
  encodeNat 8 values.length ++ values.flatMap encode

def readMany (read : Reader α) : Nat → Reader (List α)
  | 0, bytes => some ([], bytes)
  | count + 1, bytes => do
      let (value, bytes) ← read bytes
      let (values, bytes) ← readMany read count bytes
      return (value :: values, bytes)

def readVec (read : Reader α) : Reader (List α) := fun bytes => do
  let (count, bytes) ← readNat 8 bytes
  readMany read count bytes

theorem readMany_flatMap {encode : α → List Byte} {read : Reader α} (values : List α)
    (each : ∀ value ∈ values, ∀ rest, read (encode value ++ rest) = some (value, rest))
    (rest : List Byte) :
    readMany read values.length (values.flatMap encode ++ rest) = some (values, rest) := by
  induction values with
  | nil => rfl
  | cons value values ih =>
    have head := each value mem_cons_self (values.flatMap encode ++ rest)
    have tail := ih fun other member => each other (mem_cons_of_mem value member)
    simp [readMany, append_assoc, head, tail]

theorem readVec_encodeVec {encode : α → List Byte} {read : Reader α} {values : List α}
    (fits : values.length < 2 ^ 64)
    (each : ∀ value ∈ values, ∀ rest, read (encode value ++ rest) = some (value, rest))
    (rest : List Byte) :
    readVec read (encodeVec encode values ++ rest) = some (values, rest) := by
  have size : values.length < 256 ^ 8 := fits
  simp [readVec, encodeVec, append_assoc, readNat_encodeNat size,
    readMany_flatMap values each rest]

theorem readVec_encodeVec_cons {encode : α → List Byte} {read : Reader β} {value : α}
    {values : List α} (fits : (value :: values).length < 2 ^ 64)
    (unreadable : ∀ rest, read (encode value ++ rest) = none) (rest : List Byte) :
    readVec read (encodeVec encode (value :: values) ++ rest) = none := by
  have size : values.length + 1 < 256 ^ 8 := fits
  simp [readVec, encodeVec, append_assoc, readNat_encodeNat size, readMany, unreadable]

end TorusHyperBft.Wire
