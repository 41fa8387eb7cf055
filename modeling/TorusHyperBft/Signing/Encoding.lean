import TorusHyperBft.Signing.Hash

namespace TorusHyperBft.Signing

open Hashed

/-! What is hashed can be read back from the bytes that are hashed. -/

theorem encodeUnsigned_inj {width : Nat} (fits : width ≤ 256) {value other : BitVec width} :
    encodeUnsigned value = encodeUnsigned other ↔ value = other := by
  constructor
  · intro same
    have narrowed := congrArg (BitVec.setWidth width) same
    simpa [encodeUnsigned, BitVec.setWidth_setWidth_of_le _ fits] using narrowed
  · exact congrArg encodeUnsigned

@[simp] theorem encodeU8_inj {value other : BitVec 8} :
    encodeU8 value = encodeU8 other ↔ value = other := encodeUnsigned_inj (by decide)

@[simp] theorem encodeU16_inj {value other : BitVec 16} :
    encodeU16 value = encodeU16 other ↔ value = other := encodeUnsigned_inj (by decide)

@[simp] theorem encodeU64_inj {value other : BitVec 64} :
    encodeU64 value = encodeU64 other ↔ value = other := encodeUnsigned_inj (by decide)

@[simp] theorem encodeU128_inj {value other : BitVec 128} :
    encodeU128 value = encodeU128 other ↔ value = other := encodeUnsigned_inj (by decide)

@[simp] theorem encodeAddress_inj {address other : Address} :
    encodeAddress address = encodeAddress other ↔ address = other :=
  encodeUnsigned_inj (by decide)

@[simp] theorem encodeI128_inj {value other : BitVec 128} :
    encodeI128 value = encodeI128 other ↔ value = other := by
  constructor
  · intro same
    have values := congrArg BitVec.toInt same
    simp only [encodeI128, BitVec.toInt_signExtend_of_le (by decide : 128 ≤ 256)] at values
    exact BitVec.eq_of_toInt_eq values
  · exact congrArg encodeI128

@[simp] theorem encodeBool_inj {value other : Bool} :
    encodeBool value = encodeBool other ↔ value = other := by
  revert value other
  decide

theorem widened_inj {value other : BitVec 32} :
    value.setWidth 64 = other.setWidth 64 ↔ value = other := by
  constructor
  · intro same
    simpa using congrArg (BitVec.setWidth 32) same
  · exact congrArg (BitVec.setWidth 64)

theorem chainId_inj {chainId other : BitVec 64} :
    chainId.setWidth 256 = other.setWidth 256 ↔ chainId = other :=
  encodeUnsigned_inj (by decide)

@[simp] theorem timeInForceTag_inj {value other : TimeInForce} :
    value.tag = other.tag ↔ value = other := by
  cases value <;> cases other <;> decide

@[simp] theorem voteOptionTag_inj {value other : VoteOption} :
    value.tag = other.tag ↔ value = other := by
  cases value <;> cases other <;> decide

@[simp] theorem sessionScopeTag_inj {value other : SessionScope} :
    value.tag = other.tag ↔ value = other := by
  cases value <;> cases other <;> decide

theorem option_eq {α : Type} {value other : Option α} {missing : α}
    (values : value.getD missing = other.getD missing) (flags : value.isSome = other.isSome) :
    value = other := by
  cases value <;> cases other <;> simp_all

theorem wordBytes_append_inj {word other : Word} {rest otherRest : List Byte}
    (same : wordBytes word ++ rest = wordBytes other ++ otherRest) :
    word = other ∧ rest = otherRest := by
  have bound : ∀ word : Word, word.toNat < 256 ^ 32 := fun word => word.isLt
  obtain ⟨values, rests⟩ := toBytes_append_inj (bound word) (bound other) same
  exact ⟨BitVec.eq_of_toNat_eq values, rests⟩

theorem wordsBytes_injective {words others : List Word}
    (same : wordsBytes words = wordsBytes others) : words = others := by
  induction words generalizing others with
  | nil =>
    cases others with
    | nil => rfl
    | cons other others =>
      have lengths := congrArg List.length same
      simp only [wordsBytes, wordBytes, List.flatMap_nil, List.flatMap_cons, List.length_nil,
        List.length_append, toBytes_length] at lengths
      omega
  | cons word words ih =>
    cases others with
    | nil =>
      have lengths := congrArg List.length same
      simp [wordsBytes, wordBytes] at lengths
    | cons other others =>
      obtain ⟨heads, tails⟩ := wordBytes_append_inj same
      rw [heads, ih tails]

theorem stringBytes_injective {text other : String}
    (same : stringBytes text = stringBytes other) : text = other := by
  have bytes : text.toByteArray.data.toList = other.toByteArray.data.toList := by
    apply List.map_injective_iff.mpr _ same
    intro byte otherByte equal
    exact UInt8.toBitVec_inj.mp (BitVec.eq_of_toFin_eq equal)
  exact String.toByteArray_inj.mp (ByteArray.ext (Array.toList_inj.mp bytes))

theorem proofBytes_injective {proof other : OracleSignerProof}
    (same : proofBytes proof = proofBytes other) : proof = other := by
  obtain ⟨nonce, v, r, s⟩ := proof
  obtain ⟨otherNonce, otherV, otherR, otherS⟩ := other
  obtain ⟨nonces, rest⟩ := toBytes_append_inj nonce.isLt otherNonce.isLt same
  obtain ⟨vs, words⟩ := toBytes_append_inj v.isLt otherV.isLt rest
  have words := wordsBytes_injective words
  simp only [List.cons.injEq, and_true] at words
  have nonces : nonce = otherNonce := BitVec.eq_of_toNat_eq nonces
  have vs : v = otherV := BitVec.eq_of_toNat_eq vs
  rw [nonces, vs, words.1, words.2]

section

variable {keccak : List Byte → Word}

theorem encodeString_injective {text other : String}
    (apart : Apart keccak 0 (encodeString keccak text).inputs (encodeString keccak other).inputs)
    (same : (encodeString keccak text).value = (encodeString keccak other).value) :
    text = other :=
  stringBytes_injective (apart.call same)

theorem structHash_injective {type otherType : String} {fields otherFields : List Word}
    (apart : Apart keccak 0 (structHash keccak type fields).inputs
      (structHash keccak otherType otherFields).inputs)
    (same : (structHash keccak type fields).value =
      (structHash keccak otherType otherFields).value) :
    type = otherType ∧ fields = otherFields := by
  obtain ⟨types, structs⟩ := apart.bind
  have words := wordsBytes_injective (structs.call same)
  obtain ⟨typeHashes, fields⟩ := List.cons.inj words
  exact ⟨stringBytes_injective (types.call typeHashes), fields⟩

end

end TorusHyperBft.Signing
