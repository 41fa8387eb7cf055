import TorusHyperBft.Bytes

namespace TorusHyperBft.State.Erasure

/-! Erasure-coded bodies: shards under a hash tree, proofs for each of them, and the body back from
any threshold of them. -/

abbrev B256 := BitVec 256

abbrev Shard := List Byte

structure ErasureParams where
  k : Nat
  n : Nat
deriving DecidableEq

inductive ErasureError where
  | badParams (k n : Nat)
  | insufficientShards (have' need : Nat)
  | proofMismatch (index : Nat)
  | backend (reason : String)
deriving DecidableEq

def ErasureParams.validate (params : ErasureParams) : Except ErasureError Unit :=
  if params.k = 0 ∨ params.n = 0 ∨ params.k > params.n ∨ params.n > 255 then
    .error (.badParams params.k params.n)
  else .ok ()

structure ShardProof where
  siblings : List B256
deriving DecidableEq

structure EncodedBody where
  shards : List Shard
  erasureRoot : B256
  shardLen : Nat
  bodyLen : Nat
  params : ErasureParams
deriving DecidableEq

section Tree

variable (keccak : List Byte → B256)

def leafInput (index : Nat) (shard : Shard) : List Byte :=
  0 :: (toBytes 4 (index % 2 ^ 32) ++ shard)

def leafHash (index : Nat) (shard : Shard) : B256 := keccak (leafInput index shard)

def nodeInput (left right : B256) : List Byte :=
  1 :: (toBytes 32 left.toNat ++ toBytes 32 right.toNat)

def nodeHash (left right : B256) : B256 := keccak (nodeInput left right)

def nextLevel : List B256 → List B256
  | left :: right :: rest => nodeHash keccak left right :: nextLevel rest
  | [left] => [nodeHash keccak left left]
  | [] => []

def levelsFrom : Nat → List B256 → List (List B256)
  | 0, level => [level]
  | fuel + 1, level =>
    if level.length > 1 then level :: levelsFrom fuel (nextLevel keccak level) else [level]

def leaves (shards : List Shard) : List B256 :=
  shards.zipIdx.map fun entry => leafHash keccak entry.2 entry.1

def merkleLevels (shards : List Shard) : List (List B256) :=
  levelsFrom keccak shards.length (leaves keccak shards)

def merkleRoot (shards : List Shard) : B256 :=
  match (merkleLevels keccak shards).getLast? with
  | some (root :: _) => root
  | _ => 0

/-- The right neighbour, or the node itself when it is the last; on the right the left neighbour. -/
def siblingOf (level : List B256) (index : Nat) : B256 :=
  if index % 2 = 0 then
    if index + 1 < level.length then level.getD (index + 1) 0 else level.getD index 0
  else level.getD (index - 1) 0

def siblingsFrom : List (List B256) → Nat → List B256
  | [], _ => []
  | [_], _ => []
  | level :: next :: rest, index => siblingOf level index :: siblingsFrom (next :: rest) (index / 2)

def merkleProof (shards : List Shard) (index : Nat) : ShardProof :=
  ⟨siblingsFrom (merkleLevels keccak shards) index⟩

def walk : List B256 → Nat → B256 → B256
  | [], _, hash => hash
  | sibling :: siblings, index, hash =>
    walk siblings (index / 2)
      (if index % 2 = 0 then nodeHash keccak hash sibling else nodeHash keccak sibling hash)

def verifyShard (erasureRoot : B256) (index : Nat) (shard : Shard) (proof : ShardProof) : Bool :=
  walk keccak proof.siblings index (leafHash keccak index shard) = erasureRoot

end Tree

structure ReedSolomon where
  encode : List Shard → Except String (List Shard)
  reconstruct : List (Option Shard) → Except String (List (Option Shard))

section Codec

variable (keccak : List Byte → B256) (newCodec : Nat → Nat → Except String ReedSolomon)

def dataShard (body : List Byte) (shardLen index : Nat) : Shard :=
  let part := (body.drop (index * shardLen)).take shardLen
  part ++ List.replicate (shardLen - part.length) 0

def shardLenOf (body : List Byte) (k : Nat) : Nat := max ((body.length + k - 1) / k) 1

def plainShards (body : List Byte) (params : ErasureParams) : List Shard :=
  (List.range params.k).map (dataShard body (shardLenOf body params.k)) ++
    List.replicate (params.n - params.k) (List.replicate (shardLenOf body params.k) 0)

def backendError {α : Type} : Except String α → Except ErasureError α
  | .ok value => .ok value
  | .error reason => .error (.backend reason)

def encode (body : List Byte) (params : ErasureParams) : Except ErasureError EncodedBody := do
  params.validate
  let rs ← backendError (newCodec params.k (params.n - params.k))
  let shards ← backendError (rs.encode (plainShards body params))
  .ok
    { shards := shards
      erasureRoot := merkleRoot keccak shards
      shardLen := shardLenOf body params.k
      bodyLen := body.length
      params := params }

def EncodedBody.proof (encoded : EncodedBody) (index : Nat) : ShardProof :=
  merkleProof keccak encoded.shards index

def gather : List (Option Shard) → Except ErasureError (List Byte)
  | [] => .ok []
  | none :: _ => .error (.backend "data shard still missing post-reconstruct")
  | some shard :: slots => do .ok (shard ++ (← gather slots))

def present (shards : List (Option Shard)) : Nat := shards.countP Option.isSome

def reconstruct (shards : List (Option Shard)) (params : ErasureParams) (bodyLen : Nat) :
    Except ErasureError (List Byte) := do
  params.validate
  if present shards < params.k then .error (.insufficientShards (present shards) params.k)
  else if shards.length ≠ params.n then
    .error (.backend s!"expected {params.n} shard slots, got {shards.length}")
  else
    let rs ← backendError (newCodec params.k (params.n - params.k))
    let slots ← backendError (rs.reconstruct shards)
    let body ← gather (slots.take params.k)
    .ok (body.take bodyLen)

end Codec

end TorusHyperBft.State.Erasure
