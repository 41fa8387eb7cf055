import TorusHyperBft.State.Erasure
import TorusHyperBft.Keccak

namespace TorusHyperBft.State.Erasure

open List

/-! Shards proved against the root, and the body back from enough of them. -/

variable {shard : Shard}

section Tree

variable {keccak : List Byte → B256}

def levelInputs : List B256 → List (List Byte)
  | left :: right :: rest => nodeInput left right :: levelInputs rest
  | [left] => [nodeInput left left]
  | [] => []

def inputsFrom (keccak : List Byte → B256) : Nat → List B256 → List (List Byte)
  | 0, _ => []
  | fuel + 1, level =>
    if level.length > 1 then
      levelInputs level ++ inputsFrom keccak fuel (nextLevel keccak level)
    else []

def leafInputs (shards : List Shard) : List (List Byte) :=
  shards.zipIdx.map fun entry => leafInput entry.2 entry.1

def treeInputs (keccak : List Byte → B256) (shards : List Shard) : List (List Byte) :=
  leafInputs shards ++ inputsFrom keccak shards.length (leaves keccak shards)

def stepInput (index : Nat) (hash sibling : B256) : List Byte :=
  if index % 2 = 0 then nodeInput hash sibling else nodeInput sibling hash

def walkInputs (keccak : List Byte → B256) : List B256 → Nat → B256 → List (List Byte)
  | [], _, _ => []
  | sibling :: siblings, index, hash =>
    stepInput index hash sibling ::
      walkInputs keccak siblings (index / 2) (keccak (stepInput index hash sibling))

def checkInputs (keccak : List Byte → B256) (index : Nat) (shard : Shard) (proof : ShardProof) :
    List (List Byte) :=
  leafInput index shard ::
    walkInputs keccak proof.siblings index (leafHash keccak index shard)

theorem walk_cons (sibling : B256) (siblings : List B256) (index : Nat) (hash : B256) :
    walk keccak (sibling :: siblings) index hash =
      walk keccak siblings (index / 2) (keccak (stepInput index hash sibling)) := by
  rw [walk]
  by_cases even : index % 2 = 0 <;> simp [stepInput, nodeHash, even]

theorem nextLevel_eq (level : List B256) :
    nextLevel keccak level = (levelInputs level).map keccak := by
  induction level using nextLevel.induct with
  | case1 left right rest ih => simp [nextLevel, levelInputs, nodeHash, ih]
  | case2 left => simp [nextLevel, levelInputs, nodeHash]
  | case3 => rfl

theorem length_nextLevel (keccak : List Byte → B256) (level : List B256) :
    (nextLevel keccak level).length = (level.length + 1) / 2 := by
  induction level using nextLevel.induct with
  | case1 left right rest ih =>
    simp only [nextLevel, length_cons, ih]
    omega
  | case2 left => simp [nextLevel]
  | case3 => simp [nextLevel]

variable {level : List B256}

theorem mem_levelInputs {input : List Byte} (member : input ∈ levelInputs level) :
    ∃ left ∈ level, ∃ right ∈ level, input = nodeInput left right := by
  induction level using levelInputs.induct with
  | case1 left right rest ih =>
    rcases mem_cons.mp member with rfl | later
    · exact ⟨left, by simp, right, by simp, rfl⟩
    · obtain ⟨first, firstIn, second, secondIn, same⟩ := ih later
      exact ⟨first, by simp [firstIn], second, by simp [secondIn], same⟩
  | case2 left => exact ⟨left, by simp, left, by simp, by simpa [levelInputs] using member⟩
  | case3 => simp [levelInputs] at member

variable {index : Nat}

theorem getD_nextLevel (inside : index < level.length) :
    (nextLevel keccak level).getD (index / 2) 0 =
      keccak (stepInput index (level.getD index 0) (siblingOf level index)) := by
  induction level using nextLevel.induct generalizing index with
  | case1 left right rest ih =>
    match index with
    | 0 => simp [nextLevel, stepInput, siblingOf, nodeHash]
    | 1 => simp [nextLevel, stepInput, siblingOf, nodeHash]
    | index + 2 =>
      have deeper := @ih index (by simpa using inside)
      have half : (index + 2) / 2 = index / 2 + 1 := by omega
      have parity : (index + 2) % 2 = index % 2 := by omega
      have sibling : siblingOf (left :: right :: rest) (index + 2) = siblingOf rest index := by
        by_cases even : index % 2 = 0
        · have bound : index + 2 + 1 < (left :: right :: rest).length ↔
              index + 1 < rest.length := by
            rw [length_cons, length_cons]
            omega
          simp only [siblingOf, parity, even, if_true, bound]
          rfl
        · obtain ⟨before, rfl⟩ : ∃ before, index = before + 1 := ⟨index - 1, by omega⟩
          simp [siblingOf, even]
      rw [half, nextLevel, getD_cons_succ, deeper, sibling]
      simp [stepInput, parity]
  | case2 left =>
    have first : index = 0 := by simpa using inside
    subst first
    simp [nextLevel, stepInput, siblingOf, nodeHash]
  | case3 => simp at inside

def topOf (levels : List (List B256)) : B256 := (levels.getLast?.getD []).headD 0

theorem levelsFrom_ne_nil (keccak : List Byte → B256) (fuel : Nat) (level : List B256) :
    levelsFrom keccak fuel level ≠ [] := by
  cases fuel with
  | zero => simp [levelsFrom]
  | succ fuel =>
    rw [levelsFrom]
    split <;> simp

theorem topOf_cons {levels : List (List B256)} (more : levels ≠ []) :
    topOf (level :: levels) = topOf levels := by
  obtain ⟨first, rest, rfl⟩ := exists_cons_of_ne_nil more
  simp [topOf]

theorem walk_siblingsFrom (keccak : List Byte → B256) {fuel : Nat} {level : List B256} {index : Nat}
    (enough : level.length ≤ fuel + 1) (inside : index < level.length) :
    walk keccak (siblingsFrom (levelsFrom keccak fuel level) index) index (level.getD index 0) =
      topOf (levelsFrom keccak fuel level) := by
  induction fuel generalizing level index with
  | zero =>
    obtain ⟨node, rfl⟩ := length_eq_one_iff.mp (by omega : level.length = 1)
    have first : index = 0 := by simpa using inside
    simp [levelsFrom, siblingsFrom, walk, topOf, first]
  | succ fuel ih =>
    rw [levelsFrom]
    split
    case isTrue wide =>
      have length := length_nextLevel keccak level
      have upper := @ih (nextLevel keccak level) (index / 2) (by omega) (by omega)
      obtain ⟨next, rest, shape⟩ :=
        exists_cons_of_ne_nil (levelsFrom_ne_nil keccak fuel (nextLevel keccak level))
      rw [topOf_cons (levelsFrom_ne_nil keccak fuel _), ← upper, getD_nextLevel inside, shape,
        siblingsFrom, walk_cons]
    case isFalse narrow =>
      obtain ⟨node, rfl⟩ := length_eq_one_iff.mp (by omega : level.length = 1)
      have first : index = 0 := by simpa using inside
      simp [siblingsFrom, walk, topOf, first]

theorem merkleRoot_eq (shards : List Shard) :
    merkleRoot keccak shards = topOf (merkleLevels keccak shards) := by
  rw [merkleRoot, topOf]
  rcases (merkleLevels keccak shards).getLast? with _ | (_ | ⟨root, nodes⟩) <;> rfl

@[simp] theorem length_leaves (shards : List Shard) :
    (leaves keccak shards).length = shards.length := by simp [leaves]

variable {shards : List Shard}

theorem getD_leaves (found : shards[index]? = some shard) :
    (leaves keccak shards).getD index 0 = leafHash keccak index shard := by
  simp [leaves, getD_eq_getElem?_getD, List.getElem?_zipIdx, found]

theorem verifyShard_merkleProof (found : shards[index]? = some shard) :
    verifyShard keccak (merkleRoot keccak shards) index shard (merkleProof keccak shards index) =
      true := by
  have inside : index < (leaves keccak shards).length := by
    rw [length_leaves]
    exact (List.getElem?_eq_some_iff.mp found).1
  have up := @walk_siblingsFrom keccak shards.length _ index (by simp) inside
  rw [getD_leaves found] at up
  rw [verifyShard, decide_eq_true_eq, merkleRoot_eq]
  exact up

/-- The hash is on one of the levels. -/
def OnLevel (levels : List (List B256)) (hash : B256) : Prop := ∃ level ∈ levels, hash ∈ level

theorem OnLevel.cons {level : List B256} {levels : List (List B256)} {hash : B256}
    (above : OnLevel levels hash) : OnLevel (level :: levels) hash := by
  obtain ⟨found, member, inside⟩ := above
  exact ⟨found, mem_cons_of_mem _ member, inside⟩

theorem onLevel_top {fuel : Nat} {level : List B256} (some' : level ≠ []) :
    OnLevel (levelsFrom keccak fuel level) (topOf (levelsFrom keccak fuel level)) := by
  have alone : ∀ {nodes : List B256}, nodes ≠ [] → OnLevel [nodes] (topOf [nodes]) := by
    intro nodes more
    obtain ⟨first, rest, rfl⟩ := exists_cons_of_ne_nil more
    exact ⟨first :: rest, by simp, by simp [topOf]⟩
  induction fuel generalizing level with
  | zero => exact alone some'
  | succ fuel ih =>
    rw [levelsFrom]
    split
    case isTrue wide =>
      have next : nextLevel keccak level ≠ [] := by
        apply ne_nil_of_length_pos
        rw [length_nextLevel]
        omega
      rw [topOf_cons (levelsFrom_ne_nil keccak fuel _)]
      exact (ih next).cons
    case isFalse narrow => exact alone some'

theorem onLevel_cases {fuel : Nat} {hash : B256}
    (found : OnLevel (levelsFrom keccak fuel level) hash) :
    hash ∈ level ∨ ∃ left right, OnLevel (levelsFrom keccak fuel level) left ∧
      OnLevel (levelsFrom keccak fuel level) right ∧
      nodeInput left right ∈ inputsFrom keccak fuel level ∧
      hash = keccak (nodeInput left right) := by
  induction fuel generalizing level with
  | zero =>
    obtain ⟨nodes, member, inside⟩ := found
    obtain rfl : nodes = level := by simpa [levelsFrom] using member
    exact .inl inside
  | succ fuel ih =>
    by_cases wide : level.length > 1
    case neg =>
      obtain ⟨nodes, member, inside⟩ := found
      obtain rfl : nodes = level := by simpa [levelsFrom, wide] using member
      exact .inl inside
    case pos =>
      simp only [levelsFrom, inputsFrom, wide, if_true] at found ⊢
      obtain ⟨nodes, member, inside⟩ := found
      rcases mem_cons.mp member with rfl | above
      · exact .inl inside
      · rcases ih ⟨nodes, above, inside⟩ with next | ⟨left, right, onLeft, onRight, hashed, same⟩
        · rw [nextLevel_eq, mem_map] at next
          obtain ⟨input, taken, rfl⟩ := next
          obtain ⟨left, leftIn, right, rightIn, rfl⟩ := mem_levelInputs taken
          exact .inr ⟨left, right, ⟨level, by simp, leftIn⟩, ⟨level, by simp, rightIn⟩,
            mem_append_left _ taken, rfl⟩
        · exact .inr ⟨left, right, onLeft.cons, onRight.cons, mem_append_right _ hashed, same⟩

theorem nodeInput_inj {left right other another : B256}
    (same : nodeInput left right = nodeInput other another) : left = other ∧ right = another := by
  have fits : ∀ word : B256, word.toNat < 256 ^ 32 := fun word => by
    have bound := word.isLt
    omega
  obtain ⟨leftSame, rest⟩ :=
    toBytes_append_inj (fits left) (fits other) (List.cons.inj same).2
  have rightSame := toBytes_append_inj (fits right) (fits another)
    (by rw [rest] : toBytes 32 right.toNat ++ [] = toBytes 32 another.toNat ++ [])
  exact ⟨BitVec.eq_of_toNat_eq leftSame, BitVec.eq_of_toNat_eq rightSame.1⟩

theorem leafInput_ne_nodeInput (index : Nat) (shard : Shard) (left right : B256) :
    leafInput index shard ≠ nodeInput left right := by
  intro same
  exact absurd (List.cons.inj same).1 (by decide)

theorem leafInput_inj {index other : Nat} {shard another : Shard} (low : index < 2 ^ 32)
    (otherLow : other < 2 ^ 32) (same : leafInput index shard = leafInput other another) :
    index = other ∧ shard = another := by
  have tails := (List.cons.inj same).2
  rw [Nat.mod_eq_of_lt low, Nat.mod_eq_of_lt otherLow] at tails
  exact toBytes_append_inj (by omega) (by omega) tails

theorem stepInput_eq (index : Nat) (hash sibling : B256) : ∃ left right,
    stepInput index hash sibling = nodeInput left right ∧ (hash = left ∨ hash = right) := by
  rw [stepInput]
  split
  · exact ⟨hash, sibling, rfl, .inl rfl⟩
  · exact ⟨sibling, hash, rfl, .inr rfl⟩

theorem mem_leaves {hash : B256} (member : hash ∈ leaves keccak shards) :
    ∃ index shard, shards[index]? = some shard ∧ leafInput index shard ∈ leafInputs shards ∧
      hash = keccak (leafInput index shard) := by
  obtain ⟨⟨shard, index⟩, entry, rfl⟩ := mem_map.mp member
  exact ⟨index, shard, mem_zipIdx_iff_getElem?.mp entry, mem_map_of_mem entry, rfl⟩

/-- No two of these inputs have the same hash. -/
def CollisionFree (keccak : List Byte → B256) (inputs : List (List Byte)) : Prop :=
  ∀ input ∈ inputs, ∀ other ∈ inputs, keccak input = keccak other → input = other

section Sound

variable {shards : List Shard} {checked : List (List Byte)}
  (free : CollisionFree keccak (treeInputs keccak shards ++ checked))

include free

theorem onLevel_node {hash sibling : B256} (hashed : stepInput index hash sibling ∈ checked)
    (found : OnLevel (merkleLevels keccak shards) (keccak (stepInput index hash sibling))) :
    OnLevel (merkleLevels keccak shards) hash := by
  have met : stepInput index hash sibling ∈ treeInputs keccak shards ++ checked :=
    mem_append_right _ hashed
  obtain ⟨first, second, shape, side⟩ := stepInput_eq index hash sibling
  rcases onLevel_cases found with bottom | ⟨left, right, onLeft, onRight, inTree, same⟩
  · obtain ⟨position, shard, -, inTree, same⟩ := mem_leaves bottom
    have equal := free _ met _ (by simp [treeInputs, inTree]) same
    exact absurd (equal.symm.trans shape) (leafInput_ne_nodeInput _ _ _ _)
  · have equal := free _ met _ (by simp [treeInputs, inTree]) same
    obtain ⟨rfl, rfl⟩ := nodeInput_inj (shape.symm.trans equal)
    rcases side with rfl | rfl
    · exact onLeft
    · exact onRight

theorem onLevel_of_walk {siblings : List B256} {hash : B256}
    (hashed : walkInputs keccak siblings index hash ⊆ checked)
    (found : OnLevel (merkleLevels keccak shards) (walk keccak siblings index hash)) :
    OnLevel (merkleLevels keccak shards) hash := by
  induction siblings generalizing index hash with
  | nil => exact found
  | cons sibling siblings ih =>
    rw [walk_cons] at found
    have above := ih (fun input member => hashed (mem_cons_of_mem _ member)) found
    exact onLevel_node free (hashed mem_cons_self) above

theorem onLevel_leaf (few : shards.length ≤ 2 ^ 32)
    (low : index < 2 ^ 32) (hashed : leafInput index shard ∈ checked)
    (found : OnLevel (merkleLevels keccak shards) (leafHash keccak index shard)) :
    shards[index]? = some shard := by
  have met : leafInput index shard ∈ treeInputs keccak shards ++ checked :=
    mem_append_right _ hashed
  rcases onLevel_cases found with bottom | ⟨left, right, -, -, inTree, same⟩
  · obtain ⟨position, other, held, inTree, same⟩ := mem_leaves bottom
    have equal := free _ met _ (by simp [treeInputs, inTree]) same
    have within := (List.getElem?_eq_some_iff.mp held).1
    obtain ⟨rfl, rfl⟩ := leafInput_inj low (by omega) equal
    exact held
  · have equal := free _ met _ (by simp [treeInputs, inTree]) same
    exact absurd equal (leafInput_ne_nodeInput _ _ _ _)

end Sound

/-- Unless hashes collide, an accepted proof is of the shard at its index. -/
theorem verifyShard_sound {proof : ShardProof}
    (some' : shards ≠ []) (few : shards.length ≤ 2 ^ 32) (low : index < 2 ^ 32)
    (free : CollisionFree keccak
      (treeInputs keccak shards ++ checkInputs keccak index shard proof))
    (accepted : verifyShard keccak (merkleRoot keccak shards) index shard proof = true) :
    shards[index]? = some shard := by
  rw [verifyShard, decide_eq_true_eq, merkleRoot_eq] at accepted
  have bottom : leaves keccak shards ≠ [] := by
    apply ne_nil_of_length_pos
    rw [length_leaves]
    exact length_pos_of_ne_nil some'
  have top := @onLevel_top keccak shards.length _ bottom
  rw [← merkleLevels, ← accepted] at top
  have start := onLevel_of_walk free (fun input member => mem_cons_of_mem _ member) top
  exact onLevel_leaf free few low mem_cons_self start

end Tree

section Codec

/-- A slot is empty or has its own shard. -/
def Sparse (slots : List (Option Shard)) (shards : List Shard) : Prop :=
  List.Forall₂ (fun slot shard => slot = none ∨ slot = some shard) slots shards

/-- The data shards stay as they are, and any `k` of the coded shards give all of them back. -/
def Systematic (rs : ReedSolomon) (params : ErasureParams) : Prop :=
  ∀ shards width, shards.length = params.n → 0 < width → (∀ shard ∈ shards, shard.length = width) →
    ∃ coded, rs.encode shards = .ok coded ∧ coded.length = params.n ∧
      coded.take params.k = shards.take params.k ∧
      ∀ slots, Sparse slots coded → params.k ≤ present slots →
        rs.reconstruct slots = .ok (coded.map some)

/-- The backend refuses a codec without parity shards, and is systematic with some. -/
structure Documented (newCodec : Nat → Nat → Except String ReedSolomon) (params : ErasureParams) :
    Prop where
  noParity : params.n - params.k = 0 → ∃ reason, newCodec params.k 0 = .error reason
  parity : 0 < params.k → 0 < params.n - params.k → params.n ≤ 255 →
    ∃ rs, newCodec params.k (params.n - params.k) = .ok rs ∧ Systematic rs params

variable {keccak : List Byte → B256} {newCodec : Nat → Nat → Except String ReedSolomon}
  {body : List Byte} {params : ErasureParams}

theorem validate_eq : params.validate = .ok () ↔
    0 < params.k ∧ params.k ≤ params.n ∧ params.n ≤ 255 := by
  rw [ErasureParams.validate]
  split
  case isTrue bad =>
    simp only [reduceCtorEq, false_iff]
    omega
  case isFalse good =>
    simp only [true_iff]
    omega

theorem length_dataShard (shardLen index : Nat) :
    (dataShard body shardLen index).length = shardLen := by
  simp only [dataShard, length_append, length_replicate, length_take]
  omega

theorem flatten_dataShards (shardLen count : Nat) :
    ((List.range count).map (dataShard body shardLen)).flatten =
      body.take (count * shardLen) ++ List.replicate (count * shardLen - body.length) 0 := by
  induction count with
  | zero => simp
  | succ count ih =>
    rw [range_succ, map_append, flatten_append, ih]
    simp only [map_cons, map_nil, flatten_cons, flatten_nil, append_nil,
      dataShard, length_take, length_drop, Nat.succ_mul]
    by_cases short : body.length ≤ count * shardLen
    · have later : body.drop (count * shardLen) = [] := drop_eq_nil_of_le short
      have pad : count * shardLen + shardLen - body.length =
          (count * shardLen - body.length) + shardLen := by omega
      rw [later, take_nil, nil_append, take_of_length_le short,
        take_of_length_le (by omega), pad, append_assoc, replicate_append_replicate]
      congr 3
      omega
    · have none' : count * shardLen - body.length = 0 := by omega
      rw [none', replicate_zero, append_nil, ← append_assoc, ← take_add]
      congr 2
      omega

theorem body_le_shards (positive : 0 < params.k) :
    body.length ≤ params.k * shardLenOf body params.k := by
  have ceiling : body.length ≤ params.k * ((body.length + params.k - 1) / params.k) := by
    have split := Nat.div_add_mod (body.length + params.k - 1) params.k
    have low := Nat.mod_lt (body.length + params.k - 1) positive
    omega
  exact ceiling.trans (Nat.mul_le_mul_left _ (Nat.le_max_left _ _))

theorem take_flatten_dataShards (positive : 0 < params.k) :
    ((List.range params.k).map (dataShard body (shardLenOf body params.k))).flatten.take
      body.length = body := by
  rw [flatten_dataShards, take_of_length_le (body_le_shards positive), take_left]

theorem length_plainShards (fits : params.k ≤ params.n) :
    (plainShards body params).length = params.n := by
  simp only [plainShards, length_append, length_map, length_range,
    length_replicate]
  omega

theorem width_plainShards (member : shard ∈ plainShards body params) :
    shard.length = shardLenOf body params.k := by
  rcases mem_append.mp member with data | parity
  · obtain ⟨index, -, rfl⟩ := mem_map.mp data
    exact length_dataShard _ _
  · rw [(mem_replicate.mp parity).2, length_replicate]

theorem take_plainShards : (plainShards body params).take params.k =
    (List.range params.k).map (dataShard body (shardLenOf body params.k)) := by
  rw [plainShards, List.take_left']
  simp

theorem gather_some (shards : List Shard) : gather (shards.map some) = .ok shards.flatten := by
  induction shards with
  | nil => rfl
  | cons shard shards ih =>
    rw [map_cons, gather, ih]
    rfl

theorem reconstruct_few {slots : List (Option Shard)} {bodyLen : Nat}
    (valid : params.validate = .ok ()) (few : present slots < params.k) :
    reconstruct newCodec slots params bodyLen =
      .error (.insufficientShards (present slots) params.k) := by
  simp only [reconstruct, valid, few, if_true]
  rfl

theorem encode_eq {rs : ReedSolomon} {coded : List Shard} (valid : params.validate = .ok ())
    (codec : newCodec params.k (params.n - params.k) = .ok rs)
    (encodes : rs.encode (plainShards body params) = .ok coded) :
    encode keccak newCodec body params =
      .ok ⟨coded, merkleRoot keccak coded, shardLenOf body params.k, body.length, params⟩ := by
  rw [encode, valid, codec]
  change (backendError (rs.encode (plainShards body params)) >>= _) = _
  rw [encodes]
  rfl

theorem reconstruct_eq {rs : ReedSolomon} {slots : List (Option Shard)} {coded : List Shard}
    {bodyLen : Nat} (valid : params.validate = .ok ()) (enough : params.k ≤ present slots)
    (slotCount : slots.length = params.n)
    (codec : newCodec params.k (params.n - params.k) = .ok rs)
    (decodes : rs.reconstruct slots = .ok (coded.map some)) :
    reconstruct newCodec slots params bodyLen =
      .ok ((coded.take params.k).flatten.take bodyLen) := by
  rw [reconstruct, valid, codec, if_neg (Nat.not_lt.mpr enough), if_neg (not_not.mpr slotCount)]
  change (backendError (rs.reconstruct slots) >>= _) = _
  rw [decodes]
  change (gather ((coded.map some).take params.k) >>= _) = _
  rw [← map_take, gather_some]
  rfl

/-- The shards, the proofs and the body of an encoding belong together. -/
structure Exact (keccak : List Byte → B256) (newCodec : Nat → Nat → Except String ReedSolomon)
    (body : List Byte) (params : ErasureParams) (encoded : EncodedBody) : Prop where
  proved : ∀ index < params.n, ∃ shard, encoded.shards[index]? = some shard ∧
    verifyShard keccak encoded.erasureRoot index shard (encoded.proof keccak index) = true
  sound : ∀ index < 2 ^ 32, ∀ shard proof,
    CollisionFree keccak
      (treeInputs keccak encoded.shards ++ checkInputs keccak index shard proof) →
    verifyShard keccak encoded.erasureRoot index shard proof = true →
    index < params.n ∧ encoded.shards[index]? = some shard
  rebuilt : ∀ slots, Sparse slots encoded.shards → params.k ≤ present slots →
    reconstruct newCodec slots params body.length = .ok body
  tooFew : ∀ slots, Sparse slots encoded.shards → present slots < params.k →
    reconstruct newCodec slots params body.length =
      .error (.insufficientShards (present slots) params.k)

theorem exact_of_parity (valid : params.validate = .ok ()) (documented : Documented newCodec params)
    (parity : params.k < params.n) :
    ∃ encoded, encode keccak newCodec body params = .ok encoded ∧
      Exact keccak newCodec body params encoded := by
  obtain ⟨positive, fits, bound⟩ := validate_eq.mp valid
  obtain ⟨rs, codec, systematic⟩ := documented.parity positive (by omega) bound
  obtain ⟨coded, encodes, length, data, decodes⟩ := systematic (plainShards body params)
    (shardLenOf body params.k) (length_plainShards fits) (Nat.le_max_right _ _)
    fun shard member => width_plainShards member
  have some' : coded ≠ [] := ne_nil_of_length_pos (by omega)
  refine ⟨_, encode_eq valid codec encodes, ?_⟩
  constructor
  case proved =>
    intro index inside
    have found : coded[index]? = some (coded.get ⟨index, by omega⟩) := List.getElem?_eq_getElem _
    exact ⟨_, found, verifyShard_merkleProof found⟩
  case sound =>
    intro index low shard proof free accepted
    have found : coded[index]? = some shard :=
      verifyShard_sound some' (by omega) low free accepted
    have inside := (List.getElem?_eq_some_iff.mp found).1
    exact ⟨length ▸ inside, found⟩
  case rebuilt =>
    intro slots sparse enough
    rw [reconstruct_eq valid enough (sparse.length_eq.trans length) codec
      (decodes slots sparse enough), data, take_plainShards, take_flatten_dataShards positive]
  case tooFew =>
    intro slots sparse few
    exact reconstruct_few valid few

/-- Encoding succeeds with exact shards when there is a parity shard, and only then. -/
theorem encode_exact_iff (valid : params.validate = .ok ())
    (documented : Documented newCodec params) :
    (∃ encoded, encode keccak newCodec body params = .ok encoded ∧
      Exact keccak newCodec body params encoded) ↔ params.k < params.n := by
  constructor
  · rintro ⟨encoded, encodes, -⟩
    by_contra noParity
    obtain ⟨reason, refused⟩ := documented.noParity (by omega)
    have zero : params.n - params.k = 0 := by omega
    simp only [encode, valid, zero, refused, backendError] at encodes
    exact absurd encodes (by rintro ⟨⟩)
  · exact exact_of_parity valid documented

def mirror : ReedSolomon where
  encode shards := .ok (shards.map fun _ => shards.headD [])
  reconstruct slots :=
    match (slots.filterMap id).head? with
    | some shard => .ok (slots.map fun _ => some shard)
    | none => .error "The number of provided shards is smaller than the one in codec"

def mirrorCodec (_ parity : Nat) : Except String ReedSolomon :=
  if parity = 0 then
    .error "The number of provided parity shards is smaller than the one in codec"
  else .ok mirror

theorem mirror_systematic : Systematic mirror ⟨1, 2⟩ := by
  intro shards width length positive same
  obtain ⟨first, second, rfl⟩ := length_eq_two.mp length
  refine ⟨[first, first], rfl, rfl, rfl, ?_⟩
  intro slots sparse enough
  obtain _ | ⟨one, _ | ⟨two, _ | _⟩⟩ := sparse
  rcases one with rfl | rfl <;> rcases two with rfl | rfl
  · exact absurd enough (by simp [present])
  · rfl
  · rfl
  · rfl

theorem mirrorCodec_documented : Documented mirrorCodec ⟨1, 2⟩ where
  noParity none' := absurd none' (by decide)
  parity _ _ _ := ⟨mirror, rfl, mirror_systematic⟩

theorem encode_exact_iff_mirror : ErasureParams.validate ⟨1, 2⟩ = .ok () ∧
    ((∃ encoded, encode keccak256 mirrorCodec [7, 9] ⟨1, 2⟩ = .ok encoded ∧
      Exact keccak256 mirrorCodec [7, 9] ⟨1, 2⟩ encoded) ↔ 1 < 2) :=
  ⟨rfl, encode_exact_iff rfl mirrorCodec_documented⟩

/-- A lone validator's parameters pass the check, and nothing can be encoded under them. -/
theorem encode_without_parity : ErasureParams.validate ⟨1, 1⟩ = .ok () ∧
    Documented mirrorCodec ⟨1, 1⟩ ∧
    ¬ ∃ encoded, encode keccak256 mirrorCodec [7, 9] ⟨1, 1⟩ = .ok encoded ∧
      Exact keccak256 mirrorCodec [7, 9] ⟨1, 1⟩ encoded := by
  refine ⟨rfl, ⟨fun _ => ⟨_, rfl⟩, fun _ none' => absurd none' (by decide)⟩, ?_⟩
  rintro ⟨encoded, encodes, -⟩
  exact absurd encodes (by rintro ⟨⟩)

end Codec

end TorusHyperBft.State.Erasure
