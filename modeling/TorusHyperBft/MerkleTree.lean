import TorusHyperBft.State.Flat

namespace TorusHyperBft

/-! Complete binary hash trees over leaves by index.

A node is named by its height over the leaves and its index among the nodes of that height. -/

universe u

variable {Hash : Type u}

namespace MerkleTree

def node (pair : Hash → Hash → Hash) (leaf : Nat → Hash) : Nat → Nat → Hash
  | 0, index => leaf index
  | height + 1, index =>
    pair (node pair leaf height (2 * index)) (node pair leaf height (2 * index + 1))

def defaultNode (pair : Hash → Hash → Hash) (empty : Hash) : Nat → Hash
  | 0 => empty
  | height + 1 => pair (defaultNode pair empty height) (defaultNode pair empty height)

/-- The leaf hangs below this node. -/
def Under (height index leaf : Nat) : Prop := leaf / 2 ^ height = index

theorem under_zero {index leaf : Nat} : Under 0 index leaf ↔ leaf = index := by
  simp [Under]

theorem under_succ {height index leaf : Nat} : Under (height + 1) index leaf ↔
    Under height (2 * index) leaf ∨ Under height (2 * index + 1) leaf := by
  unfold Under
  rw [Nat.pow_succ, ← Nat.div_div_eq_div_mul]
  omega

section Nodes

variable {pair : Hash → Hash → Hash} {empty : Hash} {leaf other : Nat → Hash} {height index : Nat}

theorem node_congr (same : ∀ bucket, Under height index bucket → leaf bucket = other bucket) :
    node pair leaf height index = node pair other height index := by
  induction height generalizing index with
  | zero => exact same index (under_zero.mpr rfl)
  | succ height ih =>
    have left := @ih (2 * index) fun bucket inside => same bucket (under_succ.mpr (.inl inside))
    have right := @ih (2 * index + 1) fun bucket inside =>
      same bucket (under_succ.mpr (.inr inside))
    simp only [node, left, right]

theorem node_empty (isEmpty : ∀ bucket, Under height index bucket → leaf bucket = empty) :
    node pair leaf height index = defaultNode pair empty height := by
  induction height generalizing index with
  | zero => exact isEmpty index (under_zero.mpr rfl)
  | succ height ih =>
    have left := @ih (2 * index) fun bucket inside =>
      isEmpty bucket (under_succ.mpr (.inl inside))
    have right := @ih (2 * index + 1) fun bucket inside =>
      isEmpty bucket (under_succ.mpr (.inr inside))
    simp only [node, defaultNode, left, right]

/-- No two pairs of nodes below this height have the same hash. -/
def PairsApart (pair : Hash → Hash → Hash) (leaf other : Nat → Hash) (height : Nat) : Prop :=
  ∀ below < height, ∀ index place,
    pair (node pair leaf below (2 * index)) (node pair leaf below (2 * index + 1)) =
        pair (node pair other below (2 * place)) (node pair other below (2 * place + 1)) →
      node pair leaf below (2 * index) = node pair other below (2 * place) ∧
        node pair leaf below (2 * index + 1) = node pair other below (2 * place + 1)

theorem node_inj (apart : PairsApart pair leaf other height)
    (same : node pair leaf height index = node pair other height index) :
    ∀ bucket, Under height index bucket → leaf bucket = other bucket := by
  induction height generalizing index with
  | zero =>
    intro bucket inside
    rw [under_zero.mp inside]
    exact same
  | succ height ih =>
    have lower : PairsApart pair leaf other height := fun below less =>
      apart below (Nat.lt_succ_of_lt less)
    obtain ⟨left, right⟩ := apart height (Nat.lt_succ_self height) index index same
    intro bucket inside
    rcases under_succ.mp inside with inside | inside
    · exact ih lower left bucket inside
    · exact ih lower right bucket inside

def path (pair : Hash → Hash → Hash) (empty value : Hash) (bucket : Nat) : Nat → Hash
  | 0 => value
  | height + 1 =>
    if bucket / 2 ^ height % 2 = 0 then
      pair (path pair empty value bucket height) (defaultNode pair empty height)
    else pair (defaultNode pair empty height) (path pair empty value bucket height)

theorem node_single {value : Hash} {bucket : Nat} (height index : Nat) :
    node pair (fun place => if place = bucket then value else empty) height index =
      if index = bucket / 2 ^ height then path pair empty value bucket height
      else defaultNode pair empty height := by
  induction height generalizing index with
  | zero => simp [node, path, defaultNode]
  | succ height ih =>
    have half : bucket / 2 ^ (height + 1) = bucket / 2 ^ height / 2 := by
      rw [Nat.pow_succ, Nat.div_div_eq_div_mul]
    rw [node, ih, ih, half, path, defaultNode]
    generalize bucket / 2 ^ height = place
    by_cases even : place % 2 = 0
    · by_cases above : index = place / 2
      · have left : 2 * index = place := by omega
        have right : ¬ 2 * index + 1 = place := by omega
        rw [if_pos left, if_neg right, if_pos above, if_pos even]
      · have left : ¬ 2 * index = place := by omega
        have right : ¬ 2 * index + 1 = place := by omega
        rw [if_neg left, if_neg right, if_neg above]
    · by_cases above : index = place / 2
      · have left : ¬ 2 * index = place := by omega
        have right : 2 * index + 1 = place := by omega
        rw [if_neg left, if_pos right, if_pos above, if_neg even]
      · have left : ¬ 2 * index = place := by omega
        have right : ¬ 2 * index + 1 = place := by omega
        rw [if_neg left, if_neg right, if_neg above]

end Nodes

/-- The parents of the nodes of one height, each hashed from its children; a child that is not
given is read. -/
def parentLevel (pair : Hash → Hash → Hash) (read : Nat → Hash) (children : OrderedMap Nat Hash) :
    OrderedMap Nat Hash :=
  let parents := (children.entries.map fun child => child.1 / 2).dedup
  parents.foldl (fun level parent =>
    level.insert parent
      (pair ((children.lookup (2 * parent)).getD (read (2 * parent)))
        ((children.lookup (2 * parent + 1)).getD (read (2 * parent + 1))))) {}

section Parents

variable {pair : Hash → Hash → Hash} {read hash : Nat → Hash} {children : OrderedMap Nat Hash}
  {touched : Nat → Prop} [DecidablePred touched]

theorem lookup_foldl_insert_of {value : Nat → Hash} (keys : List Nat) (map : OrderedMap Nat Hash)
    (key : Nat) :
    (keys.foldl (fun map key => map.insert key (value key)) map).lookup key =
      if key ∈ keys then some (value key) else map.lookup key := by
  induction keys generalizing map with
  | nil => simp
  | cons first keys ih =>
    rw [List.foldl_cons, ih, OrderedMap.lookup_insert]
    by_cases later : key ∈ keys
    · simp [later]
    · by_cases here : key = first
      · simp [here]
      · simp [later, here]

theorem lookup_parentLevel
    (given : ∀ index, children.lookup index = if touched index then some (hash index) else none)
    (unread : ∀ index, ¬ touched index → read index = hash index) (parent : Nat) :
    (parentLevel pair read children).lookup parent =
      if touched (2 * parent) ∨ touched (2 * parent + 1) then
        some (pair (hash (2 * parent)) (hash (2 * parent + 1))) else none := by
  have child : ∀ index, (children.lookup index).getD (read index) = hash index := by
    intro index
    rw [given]
    by_cases inside : touched index
    · simp [inside]
    · simp [inside, unread index inside]
  have listed : parent ∈ (children.entries.map fun child => child.1 / 2).dedup ↔
      touched (2 * parent) ∨ touched (2 * parent + 1) := by
    rw [List.mem_dedup, List.mem_map]
    constructor
    · rintro ⟨⟨index, value⟩, member, half⟩
      have found := OrderedMap.lookup_eq_some.mpr member
      rw [given] at found
      have inside : touched index := by
        by_contra outside
        rw [if_neg outside] at found
        cases found
      have place : index = 2 * parent ∨ index = 2 * parent + 1 := by
        simp only at half
        omega
      rcases place with rfl | rfl
      · exact .inl inside
      · exact .inr inside
    · have entry : ∀ index, touched index → index / 2 = parent →
          ∃ child ∈ children.entries, child.1 / 2 = parent := by
        intro index inside half
        refine ⟨(index, hash index), OrderedMap.lookup_eq_some.mp ?_, half⟩
        rw [given, if_pos inside]
      rintro (inside | inside)
      · exact entry _ inside (by omega)
      · exact entry _ inside (by omega)
  have empty : ({} : OrderedMap Nat Hash).lookup parent = none := rfl
  simp only [parentLevel, child]
  rw [@lookup_foldl_insert_of _ fun parent => pair (hash (2 * parent)) (hash (2 * parent + 1)), empty]
  by_cases inside : touched (2 * parent) ∨ touched (2 * parent + 1)
  · rw [if_pos (listed.mpr inside), if_pos inside]
  · rw [if_neg (listed.not.mpr inside), if_neg inside]

end Parents

end MerkleTree

end TorusHyperBft
