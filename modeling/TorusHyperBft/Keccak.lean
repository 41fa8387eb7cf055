import TorusHyperBft.Bytes

namespace TorusHyperBft

/-! Keccak-256: the sponge with the original padding over the 1600-bit permutation. -/

namespace Keccak

/-- The five lanes of one row, each a number below `2 ^ 64`. -/
structure Plane where
  lane0 : Nat
  lane1 : Nat
  lane2 : Nat
  lane3 : Nat
  lane4 : Nat

structure Lanes where
  plane0 : Plane
  plane1 : Plane
  plane2 : Plane
  plane3 : Plane
  plane4 : Plane

namespace Plane

def zero : Plane := ⟨0, 0, 0, 0, 0⟩

def xor (left right : Plane) : Plane :=
  ⟨Nat.xor left.lane0 right.lane0, Nat.xor left.lane1 right.lane1,
    Nat.xor left.lane2 right.lane2, Nat.xor left.lane3 right.lane3,
    Nat.xor left.lane4 right.lane4⟩

def rotateLane (word amount : Nat) : Nat :=
  Nat.lor (Nat.mod (Nat.shiftLeft word amount) 0x10000000000000000)
    (Nat.shiftRight word (Nat.sub 64 amount))

def rotate (plane amounts : Plane) : Plane :=
  ⟨rotateLane plane.lane0 amounts.lane0, rotateLane plane.lane1 amounts.lane1,
    rotateLane plane.lane2 amounts.lane2, rotateLane plane.lane3 amounts.lane3,
    rotateLane plane.lane4 amounts.lane4⟩

def andNot (word masked : Nat) : Nat := Nat.land (Nat.xor word 0xffffffffffffffff) masked

def chi (plane : Plane) : Plane :=
  ⟨Nat.xor plane.lane0 (andNot plane.lane1 plane.lane2),
    Nat.xor plane.lane1 (andNot plane.lane2 plane.lane3),
    Nat.xor plane.lane2 (andNot plane.lane3 plane.lane4),
    Nat.xor plane.lane3 (andNot plane.lane4 plane.lane0),
    Nat.xor plane.lane4 (andNot plane.lane0 plane.lane1)⟩

end Plane

namespace Lanes

def zero : Lanes := ⟨.zero, .zero, .zero, .zero, .zero⟩

def theta (lanes : Lanes) : Lanes :=
  let parity :=
    (((lanes.plane0.xor lanes.plane1).xor lanes.plane2).xor lanes.plane3).xor lanes.plane4
  let before : Plane := ⟨parity.lane4, parity.lane0, parity.lane1, parity.lane2, parity.lane3⟩
  let after : Plane := ⟨parity.lane1, parity.lane2, parity.lane3, parity.lane4, parity.lane0⟩
  let change := before.xor (after.rotate ⟨1, 1, 1, 1, 1⟩)
  ⟨lanes.plane0.xor change, lanes.plane1.xor change, lanes.plane2.xor change,
    lanes.plane3.xor change, lanes.plane4.xor change⟩

def rho (lanes : Lanes) : Lanes :=
  ⟨lanes.plane0.rotate ⟨0, 1, 62, 28, 27⟩, lanes.plane1.rotate ⟨36, 44, 6, 55, 20⟩,
    lanes.plane2.rotate ⟨3, 10, 43, 25, 39⟩, lanes.plane3.rotate ⟨41, 45, 15, 21, 8⟩,
    lanes.plane4.rotate ⟨18, 2, 61, 56, 14⟩⟩

def pi (lanes : Lanes) : Lanes :=
  let ⟨p, q, r, s, t⟩ := lanes
  ⟨⟨p.lane0, q.lane1, r.lane2, s.lane3, t.lane4⟩,
    ⟨p.lane3, q.lane4, r.lane0, s.lane1, t.lane2⟩,
    ⟨p.lane1, q.lane2, r.lane3, s.lane4, t.lane0⟩,
    ⟨p.lane4, q.lane0, r.lane1, s.lane2, t.lane3⟩,
    ⟨p.lane2, q.lane3, r.lane4, s.lane0, t.lane1⟩⟩

def chi (lanes : Lanes) : Lanes :=
  ⟨lanes.plane0.chi, lanes.plane1.chi, lanes.plane2.chi, lanes.plane3.chi, lanes.plane4.chi⟩

def iota (constant : Nat) (lanes : Lanes) : Lanes :=
  { lanes with plane0 := lanes.plane0.xor ⟨constant, 0, 0, 0, 0⟩ }

def roundConstants : List Nat :=
  [0x0000000000000001, 0x0000000000008082, 0x800000000000808a, 0x8000000080008000,
    0x000000000000808b, 0x0000000080000001, 0x8000000080008081, 0x8000000000008009,
    0x000000000000008a, 0x0000000000000088, 0x0000000080008009, 0x000000008000000a,
    0x000000008000808b, 0x800000000000008b, 0x8000000000008089, 0x8000000000008003,
    0x8000000000008002, 0x8000000000000080, 0x000000000000800a, 0x800000008000000a,
    0x8000000080008081, 0x8000000000008080, 0x0000000080000001, 0x8000000080008008]

def permute (lanes : Lanes) : Lanes :=
  roundConstants.foldl (fun lanes constant => iota constant (lanes.theta.rho.pi.chi)) lanes

end Lanes

def littleEndian : List Byte → Nat
  | [] => 0
  | byte :: rest => byte.val + 256 * littleEndian rest

def littleEndianBytes : Nat → Nat → List Byte
  | 0, _ => []
  | width + 1, value =>
    ⟨value % 256, Nat.mod_lt _ (by decide)⟩ :: littleEndianBytes width (value / 256)

def rate : Nat := 136

def blockLane (block : List Byte) (index : Nat) : Nat :=
  littleEndian ((block.drop (8 * index)).take 8)

def blockPlane (block : List Byte) (first : Nat) : Plane :=
  ⟨blockLane block first, blockLane block (first + 1), blockLane block (first + 2),
    blockLane block (first + 3), blockLane block (first + 4)⟩

def absorb (lanes : Lanes) (block : List Byte) : Lanes :=
  Lanes.permute
    ⟨lanes.plane0.xor (blockPlane block 0), lanes.plane1.xor (blockPlane block 5),
      lanes.plane2.xor (blockPlane block 10), lanes.plane3.xor (blockPlane block 15),
      lanes.plane4.xor (blockPlane block 20)⟩

/-- Between the first and the last bit of the padding stand the zeros that fill the block. -/
def padding (length : Nat) : List Byte :=
  let free := rate - length % rate
  if free = 1 then [0x81] else 0x01 :: (List.replicate (free - 2) 0 ++ [0x80])

def blocks : Nat → List Byte → List (List Byte)
  | 0, _ => []
  | count + 1, bytes => bytes.take rate :: blocks count (bytes.drop rate)

def bigEndian (bytes : List Byte) : Nat :=
  bytes.foldl (fun value byte => value * 256 + byte.val) 0

end Keccak

open Keccak in
/-- The digest, as the number its 32 bytes spell with the most significant first. -/
def keccak256 (bytes : List Byte) : BitVec 256 :=
  let padded := bytes ++ padding bytes.length
  let lanes := (blocks (padded.length / rate) padded).foldl absorb .zero
  let squeezed :=
    [lanes.plane0.lane0, lanes.plane0.lane1, lanes.plane0.lane2, lanes.plane0.lane3]
  BitVec.ofNat 256 (bigEndian (squeezed.flatMap (littleEndianBytes 8)))

example : keccak256 [97, 98, 99] =
    0x4e03657aea45a94fc7d47ba826c8d667c0d1e6e33a64a036ec44f58fa12d6c45#256 := by
  decide +kernel

end TorusHyperBft
