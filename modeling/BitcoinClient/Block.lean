import BitcoinClient.Hash

/-!
# Headers, contents and blocks

`block.rs`: a `Header` (parent, nonce, difficulty, timestamp, Merkle root), whose hash is
SHA-256 of `Header.preimage`; a `Content`, the transactions of a block in order; and a
`Block`, whose `hash` is its header's hash when `Block::new` builds it. `change_nonce` adds
one to the nonce, wrapping at `2^32`, which `UInt32` addition does.

The difficulty target of the genesis block comes from `helper::gen_difficulty_array`, not
among the sources; `genDifficultyArray` follows the spec's construction.
-/

namespace BitcoinClient

/-- `n` as `w` big-endian bytes: `to_be_bytes` of a `u32` (`w = 4`) or a `u64` (`w = 8`). -/
def toBeBytes : Nat → Nat → List UInt8
  | 0, _ => []
  | w + 1, n => toBeBytes w (n / 256) ++ [UInt8.ofNat n]

/-- Modelled from the spec: `helper::gen_difficulty_array` is not among the sources. The
target `2^(256 − n)` cut to 32 bytes: `n / 8` zero bytes, then `0xFF >> (n mod 8)`, then
`0xFF` bytes. -/
def genDifficultyArray (n : Nat) : H256 :=
  ⟨(List.range 32).map fun i =>
      if i < n / 8 then 0 else if i = n / 8 then 0xFF >>> UInt8.ofNat (n % 8) else 0xFF,
    by simp⟩

@[ext] structure Header where
  parent : H256
  nonce : UInt32
  difficulty : H256
  timestamp : UInt64
  merkleRoot : H256
  deriving DecidableEq

structure Content (Tx : Type) where
  trans : List Tx
  deriving DecidableEq

structure Block (Tx : Type) where
  /-- The hash of the header. -/
  hash : H256
  /-- The distance from the genesis block. -/
  index : Nat
  header : Header
  content : Content Tx
  deriving DecidableEq

variable {Tx : Type} (E : Env Tx)

namespace Header

/-- `Header::new`: the timestamp, milliseconds in a `u128`, is cast `as u64`. -/
def new (parent : H256) (nonce : UInt32) (timestamp : Nat) (difficulty merkleRoot : H256) :
    Header :=
  { parent, nonce, difficulty, timestamp := UInt64.ofNat timestamp, merkleRoot }

/-- What `Header::hash` feeds to SHA-256: the parent, the nonce as 4 big-endian bytes, the
difficulty, the timestamp as 8 big-endian bytes, the Merkle root. -/
def preimage (h : Header) : List UInt8 :=
  h.parent.bytes ++ toBeBytes 4 h.nonce.toNat ++ h.difficulty.bytes ++
    toBeBytes 8 h.timestamp.toNat ++ h.merkleRoot.bytes

def hash (h : Header) : H256 := E.sha256 h.preimage

def changeNonce (h : Header) : Header := { h with nonce := h.nonce + 1 }

@[simp] theorem new_parent (p : H256) (n : UInt32) (t : Nat) (d r : H256) :
    (new p n t d r).parent = p := rfl
@[simp] theorem new_nonce (p : H256) (n : UInt32) (t : Nat) (d r : H256) :
    (new p n t d r).nonce = n := rfl
@[simp] theorem new_difficulty (p : H256) (n : UInt32) (t : Nat) (d r : H256) :
    (new p n t d r).difficulty = d := rfl
@[simp] theorem new_merkleRoot (p : H256) (n : UInt32) (t : Nat) (d r : H256) :
    (new p n t d r).merkleRoot = r := rfl

@[simp] theorem changeNonce_nonce (h : Header) : h.changeNonce.nonce = h.nonce + 1 := rfl

end Header

namespace Content

def new : Content Tx := ⟨[]⟩

def newWithTrans (trans : List Tx) : Content Tx := ⟨trans⟩

def addTran (c : Content Tx) (tran : Tx) : Content Tx := ⟨c.trans ++ [tran]⟩

def merkleRoot (c : Content Tx) : H256 := E.merkleRoot c.trans

/-- The stored `hash` field of every transaction, in order. -/
def getTransHashes (c : Content Tx) : List H256 := c.trans.map E.storedHash

@[simp] theorem newWithTrans_trans (trans : List Tx) : (newWithTrans trans).trans = trans := rfl

end Content

namespace Block

/-- The genesis block: zero hash, index 0, a zero header but for the target of
bit-width `DIFFICULTY`, and no transactions. -/
def genesis : Block Tx :=
  { hash := .zero, index := 0, content := .new,
    header := { parent := .zero, nonce := 0, difficulty := genDifficultyArray E.difficulty,
                timestamp := 0, merkleRoot := .zero } }

def new (header : Header) (content : Content Tx) : Block Tx :=
  { hash := header.hash E, index := 0, header, content }

/-- `validate_trans`: every transaction passes `sign_check()`; the loop returns `false` at
the first that fails. -/
def validateTrans (b : Block Tx) : Bool := b.content.trans.all E.signCheck

@[simp] theorem new_hash (h : Header) (c : Content Tx) : (new E h c).hash = h.hash E := rfl
@[simp] theorem new_header (h : Header) (c : Content Tx) : (new E h c).header = h := rfl
@[simp] theorem new_content (h : Header) (c : Content Tx) : (new E h c).content = c := rfl

end Block

end BitcoinClient
