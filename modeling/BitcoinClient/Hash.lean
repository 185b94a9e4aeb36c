import Mathlib.Data.List.Basic

/-!
# Hashes, and what the miner core consumes

`H256` is a 32-byte digest (`crypto::hash::H256`, not among the sources). The spec orders
it as a 256-bit big-endian unsigned integer; `lexLt` compares the bytes from the first,
which on byte strings of one length is that order (`H256.lt_iff_fromBeBytes_lt`).

`Env` gathers what the core uses and does not define: SHA-256 (`ring::digest`), the
`hash()`, the stored `hash` field and `sign_check()` of a `SignedTransaction`, the root
of a `MerkleTree`, and the constants of `config.rs`. Every result of the development is
stated for every `Env`.
-/

namespace BitcoinClient

/-- Modelled from the spec: a 32-byte digest, `crypto::hash::H256`, not among the sources. -/
structure H256 where
  bytes : List UInt8
  length_bytes : bytes.length = 32
  deriving DecidableEq

/-- Modelled from the spec: the order of `H256`, comparing the digests as 256-bit big-endian
unsigned integers, computed byte by byte from the first. -/
def lexLt : List UInt8 → List UInt8 → Bool
  | [], [] => false
  | [], _ :: _ => true
  | _ :: _, [] => false
  | a :: as, b :: bs => a < b || (a = b && lexLt as bs)

namespace H256

instance : LT H256 := ⟨fun a b => lexLt a.bytes b.bytes = true⟩

instance (a b : H256) : Decidable (a < b) :=
  inferInstanceAs (Decidable (lexLt a.bytes b.bytes = true))

/-- The all-zero hash: the genesis block's hash, and every field of its header but the
difficulty. -/
def zero : H256 := ⟨List.replicate 32 0, rfl⟩

end H256

/-- What the core takes from outside `src/`. -/
structure Env (Tx : Type) where
  /-- SHA-256 of a byte string. -/
  sha256 : List UInt8 → H256
  /-- `SignedTransaction::hash()`, the key a transaction is stored under. -/
  hash : Tx → H256
  /-- The `hash` field of a `SignedTransaction`, which `Content::get_trans_hashes` reads. -/
  storedHash : Tx → H256
  /-- `SignedTransaction::sign_check()`. -/
  signCheck : Tx → Bool
  /-- `MerkleTree::new(trans).root()`. -/
  merkleRoot : List Tx → H256
  /-- `POOL_SIZE_LIMIT`. -/
  poolSizeLimit : Nat
  /-- `BLOCK_SIZE_LIMIT`. -/
  blockSizeLimit : Nat
  /-- `MINING_STEP`, the probes of one burst. -/
  miningStep : UInt32
  /-- `DIFFICULTY`, the bit-width of the genesis target. -/
  difficulty : Nat

/-- A digest whose first byte is `n`, the others zero. -/
def H256.ofByte (n : Nat) : H256 := ⟨UInt8.ofNat n :: List.replicate 31 0, rfl⟩

/-- A computable environment for concrete runs: transactions are numbers, each hashed to
its low byte and signed; a header's digest is one byte, one more than the sum of the first
bytes of its parent and of its Merkle root; the easiest target, which every such digest
meets. -/
def sampleEnv : Env Nat where
  sha256 bs := .ofByte ((bs.getD 0 0).toNat + (bs.getD 76 0).toNat + 1)
  hash t := .ofByte t
  storedHash t := .ofByte t
  signCheck _ := true
  merkleRoot ts := .ofByte ts.length
  poolSizeLimit := 4
  blockSizeLimit := 2
  miningStep := 8
  difficulty := 0

end BitcoinClient
