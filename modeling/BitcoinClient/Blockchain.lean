import BitcoinClient.Block
import Mathlib.Data.List.AList

/-!
# The blockchain the miner consumes

`blockchain.rs` is not among the sources; `Blockchain` follows the contract of the spec
(§4.4): a content-addressed store of blocks, the tip (the first-seen block of greatest
length from genesis), the chain-wide difficulty, and the switch of `set_check_trans`.
`insert` places a block under its parent, one further from genesis, and moves the tip to
it when it is longer; `insertWithCheck` makes the spec's checks first and changes nothing
when one fails. Both keep the tip a stored block (`tip_mem_insert`,
`tip_mem_insertWithCheck`); `insert` under a stored parent adds exactly the block's hash
(`mem_insert_iff`), and a block on the tip becomes the tip (`insert_tip`).
-/

namespace BitcoinClient

/-- Modelled from the spec: `Blockchain` of `blockchain.rs`, not among the sources. -/
structure Blockchain (Tx : Type) where
  blocks : AList (fun _ : H256 => Block Tx)
  tip : H256
  difficulty : H256
  checkTrans : Bool

variable {Tx : Type} (E : Env Tx)

namespace Blockchain

/-- Modelled from the spec: `Blockchain::new`, the genesis block alone. -/
def new : Blockchain Tx :=
  { blocks := AList.singleton (Block.genesis E).hash (Block.genesis E),
    tip := (Block.genesis E).hash, difficulty := (Block.genesis E).header.difficulty,
    checkTrans := true }

def getBlock (c : Blockchain Tx) (hash : H256) : Option (Block Tx) := c.blocks.lookup hash

/-- Modelled from the spec: the number of blocks from genesis to the tip. -/
def length (c : Blockchain Tx) : Nat :=
  match c.getBlock c.tip with
  | some b => b.index + 1
  | none => 0

/-- Modelled from the spec: `insert`, unchecked. The block is stored with
`index = parent.index + 1`, and becomes the tip when it is longer than the tip (a tie keeps
the block seen first). The spec calls `insert` unconditional, and also keeps every block but
genesis on a known parent (§3); a block whose parent is unknown has no index under that
invariant, and is dropped. The miner inserts only blocks on the tip, which is stored. -/
def insert (c : Blockchain Tx) (block : Block Tx) : Blockchain Tx :=
  match c.getBlock block.header.parent with
  | none => c
  | some parent =>
    let block := { block with index := parent.index + 1 }
    { c with blocks := c.blocks.insert block.hash block,
             tip := if c.length < block.index + 1 then block.hash else c.tip }

/-- Modelled from the spec: `insert_with_check`. The parent is known, the transactions are
signed when `check_trans` is set, the hash is the header's and below the header's
difficulty, which is the chain's; otherwise nothing changes. -/
def insertWithCheck (c : Blockchain Tx) (block : Block Tx) : Bool × Blockchain Tx :=
  if (c.getBlock block.header.parent).isSome ∧ (c.checkTrans → block.validateTrans E = true) ∧
      block.hash = block.header.hash E ∧ block.hash < block.header.difficulty ∧
      block.header.difficulty = c.difficulty
  then (true, c.insert block) else (false, c)

/-! ## The tip is a stored block -/

theorem tip_mem_new : (new E).tip ∈ (new E).blocks := by
  simp [new, AList.mem_keys, AList.keys_singleton]

theorem tip_mem_insert {c : Blockchain Tx} (h : c.tip ∈ c.blocks) (block : Block Tx) :
    (c.insert block).tip ∈ (c.insert block).blocks := by
  unfold insert
  split
  · exact h
  · dsimp only
    rw [AList.mem_insert]
    split_ifs
    exacts [.inl rfl, .inr h]

theorem tip_mem_insertWithCheck {c : Blockchain Tx} (h : c.tip ∈ c.blocks) (block : Block Tx) :
    (c.insertWithCheck E block).2.tip ∈ (c.insertWithCheck E block).2.blocks := by
  unfold insertWithCheck
  split_ifs
  exacts [tip_mem_insert h block, h]

/-! ## What `insert` stores -/

/-- Under a stored parent, `insert` adds the block's hash to the keys, and only it. -/
theorem mem_insert_iff {c : Blockchain Tx} {block : Block Tx} (h : block.header.parent ∈ c.blocks)
    {k : H256} : k ∈ (c.insert block).blocks ↔ k = block.hash ∨ k ∈ c.blocks := by
  obtain ⟨b, hb⟩ := Option.isSome_iff_exists.1 (AList.lookup_isSome.2 h)
  rw [insert, getBlock, hb]
  exact AList.mem_insert _

/-- A block on the tip is one longer, and becomes the tip. -/
theorem insert_tip {c : Blockchain Tx} (h : c.tip ∈ c.blocks) {block : Block Tx}
    (hp : block.header.parent = c.tip) : (c.insert block).tip = block.hash := by
  obtain ⟨b, hb⟩ := Option.isSome_iff_exists.1 (AList.lookup_isSome.2 h)
  rw [insert, getBlock, hp, hb]
  simp [length, getBlock, hb]

end Blockchain

end BitcoinClient
