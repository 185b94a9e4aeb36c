import BitcoinClient.Block
import Mathlib.Data.List.Nodup
import Mathlib.Algebra.Group.Nat.Basic

/-!
# `mining_base`: one burst of nonce probes

`mining_base` probes at most `MINING_STEP` nonces, from the header's own, one after
another and wrapping at `2^32`, and stops at the first whose header hash is below the
target. `miningLoop_eq` says so with `List.find?`: the loop returns at the least offset
that meets the target, or after all of them. `miningBase_spec` spells this out, with the
nonce the header is left at, and adds that the nonces hashed (`probedNonces`) are
distinct: `MINING_STEP` is a `u32`, so a burst never wraps around to a nonce it has
already probed.
-/

namespace BitcoinClient

variable {Tx : Type} (E : Env Tx)

theorem toNat_uint32_ofNat (a : Nat) : (UInt32.ofNat a).toNat = a % 2 ^ 32 := by
  simp [UInt32.ofNat, UInt32.toNat, BitVec.toNat_ofNat]

theorem toNat_uint32_add (x y : UInt32) : (x + y).toNat = (x.toNat + y.toNat) % 2 ^ 32 := rfl

theorem uint32_ofNat_add (x y : UInt32) : UInt32.ofNat (x.toNat + y.toNat) = x + y :=
  UInt32.toNat.inj (by rw [toNat_uint32_ofNat, toNat_uint32_add])

namespace Header

/-- `h` with its nonce moved on by `k`, wrapping at `2^32`. -/
def shift (h : Header) (k : Nat) : Header := { h with nonce := UInt32.ofNat (h.nonce.toNat + k) }

theorem shift_zero (h : Header) : h.shift 0 = h :=
  Header.ext rfl (UInt32.toNat.inj (by
    simp [shift, toNat_uint32_ofNat, Nat.mod_eq_of_lt h.nonce.toNat_lt_size])) rfl rfl rfl

theorem shift_changeNonce (h : Header) (k : Nat) : h.changeNonce.shift k = h.shift (k + 1) := by
  refine Header.ext rfl (UInt32.toNat.inj ?_) rfl rfl rfl
  simp only [shift, changeNonce, toNat_uint32_ofNat, toNat_uint32_add]
  have : (1 : UInt32).toNat = 1 := rfl
  omega

theorem shift_nonce_inj (h : Header) {i j : Nat} (hi : i < 2 ^ 32) (hj : j < 2 ^ 32)
    (e : (h.shift i).nonce = (h.shift j).nonce) : i = j := by
  have := congrArg UInt32.toNat e
  simp only [shift, toNat_uint32_ofNat] at this
  omega

end Header

/-- The loop of `mining_base`, with `n` iterations left. -/
def miningLoop (difficulty : H256) : Nat → Header → Bool × Header
  | 0, header => (false, header)
  | n + 1, header =>
    if header.hash E < difficulty then (true, header)
    else miningLoop difficulty n header.changeNonce

def miningBase (header : Header) (difficulty : H256) : Bool × Header :=
  miningLoop E difficulty E.miningStep.toNat header

/-- The nonces the loop hashes, in order, with `n` iterations left. -/
def probedNonces (difficulty : H256) : Nat → Header → List UInt32
  | 0, _ => []
  | n + 1, header =>
    header.nonce ::
      if header.hash E < difficulty then [] else probedNonces difficulty n header.changeNonce

/-- The loop stops at the least offset whose header meets the target, or after all `n`. -/
theorem miningLoop_eq (d : H256) : ∀ (n : Nat) (h : Header),
    miningLoop E d n h =
      match (List.range n).find? (fun j => decide ((h.shift j).hash E < d)) with
      | some j => (true, h.shift j)
      | none => (false, h.shift n)
  | 0, h => by simp [miningLoop, h.shift_zero]
  | n + 1, h => by
    have hp : ((fun j => decide ((h.shift j).hash E < d)) ∘ Nat.succ) =
        fun j => decide ((h.changeNonce.shift j).hash E < d) := by
      funext j; simp [Header.shift_changeNonce]
    rw [List.range_succ_eq_map, List.find?_cons, List.find?_map, hp, miningLoop, h.shift_zero]
    by_cases hk : h.hash E < d
    · simp [hk, h.shift_zero]
    · rw [if_neg hk, miningLoop_eq d n h.changeNonce]
      simp only [hk, decide_False]
      cases (List.range n).find? (fun j => decide ((h.changeNonce.shift j).hash E < d)) <;>
        simp [Header.shift_changeNonce]

/-- The nonces hashed are the first of those from the header's own. -/
theorem probedNonces_initial (d : H256) : ∀ (n : Nat) (h : Header),
    probedNonces E d n h <+: (List.range n).map fun j => (h.shift j).nonce
  | 0, _ => List.nil_prefix
  | n + 1, h => by
    have hr : ((List.range (n + 1)).map fun j => (h.shift j).nonce) =
        h.nonce :: (List.range n).map fun j => (h.changeNonce.shift j).nonce := by
      simp [List.range_succ_eq_map, h.shift_zero, Header.shift_changeNonce]
    rw [hr, probedNonces, List.prefix_cons_inj]
    split
    · exact List.nil_prefix
    · exact probedNonces_initial d n h.changeNonce

/-- A successful `mining_base` leaves the header at the least offset that meets the
target. -/
theorem miningBase_true {h : Header} {d : H256} (hb : (miningBase E h d).1 = true) :
    ∃ k < E.miningStep.toNat, (miningBase E h d).2 = h.shift k ∧ (h.shift k).hash E < d := by
  rw [miningBase, miningLoop_eq] at hb ⊢
  split at hb
  · rename_i k hk
    obtain ⟨hd, hr, -⟩ := List.find?_range_eq_some.1 hk
    exact ⟨k, List.mem_range.1 hr, rfl, of_decide_eq_true hd⟩
  · cases hb

/-- A failed `mining_base` leaves the header `MINING_STEP` nonces on. -/
theorem miningBase_false {h : Header} {d : H256} (hb : (miningBase E h d).1 = false) :
    (miningBase E h d).2 = h.shift E.miningStep.toNat := by
  rw [miningBase, miningLoop_eq] at hb ⊢
  split at hb
  · cases hb
  · rfl

/-- `mining_base(h, d)` returns true iff some offset `k < MINING_STEP` gives a header hash
below `d`. It leaves the header at the least such offset, or at offset `MINING_STEP` when
none is; only the nonce changes. No nonce is hashed twice. -/
theorem miningBase_spec (h : Header) (d : H256) :
    ((miningBase E h d).1 = true ↔ ∃ k < E.miningStep.toNat, (h.shift k).hash E < d) ∧
    ((miningBase E h d).1 = true → ∃ k < E.miningStep.toNat, (miningBase E h d).2 = h.shift k ∧
      (h.shift k).hash E < d ∧ ∀ j < k, ¬ (h.shift j).hash E < d) ∧
    ((miningBase E h d).1 = false → (miningBase E h d).2 = h.shift E.miningStep.toNat) ∧
    (probedNonces E d E.miningStep.toNat h).Nodup := by
  have hS := E.miningStep.toNat_lt_size
  have hn : (probedNonces E d E.miningStep.toNat h).Nodup :=
    ((List.nodup_range _).map_on fun _ hi _ hj e => h.shift_nonce_inj
      ((List.mem_range.1 hi).trans hS) ((List.mem_range.1 hj).trans hS) e).sublist
      (probedNonces_initial E d _ h).sublist
  rw [miningBase, miningLoop_eq]
  split
  · rename_i k hk
    obtain ⟨hd, hr, hl⟩ := List.find?_range_eq_some.1 hk
    have hk : k < E.miningStep.toNat := List.mem_range.1 hr
    exact ⟨iff_of_true rfl ⟨k, hk, of_decide_eq_true hd⟩,
      fun _ => ⟨k, hk, rfl, of_decide_eq_true hd, fun j hj => by simpa using hl j hj⟩, nofun, hn⟩
  · rename_i hk
    exact ⟨iff_of_false nofun (by simpa using List.find?_eq_none.1 hk), nofun, fun _ => rfl, hn⟩

/-- Probing changes only the nonce. -/
theorem miningBase_parent (h : Header) (d : H256) : (miningBase E h d).2.parent = h.parent := by
  rw [miningBase, miningLoop_eq]
  split <;> rfl

end BitcoinClient
