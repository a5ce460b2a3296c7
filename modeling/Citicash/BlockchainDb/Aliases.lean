import Citicash.BlockchainDb.BlockchainDb
import Citicash.Common.Base58

/-!
# The alias table and its cache

CitiCash keeps registered aliases twice: in the `aliases` table, inside the
write transactions, and in the in-memory cache `m_aliases_multi_index`,
which `load_aliases` fills from the table when the store opens and which
block and pool validation read through `get_alias_address`.

`add_transaction_data` writes a registration into both.  When a later step
of the same `add_block` throws, `BlockchainLMDB::add_block` aborts the write
transaction, so the table loses the row, while the cache keeps the entry.
`duplicateAliasBlock` is a block on which this happens: its two transactions
register the same alias, the second put is refused with `MDB_NOOVERWRITE`,
and afterwards the cache answers for an alias that no stored transaction
registers and that `load_aliases` would not load.

`add_transaction_data` registers an alias without looking at it, while
`remove_transaction_data` drops it only when the address decodes, parses and
signs the alias.  A miner transaction carrying an alias for a text that is no
address, which no check before `add_block` looks at, leaves its alias behind
when `pop_block` removes the block (`popBlock_after_addBlock_keeps_alias`).
-/

namespace Citicash
namespace BlockchainDb

open Cryptonote StateRun

/-! ## Rebuilding the cache -/

/-- `std::isspace` in the C locale. -/
def isSpace (c : UInt8) : Bool :=
  c = 32 || (9 ≤ c && c ≤ 13)

/-- An ASCII decimal digit. -/
def isDigit (c : UInt8) : Bool :=
  48 ≤ c && c ≤ 57

/-- The value of a string of decimal digits. -/
def digitsValue (digits : Bytes) : Nat :=
  digits.foldl (fun value digit => 10 * value + (digit - 48).toNat) 0

/-- `std::stoull` in base 10: white space, an optional sign, then at least
one digit; `none` is the exception it throws, for no digits
(`invalid_argument`) or a value past `2^64 - 1` (`out_of_range`).  A minus
sign negates modulo `2^64`, as `strtoull` does. -/
def stoull (s : Bytes) : Option Nat :=
  let rest := s.dropWhile isSpace
  let (negative, unsigned) := match rest with
    | 45 :: tail => (true, tail)
    | 43 :: tail => (false, tail)
    | _ => (false, rest)
  let digits := unsigned.takeWhile isDigit
  if digits.isEmpty then none
  else if 2 ^ 64 ≤ digitsValue digits then none
  else some
         (if negative then (2 ^ 64 - digitsValue digits) % 2 ^ 64
            else digitsValue digits)

/-- The length of an address, which `load_aliases` takes as the last bytes
of a row's value. -/
def addressLength : Nat := 98

/-- `load_aliases`: every row's value is read as the height in decimal
followed by a 98-byte address, and inserted under the row's key unless the
key is already cached.  `none` where the C++ reads out of bounds (a value
shorter than an address) or `stoull` throws. -/
def loadAliases (rows : List (Bytes × Bytes)) :
    Option (AList fun _ : Bytes => Nat × Bytes) :=
  rows.foldlM (fun cache (key, value) => do
      if value.length < addressLength then none
      let heightLength := value.length - addressLength
      let height ← stoull (value.take heightLength)
      pure (if key ∈ cache then cache
              else cache.insert key (height, value.drop heightLength)))
    ∅

/-- The rows of the alias table, in the order `MDB_NEXT` visits them. -/
def aliasRows (aliases : AList fun _ : Bytes => Bytes) : List (Bytes × Bytes) :=
  aliases.entries.map fun row => (row.1, row.2)

example : stoull [32, 49, 50, 120] = some 12 := by decide

/-! ## What an aborted `add_block` does to the cache -/

/-- An `extra` registering the alias `a` for the address `x`, with the
signature byte `signature`. -/
def aliasRegistrationExtra (signature : UInt8) : Bytes :=
  [txExtraNonce, 2, txExtraNonceAlias, 97,
   txExtraNonce, 2, txExtraNonceAddress, 120,
   txExtraNonce, 2, txExtraNonceSignature, signature]

/-- A genesis block whose two transactions register the same alias. -/
def duplicateAliasBlock : Block :=
  { (default : Block) with
    minerTx := { (default : Transaction) with vin := [.txinGen ⟨0⟩] }
    txHashes := [fillKey 1, fillKey 2] }

def duplicateAliasTxs : List Transaction :=
  [{ (default : Transaction) with extra := aliasRegistrationExtra 115 },
   { (default : Transaction) with extra := aliasRegistrationExtra 116 }]

/-- Adding `duplicateAliasBlock` to a new store throws; afterwards the
table, rolled back, holds no row for `a` and `load_aliases` would load
nothing, while the cache still maps `a` to height 0 and address `x`. -/
theorem addBlock_duplicate_alias_cache_diverges :
    ∃ e db', addBlock fixedHashEnv duplicateAliasBlock 0 0 0 duplicateAliasTxs
        BlockchainLmdb.empty = .error e db' ∧
      db'.tables.aliases.lookup [97] = none ∧
      loadAliases (aliasRows db'.tables.aliases) = some ∅ ∧
      db'.aliasesMultiIndex.lookup [97] = some (0, [120]) :=
  ⟨_, _, rfl, rfl, rfl, rfl⟩

/-! ## An alias that `pop_block` keeps -/

/-- A store whose hashes tell apart the blocks and transactions of the run
below by the length of their `extra`, and whose `decode_addr` is the base58
decoder (the checksum hash is never reached on the address below). -/
def aliasRunEnv : DbEnv :=
  { fixedHashEnv with
    getTransactionHash := fun tx => fillKey (UInt8.ofNat tx.extra.length)
    getBlockHash :=
      fun blk => fillKey (UInt8.ofNat (100 + blk.minerTx.extra.length))
    decodeAddr := fun addr =>
      Base58.decodeAddr (fun _ => nullHash)
        (addr.map fun c => Char.ofNat c.toNat) }

-- `decode_addr` refuses the text `x` whatever `cn_fast_hash` is: one
-- character is no base58 block
example (cnFastHash : List UInt8 → Hash) :
    Base58.decodeAddr cnFastHash ['x'] = none := rfl

/-- The block at height 1 of a miner who writes into the `extra` of its
miner transaction, of version 2 as `construct_miner_tx` writes it, the alias
`a` for the text `x`, which is no base58 address. -/
def aliasMinerBlock : Block :=
  { (default : Block) with
    prevId := fillKey 100
    minerTx :=
      { (default : Transaction) with
        version := 2
        vin := [.txinGen ⟨1⟩]
        vout := [⟨5, .txoutToKey (fillKey 5)⟩]
        extra := aliasRegistrationExtra 115 } }

/-- On a store holding a genesis block, `add_block` of `aliasMinerBlock`
registers `a` (the registration checks nothing), and the `pop_block` that
follows returns the block but keeps the row and the cache entry: removal
first decodes the address, which fails. -/
theorem popBlock_after_addBlock_keeps_alias :
    let genesis : Block :=
      { (default : Block) with
        minerTx := { (default : Transaction) with vin := [.txinGen ⟨0⟩] } }
    let start :=
      finalState (addBlock aliasRunEnv genesis 0 0 0 [] BlockchainLmdb.empty)
    ∃ added popped, addBlock aliasRunEnv aliasMinerBlock 0 0 0 []
      start = .ok 2 added ∧
      popBlock aliasRunEnv added = .ok (aliasMinerBlock, []) popped ∧
      start.height = 1 ∧ popped.height = 1 ∧
      start.tables.aliases.lookup [97] = none ∧
      start.aliasesMultiIndex.lookup [97] = none ∧
      popped.tables.aliases.lookup [97] ≠ none ∧
        popped.aliasesMultiIndex.lookup [97] = some (1, [120]) :=
  ⟨_, _, rfl, rfl, rfl, rfl, rfl, rfl, by decide, rfl⟩

end BlockchainDb
end Citicash
