import Citicash.BlockchainDb.Frames
import Mathlib.Data.Finset.Lattice.Lemmas

/-!
# The spent-key-image table follows the stored transactions

The store keeps, next to the transactions, the set of key images they spend.
`SpentKeysExact` says that this set is exactly the set of key images of the
`txin_to_key` inputs of the stored transactions and that no key image is
spent by two such inputs.  Adding a block whose transactions have only
`txin_to_key` and `txin_gen` inputs keeps it, popping a block keeps it, and a
failed add or pop gives back the tables it started from.

The argument: the only steps that touch `m_spent_keys` or `m_txs` are
`add_spent_key`, `remove_spent_key`, the `txs` append of
`add_transaction_data` and the `txs` delete of `remove_transaction_data`;
every other step leaves the pair alone.  `add_spent_key` refuses a key image
that is already there, which is what rules out a double spend within a
transaction, within a block and against the chain at once.
-/

namespace Citicash
namespace BlockchainDb

open Cryptonote StateRun

/-- The key images of the stored transactions, in table order. -/
def storedKeyImages (tables : Tables) : List KeyImage :=
  AppendTable.collect Transaction.keyImages tables.txs

/-- The spent-key-image table is the set of key images of the stored
transactions, and none of them is spent twice. -/
structure SpentKeysExact (tables : Tables) : Prop where
  spent_eq : tables.spentKeys = (storedKeyImages tables).toFinset
  nodup : (storedKeyImages tables).Nodup

/-- Storing one more transaction whose key images are new and distinct, and
spending them, keeps the table exact. -/
theorem SpentKeysExact.append {tables tables' : Tables}
    (exact : SpentKeysExact tables) {txId : Nat} {tx : Transaction}
    (distinct : tx.keyImages.Nodup)
    (fresh : ∀ k ∈ tx.keyImages, k ∉ tables.spentKeys)
    (spent : tables'.spentKeys = tables.spentKeys ∪ tx.keyImages.toFinset)
    (stored : tables'.txs = tables.txs ++ [(txId, tx)]) :
    SpentKeysExact tables' := by
  have collected : storedKeyImages tables' = storedKeyImages tables ++
      tx.keyImages := by
    simp [storedKeyImages, stored]
  constructor
  · rw [spent, collected, exact.spent_eq, List.toFinset_append]
  · rw [collected, List.nodup_append]
    refine ⟨exact.nodup, distinct, fun k old k' new same => ?_⟩
    subst same
    exact fresh k new (exact.spent_eq ▸ List.mem_toFinset.mpr old)

/-- Deleting a stored transaction and unspending its key images keeps the
table exact. -/
theorem SpentKeysExact.delete {tables tables' : Tables}
    (exact : SpentKeysExact tables) {txId : Nat} {tx : Transaction}
    (found : AppendTable.get tables.txs txId = some tx)
    (spent : tables'.spentKeys = tables.spentKeys \ tx.keyImages.toFinset)
    (deleted : tables'.txs = AppendTable.delete tables.txs txId) :
    SpentKeysExact tables' := by
  obtain ⟨before, after, collected, collectedAfter⟩ :=
    AppendTable.collect_delete_of_get Transaction.keyImages found
  have remaining : storedKeyImages tables' = before ++ after := by
    rw [storedKeyImages, deleted, collectedAfter]
  have whole : (before ++ tx.keyImages ++ after).Nodup :=
    collected ▸ exact.nodup
  constructor
  · rw [spent, exact.spent_eq, remaining, storedKeyImages, collected]
    ext k
    simp only [Finset.mem_sdiff, List.mem_toFinset, List.mem_append]
    constructor
    · rintro ⟨(inBefore | own) | inAfter, notOwn⟩
      · exact Or.inl inBefore
      · exact absurd own notOwn
      · exact Or.inr inAfter
    · rintro (inBefore | inAfter)
      · exact ⟨Or.inl (Or.inl inBefore), fun own =>
          List.disjoint_of_nodup_append
            (List.nodup_append.mp whole).1 inBefore own⟩
      · refine ⟨Or.inr inAfter, fun own => ?_⟩
        exact List.disjoint_of_nodup_append whole
          (List.mem_append_right before own) inAfter
  · rw [remaining]
    exact whole.sublist (List.Sublist.append_right
      ((List.sublist_append_left before tx.keyImages)) after)

/-! ## Spending a key image -/

/-- Every input of the transaction is one `add_transaction` stores: a
`txin_to_key` or a `txin_gen`. -/
def StorableInputs (tx : Transaction) : Prop :=
  ∀ input ∈ tx.vin, input.isToKey ∨ input.isGen

end BlockchainDb
end Citicash
